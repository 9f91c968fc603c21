import MipsElfExec.Download.Parse

/-! Every field of the response head is read from the bytes before the first CR
behind it: text after the CRLF of a line never changes what the line says. -/
namespace MipsElfExec.Download
open CString

theorem dropWhileStops {p : Byte → Bool} {l t : Bytes} (cr : (13 : Byte) ∈ l) (stop : p 13 = false) :
    (l ++ t).dropWhile p = l.dropWhile p ++ t ∧ (13 : Byte) ∈ l.dropWhile p := by
  induction l with
  | nil => simp at cr
  | cons b l ih =>
    cases keep : p b with
    | false => simp only [List.cons_append,List.dropWhile_cons,keep]; exact ⟨rfl,cr⟩
    | true =>
      have rest : (13 : Byte) ∈ l := by
        rcases List.mem_cons.mp cr with same | mem
        · rw [same,keep] at stop
          contradiction
        · exact mem
      simpa [keep] using ih rest

theorem takeWhileStops {p : Byte → Bool} {l t : Bytes} (cr : (13 : Byte) ∈ l) (stop : p 13 = false) :
    (l ++ t).takeWhile p = l.takeWhile p := by
  induction l with
  | nil => simp at cr
  | cons b l ih =>
    cases keep : p b with
    | false => simp [keep]
    | true =>
      have rest : (13 : Byte) ∈ l := by
        rcases List.mem_cons.mp cr with same | mem
        · rw [same,keep] at stop
          contradiction
        · exact mem
      simpa [keep] using ih rest

theorem headStops {l : Bytes} (t : Bytes) (cr : (13 : Byte) ∈ l) : (l ++ t).head? = l.head? := by
  cases l with
  | nil => simp at cr
  | cons b l => rfl

theorem dropOneStops {l : Bytes} (t : Bytes) (cr : (13 : Byte) ∈ l) {c : Byte} (first : l.head? = some c)
    (other : c ≠ 13) : (l ++ t).drop 1 = l.drop 1 ++ t ∧ (13 : Byte) ∈ l.drop 1 := by
  cases l with
  | nil => simp at cr
  | cons b l =>
    cases Option.some.inj first
    refine ⟨rfl,?_⟩
    rcases List.mem_cons.mp cr with same | mem
    · exact (other same.symm).elim
    · exact mem

theorem prefixStops {pat l : Bytes} (t : Bytes) (cr : (13 : Byte) ∈ l) (clean : (13 : Byte) ∉ pat) :
    pat.isPrefixOf (l ++ t) = pat.isPrefixOf l := by
  induction pat generalizing l with
  | nil => simp
  | cons c pat ih =>
    cases l with
    | nil => simp at cr
    | cons b l =>
      rcases List.mem_cons.mp cr with same | mem
      · have differ : (c == b) = false := by
          rw [← same,beq_eq_false_iff_ne]
          rintro rfl
          exact clean List.mem_cons_self
        simp [List.isPrefixOf,differ]
      · have tail := ih mem (fun inside => clean (List.mem_cons_of_mem _ inside))
        simp [List.isPrefixOf,tail]

theorem codeStops {l t : Bytes} {start n} (cr : (13 : Byte) ∈ l) (size : start + l.length = n + 2) :
    parseStatusCode (l ++ t) start n = parseStatusCode l start n := by
  match l,cr,size with
  | [],cr,_ => simp at cr
  | [a],cr,_ =>
    have : a = 13 := (List.mem_singleton.mp cr).symm
    subst this
    match t with
    | [] => rfl
    | [_] => rfl
    | b :: c :: t => simp [parseStatusCode,isdigit]
  | [a,b],cr,_ =>
    match t with
    | [] => rfl
    | c :: t =>
      have stop : (isdigit a && isdigit b) = false := by
        rcases List.mem_cons.mp cr with same | mem
        · simp [← same,isdigit]
        · have : b = 13 := (List.mem_singleton.mp mem).symm
          simp [this,isdigit]
      simp [parseStatusCode,stop]
  | a :: b :: c :: p,cr,size =>
    simp only [List.cons_append,parseStatusCode]
    split
    · rename_i digits
      have rest : (13 : Byte) ∈ p := by
        simp only [List.mem_cons] at cr
        rcases cr with same | same | same | mem
        · simp [← same,isdigit] at digits
        · simp [← same,isdigit] at digits
        · simp [← same,isdigit] at digits
        · exact mem
      rw [headStops t rest]
      split
      · rfl
      · rename_i space
        have space : p.head? = some 32 := by simpa using space
        rw [(dropOneStops t rest space (by decide)).1,List.take_append_of_le_length]
        simp only [List.length_cons,List.length_drop] at size ⊢
        omega
    · rfl

theorem statusStops {l t : Bytes} {n} (cr : (13 : Byte) ∈ l) (size : l.length = n + 2) :
    parseStatusLine (l ++ t) n = parseStatusLine l n := by
  unfold parseStatusLine
  rw [prefixStops t cr (by decide)]
  split
  · rfl
  · rename_i http
    have http : ascii "HTTP/" <+: l := by
      rw [Decidable.not_not] at http
      exact List.isPrefixOf_iff_prefix.mp http
    obtain ⟨major,same⟩ := http
    subst same
    have five : (ascii "HTTP/").length = 5 := by decide
    have major5 : (ascii "HTTP/" ++ major).drop 5 = major := by rw [← five]; simp
    have major5' : (ascii "HTTP/" ++ major ++ t).drop 5 = major ++ t := by
      rw [List.append_assoc,← five]; simp
    have cr : (13 : Byte) ∈ major := by
      rcases List.mem_append.mp cr with bad | mem
      · exact (by decide : (13 : Byte) ∉ ascii "HTTP/") bad |>.elim
      · exact mem
    simp only [major5,major5']
    obtain ⟨cut,cr'⟩ := dropWhileStops (p := isdigit) (t := t) cr (by decide)
    simp only [cut,headStops t cr',List.append_left_inj]
    split
    · rfl
    · rename_i dot
      push Not at dot
      obtain ⟨cut,cr⟩ := dropOneStops t cr' dot.1 (by decide)
      simp only [cut]
      have short : ((major.dropWhile isdigit).drop 1).length ≤ major.length :=
        (List.drop_suffix 1 _).length_le.trans (List.dropWhile_suffix _).length_le
      generalize List.drop 1 _ = minor at cr short ⊢
      obtain ⟨cut,cr'⟩ := dropWhileStops (p := isdigit) (t := t) cr (by decide)
      simp only [cut,headStops t cr',List.append_left_inj,List.length_append]
      split
      · congr 1
        omega
      · rename_i space
        push Not at space
        obtain ⟨cut,cr⟩ := dropOneStops t cr' space.1 (by decide)
        have shorter : ((minor.dropWhile isdigit).drop 1).length ≤ minor.length :=
          (List.drop_suffix 1 _).length_le.trans (List.dropWhile_suffix _).length_le
        rw [cut,List.length_append,Nat.add_sub_add_right]
        generalize List.drop 1 _ = code at cr shorter ⊢
        simp only [List.length_append] at size
        exact codeStops cr (by omega)

theorem numberStops {l : Bytes} (t : Bytes) (cr : (13 : Byte) ∈ l) : number (l ++ t) = number l := by
  unfold number
  rw [takeWhileStops cr (by decide)]

theorem longNumStops {l : Bytes} (t : Bytes) (cr : (13 : Byte) ∈ l) :
    httpDlHeaderExtractLongNum (l ++ t) = httpDlHeaderExtractLongNum l := by
  unfold httpDlHeaderExtractLongNum
  obtain ⟨cut,cr'⟩ := dropWhileStops (p := isdigit) (t := t) cr (by decide)
  rw [cut,headStops t cr',numberStops t cr]

theorem lowerClean {name : Bytes} (all : (name.map tolower).all (fun c => c != 13) = true) : ∀ c ∈ name,tolower c ≠ 13 := by
  intro c mem same
  have other := List.all_eq_true.mp all (tolower c) (List.mem_map_of_mem mem)
  rw [same] at other
  cases other

theorem caseStops (pat : Bytes) {l : Bytes} (t : Bytes) (cr : (13 : Byte) ∈ l) (clean : ∀ c ∈ pat,tolower c ≠ 13) :
    httpDlStrncasecmp (l ++ t) pat = httpDlStrncasecmp l pat ∧
    (httpDlStrncasecmp l pat = true → (l ++ t).drop pat.length = l.drop pat.length ++ t ∧
      (13 : Byte) ∈ l.drop pat.length) := by
  induction pat generalizing l with
  | nil => simpa [httpDlStrncasecmp] using cr
  | cons c pat ih =>
    cases l with
    | nil => simp at cr
    | cons b l =>
      rcases List.mem_cons.mp cr with same | mem
      · have differ : (tolower b == tolower c) = false := by
          rw [← same,beq_eq_false_iff_ne]
          exact fun h => clean c List.mem_cons_self h.symm
        simp [httpDlStrncasecmp,differ]
      · obtain ⟨tail,cut⟩ := ih mem (fun d inside => clean d (List.mem_cons_of_mem _ inside))
        simp only [List.cons_append,httpDlStrncasecmp,tail,List.length_cons,List.drop_succ_cons,Bool.and_eq_true]
        exact ⟨trivial,fun h => cut h.2⟩

theorem digitStops {l : Bytes} (t : Bytes) (cr : (13 : Byte) ∈ l) : startsDigit (l ++ t) = startsDigit l := by
  unfold startsDigit
  rw [headStops t cr]

theorem rangeStops {l : Bytes} (t : Bytes) (cr : (13 : Byte) ∈ l) :
    httpDlHeaderParseRange (l ++ t) = httpDlHeaderParseRange l := by
  have unit : ∃ m : Bytes, (13 : Byte) ∈ m ∧
      (if httpDlStrncasecmp l (ascii "bytes") then (l.drop 5).dropWhile isLws else l) = m ∧
      (if httpDlStrncasecmp (l ++ t) (ascii "bytes") then ((l ++ t).drop 5).dropWhile isLws else l ++ t) = m ++ t := by
    obtain ⟨same,cut⟩ := caseStops (ascii "bytes") t cr (lowerClean (by decide))
    rw [same]
    cases bytes : httpDlStrncasecmp l (ascii "bytes") with
    | false => exact ⟨l,cr,rfl,rfl⟩
    | true =>
      obtain ⟨cut,cr⟩ := cut bytes
      have five : (ascii "bytes").length = 5 := by decide
      rw [five] at cut cr
      obtain ⟨skip,cr⟩ := dropWhileStops (p := isLws) (t := t) cr (by decide)
      exact ⟨_,cr,rfl,by rw [cut,skip]; rfl⟩
  obtain ⟨m,cr,left,right⟩ := unit
  unfold httpDlHeaderParseRange
  simp only [left,right,digitStops t cr]
  split
  · rfl
  · obtain ⟨cut,cr'⟩ := dropWhileStops (p := isdigit) (t := t) cr (by decide)
    rw [cut,headStops t cr',numberStops t cr]
    generalize m.dropWhile isdigit = p at cr' ⊢
    cases dash : decide (p.head? = some 45) with
    | false => simp [of_decide_eq_false dash]
    | true =>
      obtain ⟨cut,cr⟩ := dropOneStops t cr' (of_decide_eq_true dash) (by decide)
      rw [cut,digitStops t cr,numberStops t cr]
      generalize p.drop 1 = q at cr ⊢
      split
      · rfl
      · obtain ⟨cut,cr'⟩ := dropWhileStops (p := isdigit) (t := t) cr (by decide)
        rw [cut,headStops t cr']
        generalize q.dropWhile isdigit = q at cr' ⊢
        cases slash : decide (q.head? = some 47) with
        | false => simp [of_decide_eq_false slash]
        | true =>
          obtain ⟨cut,cr⟩ := dropOneStops t cr' (of_decide_eq_true slash) (by decide)
          rw [cut,digitStops t cr,numberStops t cr]

theorem matchStops {name l : Bytes} (t : Bytes) (cr : (13 : Byte) ∈ l) (clean : ∀ c ∈ name,tolower c ≠ 13) :
    matchName name (l ++ t) = (matchName name l).map (· ++ t) ∧
    ∀ rest,matchName name l = some rest → (13 : Byte) ∈ rest := by
  induction name generalizing l with
  | nil => simpa [matchName] using cr
  | cons c name ih =>
    cases l with
    | nil => simp at cr
    | cons b l =>
      simp only [List.cons_append,matchName]
      split
      · rename_i same
        have mem : (13 : Byte) ∈ l := by
          rcases List.mem_cons.mp cr with bad | mem
          · rw [← bad] at same
            exact (clean c List.mem_cons_self same).elim
          · exact mem
        exact ih mem (fun d inside => clean d (List.mem_cons_of_mem _ inside))
      · simp

theorem processStops {α : Type} (name : Bytes) {l : Bytes} (t : Bytes) (cr : (13 : Byte) ∈ l)
    (clean : ∀ c ∈ name,tolower c ≠ 13) {procfun : Bytes → Option α}
    (stops : ∀ m : Bytes,(13 : Byte) ∈ m → procfun (m ++ t) = procfun m) :
    httpDlHeaderProcess (l ++ t) name procfun = httpDlHeaderProcess l name procfun := by
  obtain ⟨same,keep⟩ := matchStops t cr clean
  unfold httpDlHeaderProcess
  rw [same]
  cases found : matchName name l with
  | none => rfl
  | some rest =>
    have cr := keep rest found
    match rest,cr with
    | [],cr => simp at cr
    | b :: rest,cr =>
      cases colon : decide (b = 58) with
      | false =>
        have other : b ≠ 58 := of_decide_eq_false colon
        simp [other]
      | true =>
        have same : b = 58 := of_decide_eq_true colon
        subst same
        have cr : (13 : Byte) ∈ rest := by simpa using cr
        obtain ⟨skip,cr⟩ := dropWhileStops (p := isLws) (t := t) cr (by decide)
        simp [skip,stops _ cr]

theorem notfoundStops {α : Type} (name : Bytes) {l : Bytes} (t : Bytes) (cr : (13 : Byte) ∈ l)
    (clean : ∀ c ∈ name,tolower c ≠ 13) (procfun : Bytes → Option α) :
    httpDlHeaderProcess (l ++ t) name procfun = .notfound ↔ httpDlHeaderProcess l name procfun = .notfound := by
  have named (header : Bytes) : httpDlHeaderProcess header name procfun = .notfound ↔
      httpDlHeaderProcess header name (fun _ => some ()) = .notfound := by
    unfold httpDlHeaderProcess
    split
    · split <;> simp
    · simp
  rw [named,named,processStops name t cr clean fun _ _ => rfl]

theorem lineStops {l : Bytes} (info : Info) (t : Bytes) (cr : (13 : Byte) ∈ l) :
    httpDlHeaderLine info (l ++ t) = httpDlHeaderLine info l := by
  have length := processStops (ascii "Content-Length") t cr (lowerClean (by decide)) fun m cr => longNumStops t cr
  have range := processStops (ascii "Content-Range") t cr (lowerClean (by decide)) fun m cr => rangeStops t cr
  have type := notfoundStops (ascii "Content-Type") t cr (lowerClean (by decide)) httpDlHeaderDupStrToBuf
  have accept := notfoundStops (ascii "Accept-Ranges") t cr (lowerClean (by decide)) httpDlHeaderDupStrToBuf
  unfold httpDlHeaderLine
  rw [length,range]
  split
  · rfl
  · rfl
  · generalize httpDlHeaderProcess (l ++ t) (ascii "Content-Type") httpDlHeaderDupStrToBuf = a at type ⊢
    generalize httpDlHeaderProcess l (ascii "Content-Type") httpDlHeaderDupStrToBuf = b at type ⊢
    generalize httpDlHeaderProcess (l ++ t) (ascii "Accept-Ranges") httpDlHeaderDupStrToBuf = c at accept ⊢
    generalize httpDlHeaderProcess l (ascii "Accept-Ranges") httpDlHeaderDupStrToBuf = d at accept ⊢
    cases a <;> cases b <;> simp at type ⊢
    cases c <;> cases d <;> simp at accept ⊢

end MipsElfExec.Download
