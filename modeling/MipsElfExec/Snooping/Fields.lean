import MipsElfExec.Download.Resume
import MipsElfExec.Snooping.Mime

/-! The header fields of a request and of a response: the code looks for the text of a field name
anywhere in what it has received; a header line has the name at its start. -/
namespace MipsElfExec.Snooping
open CString Download

section seek
variable {pat s : Bytes}

def seek (pat s : Bytes) : Option Bytes := (search pat s).map fun n => s.drop (n + pat.length)

theorem seekShort {r : Bytes} (found : seek pat s = some r) : r.length + pat.length ≤ s.length := by
  obtain ⟨n,here,rfl⟩ := Option.map_eq_some_iff.mp found
  have bound := searchBound here
  rw [List.length_drop]
  omega

theorem seekSplit {c : Byte} (some_ : pat ≠ []) (clean : c ∉ pat) (s t : Bytes) :
    seek pat (s ++ c :: t) = ((seek pat s).map (· ++ c :: t)).or (seek pat t) := by
  unfold seek
  rw [searchSplit some_ clean]
  cases here : search pat s with
  | some n =>
    rw [Option.some_or,Option.map_some,Option.map_some,Option.map_some,Option.some_or,
      List.drop_append_of_le_length (searchBound here)]
  | none =>
    rw [Option.none_or,Option.map_none,Option.map_none,Option.none_or]
    cases search pat t with
    | none => rfl
    | some m =>
      have size : m + (s.length + 1) + pat.length = s.length + (m + pat.length + 1) := by omega
      rw [Option.map_some,Option.map_some,Option.map_some,size,List.drop_length_add_append,List.drop_succ_cons]

theorem seekNothing (some_ : pat ≠ []) : seek pat [] = none := by
  unfold seek search
  rw [if_neg some_]
  rfl

theorem seekLine (some_ : pat ≠ []) (cr : (13 : Byte) ∉ pat) (lf : (10 : Byte) ∉ pat) (line rest : Bytes) :
    seek pat (line ++ crlf ++ rest) = ((seek pat line).map (· ++ crlf ++ rest)).or (seek pat rest) := by
  have inner := seekSplit some_ lf [] rest
  rw [seekNothing some_,Option.map_none,Option.none_or,List.nil_append] at inner
  have outer := seekSplit some_ cr line (10 :: rest)
  rw [inner] at outer
  rw [List.append_assoc]
  refine outer.trans ?_
  congr 2
  exact funext fun r => (List.append_assoc r crlf rest).symm

end seek

section field
variable {name line body : Bytes} {lines : List Bytes}

def blank (b : Byte) : Bool := b == 32 || b == 9

def isField (name line : Bytes) : Bool := (name ++ [58]).isPrefixOf line

def fieldBody (name line : Bytes) : Bytes := (line.drop (name.length + 1)).dropWhile blank

def fieldValue (name : Bytes) (lines : List Bytes) : Option Bytes := (lines.find? (isField name)).map (fieldBody name)

def fieldAt (name body : Bytes) : List Bytes → Option Bytes
  | [] => none
  | line :: lines => if isField name line then some (fieldBody name line ++ crlf ++ headLines lines body) else fieldAt name body lines

def fieldText (name : Bytes) : Bytes := name ++ [58,32]

def Sole (name body : Bytes) : List Bytes → Prop
  | [] => search (fieldText name) body = none
  | line :: lines =>
    if isField name line then (line.drop (name.length + 1)).takeWhile blank = [32]
    else search (fieldText name) line = none ∧ Sole name body lines

theorem fieldAtShort {s : Bytes} (found : fieldAt name body lines = some s) : s.length ≤ (headLines lines body).length := by
  induction lines with
  | nil => cases found
  | cons line lines ih =>
    unfold fieldAt at found
    unfold headLines
    split at found
    · cases Option.some.inj found
      have value : (fieldBody name line).length ≤ line.length :=
        (List.dropWhile_sublist _).length_le.trans (by rw [List.length_drop]; omega)
      simp only [List.length_append]
      omega
    · have rest := ih found
      simp only [List.length_append]
      omega

theorem searchHere (pat rest : Bytes) : search pat (pat ++ rest) = some 0 := by
  cases pat with
  | nil => cases rest <;> rfl
  | cons c pat =>
    have here : (c :: pat).isPrefixOf (c :: (pat ++ rest)) = true :=
      List.isPrefixOf_iff_prefix.mpr (List.prefix_append (c :: pat) rest)
    rw [List.cons_append,search,if_pos here]

theorem oneBlank (here : isField name line = true) :
    seek (fieldText name) line = some (fieldBody name line) ↔ (line.drop (name.length + 1)).takeWhile blank = [32] := by
  obtain ⟨w,rfl⟩ := List.isPrefixOf_iff_prefix.mp here
  have drop : (name ++ [58] ++ w).drop (name.length + 1) = w := by
    rw [← List.length_singleton (a := (58 : Byte)),← List.length_append,List.drop_left]
  have whole : w.takeWhile blank ++ w.dropWhile blank = w := List.takeWhile_append_dropWhile
  unfold fieldBody
  rw [drop]
  constructor
  · intro found
    obtain ⟨n,here,rest⟩ := Option.map_eq_some_iff.mp found
    have split := searchFound here
    rw [rest] at split
    generalize (name ++ [58] ++ w).take n = front at split
    have blanks : front ++ name ++ [58] ++ [32] = name ++ [58] ++ w.takeWhile blank := by
      refine @List.append_cancel_right _ _ (w.dropWhile blank) _ ?_
      rw [List.append_assoc (name ++ [58]),whole,split]
      simp [fieldText]
    have colon : (58 : Byte) ∉ w.takeWhile blank := fun mem => by cases List.mem_takeWhile_imp mem
    generalize w.takeWhile blank = tail at blanks colon
    cases tail using List.reverseRecOn with
    | nil =>
      rw [List.append_nil] at blanks
      have last := (List.append_inj' blanks rfl).2
      cases last
    | append_singleton tail b =>
      rw [← List.append_assoc] at blanks
      obtain ⟨before,last⟩ := List.append_inj' blanks rfl
      cases last
      cases tail using List.reverseRecOn with
      | nil => rfl
      | append_singleton tail c =>
        rw [← List.append_assoc] at before
        cases (List.append_inj' before rfl).2
        exact absurd (by simp) colon
  · intro one
    rw [one] at whole
    have here : name ++ [58] ++ w = fieldText name ++ w.dropWhile blank :=
      calc name ++ [58] ++ w = name ++ [58] ++ ([32] ++ w.dropWhile blank) := by rw [whole]
        _ = fieldText name ++ w.dropWhile blank := by simp [fieldText]
    unfold seek
    rw [here,searchHere,Option.map_some,Nat.zero_add,List.drop_left]

theorem seekSkip (cr : (13 : Byte) ∉ name) (lf : (10 : Byte) ∉ name) (body line : Bytes) (lines : List Bytes) :
    seek (fieldText name) (line ++ crlf ++ headLines lines body) = fieldAt name body lines ↔
      search (fieldText name) line = none ∧ seek (fieldText name) (headLines lines body) = fieldAt name body lines := by
  rw [seekLine (by simp [fieldText]) (by simp [fieldText,cr]) (by simp [fieldText,lf])]
  cases found : seek (fieldText name) line with
  | some r =>
    refine iff_of_false (fun same => ?_) fun sole => ?_
    · have short := fieldAtShort same.symm
      simp only [List.length_append,show crlf.length = 2 from rfl] at short
      omega
    · unfold seek at found
      rw [sole.1] at found
      cases found
  | none => exact (and_iff_right (Option.map_eq_none_iff.mp found)).symm

theorem seekField (cr : (13 : Byte) ∉ name) (lf : (10 : Byte) ∉ name) (body : Bytes) (lines : List Bytes) :
    seek (fieldText name) (headLines lines body) = fieldAt name body lines ↔ Sole name body lines := by
  have some_ : fieldText name ≠ [] := by simp [fieldText]
  induction lines with
  | nil =>
    have beyond := seekLine some_ (by simp [fieldText,cr]) (by simp [fieldText,lf]) [] body
    rw [seekNothing some_,Option.map_none,Option.none_or,List.nil_append] at beyond
    unfold headLines fieldAt Sole
    rw [beyond]
    exact Option.map_eq_none_iff
  | cons line lines ih =>
    unfold headLines fieldAt Sole
    split
    · rename_i here
      rw [seekLine some_ (by simp [fieldText,cr]) (by simp [fieldText,lf]),← oneBlank here]
      cases found : seek (fieldText name) line with
      | some r => simp
      | none =>
        refine iff_of_false (fun same => ?_) (Option.some_ne_none _).symm
        have short := seekShort same
        simp only [List.length_append] at short
        have text := List.length_pos_of_ne_nil some_
        omega
    · exact (seekSkip cr lf body line lines).trans (and_congr_right fun _ => ih)

theorem startField (cr : (13 : Byte) ∉ name) (lf : (10 : Byte) ∉ name) (start body : Bytes) (lines : List Bytes) :
    seek (fieldText name) (headLines (start :: lines) body) = fieldAt name body lines ↔
      search (fieldText name) start = none ∧ Sole name body lines :=
  (seekSkip cr lf body start lines).trans (and_congr_right fun _ => seekField cr lf body lines)

theorem searchLineEnd {pat : Bytes} (lf : (10 : Byte) ∉ pat) (plain : (10 : Byte) ∉ line) (rest : Bytes) :
    (search (pat ++ crlf) (line ++ crlf ++ rest)).isSome = true ↔ pat <:+ line ∨ (search (pat ++ crlf) rest).isSome = true := by
  have broken : (line ++ crlf).getLast? = some 10 := by simp [crlf]
  have clean : (10 : Byte) ∉ (pat ++ crlf).dropLast := by
    rw [List.dropLast_append_of_ne_nil (show crlf ≠ [] by decide)]
    simp [crlf,lf]
  cases found : search (pat ++ crlf) (line ++ crlf) with
  | some n =>
    refine iff_of_true (by rw [searchExtends found]; rfl) (Or.inl ?_)
    have split := searchFound found
    generalize (line ++ crlf).take n = front at split
    generalize (line ++ crlf).drop (n + (pat ++ crlf).length) = back at split
    cases back using List.reverseRecOn with
    | nil =>
      rw [List.append_nil,← List.append_assoc] at split
      exact ⟨front,(List.append_cancel_right split).symm⟩
    | append_singleton back b =>
      have same : line ++ [13] ++ [10] = front ++ (pat ++ crlf) ++ back ++ [b] := by
        rw [List.append_assoc,List.append_assoc _ back]
        exact split
      have before := (List.append_inj' same rfl).1
      have inside : (10 : Byte) ∈ line ++ [13] := by rw [before]; simp [crlf]
      simp [plain] at inside
  | none =>
    rw [searchBeyond broken clean found,Option.isSome_map]
    refine (or_iff_right fun ends => ?_).symm
    obtain ⟨front,rfl⟩ := ends
    have inside : pat ++ crlf <:+: front ++ pat ++ crlf := ⟨front,[],by simp⟩
    exact Option.isSome_iff_ne_none.mp (searchInfix inside) found

theorem searchLineEnds {pat : Bytes} (some_ : pat ≠ []) (lf : (10 : Byte) ∉ pat) (plain : ∀ line ∈ lines,Clean line)
    (body : Bytes) : (search (pat ++ crlf) (headLines lines body)).isSome = true ↔
      (∃ line ∈ lines,pat <:+ line) ∨ (search (pat ++ crlf) body).isSome = true := by
  induction lines with
  | nil =>
    refine (@searchLineEnd [] pat lf List.not_mem_nil body).trans (or_congr (iff_of_false ?_ ?_) Iff.rfl)
    · exact fun ends => some_ (List.suffix_nil.mp ends)
    · exact fun ⟨_,mem,_⟩ => List.not_mem_nil mem
  | cons line lines ih =>
    have rest := ih fun l mem => plain l (List.mem_cons_of_mem _ mem)
    refine (searchLineEnd lf (plain line List.mem_cons_self).2.1 _).trans ?_
    rw [rest,List.exists_mem_cons_iff,or_assoc]

end field

section request

def hostName : Bytes := ascii "Host"
def contentLengthName : Bytes := ascii "Content-Length"
def contentTypeName : Bytes := ascii "Content-Type"
def contentEncodingName : Bytes := ascii "Content-Encoding"
def transferEncodingName : Bytes := ascii "Transfer-Encoding"

def methodWord : Method → Bytes
  | .get => ascii "GET "
  | .post => ascii "POST "
  | .put => ascii "PUT "
  | .head => ascii "HEAD "
  | .none => []

structure RequestText where
  method : Method
  known : method ≠ .none
  target : Bytes
  version : Bytes
  lines : List Bytes
  body : Bytes
  plain : ∀ line ∈ target :: version :: lines,Clean line
  unbroken : (32 : Byte) ∉ target
  short : target.length < httpSpUrlLenMax
  some_ : ∀ line ∈ lines,line ≠ []

def RequestText.text (r : RequestText) : Bytes :=
  methodWord r.method ++ r.target ++ [32] ++ headLines (r.version :: r.lines) r.body

def lengthOf : Option Bytes → LengthField
  | none => .missing
  | some v =>
    if 10 < v.length then .bad
    else
      match ngxAtoi v with
      | some n => .value n
      | none => .bad

def RequestText.seen (r : RequestText) : Bytes :=
  methodWord r.method ++ (r.target ++ 32 :: headLines (r.version :: r.lines) (cstr r.body))

def behindField (name : Bytes) : List Bytes → Option (List Bytes × List Bytes)
  | [] => none
  | line :: lines => if isField name line then some ([],lines) else (behindField name lines).map fun p => (line :: p.1,p.2)

structure RequestFields (r : RequestText) : Prop where
  host : seek httpHost (headLines (r.version :: r.lines) (cstr r.body)) = fieldAt hostName (cstr r.body) r.lines
  server : requestServer (cstr r.text) = fieldValue hostName r.lines
  length : ∀ head ∈ requestHead (cstr r.text),r.method ≠ .get →
    seek httpContentLen head.rest = fieldAt contentLengthName (cstr r.body) r.lines ∧
    requestLength head.rest = lengthOf (fieldValue contentLengthName r.lines)

structure RequestSole (r : RequestText) : Prop where
  version : search httpHost r.version = none
  host : Sole hostName (cstr r.body) r.lines
  length : ∀ p ∈ behindField hostName r.lines,r.method ≠ .get →
    (∀ line ∈ p.1,isField contentLengthName line = false) ∧ Sole contentLengthName (cstr r.body) p.2

section lines
variable {name body : Bytes} {lines front rest : List Bytes}

theorem headNoNul (clean : ∀ line ∈ lines,Clean line) (body : Bytes) : (0 : Byte) ∉ headLines lines (cstr body) := by
  induction lines with
  | nil =>
    unfold headLines
    simp [crlf,cstrNoNul]
  | cons line lines ih =>
    have here := (clean line List.mem_cons_self).2.2
    have later := ih fun l mem => clean l (List.mem_cons_of_mem _ mem)
    unfold headLines
    simp [crlf,here,later]

theorem headCstr (clean : ∀ line ∈ lines,Clean line) (body : Bytes) :
    cstr (headLines lines body) = headLines lines (cstr body) := by
  induction lines with
  | nil =>
    unfold headLines
    rw [cstrAppend,if_neg (by decide)]
  | cons line lines ih =>
    have here := (clean line List.mem_cons_self).2.2
    unfold headLines
    rw [cstrAppend,if_neg (by simp [crlf,here]),ih fun l mem => clean l (List.mem_cons_of_mem _ mem)]

theorem bodyClean {line : Bytes} (clean : Clean line) (name : Bytes) : Clean (fieldBody name line) := by
  have sub : (fieldBody name line).Sublist line := (List.dropWhile_sublist _).trans (List.drop_sublist _ _)
  exact ⟨fun mem => clean.1 (sub.mem mem),fun mem => clean.2.1 (sub.mem mem),fun mem => clean.2.2 (sub.mem mem)⟩

theorem fieldBehind (name body : Bytes) (lines : List Bytes) :
    match behindField name lines with
    | none => fieldAt name body lines = none ∧ fieldValue name lines = none
    | some p => ∃ line,lines = p.1 ++ line :: p.2 ∧ isField name line = true ∧
        fieldAt name body lines = some (fieldBody name line ++ crlf ++ headLines p.2 body) ∧
        fieldValue name lines = some (fieldBody name line) := by
  induction lines with
  | nil => exact ⟨rfl,rfl⟩
  | cons line lines ih =>
    unfold behindField fieldAt fieldValue
    cases here : isField name line with
    | true =>
      rw [List.find?_cons_of_pos here]
      exact ⟨line,rfl,here,rfl,rfl⟩
    | false =>
      rw [List.find?_cons_of_neg (by rw [here]; exact Bool.false_ne_true)]
      cases later : behindField name lines with
      | none =>
        rw [later] at ih
        exact ih
      | some p =>
        rw [later] at ih
        obtain ⟨l,rfl,field,at_,value⟩ := ih
        exact ⟨l,rfl,field,at_,value⟩

theorem fieldRead {s : Bytes} (clean : ∀ line ∈ lines,Clean line) (found : seek (fieldText name) s = fieldAt name body lines) :
    (search (fieldText name) s = none ∧ fieldValue name lines = none) ∨ ∃ n v more,search (fieldText name) s = some n ∧
      s.drop (n + (fieldText name).length) = v ++ (crlf ++ more) ∧ (13 : Byte) ∉ v ∧ fieldValue name lines = some v := by
  have at_ := fieldBehind name body lines
  cases behind : behindField name lines with
  | none =>
    rw [behind] at at_
    exact Or.inl ⟨Option.map_eq_none_iff.mp (found.trans at_.1),at_.2⟩
  | some p =>
    rw [behind] at at_
    obtain ⟨line,rfl,_,there,value⟩ := at_
    obtain ⟨n,here,text⟩ := Option.map_eq_some_iff.mp (found.trans there)
    exact Or.inr ⟨n,_,_,here,text.trans (List.append_assoc ..),(bodyClean (clean line (by simp)) name).1,value⟩

theorem fieldSkip (other : ∀ line ∈ front,isField name line = false) (body : Bytes) (rest : List Bytes) :
    fieldAt name body (front ++ rest) = fieldAt name body rest ∧ fieldValue name (front ++ rest) = fieldValue name rest := by
  induction front with
  | nil => exact ⟨rfl,rfl⟩
  | cons line front ih =>
    have here := other line List.mem_cons_self
    have later := ih fun l mem => other l (List.mem_cons_of_mem _ mem)
    unfold fieldValue at later ⊢
    rw [List.cons_append,fieldAt,here,List.find?_cons_of_neg (by rw [here]; exact Bool.false_ne_true)]
    exact later

theorem fieldBefore (some_ : ¬∀ line ∈ front,isField name line = false) (body : Bytes) (rest : List Bytes) :
    ∃ s,fieldAt name body (front ++ rest) = some s ∧ (headLines rest body).length < s.length := by
  induction front with
  | nil => exact absurd (fun _ mem => nomatch mem) some_
  | cons line front ih =>
    rw [List.cons_append,fieldAt]
    cases here : isField name line with
    | true =>
      refine ⟨_,rfl,?_⟩
      have more : (headLines rest body).length ≤ (headLines (front ++ rest) body).length := by
        clear some_ ih
        induction front with
        | nil => exact Nat.le_refl _
        | cons l front ih =>
          rw [List.cons_append,headLines,List.length_append]
          omega
      simp only [List.length_append,show crlf.length = 2 from rfl]
      omega
    | false =>
      refine ih fun all => some_ fun l mem => ?_
      rcases List.mem_cons.mp mem with rfl | later
      · exact here
      · exact all l later

end lines

variable {r : RequestText}

theorem requestSeen (r : RequestText) : cstr r.text = r.seen := by
  have clean : ∀ line ∈ r.version :: r.lines,Clean line := fun line mem => r.plain line (List.mem_cons_of_mem _ mem)
  have target := (r.plain r.target List.mem_cons_self).2.2
  have word : (0 : Byte) ∉ methodWord r.method ++ r.target ++ [32] := by
    have word : (0 : Byte) ∉ methodWord r.method := by cases r.method <;> decide
    simp [word,target]
  unfold RequestText.text RequestText.seen
  rw [cstrAppend,if_neg word,headCstr clean]
  simp

theorem requestMethodSeen {m : Method} (known : m ≠ .none) (url : Bytes) : requestMethod (methodWord m ++ url) = (m,url) := by
  cases m <;> first | exact absurd rfl known | rfl

theorem requestHeadSeen (r : RequestText) : requestHead r.seen =
    (seek httpHost (headLines (r.version :: r.lines) (cstr r.body))).bind fun host =>
      (search crlf host).map fun e => ⟨r.method,r.target,host.take e,host.drop (e + crlf.length)⟩ := by
  have clean : ∀ line ∈ r.version :: r.lines,Clean line := fun line mem => r.plain line (List.mem_cons_of_mem _ mem)
  have nul := headNoNul clean r.body
  have blank_ : strchr (r.target ++ 32 :: headLines (r.version :: r.lines) (cstr r.body)) 32 = some r.target.length := by
    have target := (r.plain r.target List.mem_cons_self).2.2
    have none_ : strchr r.target 32 = none := by
      unfold strchr
      rw [cstrOfNoNul target,List.findIdx?_eq_none_iff]
      exact fun b mem => beq_eq_false_iff_ne.mpr fun same => r.unbroken (same ▸ mem)
    rw [strchrAppend target,none_,Option.none_or]
    exact congrArg some (Nat.zero_add _)
  unfold requestHead RequestText.seen
  rw [requestMethodSeen r.known]
  dsimp only
  rw [if_neg r.known,blank_]
  dsimp only
  have behind : (r.target ++ 32 :: headLines (r.version :: r.lines) (cstr r.body)).drop (r.target.length + 1) =
      headLines (r.version :: r.lines) (cstr r.body) := by
    rw [List.drop_length_add_append]
    rfl
  rw [if_neg (Nat.not_le_of_lt r.short),behind,strstrNoNul nul,List.take_left]
  unfold seek
  cases search httpHost (headLines (r.version :: r.lines) (cstr r.body)) with
  | none => rfl
  | some h =>
    rw [Option.map_some,Option.bind_some]
    dsimp only
    rw [strstrNoNul fun zero => nul (List.mem_of_mem_drop zero)]
    cases search crlf ((headLines (r.version :: r.lines) (cstr r.body)).drop (h + httpHost.length)) <;> rfl

theorem requestLengthAt {rest body : Bytes} {lines : List Bytes} (clean : ∀ line ∈ lines,Clean line) (nul : (0 : Byte) ∉ rest)
    (found : seek httpContentLen rest = fieldAt contentLengthName body lines) :
    requestLength rest = lengthOf (fieldValue contentLengthName lines) := by
  unfold requestLength
  rw [strstrNoNul nul,cstrOfNoNul nul]
  rcases @fieldRead contentLengthName body lines rest clean found with ⟨missing,value⟩ | ⟨n,v,more,here,text,cr,value⟩
  · rw [show search httpContentLen rest = none from missing,value]
    rfl
  · rw [show search httpContentLen rest = some n from here,value]
    dsimp only
    rw [show rest.drop (n + httpContentLen.length) = _ from text]
    unfold lengthOf
    dsimp only
    rcases Nat.lt_or_ge 10 v.length with long | short
    · have all : (v ++ (crlf ++ more)).take 11 = v.take 11 := List.take_append_of_le_length long
      rw [all,if_neg fun mem => cr (List.mem_of_mem_take mem),if_pos long]
    · have cut : (v ++ (crlf ++ more)).take 11 = v ++ 13 :: (10 :: more).take (10 - v.length) := by
        have room : 11 - v.length = 10 - v.length + 1 := by omega
        rw [List.take_append,List.take_of_length_le (by omega),room]
        rfl
      have digits : (v ++ 13 :: (10 :: more).take (10 - v.length)).takeWhile (· ≠ 13) = v := by
        rw [List.takeWhile_append_of_pos fun b mem => untilAll cr b mem]
        simp
      rewrite [cut,if_pos (by simp),digits,if_neg (by omega)]
      cases ngxAtoi v <;> rfl

theorem lengthIff {front behind : List Bytes} {line : Bytes} (host : isField hostName line = true) (body : Bytes) :
    seek httpContentLen (headLines behind body) = fieldAt contentLengthName body (front ++ line :: behind) ↔
      (∀ l ∈ front,isField contentLengthName l = false) ∧ Sole contentLengthName body behind := by
  have other : isField contentLengthName line = false := by
    obtain ⟨rest,rfl⟩ := List.isPrefixOf_iff_prefix.mp host
    rfl
  have exact_ := @seekField contentLengthName (by decide) (by decide) body behind
  rcases Decidable.em (∀ l ∈ front,isField contentLengthName l = false) with none_ | some_
  · have skip := fieldSkip none_ body (line :: behind)
    rw [skip.1,fieldAt,other]
    exact exact_.trans (and_iff_right none_).symm
  · refine iff_of_false (fun same => ?_) fun sole => some_ sole.1
    obtain ⟨s,there,long⟩ := fieldBefore some_ body (line :: behind)
    have short := seekShort (same.trans there)
    rw [headLines,List.length_append] at long
    omega

theorem hostHead (host : seek httpHost (headLines (r.version :: r.lines) (cstr r.body)) = fieldAt hostName (cstr r.body) r.lines) :
    match behindField hostName r.lines with
    | none => requestHead (cstr r.text) = none
    | some p => ∃ line,r.lines = p.1 ++ line :: p.2 ∧ isField hostName line = true ∧
        fieldValue hostName r.lines = some (fieldBody hostName line) ∧
        requestHead (cstr r.text) = some ⟨r.method,r.target,fieldBody hostName line,headLines p.2 (cstr r.body)⟩ := by
  have at_ := fieldBehind hostName (cstr r.body) r.lines
  rw [requestSeen,requestHeadSeen,host]
  cases behind : behindField hostName r.lines with
  | none =>
    rw [behind] at at_
    dsimp only
    rw [at_.1]
    rfl
  | some p =>
    rw [behind] at at_
    obtain ⟨line,whole,field,there,value⟩ := at_
    have clean : Clean line := r.plain line (by rw [whole]; simp)
    have cr := (bodyClean clean hostName).1
    refine ⟨line,whole,field,value,?_⟩
    rw [there,Option.bind_some,searchLine cr,Option.map_some,← List.length_append,List.drop_left,List.append_assoc,
      List.take_left]

theorem requestFieldsExactly (r : RequestText) : RequestFields r ↔ RequestSole r := by
  have clean : ∀ line ∈ r.lines,Clean line := fun line mem => r.plain line (by simp [mem])
  constructor
  · intro fields
    obtain ⟨version,sole⟩ := (@startField hostName (by decide) (by decide) _ _ _).mp fields.host
    refine ⟨version,sole,fun p mem other => ?_⟩
    have head := hostHead fields.host
    rw [Option.mem_def.mp mem] at head
    obtain ⟨line,whole,field,_,known⟩ := head
    have length := (fields.length _ known other).1
    rw [whole] at length
    exact (lengthIff field (cstr r.body)).mp length
  · intro sole
    have host := (@startField hostName (by decide) (by decide) _ _ _).mpr ⟨sole.version,sole.host⟩
    have head := hostHead host
    have nothing := fieldBehind hostName (cstr r.body) r.lines
    refine ⟨host,?_,fun known mem other => ?_⟩
    · unfold requestServer
      cases behind : behindField hostName r.lines with
      | none =>
        rw [behind] at head nothing
        rw [head,nothing.2]
        rfl
      | some p =>
        rw [behind] at head
        obtain ⟨line,_,_,value,head⟩ := head
        rw [head,value]
        rfl
    · cases behind : behindField hostName r.lines with
      | none =>
        rw [behind] at head
        cases head.symm.trans mem
      | some p =>
        rw [behind] at head
        obtain ⟨line,whole,field,_,head⟩ := head
        cases Option.some.inj (head.symm.trans mem)
        have length := (lengthIff field (cstr r.body)).mpr (sole.length p behind other)
        rw [← whole] at length
        refine ⟨length,requestLengthAt clean (headNoNul (fun l inside => ?_) r.body) length⟩
        exact clean l (by rw [whole]; simp [inside])

end request

section response

structure ResponseText where
  start : Bytes
  lines : List Bytes
  body : Bytes
  plain : ∀ line ∈ start :: lines,Clean line
  some_ : ∀ line ∈ lines,line ≠ []

def ResponseText.text (r : ResponseText) : Bytes := headLines (r.start :: r.lines) r.body

def contentLengthOf : Option Bytes → LengthField
  | none => .missing
  | some v =>
    if 20 < v.length then .missing
    else
      match ngxAtoi v with
      | some n => .value n
      | none => .bad

def encodingOf : Option Bytes → EncodingType
  | none => .none
  | some v => if (ascii "gzip").isPrefixOf v then .gzip else .deflate

def typedText (text : Bytes) : Bool := responseStatusOk text && (responseContentType text).isSome

def chunkedText (text : Bytes) : Bool := (strstr text httpTransEncodingTypeChunked).isSome

def acceptedText (text : Bytes) : Bool :=
  chunkedText text || match responseContentLen text with
    | .value _ => true
    | _ => false

def chunkedLine : Bytes := ascii "Transfer-Encoding: chunked"

structure ResponseFields (r : ResponseText) : Prop where
  type : responseStatusOk (cstr r.text) = true →
    seek httpContentType (cstr r.text) = fieldAt contentTypeName (cstr r.body) r.lines ∧
    contentTypeValue (cstr r.text) = fieldValue contentTypeName r.lines
  chunked : typedText (cstr r.text) = true →
    (chunkedText (cstr r.text) = true ↔ fieldValue transferEncodingName r.lines = some (ascii "chunked"))
  length : typedText (cstr r.text) = true → chunkedText (cstr r.text) = false →
    seek httpContentLen (cstr r.text) = fieldAt contentLengthName (cstr r.body) r.lines ∧
    responseContentLen (cstr r.text) = contentLengthOf (fieldValue contentLengthName r.lines)
  encoding : typedText (cstr r.text) = true → acceptedText (cstr r.text) = true →
    seek httpContentEncodingType (cstr r.text) = fieldAt contentEncodingName (cstr r.body) r.lines ∧
    responseEncoding (cstr r.text) = encodingOf (fieldValue contentEncodingName r.lines)

structure SoleIn (name : Bytes) (r : ResponseText) : Prop where
  start : search (fieldText name) r.start = none
  lines : Sole name (cstr r.body) r.lines

def ChunkedSomewhere (r : ResponseText) : Prop :=
  (∃ line ∈ r.start :: r.lines,chunkedLine <:+ line) ∨ (search httpTransEncodingTypeChunked (cstr r.body)).isSome = true

structure ResponseSole (r : ResponseText) : Prop where
  type : responseStatusOk (cstr r.text) = true → SoleIn contentTypeName r
  chunked : typedText (cstr r.text) = true →
    (ChunkedSomewhere r ↔ fieldValue transferEncodingName r.lines = some (ascii "chunked"))
  length : typedText (cstr r.text) = true → chunkedText (cstr r.text) = false → SoleIn contentLengthName r
  encoding : typedText (cstr r.text) = true → acceptedText (cstr r.text) = true → SoleIn contentEncodingName r

variable {r : ResponseText}

theorem soleField {name : Bytes} (cr : (13 : Byte) ∉ name) (lf : (10 : Byte) ∉ name) (r : ResponseText) :
    seek (fieldText name) (cstr r.text) = fieldAt name (cstr r.body) r.lines ↔ SoleIn name r := by
  unfold ResponseText.text
  rw [headCstr r.plain,startField cr lf]
  exact ⟨fun both => ⟨both.1,both.2⟩,fun sole => ⟨sole.start,sole.lines⟩⟩

theorem chunkedFound (r : ResponseText) : chunkedText (cstr r.text) = true ↔ ChunkedSomewhere r := by
  unfold chunkedText
  rw [strstrNoNul (cstrNoNul _)]
  unfold ResponseText.text
  rw [headCstr r.plain]
  exact @searchLineEnds _ chunkedLine (by decide) (by decide) r.plain (cstr r.body)

theorem linesClean (r : ResponseText) : ∀ line ∈ r.lines,Clean line := fun line mem => r.plain line (List.mem_cons_of_mem _ mem)

theorem typeAt (found : seek httpContentType (cstr r.text) = fieldAt contentTypeName (cstr r.body) r.lines) :
    contentTypeValue (cstr r.text) = fieldValue contentTypeName r.lines := by
  have nul := cstrNoNul r.text
  unfold contentTypeValue contentTypeAt
  rw [strstrNoNul nul]
  rcases @fieldRead contentTypeName _ _ _ (linesClean r) found with ⟨missing,value⟩ | ⟨n,v,more,here,text,cr,value⟩
  · rw [show search httpContentType (cstr r.text) = none from missing,value]
    rfl
  · rw [show search httpContentType (cstr r.text) = some n from here,value,Option.map_some,Option.bind_some,
      strstrNoNul fun zero => nul (List.mem_of_mem_drop zero),
      show (cstr r.text).drop (n + httpContentType.length) = _ from text,← List.append_assoc,searchLine cr,Option.map_some,
      List.append_assoc,List.take_left]

theorem contentLenAt (found : seek httpContentLen (cstr r.text) = fieldAt contentLengthName (cstr r.body) r.lines) :
    responseContentLen (cstr r.text) = contentLengthOf (fieldValue contentLengthName r.lines) := by
  have nul := cstrNoNul r.text
  unfold responseContentLen
  rw [strstrNoNul nul]
  rcases @fieldRead contentLengthName _ _ _ (linesClean r) found with ⟨missing,value⟩ | ⟨n,v,more,here,text,cr,value⟩
  · rw [show search httpContentLen (cstr r.text) = none from missing,value]
    rfl
  · rw [show search httpContentLen (cstr r.text) = some n from here,value]
    dsimp only
    rw [strstrNoNul fun zero => nul (List.mem_of_mem_drop zero),
      show (cstr r.text).drop (n + httpContentLen.length) = _ from text,← List.append_assoc,searchLine cr]
    unfold contentLengthOf
    dsimp only
    rewrite [List.append_assoc,List.take_left]
    cases ngxAtoi v <;> rfl

theorem encodingAt (found : seek httpContentEncodingType (cstr r.text) = fieldAt contentEncodingName (cstr r.body) r.lines) :
    responseEncoding (cstr r.text) = encodingOf (fieldValue contentEncodingName r.lines) := by
  unfold responseEncoding
  rw [strstrNoNul (cstrNoNul _)]
  rcases @fieldRead contentEncodingName _ _ _ (linesClean r) found with ⟨missing,value⟩ | ⟨n,v,more,here,text,cr,value⟩
  · rw [show search httpContentEncodingType (cstr r.text) = none from missing,value]
    rfl
  · have cut : (ascii "gzip").isPrefixOf (v ++ 13 :: 10 :: more) = (ascii "gzip").isPrefixOf v := prefixCut (by decide) v _
    rw [show search httpContentEncodingType (cstr r.text) = some n from here,value]
    dsimp only
    rw [show (cstr r.text).drop (n + httpContentEncodingType.length) = v ++ 13 :: 10 :: more from text,cut]
    rfl

theorem responseFieldsExactly (r : ResponseText) : ResponseFields r ↔ ResponseSole r := by
  constructor
  · intro fields
    exact ⟨fun ok => (soleField (by decide) (by decide) r).mp (fields.type ok).1,
      fun typed => (chunkedFound r).symm.trans (fields.chunked typed),
      fun typed plain => (soleField (by decide) (by decide) r).mp (fields.length typed plain).1,
      fun typed fine => (soleField (by decide) (by decide) r).mp (fields.encoding typed fine).1⟩
  · intro sole
    refine ⟨fun ok => ?_,fun typed => (chunkedFound r).trans (sole.chunked typed),fun typed plain => ?_,fun typed fine => ?_⟩
    · have found := (soleField (by decide) (by decide) r).mpr (sole.type ok)
      exact ⟨found,typeAt found⟩
    · have found := (soleField (by decide) (by decide) r).mpr (sole.length typed plain)
      exact ⟨found,contentLenAt found⟩
    · have found := (soleField (by decide) (by decide) r).mpr (sole.encoding typed fine)
      exact ⟨found,encodingAt found⟩

end response

/-- The fields are read right exactly when their texts are nowhere else. -/
theorem fieldsReadExactly (q : RequestText) (r : ResponseText) :
    (RequestFields q ↔ RequestSole q) ∧ (ResponseFields r ↔ ResponseSole r) := ⟨requestFieldsExactly q,responseFieldsExactly r⟩

def forwardedRequest : RequestText where
  method := .get
  known := nofun
  target := ascii "/a"
  version := ascii "HTTP/1.1"
  lines := [ascii "X-Host: b.net",ascii "Host: a.com"]
  body := []
  plain := by decide +kernel
  unbroken := by decide +kernel
  short := by decide +kernel
  some_ := by decide +kernel

def unsizedResponse : ResponseText where
  start := ascii "HTTP/1.1 200 OK"
  lines := [ascii "Content-Type: text/plain"]
  body := ascii "Content-Length: 7" ++ crlf
  plain := by decide +kernel
  some_ := by decide +kernel

theorem fieldsMistaken :
    requestServer (cstr forwardedRequest.text) = some (ascii "b.net") ∧ ¬RequestFields forwardedRequest ∧
    responseContentLen (cstr unsizedResponse.text) = .value 7 ∧ ¬ResponseFields unsizedResponse := by
  refine ⟨by decide,fun fields => ?_,by decide,fun fields => ?_⟩
  · exact absurd fields.server (by decide)
  · exact absurd (fields.length (by decide) (by decide)).2 (by decide)

end MipsElfExec.Snooping
