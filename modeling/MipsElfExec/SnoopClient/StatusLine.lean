import MipsElfExec.Lib.CString

/-! The status line of a server's answer, as the client's automaton reads it: the language that it takes, and
where that is larger than a status line. -/
namespace MipsElfExec.SnoopClient
open CString

inductive StatusState where
  | start | h | ht | htt | http | firstMajorDigit | majorDigit | firstMinorDigit | minorDigit | status
  | spaceAfterStatus | statusText | almostDone
  deriving DecidableEq, Repr

structure StatusWalk where
  state : StatusState := .start
  status : Nat := 0
  statusDigits : Nat := 0
  deriving DecidableEq, Repr

inductive StatusStep where
  | more (w : StatusWalk) | done | invalid

def StatusWalk.go (w : StatusWalk) (state : StatusState) : StatusStep := .more { w with state := state }

def StatusWalk.expect (w : StatusWalk) (wanted : Bool) (state : StatusState) : StatusStep :=
  if wanted then w.go state else .invalid

def StatusWalk.digit (w : StatusWalk) (ch : Byte) : StatusWalk :=
  ⟨if w.statusDigits + 1 = 3 then .spaceAfterStatus else .status,w.status * 10 + (ch.toNat - 48),w.statusDigits + 1⟩

-- A space is passed over in front of each of the three digits.
def statusByte (w : StatusWalk) (ch : Byte) : StatusStep :=
  match w.state with
  | .start => w.expect (ch == 72) .h
  | .h => w.expect (ch == 84) .ht
  | .ht => w.expect (ch == 84) .htt
  | .htt => w.expect (ch == 80) .http
  | .http => w.expect (ch == 47) .firstMajorDigit
  | .firstMajorDigit => w.expect (49 ≤ ch && ch ≤ 57) .majorDigit
  | .majorDigit => if ch = 46 then w.go .firstMinorDigit else w.expect (isdigit ch) .majorDigit
  | .firstMinorDigit => w.expect (isdigit ch) .minorDigit
  | .minorDigit => if ch = 32 then w.go .status else w.expect (isdigit ch) .minorDigit
  | .status => if ch = 32 then .more w else if isdigit ch then .more (w.digit ch) else .invalid
  | .spaceAfterStatus =>
    if ch = 32 ∨ ch = 46 then w.go .statusText
    else if ch = 13 then w.go .almostDone
    else if ch = 10 then .done
    else .invalid
  | .statusText => if ch = 13 then w.go .almostDone else if ch = 10 then .done else .more w
  | .almostDone => if ch = 10 then .done else .invalid

def statusWalk : StatusWalk → Bytes → Int × Nat
  | w,[] => (-1,w.status)
  | w,ch :: buf =>
    match statusByte w ch with
    | .more w => statusWalk w buf
    | .done => (0,w.status)
    | .invalid => (-1,w.status)

def httpParseStatusLine (buf : Bytes) (len : Int) : Int × Option Nat :=
  if len < 0 then (-1,none)
  else
    let (ret,status) := statusWalk {} (buf.take len.toNat)
    (ret,some status)

def Spaces (s : Bytes) : Prop := ∀ b ∈ s,b = 32

def AllDigits (s : Bytes) : Prop := ∀ b ∈ s,isdigit b = true

def LineEnd (s : Bytes) : Prop := s = [10] ∨ s = [13,10]

def StatusTail (s : Bytes) : Prop := s = [] ∨
  ∃ mark text,s = mark :: text ∧ (mark = 32 ∨ mark = 46) ∧ (13 : Byte) ∉ text ∧ (10 : Byte) ∉ text

def codeValue (a b c : Byte) : Nat := ((a.toNat - 48) * 10 + (b.toNat - 48)) * 10 + (c.toNat - 48)

inductive StatusLine : Bytes → Bytes → Nat → Bytes → Prop where
  | mk {first a b c : Byte} {major minor spaces gap gap' tail ending : Bytes}
      (majorStarts : (49 ≤ first && first ≤ 57) = true) (majorDigits : AllDigits major)
      (minorSome : minor ≠ []) (minorDigits : AllDigits minor) (spacesSome : spaces ≠ []) (blank : Spaces spaces)
      (codeA : isdigit a = true) (codeB : isdigit b = true) (codeC : isdigit c = true)
      (tailText : StatusTail tail) (ends : LineEnd ending) :
      StatusLine gap gap' (codeValue a b c) (ascii "HTTP/" ++ (first :: major ++ 46 :: (minor ++ (spaces ++
        a :: (gap ++ b :: (gap' ++ c :: (tail ++ ending)))))))

section language
variable {w next : StatusWalk} {s : Bytes} {code : Nat}

theorem walkCons (ch : Byte) (buf : Bytes) : statusWalk w (ch :: buf) = (0,code) ↔
    (∃ next,statusByte w ch = .more next ∧ statusWalk next buf = (0,code)) ∨ statusByte w ch = .done ∧ w.status = code := by
  simp only [statusWalk]
  cases statusByte w ch <;> simp

theorem walkLeaves {p : Byte → Bool} {leave : Byte → Option StatusWalk}
    (stays : ∀ ch,p ch = true → statusByte w ch = .more w)
    (leaves : ∀ ch,p ch = false → statusByte w ch = ((leave ch).map .more).getD .invalid) :
    statusWalk w s = (0,code) ↔ ∃ front ch rest next,s = front ++ ch :: rest ∧ (∀ b ∈ front,p b = true) ∧ p ch = false ∧
      leave ch = some next ∧ statusWalk next rest = (0,code) := by
  induction s with
  | nil => simp [statusWalk]
  | cons b s ih =>
    rw [walkCons]
    cases waits : p b with
    | true =>
      simp only [stays b waits,StatusStep.more.injEq,exists_eq_left',reduceCtorEq,false_and,or_false,ih]
      constructor
      · rintro ⟨front,ch,rest,next,rfl,all,more⟩
        exact ⟨b :: front,ch,rest,next,rfl,by simpa [waits] using all,more⟩
      · rintro ⟨front,ch,rest,next,same,all,out,more⟩
        cases front with
        | nil =>
          cases (List.cons.inj same).1
          simp [waits] at out
        | cons c front =>
          obtain ⟨rfl,rfl⟩ := List.cons.inj same
          exact ⟨front,ch,rest,next,rfl,fun b mem => all b (List.mem_cons_of_mem _ mem),out,more⟩
    | false =>
      rw [leaves b waits]
      constructor
      · rintro (⟨next,same,more⟩ | ⟨same,-⟩)
        · cases gone : leave b with
          | none => simp [gone] at same
          | some _ =>
            simp only [gone,Option.map_some,Option.getD_some,StatusStep.more.injEq] at same
            exact ⟨[],b,s,next,rfl,by simp,waits,by rw [← same,gone],more⟩
        · cases gone : leave b <;> simp [gone] at same
      · rintro ⟨front,ch,rest,next,same,all,-,gone,more⟩
        cases front with
        | nil =>
          obtain ⟨rfl,rfl⟩ := List.cons.inj same
          exact .inl ⟨next,by simp [gone],more⟩
        | cons c front =>
          cases (List.cons.inj same).1
          simp [waits] at all

theorem walkExpects {state after : StatusState} {n d : Nat} (p : Byte → Bool)
    (step : ∀ ch,statusByte ⟨state,n,d⟩ ch = (StatusWalk.mk state n d).expect (p ch) after) :
    statusWalk ⟨state,n,d⟩ s = (0,code) ↔ ∃ ch rest,s = ch :: rest ∧ p ch = true ∧ statusWalk ⟨after,n,d⟩ rest = (0,code) := by
  cases s with
  | nil => simp [statusWalk]
  | cons ch s => cases wanted : p ch <;> simp [walkCons,step,wanted,StatusWalk.expect,StatusWalk.go]

theorem walkNumber {state after : StatusState} {n d : Nat} {mark : Byte} (other : isdigit mark = false)
    (step : ∀ ch,statusByte ⟨state,n,d⟩ ch = if ch = mark then (StatusWalk.mk state n d).go after
      else (StatusWalk.mk state n d).expect (isdigit ch) state) :
    statusWalk ⟨state,n,d⟩ s = (0,code) ↔ ∃ digits rest,s = digits ++ mark :: rest ∧ AllDigits digits ∧
      statusWalk ⟨after,n,d⟩ rest = (0,code) := by
  rw [@walkLeaves _ _ _ isdigit fun ch => if ch = mark then some ⟨after,n,d⟩ else none]
  · constructor
    · rintro ⟨digits,ch,rest,next,rfl,all,-,gone,more⟩
      split at gone <;> try contradiction
      rename_i same
      cases Option.some.inj gone
      exact ⟨digits,rest,by rw [same],all,more⟩
    · rintro ⟨digits,rest,rfl,all,more⟩
      exact ⟨digits,mark,rest,_,rfl,all,other,if_pos rfl,more⟩
  · intro ch digit
    have differs : ch ≠ mark := fun same => by simp [same,other] at digit
    simp [step,differs,digit,StatusWalk.expect,StatusWalk.go]
  · intro ch rest
    rw [step]
    split <;> simp [rest,StatusWalk.expect,StatusWalk.go]

theorem walkDigit {n d : Nat} : statusWalk ⟨.status,n,d⟩ s = (0,code) ↔ ∃ gap ch rest,s = gap ++ ch :: rest ∧ Spaces gap ∧
    isdigit ch = true ∧ statusWalk ((StatusWalk.mk .status n d).digit ch) rest = (0,code) := by
  rw [@walkLeaves _ _ _ (· == 32) fun ch => if isdigit ch then some ((StatusWalk.mk .status n d).digit ch) else none]
  · constructor
    · rintro ⟨gap,ch,rest,next,rfl,all,-,gone,more⟩
      split at gone <;> try contradiction
      rename_i digit
      cases Option.some.inj gone
      exact ⟨gap,ch,rest,rfl,by simpa [Spaces] using all,digit,more⟩
    · rintro ⟨gap,ch,rest,rfl,blank,digit,more⟩
      have other : ch ≠ 32 := fun same => by simp [same,isdigit] at digit
      exact ⟨gap,ch,rest,_,rfl,by simpa [Spaces] using blank,by simpa using other,if_pos digit,more⟩
  · intro ch blank
    simp_all [statusByte]
  · intro ch other
    have other : ch ≠ 32 := by simpa using other
    cases digit : isdigit ch <;> simp [statusByte,other,digit]

theorem walkAlmostDone {n d : Nat} : statusWalk ⟨.almostDone,n,d⟩ s = (0,code) ↔ ∃ rest,s = 10 :: rest ∧ code = n := by
  cases s with
  | nil => simp [statusWalk]
  | cons ch s => by_cases lf : ch = 10 <;> simp [walkCons,statusByte,lf,@eq_comm _ n]

theorem walkText {n d : Nat} : statusWalk ⟨.statusText,n,d⟩ s = (0,code) ↔ ∃ text ending rest,s = text ++ (ending ++ rest) ∧
    ((13 : Byte) ∉ text ∧ (10 : Byte) ∉ text) ∧ LineEnd ending ∧ code = n := by
  induction s with
  | nil => simp [statusWalk,LineEnd]
  | cons ch s ih =>
    rw [walkCons]
    by_cases cr : ch = 13
    · subst cr
      simp only [statusByte,StatusWalk.go,reduceIte,StatusStep.more.injEq,exists_eq_left',reduceCtorEq,false_and,or_false,
      walkAlmostDone]
      constructor
      · rintro ⟨rest,rfl,same⟩
        exact ⟨[],[13,10],rest,rfl,by simp,.inr rfl,same⟩
      · rintro ⟨text,ending,rest,same,clean,ends,value⟩
        cases text with
        | nil => rcases ends with rfl | rfl <;> simp_all
        | cons b text => simp_all
    · by_cases lf : ch = 10
      · subst lf
        simp only [statusByte,cr,reduceIte,reduceCtorEq,false_and,exists_false,true_and,false_or]
        constructor
        · rintro rfl
          exact ⟨[],[10],s,rfl,by simp,.inl rfl,rfl⟩
        · rintro ⟨_,_,_,_,_,_,value⟩
          exact value.symm
      · simp only [statusByte,cr,lf,reduceIte,StatusStep.more.injEq,exists_eq_left',reduceCtorEq,false_and,or_false,ih]
        constructor
        · rintro ⟨text,ending,rest,rfl,clean,more⟩
          exact ⟨ch :: text,ending,rest,rfl,by simp [clean,Ne.symm cr,Ne.symm lf],more⟩
        · rintro ⟨text,ending,rest,same,clean,ends,value⟩
          cases text with
          | nil => rcases ends with rfl | rfl <;> simp_all
          | cons b text =>
            obtain ⟨rfl,rfl⟩ := List.cons.inj same
            exact ⟨text,ending,rest,rfl,by simp_all,ends,value⟩

theorem walkAfterStatus {n d : Nat} : statusWalk ⟨.spaceAfterStatus,n,d⟩ s = (0,code) ↔ ∃ tail ending rest,
    s = tail ++ (ending ++ rest) ∧ StatusTail tail ∧ LineEnd ending ∧ code = n := by
  constructor
  · intro taken
    cases s with
    | nil => simp [statusWalk] at taken
    | cons ch s =>
      rw [walkCons] at taken
      by_cases mark : ch = 32 ∨ ch = 46
      · simp only [statusByte,mark,reduceIte,StatusWalk.go,StatusStep.more.injEq,exists_eq_left',reduceCtorEq,false_and,or_false,
          walkText] at taken
        obtain ⟨text,ending,rest,rfl,clean,ends,value⟩ := taken
        exact ⟨ch :: text,ending,rest,rfl,.inr ⟨ch,text,rfl,mark,clean⟩,ends,value⟩
      · by_cases cr : ch = 13
        · subst cr
          simp only [statusByte,mark,reduceIte,StatusWalk.go,StatusStep.more.injEq,exists_eq_left',reduceCtorEq,false_and,
            or_false,walkAlmostDone] at taken
          obtain ⟨rest,rfl,value⟩ := taken
          exact ⟨[],[13,10],rest,rfl,.inl rfl,.inr rfl,value⟩
        · by_cases lf : ch = 10
          · subst lf
            exact ⟨[],[10],s,rfl,.inl rfl,.inl rfl,by simpa [statusByte,eq_comm] using taken⟩
          · simp [statusByte,mark,cr,lf] at taken
  · rintro ⟨tail,ending,rest,rfl,text,ends,rfl⟩
    rcases text with rfl | ⟨mark,text,rfl,marked,clean⟩
    · rcases ends with rfl | rfl <;> simp [statusWalk,statusByte,StatusWalk.go]
    · have more := (@walkText (text ++ (ending ++ rest)) code code d).mpr ⟨text,ending,rest,rfl,clean,ends,rfl⟩
      simpa [walkCons,statusByte,marked,StatusWalk.go] using more

theorem walkHttp : statusWalk {} s = (0,code) ↔ ∃ rest,s = ascii "HTTP/" ++ rest ∧
    statusWalk ⟨.firstMajorDigit,0,0⟩ rest = (0,code) := by
  have text : ascii "HTTP/" = [72,84,84,80,47] := by decide
  rw [text]
  constructor
  · intro taken
    obtain ⟨_,rest,rfl,h,taken⟩ := (walkExpects (· == 72) fun _ => rfl).mp taken
    obtain ⟨_,rest,rfl,t,taken⟩ := (walkExpects (· == 84) fun _ => rfl).mp taken
    obtain ⟨_,rest,rfl,t',taken⟩ := (walkExpects (· == 84) fun _ => rfl).mp taken
    obtain ⟨_,rest,rfl,p,taken⟩ := (walkExpects (· == 80) fun _ => rfl).mp taken
    obtain ⟨_,rest,rfl,slash,taken⟩ := (walkExpects (· == 47) fun _ => rfl).mp taken
    exact ⟨rest,by simp_all,taken⟩
  · rintro ⟨rest,rfl,taken⟩
    exact taken

theorem walkVersion : statusWalk ⟨.firstMajorDigit,0,0⟩ s = (0,code) ↔ ∃ first major minor rest,
    s = first :: major ++ 46 :: (minor ++ 32 :: rest) ∧ (49 ≤ first && first ≤ 57) = true ∧ AllDigits major ∧
      minor ≠ [] ∧ AllDigits minor ∧ statusWalk ⟨.status,0,0⟩ rest = (0,code) := by
  constructor
  · intro taken
    obtain ⟨first,rest,rfl,starts,taken⟩ := (walkExpects (fun ch => 49 ≤ ch && ch ≤ 57) fun _ => rfl).mp taken
    obtain ⟨major,rest,rfl,majorDigits,taken⟩ := (walkNumber (by decide) fun _ => rfl).mp taken
    obtain ⟨d,rest,rfl,digit,taken⟩ := (walkExpects isdigit fun _ => rfl).mp taken
    obtain ⟨minor,rest,rfl,minorDigits,taken⟩ := (walkNumber (by decide) fun _ => rfl).mp taken
    exact ⟨first,major,d :: minor,rest,by simp,starts,majorDigits,by simp,by simpa [AllDigits,digit] using minorDigits,taken⟩
  · rintro ⟨first,major,minor,rest,rfl,starts,majorDigits,minorSome,minorDigits,taken⟩
    cases minor with
    | nil => exact absurd rfl minorSome
    | cons d minor =>
      have digits := List.forall_mem_cons.mp minorDigits
      refine (walkExpects (fun ch => 49 ≤ ch && ch ≤ 57) fun _ => rfl).mpr ⟨first,_,rfl,starts,?_⟩
      refine (walkNumber (by decide) fun _ => rfl).mpr ⟨major,_,rfl,majorDigits,?_⟩
      refine (walkExpects isdigit fun _ => rfl).mpr ⟨d,_,rfl,digits.1,?_⟩
      exact (walkNumber (by decide) fun _ => rfl).mpr ⟨minor,_,rfl,digits.2,taken⟩

theorem walkCode : statusWalk ⟨.status,0,0⟩ s = (0,code) ↔ ∃ spaces gap gap' a b c rest,
    s = spaces ++ a :: (gap ++ b :: (gap' ++ c :: rest)) ∧ Spaces spaces ∧ Spaces gap ∧ Spaces gap' ∧
      isdigit a = true ∧ isdigit b = true ∧ isdigit c = true ∧
      statusWalk ⟨.spaceAfterStatus,codeValue a b c,3⟩ rest = (0,code) := by
  have zero (n : Nat) : (0 * 10 + n) = n := by omega
  constructor
  · intro taken
    obtain ⟨spaces,a,rest,rfl,blank,codeA,taken⟩ := walkDigit.mp taken
    obtain ⟨gap,b,rest,rfl,blankGap,codeB,taken⟩ := walkDigit.mp taken
    obtain ⟨gap',c,rest,rfl,blankGap',codeC,taken⟩ := walkDigit.mp taken
    exact ⟨spaces,gap,gap',a,b,c,rest,rfl,blank,blankGap,blankGap',codeA,codeB,codeC,
      by simpa [StatusWalk.digit,codeValue] using taken⟩
  · rintro ⟨spaces,gap,gap',a,b,c,rest,rfl,blank,blankGap,blankGap',codeA,codeB,codeC,taken⟩
    refine walkDigit.mpr ⟨spaces,a,_,rfl,blank,codeA,walkDigit.mpr ⟨gap,b,_,rfl,blankGap,codeB,
      walkDigit.mpr ⟨gap',c,_,rfl,blankGap',codeC,?_⟩⟩⟩
    simpa [StatusWalk.digit,codeValue] using taken

theorem walkLine : statusWalk {} s = (0,code) ↔ ∃ gap gap' line rest,s = line ++ rest ∧ Spaces gap ∧ Spaces gap' ∧
    StatusLine gap gap' code line := by
  constructor
  · intro taken
    obtain ⟨_,rfl,taken⟩ := walkHttp.mp taken
    obtain ⟨first,major,minor,_,rfl,starts,majorDigits,minorSome,minorDigits,taken⟩ := walkVersion.mp taken
    obtain ⟨spaces,gap,gap',a,b,c,_,rfl,blank,blankGap,blankGap',codeA,codeB,codeC,taken⟩ := walkCode.mp taken
    obtain ⟨tail,ending,rest,rfl,tailText,ends,rfl⟩ := walkAfterStatus.mp taken
    have spaced : Spaces (32 :: spaces) := List.forall_mem_cons.mpr ⟨rfl,blank⟩
    exact ⟨gap,gap',_,rest,by simp,blankGap,blankGap',
      .mk starts majorDigits minorSome minorDigits (List.cons_ne_nil _ _) spaced codeA codeB codeC tailText ends⟩
  · rintro ⟨gap,gap',_,rest,rfl,blankGap,blankGap',line⟩
    cases line with
    | @mk first a b c major minor spaces _ _ tail ending starts majorDigits minorSome minorDigits spacesSome blank codeA codeB codeC tailText ends =>
      cases spaces with
      | nil => exact absurd rfl spacesSome
      | cons space spaces =>
        obtain ⟨rfl,more⟩ := List.forall_mem_cons.mp blank
        have behind := (@walkAfterStatus (tail ++ (ending ++ rest)) (codeValue a b c) (codeValue a b c) 3).mpr ⟨tail,ending,rest,rfl,tailText,ends,rfl⟩
        have coded := walkCode.mpr ⟨spaces,gap,gap',a,b,c,_,rfl,more,blankGap,blankGap',codeA,codeB,codeC,behind⟩
        have version := walkVersion.mpr ⟨first,major,minor,_,rfl,starts,majorDigits,minorSome,minorDigits,coded⟩
        exact walkHttp.mpr ⟨_,by simp,version⟩

end language

theorem frontUnique {p : Byte → Bool} {front front' rest rest' : Bytes} {ch ch' : Byte} (all : ∀ b ∈ front,p b = true)
    (all' : ∀ b ∈ front',p b = true) (out : p ch = false) (out' : p ch' = false)
    (same : front ++ ch :: rest = front' ++ ch' :: rest') : front = front' ∧ ch = ch' ∧ rest = rest' := by
  induction front generalizing front' with
  | nil =>
    cases front' with
    | nil => simpa using same
    | cons b front' =>
      have first := all' b List.mem_cons_self
      rw [← (List.cons.inj same).1,out] at first
      contradiction
  | cons b front ih =>
    cases front' with
    | nil =>
      have first := all b List.mem_cons_self
      rw [(List.cons.inj same).1,out'] at first
      contradiction
    | cons b' front' =>
      obtain ⟨rfl,tail⟩ := List.cons.inj same
      obtain ⟨rfl,more⟩ := ih (fun c mem => all c (List.mem_cons_of_mem _ mem)) (fun c mem => all' c (List.mem_cons_of_mem _ mem)) tail
      exact ⟨rfl,more⟩

theorem digitNotSpace {ch : Byte} (digit : isdigit ch = true) : (ch == 32) = false := by
  cases same : ch == 32 with
  | false => rfl
  | true => simp [beq_iff_eq.mp same,isdigit] at digit

theorem spacesAll {s : Bytes} (blank : Spaces s) : ∀ b ∈ s,(b == 32) = true := fun b mem => beq_iff_eq.mpr (blank b mem)

theorem lineGaps {gap gap' other other' line line' rest rest' : Bytes} {code code' : Nat} (blank : Spaces gap)
    (blank' : Spaces gap') (blankOther : Spaces other) (blankOther' : Spaces other') (L : StatusLine gap gap' code line)
    (L' : StatusLine other other' code' line') (same : line ++ rest = line' ++ rest') : gap = other ∧ gap' = other' := by
  cases L with
  | @mk first a b c major minor spaces _ _ tail ending starts majorDigits _ minorDigits spacesSome spaced codeA codeB codeC =>
    cases L' with
    | @mk first' a' b' c' major' minor' spaces' _ _ tail' ending' starts' majorDigits' _ minorDigits' spacesSome' spaced' codeA' codeB' codeC' =>
      simp only [List.append_assoc,List.cons_append] at same
      have same := (List.cons.inj (List.append_cancel_left same)).2
      obtain ⟨-,-,same⟩ := frontUnique majorDigits majorDigits' (by decide) (by decide) same
      cases spaces with
      | nil => exact absurd rfl spacesSome
      | cons space spaces =>
        cases spaces' with
        | nil => exact absurd rfl spacesSome'
        | cons space' spaces' =>
          obtain ⟨rfl,more⟩ := List.forall_mem_cons.mp spaced
          obtain ⟨rfl,more'⟩ := List.forall_mem_cons.mp spaced'
          obtain ⟨-,-,code⟩ := frontUnique minorDigits minorDigits' (by decide) (by decide) same
          obtain ⟨-,-,second⟩ := frontUnique (spacesAll more) (spacesAll more') (digitNotSpace codeA) (digitNotSpace codeA') code
          obtain ⟨rfl,-,third⟩ := frontUnique (spacesAll blank) (spacesAll blankOther) (digitNotSpace codeB) (digitNotSpace codeB') second
          obtain ⟨rfl,-⟩ := frontUnique (spacesAll blank') (spacesAll blankOther') (digitNotSpace codeC) (digitNotSpace codeC') third
          exact ⟨rfl,rfl⟩

theorem walkEnds (w : StatusWalk) (front rest other : Bytes) :
    statusWalk w (front ++ 10 :: rest) = statusWalk w (front ++ 10 :: other) := by
  induction front generalizing w with
  | nil =>
    have ends : ∀ next,statusByte w 10 ≠ .more next := by
      rintro next
      rcases w with ⟨state,n,d⟩
      cases state <;> simp [statusByte,StatusWalk.expect,isdigit]
    simp only [List.nil_append,statusWalk]
    cases step : statusByte w 10 with
    | more next => exact absurd step (ends next)
    | done => rfl
    | invalid => rfl
  | cons b front ih =>
    simp only [List.cons_append,statusWalk]
    cases statusByte w b with
    | more next => exact ih next
    | done => rfl
    | invalid => rfl

theorem walkReturns (w : StatusWalk) (buf : Bytes) : (statusWalk w buf).1 = 0 ∨ (statusWalk w buf).1 = -1 := by
  induction buf generalizing w with
  | nil => simp [statusWalk]
  | cons b buf ih =>
    simp only [statusWalk]
    cases statusByte w b with
    | more next => exact ih next
    | done => simp
    | invalid => simp

def BeginsWithStatus (text : Bytes) (code : Nat) : Prop := ∃ line rest,text = line ++ rest ∧ StatusLine [] [] code line

structure ReadsStatus (buf : Bytes) (len : Int) : Prop where
  taken : (httpParseStatusLine buf len).1 = 0 ↔ ∃ code,BeginsWithStatus (buf.take len.toNat) code
  code : (httpParseStatusLine buf len).1 = 0 → ∃ code,BeginsWithStatus (buf.take len.toNat) code ∧
    (httpParseStatusLine buf len).2 = some code
  ends : ∀ front rest other,buf = front ++ 10 :: rest → httpParseStatusLine buf len = httpParseStatusLine (front ++ 10 :: other) len
  refused : (httpParseStatusLine buf len).1 ≠ 0 → (httpParseStatusLine buf len).1 = -1

def SpacedStatus (text : Bytes) : Prop := ∃ gap gap' code line rest,text = line ++ rest ∧ Spaces gap ∧ Spaces gap' ∧
  (gap ≠ [] ∨ gap' ≠ []) ∧ StatusLine gap gap' code line

theorem parseTakes (buf : Bytes) (len : Int) (code : Nat) :
    httpParseStatusLine buf len = (0,some code) ↔ statusWalk {} (buf.take len.toNat) = (0,code) := by
  unfold httpParseStatusLine
  split
  · have none_ : len.toNat = 0 := by omega
    simp [none_,statusWalk]
  · simp [Prod.ext_iff]

theorem parseZero (buf : Bytes) (len : Int) : (httpParseStatusLine buf len).1 = 0 ↔
    ∃ code,httpParseStatusLine buf len = (0,some code) := by
  unfold httpParseStatusLine
  split
  · simp
  · simp [Prod.ext_iff]

theorem parseEnds (len : Int) (front rest other : Bytes) :
    httpParseStatusLine (front ++ 10 :: rest) len = httpParseStatusLine (front ++ 10 :: other) len := by
  unfold httpParseStatusLine
  split
  · rfl
  · rcases Nat.lt_or_ge front.length len.toNat with inside | short
    · obtain ⟨n,size⟩ : ∃ n,len.toNat = front.length + (n + 1) := ⟨len.toNat - front.length - 1,by omega⟩
      simp only [size,List.take_length_add_append,List.take_succ_cons]
      rw [walkEnds {} front (rest.take n) (other.take n)]
    · simp only [List.take_append_of_le_length short]

theorem parseReturns (buf : Bytes) (len : Int) (refused : (httpParseStatusLine buf len).1 ≠ 0) :
    (httpParseStatusLine buf len).1 = -1 := by
  unfold httpParseStatusLine at refused ⊢
  split
  · rfl
  · rename_i some_
    rw [if_neg some_] at refused
    exact (walkReturns {} (buf.take len.toNat)).resolve_left refused

theorem spacedMisread {buf : Bytes} {len : Int} (spaced : SpacedStatus (buf.take len.toNat)) : ¬ReadsStatus buf len := by
  obtain ⟨gap,gap',code,line,rest,text,blank,blank',some_,apart⟩ := spaced
  intro R
  have took := (parseTakes buf len code).mpr (walkLine.mpr ⟨gap,gap',line,rest,text,blank,blank',apart⟩)
  obtain ⟨code',line',rest',text',plain⟩ := R.taken.mp (by rw [took])
  have none_ : Spaces [] := fun b mem => absurd mem (by simp)
  obtain ⟨rfl,rfl⟩ := lineGaps blank blank' none_ none_ apart plain (text.symm.trans text')
  simp at some_

theorem compactRead {buf : Bytes} {len : Int} (compact : ¬SpacedStatus (buf.take len.toNat)) : ReadsStatus buf len := by
  have plain {code : Nat} (took : httpParseStatusLine buf len = (0,some code)) : BeginsWithStatus (buf.take len.toNat) code := by
    obtain ⟨gap,gap',line,rest,text,blank,blank',spaced⟩ := walkLine.mp ((parseTakes buf len code).mp took)
    by_cases none_ : gap = [] ∧ gap' = []
    · obtain ⟨rfl,rfl⟩ := none_
      exact ⟨line,rest,text,spaced⟩
    · exact absurd ⟨gap,gap',code,line,rest,text,blank,blank',not_and_or.mp none_,spaced⟩ compact
  constructor
  case taken =>
    constructor
    · intro zero
      obtain ⟨code,took⟩ := (parseZero buf len).mp zero
      exact ⟨code,plain took⟩
    · rintro ⟨code,line,rest,text,line_⟩
      have none_ : Spaces [] := fun b mem => absurd mem (by simp)
      rw [(parseTakes buf len code).mpr (walkLine.mpr ⟨[],[],line,rest,text,none_,none_,line_⟩)]
  case code =>
    intro zero
    obtain ⟨code,took⟩ := (parseZero buf len).mp zero
    exact ⟨code,plain took,by rw [took]⟩
  case ends =>
    rintro front rest other rfl
    exact parseEnds len front rest other
  case refused => exact parseReturns buf len

/-- The status lines are told from the rest exactly when no spaced one is taken for one. -/
theorem statusReadExactly (buf : Bytes) (len : Int) : ReadsStatus buf len ↔ ¬SpacedStatus (buf.take len.toNat) :=
  ⟨fun R spaced => spacedMisread spaced R,compactRead⟩

def spacedLine : Bytes := ascii "HTTP/1.1 2 00 OK\n"

theorem spacedTaken : httpParseStatusLine spacedLine 17 = (0,some 200) ∧ ¬ReadsStatus spacedLine 17 := by
  have text : spacedLine = ascii "HTTP/" ++ (49 :: [] ++ 46 :: ([49] ++ ([32] ++ 50 :: ([32] ++ 48 :: ([] ++ 48 ::
      (ascii " OK" ++ [10])))))) := by
    decide
  have tail : StatusTail (ascii " OK") := .inr ⟨32,ascii "OK",by decide,.inl rfl,by decide,by decide⟩
  have line := @StatusLine.mk 49 50 48 48 [] [49] [32] [32] [] (ascii " OK") [10] rfl (by simp [AllDigits]) (by simp)
    (by simp [AllDigits,isdigit]) (by simp) (by simp [Spaces]) rfl rfl rfl tail (.inl rfl)
  refine ⟨by decide,spacedMisread ⟨[32],[],_,_,[],?_,by simp [Spaces],by simp [Spaces],.inl (by simp),line⟩⟩
  rw [← text]
  decide

end MipsElfExec.SnoopClient
