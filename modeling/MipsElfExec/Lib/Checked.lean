import MipsElfExec.Lib.CString

/-! Programs that walk memory by pointers, with every access checked. A pointer is what lies behind it in its
object; a run that leaves an object, or goes on for ever, ends in a fault. A claim about a run is told by what
has to hold of the memory before it. -/
namespace MipsElfExec.Access
open CString

inductive Fault where
  | read | write | null | endless
  deriving DecidableEq, Repr

abbrev Checked (α : Type) := Except Fault α

variable {α β : Type} {post : α → Prop}

def Meets (x : Checked α) (post : α → Prop) : Prop := ∃ v,x = .ok v ∧ post v

def Safe (x : Checked α) : Prop := Meets x fun _ => True

@[simp] theorem meetsOk (v : α) : Meets (.ok v) post ↔ post v := by simp [Meets]

@[simp] theorem meetsPure (v : α) : Meets (pure v) post ↔ post v := meetsOk v

@[simp] theorem meetsError (fault : Fault) : ¬Meets (.error fault : Checked α) post := by simp [Meets]

@[simp] theorem meetsBind (x : Checked α) (f : α → Checked β) {post : β → Prop} :
    Meets (x >>= f) post ↔ Meets x fun v => Meets (f v) post := by
  cases x with
  | error fault => simp [bind,Except.bind]
  | ok v => simp [bind,Except.bind]

@[simp] theorem meetsMap (x : Checked α) (f : α → β) {post : β → Prop} :
    Meets (f <$> x) post ↔ Meets x fun v => post (f v) := by
  cases x with
  | error fault => simp [Functor.map,Except.map]
  | ok v => simp [Functor.map,Except.map]

@[simp] theorem meetsIf {c : Prop} [Decidable c] (x y : Checked α) :
    Meets (if c then x else y) post ↔ if c then Meets x post else Meets y post := by
  split <;> rfl

theorem meetsCongr {x : Checked α} {other : α → Prop} (same : ∀ v,x = .ok v → (post v ↔ other v)) :
    Meets x post ↔ Meets x other := by
  constructor
  · rintro ⟨v,ends,holds⟩
    exact ⟨v,ends,(same v ends).mp holds⟩
  · rintro ⟨v,ends,holds⟩
    exact ⟨v,ends,(same v ends).mpr holds⟩

theorem meetsRun {x : Checked α} {safe : Prop} (ends : Safe x ↔ safe) (meets : Meets x post ↔ safe) {v : α} (run : x = .ok v) :
    post v := by
  obtain ⟨_,same,holds⟩ := meets.mpr (ends.mp ⟨v,run,trivial⟩)
  cases run.symm.trans same
  exact holds

theorem meetsSplit {x : Checked α} {v : α} (read : ∀ {post : α → Prop},Meets x post → post v) :
    Meets x post ↔ Safe x ∧ post v := by
  constructor
  · intro meets
    have safe : Safe x := meets.imp fun _ both => ⟨both.1,trivial⟩
    exact ⟨safe,read meets⟩
  · rintro ⟨⟨w,run,-⟩,holds⟩
    have same : w = v := read (show Meets x (w = ·) from ⟨w,run,rfl⟩)
    exact ⟨w,run,same ▸ holds⟩

theorem okBind (v : α) (f : α → Checked β) : ((Except.ok v : Checked α) >>= f) = f v := rfl

theorem bindOk {x : Checked α} {f : α → Checked β} {v : β} (run : x >>= f = .ok v) : ∃ w,x = .ok w ∧ f w = .ok v := by
  cases x with
  | error fault => cases run
  | ok w => exact ⟨w,rfl,run⟩

-- A run that goes the same way where the first one gets through.
def Extends (x y : Checked α) : Prop := ∀ v,x = .ok v → y = .ok v

theorem extendsRefl (x : Checked α) : Extends x x := fun _ run => run

theorem extendsBind {x y : Checked α} {f g : α → Checked β} (first : Extends x y) (rest : ∀ v,Extends (f v) (g v)) :
    Extends (x >>= f) (y >>= g) := by
  intro w run
  cases through : x with
  | error fault =>
    rw [through] at run
    cases run
  | ok v =>
    rw [through] at run
    rw [first v through]
    exact rest v w run

def deref : Bytes → Checked Byte
  | [] => .error .read
  | b :: _ => .ok b

@[simp] theorem meetsDeref (cur : Bytes) {post : Byte → Prop} :
    Meets (deref cur) post ↔ ∃ b rest,cur = b :: rest ∧ post b := by
  cases cur with
  | nil => simp [deref]
  | cons b rest => simp [deref]

def memcmp (cur pat : Bytes) : Checked Bool := if pat.length ≤ cur.length then .ok (pat.isPrefixOf cur) else .error .read

@[simp] theorem meetsMemcmp (cur pat : Bytes) {post : Bool → Prop} :
    Meets (memcmp cur pat) post ↔ pat.length ≤ cur.length ∧ post (pat.isPrefixOf cur) := by
  unfold memcmp
  simp

def strstrChecked (cur pat : Bytes) : Checked (Option Bytes) :=
  if (0 : Byte) ∈ cur then .ok ((strstr cur pat).map cur.drop) else .error .read

@[simp] theorem meetsStrstr (cur pat : Bytes) {post : Option Bytes → Prop} :
    Meets (strstrChecked cur pat) post ↔ (0 : Byte) ∈ cur ∧ post ((strstr cur pat).map cur.drop) := by
  unfold strstrChecked
  simp

def strchrChecked (cur : Bytes) (c : Byte) : Checked (Option Bytes) :=
  if (0 : Byte) ∈ cur then .ok ((strchr cur c).map cur.drop) else .error .read

@[simp] theorem meetsStrchr (cur : Bytes) (c : Byte) {post : Option Bytes → Prop} :
    Meets (strchrChecked cur c) post ↔ (0 : Byte) ∈ cur ∧ post ((strchr cur c).map cur.drop) := by
  unfold strchrChecked
  simp

def scan (p : Byte → Bool) : Nat → Bytes → Checked (Bytes × Bytes)
  | _,[] => .error .read
  | 0,b :: cur => .ok ([],b :: cur)
  | left + 1,b :: cur => if p b then (fun val => (b :: val.1,val.2)) <$> scan p left cur else .ok ([],b :: cur)

@[simp] theorem meetsScan (p : Byte → Bool) (len : Nat) (cur : Bytes) {post : Bytes × Bytes → Prop} :
    Meets (scan p len cur) post ↔ ((cur.takeWhile p).take len).length < cur.length ∧
      post ((cur.takeWhile p).take len,cur.drop ((cur.takeWhile p).take len).length) := by
  induction cur generalizing len post with
  | nil => simp [scan]
  | cons b cur ih =>
    cases len with
    | zero => simp [scan]
    | succ left =>
      cases keep : p b with
      | true => simp [scan,keep,ih]
      | false => simp [scan,keep]

def skip (p : Byte → Bool) : Bytes → Checked Bytes
  | [] => .error .read
  | b :: cur => if p b then skip p cur else .ok (b :: cur)

@[simp] theorem meetsSkip (p : Byte → Bool) (cur : Bytes) {post : Bytes → Prop} :
    Meets (skip p cur) post ↔ cur.dropWhile p ≠ [] ∧ post (cur.dropWhile p) := by
  induction cur with
  | nil => simp [skip]
  | cons b cur ih =>
    cases keep : p b with
    | true => simp [skip,keep,ih]
    | false => simp [skip,keep]

def copyTo (p : Byte → Bool) : Nat → Bytes → Checked (Bytes × Bytes)
  | _,[] => .error .read
  | 0,_ :: _ => .error .write
  | room + 1,b :: cur => if p b then (fun val => (b :: val.1,val.2)) <$> copyTo p room cur else .ok ([],b :: cur)

@[simp] theorem meetsCopyTo (p : Byte → Bool) (room : Nat) (cur : Bytes) {post : Bytes × Bytes → Prop} :
    Meets (copyTo p room cur) post ↔ cur.dropWhile p ≠ [] ∧ (cur.takeWhile p).length < room ∧
      post (cur.takeWhile p,cur.dropWhile p) := by
  induction cur generalizing room post with
  | nil => simp [copyTo]
  | cons b cur ih =>
    cases room with
    | zero => simp [copyTo]
    | succ room =>
      cases keep : p b with
      | true => simp [copyTo,keep,ih]
      | false => simp [copyTo,keep]

def stringAt (text : Bytes) : Bytes := cstr text ++ [0]

section ends
variable {cur : Bytes} {p : Byte → Bool}

def Ends (cur : Bytes) : Prop := cur.getLast? = some 0

theorem endsSome (ends : Ends cur) : cur ≠ [] := by
  rintro rfl
  simp [Ends] at ends

theorem endsMem (ends : Ends cur) : (0 : Byte) ∈ cur := List.mem_of_getLast? ends

theorem endsDrop (ends : Ends cur) {k : Nat} (inside : cur.drop k ≠ []) : Ends (cur.drop k) := by
  have reach : ¬cur.length ≤ k := fun beyond => inside (List.drop_eq_nil_of_le beyond)
  simpa [Ends,List.getLast?_drop,reach] using ends

theorem endsScan (ends : Ends cur) (nul : p 0 = false) (len : Nat) : ((cur.takeWhile p).take len).length < cur.length := by
  have short : (cur.takeWhile p).length ≠ cur.length := by
    intro whole
    have all := List.takeWhile_eq_self_iff.mp ((List.takeWhile_prefix p).eq_of_length whole) 0 (endsMem ends)
    simp [nul] at all
  have part := (List.takeWhile_prefix p (l := cur)).length_le
  have cut := List.length_take_le' len (cur.takeWhile p)
  omega

theorem endsScanned (ends : Ends cur) (nul : p 0 = false) (len : Nat) :
    Ends (cur.drop ((cur.takeWhile p).take len).length) := by
  refine endsDrop ends fun none_ => ?_
  have short := endsScan ends nul len
  have beyond := List.drop_eq_nil_iff.mp none_
  omega

def Terminated (cur : Bytes) : Prop := ∃ s : Bytes,(0 : Byte) ∉ s ∧ cur = s ++ [0]

theorem terminatedEnds (text : Terminated cur) : Ends cur := by
  obtain ⟨s,-,rfl⟩ := text
  simp [Ends]

theorem terminatedSuffix {rest : Bytes} (text : Terminated cur) (suffix : rest <:+ cur) (some_ : rest ≠ []) :
    Terminated rest := by
  obtain ⟨s,clean,rfl⟩ := text
  obtain ⟨front,whole⟩ := suffix
  rcases List.eq_nil_or_concat rest with none_ | ⟨t,b,rfl⟩
  · exact absurd none_ some_
  · rw [List.concat_eq_append] at whole ⊢
    rw [← List.append_assoc] at whole
    obtain ⟨same,last⟩ := List.append_inj' whole rfl
    refine ⟨t,fun mem => clean (same ▸ List.mem_append_right front mem),?_⟩
    rw [last]

theorem terminatedTake {k : Nat} (text : Terminated cur) (short : k < cur.length) : (0 : Byte) ∉ cur.take k := by
  obtain ⟨s,clean,rfl⟩ := text
  rw [List.length_append,List.length_singleton] at short
  rw [List.take_append_of_le_length (by omega)]
  exact fun mem => clean (List.mem_of_mem_take mem)

theorem terminatedString (text : Bytes) : Terminated (stringAt text) := ⟨cstr text,cstrNoNul text,rfl⟩

end ends

section strings
variable {text : Bytes} {n : Nat}

theorem stringNul (text : Bytes) : (0 : Byte) ∈ stringAt text := List.mem_append_right _ List.mem_cons_self

theorem cstrString (text : Bytes) : cstr (stringAt text) = cstr text := cstrTerminated (cstr text) [] (cstrNoNul text)

theorem cstrDropClean (text : Bytes) (n : Nat) : cstr ((cstr text).drop n) = (cstr text).drop n :=
  cstrOfNoNul fun mem => cstrNoNul text (List.mem_of_mem_drop mem)

@[simp] theorem strstrString (text pat : Bytes) : strstr (stringAt text) pat = strstr text pat := by
  unfold strstr
  rw [cstrString]

theorem stringDrop (inside : n ≤ (cstr text).length) : (stringAt text).drop n = stringAt ((cstr text).drop n) := by
  unfold stringAt
  rw [List.drop_append_of_le_length inside,cstrDropClean]

theorem strstrText (clean : (0 : Byte) ∉ text) (pat : Bytes) : strstrChecked (text ++ [0]) pat =
    .ok ((search pat text).map fun k => text.drop k ++ [0]) := by
  unfold strstrChecked strstr
  rw [if_pos (List.mem_append_right _ List.mem_cons_self),cstrTerminated text [] clean]
  cases found : search pat text with
  | none => rfl
  | some k =>
    have inside := searchBound found
    simp only [Option.map_some]
    rw [List.drop_append_of_le_length (by omega)]

theorem skipText {p : Byte → Bool} (nul : p 0 = false) (text : Bytes) : skip p (text ++ [0]) =
    .ok (text.dropWhile p ++ [0]) := by
  induction text with
  | nil => simp [skip,nul]
  | cons b text ih =>
    cases keep : p b with
    | true => simp [skip,keep,ih]
    | false => simp [skip,keep]

end strings

section arrays
variable {room : Nat} {text : Bytes}

def poke (array : Bytes) (i : Nat) (b : Byte) : Checked Bytes := if i < array.length then .ok (array.set i b) else .error .write

def filled (room : Nat) (text : Bytes) : Bytes := text ++ List.replicate (room - text.length) 0

theorem filledSize (fits : text.length ≤ room) : (filled room text).length = room := by
  simp [filled]
  omega

theorem pokeNext (fits : text.length ≤ room) (b : Byte) : poke (filled room text) text.length b =
    if text.length < room then .ok (filled room (text ++ [b])) else .error .write := by
  unfold poke
  rw [filledSize fits]
  split
  · rename_i inside
    have more : room - text.length = (room - (text ++ [b]).length) + 1 := by simp; omega
    simp [filled,more,List.replicate_succ]
  · rfl

def blit (array : Bytes) (i : Nat) (bytes : Bytes) : Checked Bytes :=
  if i + bytes.length ≤ array.length then .ok (array.take i ++ bytes ++ array.drop (i + bytes.length)) else .error .write

theorem blitNext (fits : text.length ≤ room) (bytes : Bytes) : blit (filled room text) text.length bytes =
    if (text ++ bytes).length ≤ room then .ok (filled room (text ++ bytes)) else .error .write := by
  unfold blit
  rw [filledSize fits,List.length_append]
  split
  · have left : room - (text ++ bytes).length = room - text.length - bytes.length := by
      rw [List.length_append]
      omega
    rw [filled,filled,left,List.take_left,← List.drop_drop,List.drop_left,List.drop_replicate]
  · rfl

theorem filledEnd (inside : text.length < room) : filled room (text ++ [0]) = filled room text := by
  have more : room - text.length = (room - (text ++ [0]).length) + 1 := by simp; omega
  rw [filled,filled,more,List.replicate_succ,List.append_assoc,List.singleton_append]

theorem filledNul (inside : text.length < room) : ∃ rest,filled room text = text ++ 0 :: rest := by
  have more : room - text.length = (room - text.length - 1) + 1 := by omega
  exact ⟨List.replicate (room - text.length - 1) 0,by rw [filled,more,List.replicate_succ,Nat.add_sub_cancel]⟩

theorem cstrFilled (room : Nat) (text : Bytes) : cstr (filled room text) = cstr text := cstrZeros text _

theorem filledClosed (clean : (0 : Byte) ∉ text) : cstr (filled room (text ++ [0])) = text := by
  rw [cstrFilled,cstrTerminated text [] clean]

end arrays

end MipsElfExec.Access
