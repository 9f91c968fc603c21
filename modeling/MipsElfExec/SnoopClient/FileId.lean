import Mathlib.Algebra.Order.Ring.Nat
import Mathlib.Data.List.Perm.Basic
import MipsElfExec.Lib.Checked
import MipsElfExec.Lib.Numeral

/-! The id of a video file: a table drawn from the alphabet by a generator of remainders, and the characters that
the server's indices select from it. -/
namespace MipsElfExec.SnoopClient
open CString Access

def ykFileidLen : Nat := 66
def ykFileIdsRoom : Nat := 256

def alphabet : Bytes := ascii "abcdefghijklmnopqrstuvwxyzABCDEFGHIJKLMNOPQRSTUVWXYZ"
def symbolNumber : Bytes := ascii "/\\:._-1234567890"

def zf (dt : Nat) : Nat := (dt * 211 + 30031) % 65536

def delKeyInStr (input : Bytes) (key : Byte) : Bytes :=
  input.takeWhile (· ≠ key) ++ (input.dropWhile (· ≠ key)).drop 1

def ranomLoop : Nat → Nat → Bytes → Option Bytes
  | 0,_,_ => some []
  | left + 1,seed,pool =>
    let seed := zf seed
    let drawn := seed * pool.length / 65536
    if ykFileidLen + 4 ≤ drawn then none
    else
      let ch := pool.getD drawn 0
      (ranomLoop left seed (delKeyInStr pool ch)).map (ch :: ·)

def ranom8T (seed : Nat) : Option Bytes :=
  let pool := alphabet ++ symbolNumber
  ranomLoop (min pool.length (ykFileidLen + 2)) seed pool

def strtok (delim : Byte) (s : Bytes) : List Bytes := (s.splitOn delim).filter (· ≠ [])

def isspace (b : Byte) : Bool := b == 32 || 9 ≤ b && b ≤ 13

def atoiSigned (s : Bytes) : Int :=
  let value (s : Bytes) : Nat := numeralValue (s.takeWhile isdigit)
  match s.dropWhile isspace with
  | 45 :: s => -(min (value s) (2 ^ 31) : Nat)
  | 43 :: s => (min (value s) (2 ^ 31 - 1) : Nat)
  | s => (min (value s) (2 ^ 31 - 1) : Nat)

def readAt (table : Bytes) (i : Int) : Checked Byte :=
  if 0 ≤ i then
    match table[i.toNat]? with
    | some b => .ok b
    | none => .error .read
  else .error .read

def selectAll (table : Bytes) : List Int → Checked Bytes
  | [] => .ok []
  | i :: is => do
    let b ← readAt table i
    let bs ← selectAll table is
    return b :: bs

def indices (tokens : List Bytes) : List Int :=
  let values := (tokens.take ykFileidLen).map atoiSigned
  values ++ List.replicate (ykFileidLen - values.length) 0

def cgFun (streamfileids processed : Bytes) : Checked (Option Bytes) :=
  if ykFileIdsRoom ≤ streamfileids.length then .ok none
  else
    match strtok 42 streamfileids with
    | [] => .error .null
    | tokens => do return some (← selectAll processed (indices tokens))

def vnumStr (videoNum : Nat) : Checked Bytes :=
  let digits := numeral 16 videoNum
  if digits.length < 3 then .ok (if digits.length = 1 then 48 :: digits else digits) else .error .write

def ykGetFileid (streamfileids : Bytes) (videoNum seed : Nat) : Checked (Option Bytes) :=
  match ranom8T seed with
  | none => .ok none
  | some processed => do
    let some output ← cgFun streamfileids processed | return none
    let vnum ← vnumStr videoNum
    return some (cstr ((output.set 8 (vnum.getD 0 0)).set 9 (vnum.getD 1 0)))

section table

theorem delKeyErase (pool : Bytes) (ch : Byte) : delKeyInStr pool ch = pool.erase ch := by
  induction pool with
  | nil => rfl
  | cons b pool ih =>
    by_cases same : b = ch
    · simp [delKeyInStr,same]
    · simpa [delKeyInStr,same] using ih

theorem ranomPerm (pool : Bytes) (seed : Nat) (small : pool.length ≤ ykFileidLen + 4) :
    ∃ table,ranomLoop pool.length seed pool = some table ∧ table.Perm pool := by
  induction size : pool.length generalizing pool seed with
  | zero =>
    cases List.length_eq_zero_iff.mp size
    exact ⟨[],rfl,.refl _⟩
  | succ left ih =>
    have drawn : zf seed * pool.length / 65536 < pool.length := by
      have small : zf seed < 65536 := Nat.mod_lt _ (by omega)
      refine Nat.div_lt_of_lt_mul ?_
      exact Nat.mul_lt_mul_of_pos_right small (by omega)
    have inside : pool.getD (zf seed * pool.length / 65536) 0 ∈ pool := by
      simp [List.getD_eq_getElem?_getD,drawn]
    have erased := delKeyErase pool (pool.getD (zf seed * pool.length / 65536) 0)
    have one := List.length_erase_of_mem inside
    obtain ⟨table,drew,perm⟩ := ih (pool.erase _) (zf seed) (by rw [one]; omega) (by rw [one]; omega)
    refine ⟨_ :: table,?_,(perm.cons _).trans (List.perm_cons_erase inside).symm⟩
    simp only [ranomLoop,erased,drew,Option.map_some]
    exact if_neg (by omega)

theorem ranomTable (seed : Nat) : ∃ table,ranom8T seed = some table ∧ table.Perm (alphabet ++ symbolNumber) :=
  ranomPerm (alphabet ++ symbolNumber) seed (by decide)

end table

section selection

theorem digitFirst (b : Byte) (digit : isdigit b = true) : isspace b = false ∧ b ≠ 45 ∧ b ≠ 43 := by
  have above : ¬b ≤ 13 := by
    intro low
    have least := digitLeast digit
    have most : b.toNat ≤ 13 := UInt8.le_iff_toNat_le.mp low
    omega
  refine ⟨?_,digitOther digit (by decide),digitOther digit (by decide)⟩
  simp [isspace,digitOther digit (show (32 : Byte).toNat < 48 by decide),above]

theorem atoiDigits {digits : Bytes} (all : ∀ b ∈ digits,isdigit b = true) :
    atoiSigned digits = (min (numeralValue digits) (2 ^ 31 - 1) : Nat) := by
  cases digits with
  | nil => rfl
  | cons b digits =>
    obtain ⟨plain,minus,plus⟩ := digitFirst b (all b List.mem_cons_self)
    have whole : (b :: digits).takeWhile isdigit = b :: digits := List.takeWhile_eq_self_iff.mpr all
    unfold atoiSigned
    rw [List.dropWhile_cons_of_neg (by simp [plain])]
    dsimp only
    split
    · rename_i same
      exact absurd (List.cons.inj same).1 minus
    · rename_i same
      exact absurd (List.cons.inj same).1 plus
    · rw [whole]

theorem meetsRead (table : Bytes) (i : Int) {post : Byte → Prop} :
    Meets (readAt table i) post ↔ (0 ≤ i ∧ i < table.length) ∧ post (table.getD i.toNat 0) := by
  unfold readAt
  by_cases some_ : 0 ≤ i
  · rcases Nat.lt_or_ge i.toNat table.length with inside | beyond
    · simp [some_,inside,show i < table.length by omega]
    · simp [some_,show ¬i < table.length by omega]
  · simp [some_]

@[simp] theorem meetsSelect (table : Bytes) (is : List Int) {post : Bytes → Prop} : Meets (selectAll table is) post ↔
    (∀ i ∈ is,0 ≤ i ∧ i < table.length) ∧ post (is.map fun i => table.getD i.toNat 0) := by
  induction is generalizing post with
  | nil => simp [selectAll]
  | cons i is ih => simp [selectAll,meetsRead,ih,and_assoc]

@[simp] theorem meetsCgFun (ids table : Bytes) {post : Option Bytes → Prop} : Meets (cgFun ids table) post ↔
    if ykFileIdsRoom ≤ ids.length then post none
    else strtok 42 ids ≠ [] ∧ (∀ i ∈ indices (strtok 42 ids),0 ≤ i ∧ i < table.length) ∧
      post (some ((indices (strtok 42 ids)).map fun i => table.getD i.toNat 0)) := by
  unfold cgFun
  split
  · simp
  · split
    · rename_i none_
      simp [none_]
    · rename_i some_
      simp [show strtok 42 ids ≠ [] from some_]

def indicesText (ids : List Nat) (ending : Bytes) : Bytes := [42].intercalate (ids.map (numeral 10)) ++ ending

theorem numeralPlain (n : Nat) : (42 : Byte) ∉ numeral 10 n := fun mem =>
  absurd (numeralIsDigits n 42 mem) (by decide)

theorem tokensText {ids : List Nat} (some_ : ids ≠ []) {ending : Bytes} (last : ending = [] ∨ ending = [42]) :
    strtok 42 (indicesText ids ending) = ids.map (numeral 10) := by
  have clean : ∀ word ∈ ids.map (numeral 10),(42 : Byte) ∉ word := by
    intro word mem
    obtain ⟨n,-,rfl⟩ := List.mem_map.mp mem
    exact numeralPlain n
  have words := List.splitOn_intercalate (42 : Byte) clean (by simpa using some_)
  have kept : (ids.map (numeral 10)).filter (fun word => decide (word ≠ [])) = ids.map (numeral 10) := by
    refine List.filter_eq_self.mpr fun word mem => ?_
    obtain ⟨n,-,rfl⟩ := List.mem_map.mp mem
    simpa using numeralSome 10 n
  unfold strtok indicesText
  rcases last with rfl | rfl
  · rw [List.append_nil,words,kept]
  · rw [List.splitOn_append_cons_self,words,List.filter_append,kept]
    simp

theorem numeralShort {i : Nat} (small : i < 68) : (numeral 10 i).length ≤ 2 :=
  numeralWidth (by decide) 1 (by omega)

theorem idsShort {ids : List Nat} (small : ∀ i ∈ ids,i < 68) :
    ([42].intercalate (ids.map (numeral 10))).length ≤ 3 * ids.length := by
  induction ids with
  | nil => simp
  | cons i ids ih =>
    have first := numeralShort (small i List.mem_cons_self)
    have rest := ih fun j mem => small j (List.mem_cons_of_mem _ mem)
    cases ids with
    | nil => simp; omega
    | cons j ids =>
      simp only [List.map_cons,List.intercalate_cons_cons,List.length_append,List.length_cons,List.length_nil] at rest ⊢
      omega

theorem vnumTwo {v : Nat} (small : v < 256) : vnumStr v = .ok [digitByte (v / 16),digitByte (v % 16)] := by
  unfold vnumStr
  rcases Nat.lt_or_ge v 16 with one | two
  · have high : v / 16 = 0 := by omega
    simp [numeralDigit one,high,Nat.mod_eq_of_lt one]
    decide
  · simp [numeralStep (by omega) two,numeralDigit (show v / 16 < 16 by omega)]

theorem hexSome : ∀ d < 16,digitByte d ≠ 0 := by decide

theorem alphabetSome : ∀ b ∈ alphabet ++ symbolNumber,b ≠ 0 := by decide +kernel

theorem setSome {s : Bytes} {b : Byte} (all : ∀ c ∈ s,c ≠ 0) (some_ : b ≠ 0) (k : Nat) : ∀ c ∈ s.set k b,c ≠ 0 := by
  intro c mem
  rcases List.mem_or_eq_of_mem_set mem with inside | rfl
  · exact all c inside
  · exact some_

end selection

def fileidText (table : Bytes) (ids : List Nat) (videoNum : Nat) : Bytes :=
  ((ids.map fun i => table.getD i 0).set 8 (digitByte (videoNum / 16))).set 9 (digitByte (videoNum % 16))

/-- The table is the alphabet in another order, and the id is what the indices select, with the segment's number. -/
theorem fileidSelected (seed : Nat) : ∃ table,ranom8T seed = some table ∧ table.Perm (alphabet ++ symbolNumber) ∧
    ∀ (ids : List Nat) (ending : Bytes) (videoNum : Nat),ids.length = ykFileidLen → (∀ i ∈ ids,i < 68) →
      (ending = [] ∨ ending = [42]) → videoNum < 256 →
      ykGetFileid (indicesText ids ending) videoNum seed = .ok (some (fileidText table ids videoNum)) := by
  obtain ⟨table,drew,perm⟩ := ranomTable seed
  refine ⟨table,drew,perm,fun ids ending videoNum size small last byte => ?_⟩
  have some_ : ids ≠ [] := by
    rintro rfl
    cases size
  have size68 : table.length = 68 := perm.length_eq.trans (by decide)
  have short : ¬ykFileIdsRoom ≤ (indicesText ids ending).length := by
    have words := idsShort small
    have one : ending.length ≤ 1 := by rcases last with rfl | rfl <;> simp
    unfold indicesText ykFileIdsRoom
    rw [List.length_append]
    unfold ykFileidLen at size
    omega
  have read : ids.map (fun i => atoiSigned (numeral 10 i)) = ids.map Int.ofNat := by
    refine List.map_congr_left fun i mem => ?_
    have index := small i mem
    rw [atoiDigits (numeralIsDigits i),numeralRead,Nat.min_eq_left (by omega)]
    rfl
  have all : indices (ids.map (numeral 10)) = ids.map Int.ofNat := by
    unfold indices
    rw [List.take_of_length_le (by simp [size]),List.map_map]
    simp [Function.comp_def,read,size]
  have inside : ∀ i ∈ ids.map Int.ofNat,0 ≤ i ∧ i < table.length := by
    intro i mem
    obtain ⟨j,here,rfl⟩ := List.mem_map.mp mem
    have index := small j here
    exact ⟨Int.natCast_nonneg j,by rw [size68]; exact Int.ofNat_lt.mpr index⟩
  obtain ⟨_,selected,rfl⟩ := (@meetsCgFun (indicesText ids ending) table fun output =>
      output = some (ids.map fun i => table.getD i 0)).mpr (by
    rw [if_neg short,tokensText some_ last,all]
    exact ⟨by simpa using some_,inside,by simp [Function.comp_def]⟩)
  have chars : ∀ b ∈ fileidText table ids videoNum,b ≠ 0 := by
    refine setSome (setSome ?_ (hexSome _ (by omega)) 8) (hexSome _ (by omega)) 9
    intro b mem
    obtain ⟨i,here,rfl⟩ := List.mem_map.mp mem
    have index : i < table.length := size68.symm ▸ small i here
    simp only [List.getD_eq_getElem?_getD,List.getElem?_eq_getElem index,Option.getD_some]
    exact alphabetSome _ (perm.subset (List.getElem_mem index))
  have whole := cstrOfNoNul (s := fileidText table ids videoNum) fun mem => chars 0 mem rfl
  unfold ykGetFileid
  simpa [drew,selected,vnumTwo byte,bind,Except.bind,pure,Except.pure,fileidText] using whole

theorem fileidOne : ∃ table,ranom8T 1599 = some table ∧
    ykGetFileid (indicesText (List.replicate 66 40) []) 10 1599 = .ok (some (fileidText table (List.replicate 66 40) 10)) := by
  obtain ⟨table,drew,-,selects⟩ := fileidSelected 1599
  exact ⟨table,drew,selects (List.replicate 66 40) [] 10 (by decide) (by decide) (.inl rfl) (by decide)⟩

example : ykGetFileid (ascii (String.append "40*32*40*40*40*12*40*17*40*40*44*12*31*2*64*49*44*44*45*2*40*45*40*40*64*45*1*18*32*12*48*12*40*"
    "12*32*2*18*12*39*48*44*44*49*39*44*31*64*48*39*54*48*32*54*39*1*2*2*49*2*35*44*31*64*1*48*54*")) 0 1599 =
    .ok (some (ascii "030002010052F96855C90C006CBE32420239E2-4558-5F64-A43A-B998975F6B4A")) := by decide +kernel

end MipsElfExec.SnoopClient
