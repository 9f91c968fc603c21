import Mathlib.Data.List.Basic
import Mathlib.Logic.Function.Basic

/-! A text laid out over blocks of one size: each block but the last is full, and the
next element goes to the first block with room. -/
namespace MipsElfExec.Blocks

variable {α ι : Type} {cap : Nat} {data data' : ι → List α} {ids : List ι} {text : List α}

def Laid (cap : Nat) (data : ι → List α) : List ι → List α → Prop
  | [],text => text = []
  | k :: ks,text => data k = text.take cap ∧ Laid cap data ks (text.drop cap)

def filling (cap : Nat) : List ι → Nat → Option ι
  | [],_ => none
  | k :: ks,len => if len < cap then some k else filling cap ks (len - cap)

theorem laidCongr (laid : Laid cap data ids text) (same : ∀ k ∈ ids,data' k = data k) : Laid cap data' ids text := by
  induction ids generalizing text with
  | nil => exact laid
  | cons k ks ih =>
    obtain ⟨here,rest⟩ := laid
    exact ⟨(same k List.mem_cons_self).trans here,ih rest fun j mem => same j (List.mem_cons_of_mem k mem)⟩

theorem laidEmpty (empty : ∀ k ∈ ids,data k = []) : Laid cap data ids [] := by
  induction ids with
  | nil => rfl
  | cons k ks ih =>
    refine ⟨(empty k List.mem_cons_self).trans List.take_nil.symm,?_⟩
    rw [List.drop_nil]
    exact ih fun j mem => empty j (List.mem_cons_of_mem k mem)

theorem laidText (laid : Laid cap data ids text) : ids.flatMap data = text := by
  induction ids generalizing text with
  | nil => exact laid.symm
  | cons k ks ih =>
    obtain ⟨here,rest⟩ := laid
    rw [List.flatMap_cons,here,ih rest,List.take_append_drop]

theorem fillingMem {k : ι} {len : Nat} (here : filling cap ids len = some k) : k ∈ ids := by
  induction ids generalizing len with
  | nil => cases here
  | cons j ks ih =>
    unfold filling at here
    split at here
    · cases Option.some.inj here
      exact List.mem_cons_self
    · exact List.mem_cons_of_mem j (ih here)

theorem fillingSome {len : Nat} (room : len < cap * ids.length) : ∃ k,filling cap ids len = some k := by
  induction ids generalizing len with
  | nil => simp at room
  | cons k ks ih =>
    unfold filling
    split
    · exact ⟨k,rfl⟩
    · refine ih ?_
      rw [List.length_cons,Nat.mul_succ] at room
      omega

theorem fillingZero (some_ : 0 < cap) (ids : List ι) : filling cap ids 0 = ids.head? := by
  cases ids with
  | nil => rfl
  | cons k ks => exact if_pos some_

def after [DecidableEq ι] (ids : List ι) (k : ι) : Option ι := ((ids.dropWhile (· ≠ k)).drop 1).head?

theorem laidPush [DecidableEq ι] (some_ : 0 < cap) (laid : Laid cap data ids text) (nodup : ids.Nodup) {k : ι}
    (here : filling cap ids text.length = some k) (a : α) :
    Laid cap (Function.update data k (data k ++ [a])) ids (text ++ [a]) ∧
    (if (data k ++ [a]).length = cap then after ids k else some k) = filling cap ids (text.length + 1) := by
  induction ids generalizing text with
  | nil => cases here
  | cons j ks ih =>
    obtain ⟨first,rest⟩ := laid
    obtain ⟨new,nodup⟩ := List.nodup_cons.mp nodup
    unfold filling at here ⊢
    split at here
    · rename_i room
      cases Option.some.inj here
      have whole : data k = text := first.trans (List.take_of_length_le (Nat.le_of_lt room))
      have size : (text ++ [a]).length = text.length + 1 := List.length_append
      have fits : (text ++ [a]).length ≤ cap := by omega
      rw [whole]
      constructor
      · refine ⟨?_,?_⟩
        · rw [Function.update_self,List.take_of_length_le fits]
        · rw [List.drop_of_length_le fits]
          rw [List.drop_of_length_le (Nat.le_of_lt room)] at rest
          refine laidCongr rest fun i mem => Function.update_of_ne ?_ _ _
          rintro rfl
          exact new mem
      · rw [size]
        split
        · rename_i full
          rw [if_neg (by omega),full,Nat.sub_self,fillingZero some_]
          simp [after]
        · rename_i short
          rw [if_pos (by omega)]
    · rename_i full
      have mem := fillingMem here
      have other : k ≠ j := fun same => new (same ▸ mem)
      rw [← List.length_drop] at here
      obtain ⟨laid,next⟩ := ih rest nodup here
      have past : cap ≤ text.length := Nat.le_of_not_lt full
      constructor
      · refine ⟨?_,?_⟩
        · rw [Function.update_of_ne other.symm,first,List.take_append_of_le_length past]
        · rw [List.drop_append_of_le_length past]
          exact laid
      · have skip : after (j :: ks) k = after ks k := by simp [after,other.symm]
        rw [skip,next,List.length_drop,if_neg (by omega)]
        congr 1
        omega

end MipsElfExec.Blocks
