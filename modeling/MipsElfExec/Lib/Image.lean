import Mathlib.Algebra.Order.Ring.Nat
import Mathlib.Data.List.Induction
import MipsElfExec.Lib.Checked

/-! A file as an image in memory: reads and stores of its bytes by their place, and images that differ in a range only. -/
namespace MipsElfExec.Access
open CString

def part (image : Bytes) (off n : Nat) : Bytes := (image.drop off).take n

def load (image : Bytes) (off n : Nat) : Checked Bytes :=
  if off + n ≤ image.length then .ok (part image off n) else .error .read

def beValue (bytes : Bytes) : Nat := bytes.foldl (fun n b => 256 * n + b.toNat) 0

def loadBe (image : Bytes) (off n : Nat) : Checked Nat := beValue <$> load image off n

structure Agree (image other : Bytes) (lo hi : Nat) : Prop where
  size : other.length = image.length
  same : ∀ j,j < lo ∨ hi ≤ j → other[j]? = image[j]?

section images
variable {image other third bytes : Bytes} {lo hi p n m : Nat}

theorem loadInside (inside : p + n ≤ image.length) : load image p n = .ok (part image p n) := if_pos inside

theorem loadBeInside (inside : p + n ≤ image.length) : loadBe image p n = .ok (beValue (part image p n)) := by
  rw [loadBe,loadInside inside]
  rfl

theorem partLength (inside : p + n ≤ image.length) : (part image p n).length = n := by
  rw [part,List.length_take,List.length_drop]
  omega

theorem partAt (j : Nat) : (part image p n)[j]? = if j < n then image[p + j]? else none := by
  rw [part,List.getElem?_take]
  split
  · rw [List.getElem?_drop]
  · rfl

theorem beValueBound (bytes : Bytes) : beValue bytes < 256 ^ bytes.length := by
  unfold beValue
  induction bytes using List.reverseRecOn with
  | nil => decide
  | append_singleton bytes b ih =>
    have last := b.toNat_lt
    rw [List.foldl_append,List.foldl_cons,List.foldl_nil,List.length_append,List.length_singleton,Nat.pow_succ']
    omega

theorem partBound (image : Bytes) (p n : Nat) : beValue (part image p n) < 256 ^ n :=
  Nat.lt_of_lt_of_le (beValueBound _) (Nat.pow_le_pow_right (by decide) (List.length_take_le n _))

theorem partSplit (image : Bytes) (p n m : Nat) : part image p (n + m) = part image p n ++ part image (p + n) m := by
  rw [part,part,part,List.take_add,List.drop_drop]

theorem partPart (inside : p + m ≤ n) (place : Nat) : part (part image place n) p m = part image (place + p) m := by
  rw [part,part,part,List.drop_take,List.take_take,List.drop_drop,Nat.min_eq_left (by omega)]

theorem agreeRefl (image : Bytes) (lo hi : Nat) : Agree image image lo hi := ⟨rfl,fun _ _ => rfl⟩

theorem agreeWiden {a b : Nat} (agree : Agree image other lo hi) (low : a ≤ lo) (high : hi ≤ b) : Agree image other a b := ⟨agree.size,fun j away => agree.same j (by omega)⟩

theorem agreeTrans (agree : Agree image other lo hi) (more : Agree other third lo hi) : Agree image third lo hi :=
  ⟨more.size.trans agree.size,fun j away => (more.same j away).trans (agree.same j away)⟩

theorem partAgree (agree : Agree image other lo hi) (apart : p + n ≤ lo ∨ hi ≤ p) : part other p n = part image p n := by
  refine List.ext_getElem? fun j => ?_
  rw [partAt,partAt]
  split
  · exact agree.same (p + j) (by omega)
  · rfl

theorem loadAgree (agree : Agree image other lo hi) (apart : p + n ≤ lo ∨ hi ≤ p) (inside : p + n ≤ image.length) :
    loadBe other p n = .ok (beValue (part image p n)) := by
  rw [loadBeInside (by rw [agree.size]; exact inside),partAgree agree apart]

theorem agreeParts {count : Nat} (some_ : 0 < n) (agree : Agree image other p (p + n * count))
    (same : ∀ k < count,part other (p + n * k) n = part image (p + n * k) n) : other = image := by
  refine List.ext_getElem? fun j => ?_
  by_cases inside : p ≤ j ∧ j < p + n * count
  · have few : (j - p) / n < count := Nat.div_lt_of_lt_mul (by omega)
    have rest := Nat.mod_lt (j - p) some_
    have place : p + n * ((j - p) / n) + (j - p) % n = j := by
      have whole := Nat.div_add_mod (j - p) n
      omega
    have here := congrArg (fun bytes : Bytes => bytes[(j - p) % n]?) (same _ few)
    simpa only [partAt,if_pos rest,place] using here
  · exact agree.same j (by omega)

theorem blitInside (size : bytes.length = n) (inside : p + n ≤ image.length) : ∃ other,blit image p bytes = .ok other ∧
    Agree image other p (p + n) ∧ part other p n = bytes := by
  subst size
  have front : (image.take p).length = p := by rw [List.length_take]; omega
  refine ⟨_,if_pos inside,⟨?_,fun j away => ?_⟩,?_⟩
  · rw [List.length_append,List.length_append,front,List.length_drop]
    omega
  · rcases away with before | behind
    · rw [List.append_assoc,List.getElem?_append_left (by omega),List.getElem?_take_of_lt before]
    · rw [List.getElem?_append_right (by rw [List.length_append]; omega),List.getElem?_drop,List.length_append,front]
      congr 1
      omega
  · rw [part,List.append_assoc,List.drop_left' front,List.take_left]

end images

end MipsElfExec.Access
