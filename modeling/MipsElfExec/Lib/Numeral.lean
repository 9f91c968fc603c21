import Mathlib.Algebra.Order.Ring.Nat
import MipsElfExec.Lib.CString

/-! Numbers as texts of digits, most significant first. -/
namespace MipsElfExec.CString

def numeral (base n : Nat) : Bytes := (Nat.toDigits base n).map fun c => UInt8.ofNat c.toUpper.toNat

def numeralValue (digits : Bytes) : Nat := digits.foldl (fun n b => 10 * n + (b.toNat - 48)) 0

theorem everyByte {P : Byte → Prop} (all : ∀ n : Fin 256,P (UInt8.ofNat n)) (b : Byte) : P b := by
  simpa using all ⟨b.toNat,b.toNat_lt⟩

theorem digitLeast {b : Byte} (digit : isdigit b = true) : 48 ≤ b.toNat := by
  simp only [isdigit,Bool.and_eq_true,decide_eq_true_eq] at digit
  exact UInt8.le_iff_toNat_le.mp digit.1

theorem digitOther {b : Byte} (digit : isdigit b = true) {c : Byte} (small : c.toNat < 48) : b ≠ c := by
  rintro rfl
  exact absurd (digitLeast digit) (Nat.not_le.mpr small)

def digitByte (d : Nat) : Byte := UInt8.ofNat d.digitChar.toUpper.toNat

theorem numeralDigit {base n : Nat} (small : n < base) : numeral base n = [digitByte n] := by
  simp [numeral,digitByte,Nat.toDigits_of_lt_base small]

theorem numeralStep {base n : Nat} (some_ : 1 < base) (large : base ≤ n) :
    numeral base n = numeral base (n / base) ++ [digitByte (n % base)] := by
  simp [numeral,digitByte,Nat.toDigits_of_base_le some_ large]

theorem decimalByte {d : Nat} (small : d < 10) : (digitByte d).toNat = 48 + d := by
  revert d
  decide

theorem decimalByteIsDigit {d : Nat} (small : d < 10) : isdigit (digitByte d) = true := by
  revert d
  decide

theorem numeralIsDigits (n : Nat) : ∀ b ∈ numeral 10 n,isdigit b = true := by
  induction n using Nat.strong_induction_on with
  | h n ih =>
    rcases Nat.lt_or_ge n 10 with small | large
    · simpa [numeralDigit small] using decimalByteIsDigit small
    · intro b mem
      rcases List.mem_append.mp (numeralStep (by omega) large ▸ mem) with front | last
      · exact ih (n / 10) (by omega) b front
      · simpa [List.mem_singleton.mp last] using decimalByteIsDigit (Nat.mod_lt n (by omega))

theorem numeralSome (base n : Nat) : numeral base n ≠ [] := by
  simp [numeral,Nat.toDigits_ne_nil]

theorem numeralWidth {base n : Nat} (some_ : 1 < base) (k : Nat) (small : n < base ^ (k + 1)) : (numeral base n).length ≤ k + 1 := by
  induction k generalizing n with
  | zero => simp [numeralDigit (show n < base by simpa using small)]
  | succ k ih =>
    rcases Nat.lt_or_ge n base with one | large
    · simp [numeralDigit one]
    · have front := ih (Nat.div_lt_of_lt_mul (by rwa [Nat.pow_succ'] at small))
      simpa [numeralStep some_ large] using front

theorem numeralBound {digits : Bytes} (all : ∀ b ∈ digits,isdigit b = true) : numeralValue digits < 10 ^ digits.length := by
  unfold numeralValue
  induction digits using List.reverseRecOn with
  | nil => decide
  | append_singleton digits b ih =>
    have last := all b (by simp)
    have front := ih fun c mem => all c (by simp [mem])
    simp only [isdigit,Bool.and_eq_true,decide_eq_true_eq] at last
    have most : b.toNat ≤ 57 := UInt8.le_iff_toNat_le.mp last.2
    rw [List.foldl_append,List.foldl_cons,List.foldl_nil,List.length_append,List.length_singleton,Nat.pow_succ']
    omega

theorem numeralRead (n : Nat) : numeralValue (numeral 10 n) = n := by
  induction n using Nat.strong_induction_on with
  | h n ih =>
    rcases Nat.lt_or_ge n 10 with small | large
    · simp [numeralValue,numeralDigit small,decimalByte small]
    · have front := ih (n / 10) (by omega)
      have last := decimalByte (Nat.mod_lt n (show 0 < 10 by omega))
      unfold numeralValue at front ⊢
      rw [numeralStep (by omega) large,List.foldl_append,front]
      simp only [List.foldl_cons,List.foldl_nil,last]
      omega

end MipsElfExec.CString
