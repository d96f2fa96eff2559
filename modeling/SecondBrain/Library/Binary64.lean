import Mathlib.Data.Nat.Log
import Mathlib.Algebra.Order.Ring.Nat
import Mathlib.Tactic.Linarith

set_option autoImplicit false

/-! Binary64 numbers by their bits: their order, and the conversion of whole numbers. -/

namespace Binary64

/-- The order of numbers, NaNs apart, is the order of these integers; both zeros are equal. -/
def order (x : BitVec 64) : Int :=
  let magnitude : Nat := x.toNat % 2 ^ 63
  if x.msb then -magnitude else magnitude

/-- `n` without its last `shift` bits, rounded to nearest, ties to even. -/
def roundShift (n shift : Nat) : Nat :=
  let quotient := n / 2 ^ shift
  let rest := n % 2 ^ shift
  if 2 ^ shift < 2 * rest ∨ 2 * rest = 2 ^ shift ∧ quotient % 2 = 1 then quotient + 1 else quotient

/-- The significand of `n`, of 53 bits, for the exponent `e`. It may carry to the next exponent. -/
def significand (n e : Nat) : Nat := if e ≤ 52 then n * 2 ^ (52 - e) else roundShift n (e - 52)

/-- The bits of the number nearest to `n`. -/
def magnitude (n : Nat) : Nat :=
  if n = 0 then 0 else (1023 + n.log2) * 2 ^ 52 + (significand n n.log2 - 2 ^ 52)

def ofNat (n : Nat) : BitVec 64 := BitVec.ofNat 64 (magnitude n)

/-- `value as f64`. -/
def ofInt : Int → BitVec 64
  | .ofNat n => ofNat n
  | .negSucc n => BitVec.ofNat 64 (2 ^ 63 + magnitude (n + 1))

/-- The number is finite and has no fraction. -/
def isWhole (x : BitVec 64) : Bool :=
  let exponent := (x.extractLsb' 52 11).toNat
  let mantissa := (x.extractLsb' 0 52).toNat
  exponent != 2047 && (x <<< 1 == 0 || (1023 ≤ exponent && mantissa % 2 ^ (52 - (exponent - 1023)) == 0))

theorem roundShift_mono {n m : Nat} (shift : Nat) (le : n ≤ m) : roundShift n shift ≤ roundShift m shift := by
  have quotient : n / 2 ^ shift ≤ m / 2 ^ shift := Nat.div_le_div_right le
  have atN := Nat.div_add_mod n (2 ^ shift)
  have atM := Nat.div_add_mod m (2 ^ shift)
  unfold roundShift
  dsimp only
  rcases quotient.lt_or_eq with less | same
  · split <;> split <;> omega
  · have rest : n % 2 ^ shift ≤ m % 2 ^ shift := by
      rw [same] at atN
      omega
    rw [same]
    split
    · rename_i up
      rw [if_pos (by omega)]
    · split <;> omega

theorem roundShift_bounds {n shift k : Nat} (lower : 2 ^ (k + shift) ≤ n) (upper : n < 2 ^ (k + 1 + shift)) :
    2 ^ k ≤ roundShift n shift ∧ roundShift n shift ≤ 2 ^ (k + 1) := by
  have low : 2 ^ k ≤ n / 2 ^ shift := by
    rw [Nat.le_div_iff_mul_le (Nat.two_pow_pos shift), ← Nat.pow_add]
    exact lower
  have high : n / 2 ^ shift < 2 ^ (k + 1) := by
    rw [Nat.div_lt_iff_lt_mul (Nat.two_pow_pos shift), ← Nat.pow_add]
    exact upper
  unfold roundShift
  dsimp only
  split <;> omega

theorem significand_bounds {n : Nat} (pos : n ≠ 0) :
    2 ^ 52 ≤ significand n n.log2 ∧ significand n n.log2 ≤ 2 ^ 53 := by
  have lower : 2 ^ n.log2 ≤ n := Nat.log2_self_le pos
  have upper : n < 2 ^ (n.log2 + 1) := Nat.lt_log2_self
  unfold significand
  split
  · rename_i small
    constructor
    · calc 2 ^ 52 = 2 ^ n.log2 * 2 ^ (52 - n.log2) := by rw [← Nat.pow_add, Nat.add_sub_cancel' small]
        _ ≤ n * 2 ^ (52 - n.log2) := Nat.mul_le_mul_right _ lower
    · calc n * 2 ^ (52 - n.log2) ≤ 2 ^ (n.log2 + 1) * 2 ^ (52 - n.log2) := Nat.mul_le_mul_right _ upper.le
        _ = 2 ^ 53 := by rw [← Nat.pow_add]; congr 1; omega
  · rename_i large
    apply roundShift_bounds
    · rwa [Nat.add_sub_cancel' (by omega)]
    · rwa [show 52 + 1 + (n.log2 - 52) = n.log2 + 1 by omega]

theorem log2_mono {n m : Nat} (le : n ≤ m) : n.log2 ≤ m.log2 := by
  rw [Nat.log2_eq_log_two, Nat.log2_eq_log_two]
  exact Nat.log_mono_right le

theorem magnitude_mono {n m : Nat} (le : n ≤ m) : magnitude n ≤ magnitude m := by
  unfold magnitude
  split
  · exact Nat.zero_le _
  rename_i pos
  rw [if_neg (by omega)]
  have atN := significand_bounds pos
  have atM := significand_bounds (n := m) (by omega)
  rcases (log2_mono le).lt_or_eq with less | same
  · have gap : (1023 + n.log2) * 2 ^ 52 + 2 ^ 52 ≤ (1023 + m.log2) * 2 ^ 52 := by
      rw [← Nat.succ_mul]
      exact Nat.mul_le_mul_right _ (by omega)
    omega
  · have grows : significand n n.log2 ≤ significand m m.log2 := by
      rw [same]
      unfold significand
      split
      · exact Nat.mul_le_mul_right _ le
      · exact roundShift_mono _ le
    rw [same] at grows ⊢
    omega

theorem significand_small {n e : Nat} (small : e ≤ 52) : significand n e = n * 2 ^ (52 - e) := if_pos small

theorem log2_small {n : Nat} (pos : n ≠ 0) (small : n < 2 ^ 53) : n.log2 ≤ 52 :=
  Nat.le_of_lt_succ ((Nat.log2_lt pos).mpr small)

/-- Below 2^53 no two whole numbers are confused. -/
theorem magnitude_lt {n m : Nat} (less : n < m) (small : n < 2 ^ 53) : magnitude n < magnitude m := by
  refine lt_of_lt_of_le ?_ (magnitude_mono less)
  by_cases pos : n = 0
  · subst pos
    decide
  have low := log2_small pos small
  have atN := significand_bounds pos
  have atM := significand_bounds (n := n.succ) (Nat.succ_ne_zero n)
  unfold magnitude
  rw [if_neg pos, if_neg (Nat.succ_ne_zero n)]
  rcases (log2_mono (Nat.le_succ n)).lt_or_eq with next | same
  · have below : significand n n.log2 < 2 ^ 53 := by
      rw [significand_small low]
      calc n * 2 ^ (52 - n.log2) < 2 ^ (n.log2 + 1) * 2 ^ (52 - n.log2) :=
            Nat.mul_lt_mul_of_pos_right Nat.lt_log2_self (Nat.two_pow_pos _)
        _ = 2 ^ 53 := by rw [← Nat.pow_add]; congr 1; omega
    have gap : (1023 + n.log2) * 2 ^ 52 + 2 ^ 52 ≤ (1023 + n.succ.log2) * 2 ^ 52 := by
      rw [← Nat.succ_mul]
      exact Nat.mul_le_mul_right _ (by omega)
    omega
  · have grows : significand n n.log2 < significand n.succ n.succ.log2 := by
      rw [← same, significand_small low, significand_small low]
      exact Nat.mul_lt_mul_of_pos_right (Nat.lt_succ_self n) (Nat.two_pow_pos _)
    rw [← same] at grows atM ⊢
    omega

theorem magnitude_bound {n : Nat} (word : n < 2 ^ 64) : magnitude n < 2 ^ 63 := by
  by_cases pos : n = 0
  · subst pos
    decide
  have bounds := significand_bounds pos
  have top : n.log2 < 64 := (Nat.log2_lt pos).mpr word
  rw [magnitude, if_neg pos]
  have most : (1023 + n.log2) * 2 ^ 52 ≤ (1023 + 63) * 2 ^ 52 := Nat.mul_le_mul_right _ (by omega)
  omega

theorem order_ofNat {n : Nat} (word : n < 2 ^ 64) : order (ofNat n) = magnitude n := by
  have bound := magnitude_bound word
  have value : (ofNat n).toNat = magnitude n := by
    rw [ofNat, BitVec.toNat_ofNat]
    exact Nat.mod_eq_of_lt (by omega)
  have positive : (ofNat n).msb = false := by
    rw [BitVec.msb_eq_false_iff_two_mul_lt, value]
    omega
  rw [order, positive, value, Nat.mod_eq_of_lt bound]
  rfl

/-- The conversion keeps the order, and confuses nothing with a number below 2^53. -/
theorem order_ofNat_lt {n m : Nat} (small : n < 2 ^ 53) (word : m < 2 ^ 64) :
    order (ofNat n) < order (ofNat m) ↔ n < m := by
  rw [order_ofNat (small.trans (by decide)), order_ofNat word, Int.ofNat_lt]
  constructor
  · intro less
    by_contra le
    exact absurd (magnitude_mono (not_lt.mp le)) (not_le.mpr less)
  · exact fun less => magnitude_lt less small

end Binary64
