/-
# C integers and doubles

The conversions a C++ program on a 64-bit platform does without writing them:
a value stored into an `int` is taken modulo `2^32`, one converted to `size_t`
modulo `2^64`, an integer converted to `double` is rounded to 53 significant
bits (ties to even), and a `double` whose value is outside the range of `int`
has no defined conversion to `int`.  A quotient of integers is truncated towards zero.

Only integer-valued doubles occur, so a double is represented by its value.
-/
import Mathlib

namespace MachineInt

/-! ## `int` and `size_t` -/

/-- The largest `int`. -/
def intMax : ℤ := 2 ^ 31 - 1

/-- The smallest `int`. -/
def intMin : ℤ := -2 ^ 31

/-- The value an `int` has after `x` was stored into it. -/
def toInt (x : ℤ) : ℤ := Int.bmod x (2 ^ 32)

/-- The value of `x` as a `size_t`. -/
def toSize (x : ℤ) : ℤ := x % 2 ^ 64

/-- Storing a value that fits keeps it. -/
theorem toInt_of_range {x : ℤ} (h0 : intMin ≤ x) (h1 : x ≤ intMax) : toInt x = x := by
  unfold intMin at h0
  unfold intMax at h1
  rw [toInt, Int.bmod_def]
  split <;> omega

/-- Storing a value just beyond the largest `int` makes it negative. -/
theorem toInt_of_wrap {x : ℤ} (h0 : intMax < x) (h1 : x < 2 ^ 32) : toInt x = x - 2 ^ 32 := by
  unfold intMax at h0
  rw [toInt, Int.bmod_def]
  split <;> omega

/-- Converting a value that fits keeps it. -/
theorem toSize_of_range {x : ℤ} (h0 : 0 ≤ x) (h1 : x ≤ intMax) : toSize x = x := by
  unfold intMax at h1
  rw [toSize]
  omega

/-- Going through `size_t` on the way to an `int` is harmless. -/
theorem toInt_toSize (x : ℤ) : toInt (toSize x) = toInt x := by
  rw [toInt, toInt, toSize, Int.bmod_def, Int.bmod_def]
  omega

/-! ## Division -/

/-- A quotient that is truncated towards zero is at most `k`, for a `k` that is not negative. -/
theorem tdiv_le_iff {a b k : ℤ} (hb : 0 < b) (hk : 0 ≤ k) : a.tdiv b ≤ k ↔ a < (k + 1) * b := by
  rcases le_or_gt 0 a with ha | ha
  · rw [Int.tdiv_eq_ediv_of_nonneg ha, ← Int.lt_add_one_iff, Int.ediv_lt_iff_lt_mul hb]
  · -- a negative quotient is below both
    have hneg := Int.ediv_nonneg (Int.neg_nonneg_of_nonpos ha.le) hb.le
    have hprod : 0 ≤ (k + 1) * b := mul_nonneg (by omega) hb.le
    rw [← neg_neg a, Int.neg_tdiv, Int.tdiv_eq_ediv_of_nonneg (by omega)]
    constructor <;> intro _ <;> omega

/-- It is at least `-k` under the mirrored bound. -/
theorem neg_le_tdiv_iff {a b k : ℤ} (hb : 0 < b) (hk : 0 ≤ k) :
    -k ≤ a.tdiv b ↔ -((k + 1) * b) < a := by
  have hmirror := tdiv_le_iff (a := -a) hb hk
  rw [Int.neg_tdiv] at hmirror
  constructor <;> intro _ <;> omega

/-- Truncating division by a positive number is monotone. -/
theorem tdiv_le_tdiv {a a' b : ℤ} (hb : 0 < b) (h : a ≤ a') : a.tdiv b ≤ a'.tdiv b := by
  rcases le_or_gt 0 (a'.tdiv b) with hq | hq
  · have hlt := (tdiv_le_iff hb hq).mp le_rfl
    exact (tdiv_le_iff hb hq).mpr (h.trans_lt hlt)
  · by_contra hcon
    -- both are compared with the quotient that is too large
    have hq' : 0 ≤ -(a'.tdiv b + 1) := by omega
    have hlt := (neg_le_tdiv_iff (a := a) hb hq').mp (by omega)
    have hle := (neg_le_tdiv_iff (a := a') hb hq').mpr (hlt.trans_le h)
    omega

/-! ## Doubles -/

/-- The natural number `x` rounded to 53 significant bits, ties to even. -/
def roundNat (x : ℕ) : ℕ :=
  if x ≤ 2 ^ 53 then x
  else
    let unit := 2 ^ (Nat.log2 x - 52)
    let q := x / unit
    let r := x % unit
    if unit < 2 * r ∨ (2 * r = unit ∧ q % 2 = 1) then (q + 1) * unit else q * unit

/-- The double nearest to an integer. -/
def toDouble (x : ℤ) : ℤ := if 0 ≤ x then roundNat x.toNat else -roundNat (-x).toNat

/-- The `int` a double converts to, where the conversion is defined. -/
def doubleToInt (x : ℤ) : Option ℤ := if intMin ≤ x ∧ x ≤ intMax then some x else none

/-- Up to `2^53` every integer is a double. -/
theorem roundNat_of_le {x : ℕ} (h : x ≤ 2 ^ 53) : roundNat x = x := if_pos h

/-- Beyond `2^53` rounding does not fall below it. -/
theorem le_roundNat {x : ℕ} (h : 2 ^ 53 < x) : 2 ^ 53 ≤ roundNat x := by
  have hx : x ≠ 0 := by omega
  have hlog : 53 ≤ Nat.log2 x := (Nat.le_log2 hx).mpr h.le
  have hself : 2 ^ Nat.log2 x ≤ x := Nat.log2_self_le hx
  obtain ⟨e, he⟩ : ∃ e, Nat.log2 x = e + 52 := ⟨Nat.log2 x - 52, by omega⟩
  have hq : 2 ^ 52 ≤ x / 2 ^ e := by
    rw [Nat.le_div_iff_mul_le (by positivity), ← pow_add, Nat.add_comm 52 e, ← he]
    exact hself
  have hunit : 2 ≤ 2 ^ e := by
    calc 2 = 2 ^ 1 := rfl
      _ ≤ 2 ^ e := Nat.pow_le_pow_right (by omega) (by omega)
  have hprod : 2 ^ 53 ≤ x / 2 ^ e * 2 ^ e := by
    calc 2 ^ 53 = 2 ^ 52 * 2 := by norm_num
      _ ≤ x / 2 ^ e * 2 ^ e := Nat.mul_le_mul hq hunit
  simp only [roundNat, if_neg (by omega : ¬x ≤ 2 ^ 53), he, Nat.add_sub_cancel]
  split
  · exact hprod.trans (Nat.mul_le_mul_right _ (Nat.le_succ _))
  · exact hprod

/-- Integers up to `2^53` in absolute value are doubles. -/
theorem toDouble_of_range {x : ℤ} (h0 : -2 ^ 53 ≤ x) (h1 : x ≤ 2 ^ 53) : toDouble x = x := by
  unfold toDouble
  split
  · rw [roundNat_of_le (by omega)]
    omega
  · rw [roundNat_of_le (by omega)]
    omega

/-- A large integer becomes a large double. -/
theorem le_toDouble {x : ℤ} (h : 2 ^ 53 < x) : 2 ^ 53 ≤ toDouble x := by
  have hr := le_roundNat (x := x.toNat) (by omega)
  rw [toDouble, if_pos (by omega)]
  omega

/-- A very negative integer becomes a very negative double. -/
theorem toDouble_le {x : ℤ} (h : x < -2 ^ 53) : toDouble x ≤ -2 ^ 53 := by
  have hr := le_roundNat (x := (-x).toNat) (by omega)
  rw [toDouble, if_neg (by omega)]
  omega

/-- A conversion that is defined keeps the value, which fits an `int`. -/
theorem doubleToInt_eq_some_iff {x n : ℤ} :
    doubleToInt x = some n ↔ n = x ∧ intMin ≤ x ∧ x ≤ intMax := by
  unfold doubleToInt
  split
  · rename_i h
    simp only [Option.some.injEq]
    exact ⟨fun e => ⟨e.symm, h⟩, fun e => e.1.symm⟩
  · rename_i h
    simp only [reduceCtorEq, false_iff]
    exact fun e => h e.2

/-- **Adding two in doubles is exact wherever the result fits an `int`**: rounding
never brings a value that is out of range back into it. -/
theorem doubleToInt_toDouble_add_two (q : ℤ) :
    doubleToInt (toDouble (toDouble q + 2)) = doubleToInt (q + 2) := by
  have hrange : ∀ x : ℤ, ¬(intMin ≤ x ∧ x ≤ intMax) → doubleToInt x = none :=
    fun x hx => if_neg hx
  unfold intMin intMax at hrange
  by_cases hlo : q < -2 ^ 53
  · have h1 := toDouble_le hlo
    have h2 : toDouble (toDouble q + 2) ≤ -2 ^ 52 := by
      by_cases h : toDouble q + 2 < -2 ^ 53
      · exact (toDouble_le h).trans (by norm_num)
      · rw [toDouble_of_range (by omega) (by omega)]
        omega
    rw [hrange _ (by omega), hrange _ (by omega)]
  by_cases hhi : 2 ^ 53 - 2 < q
  · have h1 : 2 ^ 53 - 2 < toDouble q := by
      by_cases h : 2 ^ 53 < q
      · have := le_toDouble h
        omega
      · rw [toDouble_of_range (by omega) (by omega)]
        exact hhi
    have h2 := le_toDouble (x := toDouble q + 2) (by omega)
    rw [hrange _ (by omega), hrange _ (by omega)]
  · rw [toDouble_of_range (x := q) (by omega) (by omega),
      toDouble_of_range (by omega) (by omega)]

end MachineInt
