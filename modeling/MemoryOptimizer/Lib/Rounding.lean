import Mathlib.Data.Int.Log
import Mathlib.Data.Rat.Floor
import Mathlib.Tactic.Linarith
import Mathlib.Tactic.Positivity

/-!
# Rounding to binary floating point

`roundTo p` rounds a rational to the nearest one with a significand of `p` bits,
ties to even, without a limit on the exponent: what `float` (`p = 24`) and
`double` (`p = 53`) do to numbers that are far from overflow and underflow.

* `abs_roundTo_sub_le` — the relative error is at most `2 ^ (1 - p)`; the signs
  and the one-sided bounds below follow from it.
-/

namespace MemoryOptimizer

/-- The nearest integer, ties to even. -/
def roundEven (q : ℚ) : ℤ :=
  if Int.fract q < 1 / 2 then ⌊q⌋
  else if 1 / 2 < Int.fract q then ⌊q⌋ + 1
  else if ⌊q⌋ % 2 = 0 then ⌊q⌋ else ⌊q⌋ + 1

/-- The unit in the last place of a number, for significands of `p` bits. -/
def ulp (p : ℕ) (q : ℚ) : ℚ := 2 ^ (Int.log 2 |q| - p + 1)

/-- Rounding to a significand of `p` bits. -/
def roundTo (p : ℕ) (q : ℚ) : ℚ := roundEven (q / ulp p q) * ulp p q

/-- Conversion to an integer type, towards zero. -/
def truncate (q : ℚ) : ℤ := if 0 ≤ q then ⌊q⌋ else ⌈q⌉

theorem roundEven_eq (q : ℚ) : roundEven q = ⌊q⌋ ∨ roundEven q = ⌊q⌋ + 1 := by
  unfold roundEven
  split
  · exact .inl rfl
  · split
    · exact .inr rfl
    · split
      · exact .inl rfl
      · exact .inr rfl

theorem abs_roundEven_sub_le (q : ℚ) : |(roundEven q : ℚ) - q| ≤ 1 := by
  have hle := Int.floor_le q
  have hlt := Int.lt_floor_add_one q
  rw [abs_le]
  rcases roundEven_eq q with h | h <;> rw [h] <;> push_cast <;> constructor <;> linarith

theorem ulp_pos (p : ℕ) (q : ℚ) : 0 < ulp p q := zpow_pos two_pos _

theorem ulp_le (p : ℕ) {q : ℚ} (hq : q ≠ 0) : ulp p q ≤ |q| * 2 ^ (1 - p : ℤ) := by
  have hlog := Int.zpow_log_le_self (b := 2) (by decide) (abs_pos.mpr hq)
  have hsplit : ulp p q = 2 ^ (Int.log 2 |q|) * 2 ^ (1 - p : ℤ) := by
    rw [ulp, ← zpow_add₀ (by norm_num)]
    congr 1
    ring
  rw [hsplit]
  exact mul_le_mul_of_nonneg_right (by exact_mod_cast hlog) (zpow_pos two_pos _).le

/-- The relative error of rounding. -/
theorem abs_roundTo_sub_le (p : ℕ) (q : ℚ) : |roundTo p q - q| ≤ |q| * 2 ^ (1 - p : ℤ) := by
  rcases eq_or_ne q 0 with rfl | hq
  · simp [roundTo, roundEven]
  · have hpos := ulp_pos p q
    have herr := abs_roundEven_sub_le (q / ulp p q)
    have hfactor : roundTo p q - q = (roundEven (q / ulp p q) - q / ulp p q) * ulp p q := by
      rw [roundTo, sub_mul, div_mul_cancel₀ q hpos.ne']
    calc |roundTo p q - q| = |(roundEven (q / ulp p q) : ℚ) - q / ulp p q| * ulp p q := by
          rw [hfactor, abs_mul, abs_of_pos hpos]
      _ ≤ 1 * ulp p q := mul_le_mul_of_nonneg_right herr hpos.le
      _ = ulp p q := one_mul _
      _ ≤ |q| * 2 ^ (1 - p : ℤ) := ulp_le p hq

section Sign

variable {p : ℕ} {q : ℚ}

/-- A bound on the relative error, for the two formats in use. -/
theorem error_le (hp : 24 ≤ p) : (2 : ℚ) ^ (1 - p : ℤ) ≤ 1 / 2 ^ 23 := by
  calc (2 : ℚ) ^ (1 - p : ℤ) ≤ 2 ^ (-23 : ℤ) := zpow_le_zpow_right₀ (by norm_num) (by omega)
    _ = 1 / 2 ^ 23 := by norm_num

theorem abs_roundTo_sub_le_div (hp : 24 ≤ p) : |roundTo p q - q| ≤ |q| / 2 ^ 23 := by
  refine (abs_roundTo_sub_le p q).trans ?_
  rw [div_eq_mul_one_div]
  exact mul_le_mul_of_nonneg_left (error_le hp) (abs_nonneg q)

theorem roundTo_bounds (hp : 24 ≤ p) :
    q - |q| / 2 ^ 23 ≤ roundTo p q ∧ roundTo p q ≤ q + |q| / 2 ^ 23 := by
  have herr := abs_le.mp (abs_roundTo_sub_le_div (q := q) hp)
  constructor <;> linarith [herr.1, herr.2]

theorem roundTo_nonneg (hp : 24 ≤ p) (hq : 0 ≤ q) : 0 ≤ roundTo p q := by
  have h := (roundTo_bounds (q := q) hp).1
  rw [abs_of_nonneg hq] at h
  linarith

/-- The error of a product of two rounded numbers. -/
theorem abs_roundTo_mul_sub_le (hp : 24 ≤ p) (x y : ℚ) :
    |roundTo p (roundTo p x * roundTo p y) - x * y| ≤ |x| * |y| / 2 ^ 20 := by
  have hx := abs_roundTo_sub_le_div (q := x) hp
  have hy := abs_roundTo_sub_le_div (q := y) hp
  have hxy := abs_roundTo_sub_le_div (q := roundTo p x * roundTo p y) hp
  have hnonneg : 0 ≤ |x| * |y| := mul_nonneg (abs_nonneg x) (abs_nonneg y)
  have hbound : |roundTo p x| ≤ |x| * (1 + 1 / 2 ^ 23) := by
    have := abs_sub_abs_le_abs_sub (roundTo p x) x
    linarith
  have hprod : |roundTo p x * roundTo p y - x * y| ≤ |x| * |y| * (3 / 2 ^ 23) := by
    have hsplit : roundTo p x * roundTo p y - x * y =
        roundTo p x * (roundTo p y - y) + (roundTo p x - x) * y := by ring
    calc |roundTo p x * roundTo p y - x * y|
        ≤ |roundTo p x| * |roundTo p y - y| + |roundTo p x - x| * |y| := by
          rw [hsplit, ← abs_mul, ← abs_mul]
          exact abs_add_le _ _
      _ ≤ |x| * (1 + 1 / 2 ^ 23) * (|y| / 2 ^ 23) + |x| / 2 ^ 23 * |y| :=
          add_le_add (mul_le_mul hbound hy (abs_nonneg _) (by positivity))
            (mul_le_mul_of_nonneg_right hx (abs_nonneg y))
      _ ≤ |x| * |y| * (3 / 2 ^ 23) := by linarith
  have htri := abs_sub_le (roundTo p (roundTo p x * roundTo p y)) (roundTo p x * roundTo p y)
    (x * y)
  have hsize := abs_sub_abs_le_abs_sub (roundTo p x * roundTo p y) (x * y)
  rw [abs_mul x y] at hsize
  linarith

end Sign

theorem truncate_nonneg {q : ℚ} (hq : 0 ≤ q) : 0 ≤ truncate q := by
  rw [truncate, if_pos hq]
  exact Int.floor_nonneg.mpr hq

theorem truncate_le_of_le {q : ℚ} {n : ℤ} (hq : 0 ≤ q) (h : q ≤ n) : truncate q ≤ n := by
  rw [truncate, if_pos hq]
  exact_mod_cast (Int.floor_le q).trans h

theorem le_truncate {q : ℚ} {n : ℤ} (h : n ≤ q) : n ≤ truncate q := by
  unfold truncate
  split
  · exact Int.le_floor.mpr h
  · exact_mod_cast h.trans (Int.le_ceil q)

theorem truncate_lt {q : ℚ} {n : ℤ} (hn : 0 < n) (h : q < n) : truncate q < n := by
  unfold truncate
  split
  · exact Int.floor_lt.mpr h
  · next hq => exact (Int.ceil_le.mpr (by exact_mod_cast (not_le.mp hq).le)).trans_lt hn

@[simp] theorem truncate_intCast (n : ℤ) : truncate n = n := by
  simp [truncate]

theorem truncate_bounds (q : ℚ) : (truncate q : ℚ) < q + 1 ∧ q - 1 < truncate q := by
  unfold truncate
  split
  · exact ⟨(Int.floor_le q).trans_lt (lt_add_one q), by linarith [Int.lt_floor_add_one q]⟩
  · exact ⟨Int.ceil_lt_add_one q, by linarith [Int.le_ceil q]⟩

end MemoryOptimizer
