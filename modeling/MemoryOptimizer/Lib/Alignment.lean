import MemoryOptimizer.Lib.Words
import Mathlib.Data.Nat.Bitwise

/-!
# Rounding to powers of two

`round_down` and `round_up` of the kernel, on 64-bit words: `roundDown` clears
the low bits, `roundUp` fills them and adds one.  For a power of two they are the
nearest multiples below and above (`roundDown_eq`, `roundUp_eq`).
-/

namespace MemoryOptimizer

/-- `round_down(x, y)`. -/
def roundDown (x y : ℕ) : ℕ := x &&& (2 ^ 64 - 1 - (y - 1))

/-- `round_up(x, y)`. -/
def roundUp (x y : ℕ) : ℕ := ulong ((usub x 1 ||| (y - 1)) + 1)

theorem roundDown_eq {x k : ℕ} (hx : x < 2 ^ 64) (hk : k ≤ 64) :
    roundDown x (2 ^ k) = x / 2 ^ k * 2 ^ k := by
  have hmask : 2 ^ 64 - 1 - (2 ^ k - 1) = (2 ^ (64 - k) - 1) <<< k := by
    have hpow : 2 ^ (64 - k) * 2 ^ k = 2 ^ 64 := by rw [← Nat.pow_add, Nat.sub_add_cancel hk]
    have hpos := Nat.two_pow_pos k
    rw [Nat.shiftLeft_eq, Nat.sub_mul, hpow]
    omega
  have hdiv : x / 2 ^ k * 2 ^ k = (x >>> k) <<< k := by
    rw [Nat.shiftLeft_eq, Nat.shiftRight_eq_div_pow]
  rw [roundDown, hmask, hdiv]
  refine Nat.eq_of_testBit_eq fun i => ?_
  simp only [Nat.testBit_and, Nat.testBit_shiftLeft, Nat.testBit_shiftRight,
    Nat.testBit_two_pow_sub_one]
  by_cases hi : k ≤ i
  · by_cases h64 : i < 64
    · simp [hi, show i - k < 64 - k by omega]
    · have hbit : x.testBit i = false := Nat.testBit_lt_two_pow
        (hx.trans_le (Nat.pow_le_pow_right (by decide) (not_lt.mp h64)))
      simp [hi, hbit, show k + (i - k) = i by omega]
  · simp [hi]

theorem roundUp_eq {x k : ℕ} (hpos : 0 < x) (hx : x < 2 ^ 64) :
    roundUp x (2 ^ k) = ulong (((x - 1) / 2 ^ k + 1) * 2 ^ k) := by
  have hfill : (x - 1) ||| (2 ^ k - 1) = (x - 1) / 2 ^ k * 2 ^ k + (2 ^ k - 1) := by
    have hlt : 2 ^ k - 1 < 2 ^ k := Nat.sub_lt (Nat.two_pow_pos k) Nat.one_pos
    rw [← Nat.shiftLeft_eq, Nat.shiftLeft_add_eq_or_of_lt hlt, ← Nat.shiftRight_eq_div_pow]
    refine Nat.eq_of_testBit_eq fun i => ?_
    simp only [Nat.testBit_or, Nat.testBit_shiftLeft, Nat.testBit_shiftRight,
      Nat.testBit_two_pow_sub_one]
    by_cases hi : k ≤ i
    · simp [hi, not_lt.mpr hi]
    · simp [not_le.mp hi]
  rw [roundUp, usub_of_le hpos hx, hfill, Nat.add_mul, Nat.one_mul, Nat.add_assoc,
    Nat.sub_add_cancel (Nat.two_pow_pos k)]

theorem roundDown_le (x y : ℕ) : roundDown x y ≤ x := Nat.and_le_left

/-- Rounding down an address of the block that starts at a multiple of its size. -/
theorem roundDown_eq_of_le {x k b : ℕ} (hx : x < 2 ^ 64) (hk : k ≤ 64) (hle : b * 2 ^ k ≤ x)
    (hlt : x < b * 2 ^ k + 2 ^ k) : roundDown x (2 ^ k) = b * 2 ^ k := by
  rw [roundDown_eq hx hk]
  congr 1
  rw [Nat.div_eq_iff (Nat.two_pow_pos k)]
  omega

/-- The end of the block of `x` is where a range inside it rounds up to. -/
theorem roundUp_of_mem {x y k : ℕ} (hk : k ≤ 64) (hxy : x < y) (hy : y < 2 ^ 64)
    (hle : y ≤ roundDown x (2 ^ k) + 2 ^ k) :
    roundUp y (2 ^ k) = ulong (roundDown x (2 ^ k) + 2 ^ k) := by
  have hx : x < 2 ^ 64 := hxy.trans hy
  have hpow := Nat.two_pow_pos k
  rw [roundDown_eq hx hk] at hle ⊢
  rw [roundUp_eq (Nat.zero_lt_of_lt hxy) hy]
  have hdiv : (y - 1) / 2 ^ k = x / 2 ^ k := by
    rw [Nat.div_eq_iff hpow]
    have := Nat.div_mul_le_self x (2 ^ k)
    omega
  rw [hdiv, Nat.add_mul, Nat.one_mul]

theorem roundDown_of_mod_eq_zero {x k : ℕ} (hx : x < 2 ^ 64) (hk : k ≤ 64)
    (hmod : x % 2 ^ k = 0) : roundDown x (2 ^ k) = x := by
  rw [roundDown_eq hx hk, Nat.div_mul_cancel (Nat.dvd_of_mod_eq_zero hmod)]

/-- Two addresses round down to the same one if they have the same index. -/
theorem roundDown_eq_iff {x y k : ℕ} (hx : x < 2 ^ 64) (hy : y < 2 ^ 64) (hk : k ≤ 64) :
    roundDown x (2 ^ k) = roundDown y (2 ^ k) ↔ x >>> k = y >>> k := by
  rw [roundDown_eq hx hk, roundDown_eq hy hk, Nat.shiftRight_eq_div_pow,
    Nat.shiftRight_eq_div_pow]
  exact Nat.mul_left_inj (Nat.two_pow_pos k).ne'

/-- The block of an address below a bigger block ends in front of it. -/
theorem block_end_le {x n j k : ℕ} (hjk : j ≤ k) (hlt : x < n * 2 ^ k) :
    (x / 2 ^ j + 1) * 2 ^ j ≤ n * 2 ^ k := by
  obtain ⟨d, rfl⟩ := Nat.exists_eq_add_of_le hjk
  rw [Nat.pow_add, Nat.mul_comm (2 ^ j), ← Nat.mul_assoc] at hlt ⊢
  exact Nat.mul_le_mul_right _ (Nat.succ_le_of_lt
    ((Nat.div_lt_iff_lt_mul (Nat.two_pow_pos j)).mpr hlt))

/-- An address above `x` in another block is behind the block of `x`. -/
theorem block_end_le_of_ne {x y k : ℕ} (hle : x ≤ y) (hne : y >>> k ≠ x >>> k) :
    (x / 2 ^ k + 1) * 2 ^ k ≤ y := by
  rw [Nat.shiftRight_eq_div_pow, Nat.shiftRight_eq_div_pow] at hne
  have hdiv : x / 2 ^ k < y / 2 ^ k := lt_of_le_of_ne (Nat.div_le_div_right hle) (Ne.symm hne)
  exact (Nat.mul_le_mul_right (2 ^ k) (Nat.succ_le_of_lt hdiv)).trans (Nat.div_mul_le_self y _)

end MemoryOptimizer
