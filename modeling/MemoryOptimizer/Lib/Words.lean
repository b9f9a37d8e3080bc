import Mathlib.Data.Nat.Basic
import Mathlib.Tactic.Linarith

/-!
# Machine words

C's unsigned arithmetic, on natural numbers: `ulong` and `uint` reduce a result
to 64 and 32 bits, `uint8` to 8.  `ulongOfInt` is the conversion of a C `int`
to `unsigned long`, which sign-extends; `ulongOfSigned` is the same where an
`int` is modelled by an integer, and `intOfUlong` and `longOfUlong` the conversions
back to `int` and `long`; `intOfLong` goes from `long` to `int`.
-/

namespace MemoryOptimizer

/-- Reduction to `unsigned long`. -/
def ulong (n : ℕ) : ℕ := n % 2 ^ 64

/-- Subtraction of `unsigned long`s, which wraps. -/
def usub (a b : ℕ) : ℕ := ulong (a + (2 ^ 64 - b))

/-- Reduction to `unsigned int`. -/
def uint (n : ℕ) : ℕ := n % 2 ^ 32

/-- Reduction to `uint8_t`. -/
def uint8 (n : ℕ) : ℕ := n % 2 ^ 8

/-- Conversion to `signed char`, which is `int8_t`. -/
def signedChar (n : ℤ) : ℤ := n.bmod (2 ^ 8)

theorem ulong_of_lt {n : ℕ} (h : n < 2 ^ 64) : ulong n = n := Nat.mod_eq_of_lt h

theorem ulong_lt (n : ℕ) : ulong n < 2 ^ 64 := Nat.mod_lt _ (by norm_num)

theorem usub_of_le {a b : ℕ} (h : b ≤ a) (ha : a < 2 ^ 64) : usub a b = a - b := by
  unfold usub ulong
  omega

/-- `(unsigned long)i` for an `int i`. -/
def ulongOfInt (i : Int32) : ℕ := (i.toInt % 2 ^ 64).toNat

/-- `(unsigned long)i` for an `int i` given as an integer. -/
def ulongOfSigned (i : ℤ) : ℕ := (i % 2 ^ 64).toNat

/-- `(int)n` for an `unsigned long n`. -/
@[irreducible]
def intOfUlong (n : ℕ) : ℤ := (n : ℤ).bmod (2 ^ 32)

/-- `(int)n` for a `long n`. -/
def intOfLong (n : ℤ) : ℤ := n.bmod (2 ^ 32)

/-- `(long)n` for an `unsigned long n`. -/
def longOfUlong (n : ℕ) : ℤ := (n : ℤ).bmod (2 ^ 64)

theorem ulongOfSigned_of_nonneg {i : ℤ} (h0 : 0 ≤ i) (h : i < 2 ^ 64) :
    (ulongOfSigned i : ℤ) = i := by
  rw [ulongOfSigned, Int.emod_eq_of_lt h0 h, Int.toNat_of_nonneg h0]

/-- A `long` from which an `unsigned long` is subtracted. -/
theorem longOfUlong_usub_ulongOfSigned {a : ℤ} {b : ℕ} (hlow : -2 ^ 63 ≤ a - b)
    (hhigh : a < 2 ^ 63) (hb : b < 2 ^ 64) :
    longOfUlong (usub (ulongOfSigned a) b) = a - b := by
  unfold longOfUlong usub ulong ulongOfSigned
  rw [Int.bmod_def]
  split <;> omega

theorem longOfUlong_usub {a b : ℕ} (ha : a < 2 ^ 63) (hb : b < 2 ^ 63) :
    longOfUlong (usub a b) = (a : ℤ) - b := by
  unfold longOfUlong usub ulong
  rw [Int.bmod_def]
  split <;> omega

theorem signedChar_of_bounds {n : ℤ} (hge : -128 ≤ n) (hle : n ≤ 127) : signedChar n = n := by
  unfold signedChar
  rw [Int.bmod_def]
  split <;> omega

theorem intOfUlong_le (n : ℕ) : intOfUlong n ≤ n := by
  unfold intOfUlong
  have := Int.bmod_lt (x := n) (m := 2 ^ 32) (by decide)
  have := Int.le_bmod (x := n) (m := 2 ^ 32) (by decide)
  rw [Int.bmod_def]
  split <;> omega

theorem intOfUlong_bounds (n : ℕ) : -2 ^ 31 ≤ intOfUlong n ∧ intOfUlong n < 2 ^ 31 := by
  unfold intOfUlong
  have := Int.bmod_lt (x := n) (m := 2 ^ 32) (by decide)
  have := Int.le_bmod (x := n) (m := 2 ^ 32) (by decide)
  omega

theorem ulongOfInt_injective : Function.Injective ulongOfInt := by
  intro a b h
  have ha := a.le_toInt
  have ha' := a.toInt_lt
  have hb := b.le_toInt
  have hb' := b.toInt_lt
  refine Int32.toInt_inj.mp ?_
  unfold ulongOfInt at h
  omega

end MemoryOptimizer
