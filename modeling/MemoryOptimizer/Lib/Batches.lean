import Mathlib.Data.List.Flatten
import Mathlib.Data.Nat.Notation

/-!
# Batches of a list

The loop `for (i = 0; i < n; i += b)` that handles `b` elements at a time, the last time
those that are left.  `batchAt b l k` is its iteration `k`; the first iterations together
are the front of the list (`flatMap_batchAt`), enough of them all of it
(`flatMap_batchAt_of_le`).
-/

namespace MemoryOptimizer

section Batches

variable {α : Type*}

/-- The elements of iteration `k`. -/
def batchAt (b : ℕ) (l : List α) (k : ℕ) : List α := (l.drop (k * b)).take b

variable {b : ℕ} {l : List α} {k : ℕ}

theorem batchAt_eq_nil (h : l.length ≤ k * b) : batchAt b l k = [] := by
  rw [batchAt, List.drop_eq_nil_of_le h, List.take_nil]

/-- The number of elements that the loop handles at an offset is the one that is left. -/
theorem take_min_drop (b : ℕ) (l : List α) (i n : ℕ) (hn : l.length = n) :
    (l.drop i).take (min b (n - i)) = (l.drop i).take b := by
  have hleft : (l.drop i).length = n - i := by rw [List.length_drop, hn]
  rw [← List.take_take, List.take_of_length_le (Nat.le_of_eq hleft)]

theorem flatMap_batchAt (b : ℕ) (l : List α) (k : ℕ) :
    (List.range k).flatMap (batchAt b l) = l.take (k * b) := by
  induction k with
  | zero => rw [Nat.zero_mul, List.take_zero, List.range_zero, List.flatMap_nil]
  | succ k ih =>
      rw [List.range_succ, List.flatMap_append, ih, List.flatMap_singleton, Nat.succ_mul,
        List.take_add, batchAt]

theorem flatMap_batchAt_of_le (h : l.length ≤ k * b) :
    (List.range k).flatMap (batchAt b l) = l := by
  rw [flatMap_batchAt, List.take_of_length_le h]

end Batches

end MemoryOptimizer
