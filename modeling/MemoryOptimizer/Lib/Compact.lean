import Mathlib.Data.List.Basic
import Mathlib.Data.Nat.Notation
import Mathlib.Logic.Function.Basic

/-!
# Compaction in place

The loop `for (i = j = 0; i < n; i++)` that reads slot `i` of some parallel
arrays, skips it or writes what it selects into slot `j++`. It overwrites the
arrays while it reads them, but never a slot that is still to be read:
`compact_eq` says that it leaves the selection from the slots it started with, and
`compact_keeps` that it keeps everything else.
-/

namespace MemoryOptimizer

section Compact

variable {σ α : Type*} (read : σ → ℕ → α) (write : σ → ℕ → α → σ)
  (select : ℕ → α → Option α)

/-- One iteration: the state, and the number of slots written. -/
def compactStep (r : σ × ℕ) (i : ℕ) : σ × ℕ :=
  match select i (read r.1 i) with
  | none => r
  | some a => (write r.1 r.2 a, r.2 + 1)

/-- The loop over the first `n` slots. -/
def compact (n : ℕ) (s : σ) : σ × ℕ :=
  (List.range n).foldl (compactStep read write select) (s, 0)

variable {read write select} {n : ℕ} {s : σ}

theorem compact_succ : compact read write select (n + 1) s =
    compactStep read write select (compact read write select n s) n := by
  simp only [compact, List.range_succ, List.foldl_append, List.foldl_cons, List.foldl_nil]

/-- What every write keeps, the loop keeps. -/
theorem compact_keeps {P : σ → Prop} (hkeep : ∀ s i a, P s → P (write s i a)) (h : P s) :
    P (compact read write select n s).1 := by
  induction n with
  | zero => exact h
  | succ n ih =>
      rw [compact_succ, compactStep]
      split
      · exact ih
      · exact hkeep _ _ _ ih

variable (hwrite : ∀ s i a, read (write s i a) = Function.update (read s) i a)

include hwrite

/-- The slots still to be read are as they were. -/
theorem compact_later : (compact read write select n s).2 ≤ n ∧
    ∀ i, n ≤ i → read (compact read write select n s).1 i = read s i := by
  induction n with
  | zero => exact ⟨Nat.le_refl 0, fun _ _ => rfl⟩
  | succ n ih =>
      obtain ⟨hle, hlater⟩ := ih
      rw [compact_succ, compactStep]
      split
      · exact ⟨Nat.le_succ_of_le hle, fun i hi => hlater i (by omega)⟩
      · refine ⟨Nat.succ_le_succ hle, fun i hi => ?_⟩
        dsimp only
        rw [hwrite, Function.update_of_ne (by omega)]
        exact hlater i (by omega)

/-- The slots written are the selection from the slots at the start. -/
theorem compact_eq :
    (List.range (compact read write select n s).2).map (read (compact read write select n s).1) =
      (List.range n).filterMap fun i => select i (read s i) := by
  induction n with
  | zero => rfl
  | succ n ih =>
      have hlater : ∀ i, n ≤ i → read (compact read write select n s).1 i = read s i :=
        (compact_later hwrite).2
      rw [compact_succ, compactStep, hlater n (Nat.le_refl n), List.range_succ (n := n),
        List.filterMap_append, ← ih]
      cases hsel : select n (read s n) with
      | none => simp [hsel]
      | some a =>
          dsimp only
          rw [hwrite, List.range_succ, List.map_append, List.map_cons, List.map_nil,
            Function.update_self]
          congr 1
          · refine List.map_congr_left fun i hi => ?_
            exact Function.update_of_ne (Nat.ne_of_lt (List.mem_range.mp hi)) _ _
          · simp [hsel]

end Compact

end MemoryOptimizer
