import Mathlib.Data.List.Basic

/-!
# Chains of numbered items

A singly linked chain inside an array: items are numbered from 1, `next i` is
the number stored in the item of index `i`, and 0 ends a chain.  `IsChain` says
that a chain started by a number runs through a list of indices.
-/

namespace MemoryOptimizer

/-- The chain that starts with item number `num` runs through the indices. -/
def IsChain (next : ℕ → ℕ) : ℕ → List ℕ → Prop
  | num, [] => num = 0
  | num, i :: l => num = i + 1 ∧ IsChain next (next i) l

namespace IsChain

variable {next next' : ℕ → ℕ} {num : ℕ} {l : List ℕ}

theorem num_eq_zero_iff (chain : IsChain next num l) : num = 0 ↔ l = [] := by
  cases l with
  | nil => simpa [IsChain] using chain
  | cons i l => simp [chain.1]

/-- A chain depends on the links of its own items only. -/
theorem congr (chain : IsChain next num l) (h : ∀ i ∈ l, next' i = next i) :
    IsChain next' num l := by
  induction l generalizing num with
  | nil => exact chain
  | cons i l ih =>
      refine ⟨chain.1, ?_⟩
      rw [h i (List.mem_cons_self ..)]
      exact ih chain.2 fun j hj => h j (List.mem_cons_of_mem _ hj)

/-- A chain starts at one of its items, or is empty. -/
theorem num_le {n : ℕ} (chain : IsChain next num l) (h : ∀ i ∈ l, i < n) : num ≤ n := by
  cases l with
  | nil => exact (show num = 0 from chain) ▸ Nat.zero_le n
  | cons i l =>
      rw [chain.1]
      exact h i List.mem_cons_self

/-- Every link of a chain leads to one of its items, or ends it. -/
theorem next_le {n : ℕ} (chain : IsChain next num l) (h : ∀ i ∈ l, i < n) {i : ℕ} (hi : i ∈ l) :
    next i ≤ n := by
  induction l generalizing num with
  | nil => cases hi
  | cons j l ih =>
      obtain ⟨-, hl⟩ := List.forall_mem_cons.mp h
      cases hi with
      | head => exact chain.2.num_le hl
      | tail _ hi => exact ih chain.2 hl hi

/-- Linking a new last item. -/
theorem append {last : ℕ} (chain : IsChain next num (l ++ [last])) (new : ℕ) (next' : ℕ → ℕ)
    (hother : ∀ i ∈ l, next' i = next i) (hlast : next' last = new + 1) (hnew : next' new = 0) :
    IsChain next' num (l ++ [last] ++ [new]) := by
  induction l generalizing num with
  | nil => exact ⟨chain.1, hlast, hnew⟩
  | cons i l ih =>
      refine ⟨chain.1, ?_⟩
      rw [hother i (List.mem_cons_self ..)]
      exact ih chain.2 fun j hj => hother j (List.mem_cons_of_mem _ hj)

end IsChain

end MemoryOptimizer
