import Mathlib.Data.Nat.Notation
import Mathlib.Order.Basic
import Mathlib.Logic.Function.Basic

/-!
# Count-min sketches

A sketch keeps a row of counters for each of several hash functions, and an item
counts in one cell of every row. Collisions only add, so each of the cells of an
item bounds its count from above; halving every cell keeps that for counts halved
with rounding down, since halving is monotone.

* `Covers.add`, `Covers.halve`, `Covers.clear` — the bound is kept.
* `Within.add`, `Within.halve`, `Within.clear` — no cell exceeds the number of
  items counted.
-/

namespace MemoryOptimizer.CountMin

variable {ι κ β : Type*}

section Counting

variable [DecidableEq β] [DecidableEq κ]

/-- Counting one item: its cell of every row. -/
def add (hash : ι → κ → β) (cells : ι → β → ℕ) (item : κ) : ι → β → ℕ :=
  fun i b => cells i b + if b = hash i item then 1 else 0

/-- Counting one item exactly. -/
def count (counts : κ → ℕ) (item : κ) : κ → ℕ :=
  fun k => counts k + if k = item then 1 else 0

end Counting

/-- Halving every cell. -/
def halve (cells : ι → β → ℕ) : ι → β → ℕ := fun i b => cells i b / 2

/-- Every cell of an item bounds its count from above. -/
def Covers (hash : ι → κ → β) (cells : ι → β → ℕ) (counts : κ → ℕ) : Prop :=
  ∀ i k, counts k ≤ cells i (hash i k)

/-- No cell exceeds `n`. -/
def Within (cells : ι → β → ℕ) (n : ℕ) : Prop := ∀ i b, cells i b ≤ n

variable {hash : ι → κ → β} {cells : ι → β → ℕ} {counts : κ → ℕ} {n : ℕ}

theorem Covers.add [DecidableEq β] [DecidableEq κ] (h : Covers hash cells counts) (item : κ) :
    Covers hash (add hash cells item) (count counts item) := by
  intro i k
  have hk := h i k
  unfold CountMin.add count
  by_cases heq : k = item
  · rw [heq, if_pos rfl, if_pos rfl]
    rw [heq] at hk
    omega
  · rw [if_neg heq]
    omega

theorem Covers.halve (h : Covers hash cells counts) :
    Covers hash (halve cells) fun k => counts k / 2 :=
  fun i k => Nat.div_le_div_right (h i k)

theorem Covers.clear : Covers hash (fun _ _ => 0) fun _ => 0 :=
  fun _ _ => Nat.le_refl _

theorem Within.add [DecidableEq β] (h : Within cells n) (item : κ) :
    Within (add hash cells item) (n + 1) := by
  intro i b
  have hb := h i b
  unfold CountMin.add
  split <;> omega

theorem Within.halve (h : Within cells n) : Within (halve cells) n :=
  fun i b => Nat.le_trans (Nat.div_le_self _ _) (h i b)

theorem Within.clear : Within (fun (_ : ι) (_ : β) => 0) n := fun _ _ => Nat.zero_le _

end MemoryOptimizer.CountMin
