import Mathlib.Data.List.Sort
import Mathlib.Order.WellFounded

/-!
# Prefixes of lists in descending order

A list in descending order of a weight `f`, and which of its elements a prefix
holds:

* `take_countP`: the first ones are the ones of weight at least a bound.
* `take_perm`: of a permutation of `l ++ rest` where `rest` weighs less, they are
  the elements of `l`.
* `map_take_perm`: where `rest` only weighs no more, they have the weights of `l`,
  and the last of them is the lightest of `l` (`getElem_length_pred_lt`).
-/

namespace MemoryOptimizer

section Descending

variable {α : Type*} {f : α → ℕ} {s l rest : List α}

/-- The elements that weigh at least `m` are a prefix. -/
theorem take_countP (hs : s.Pairwise fun x y => f x ≥ f y) (m : ℕ) :
    s.take (s.countP fun x => m ≤ f x) = s.filter fun x => m ≤ f x := by
  induction s with
  | nil => rfl
  | cons x s ih =>
      obtain ⟨hx, hs⟩ := List.pairwise_cons.mp hs
      by_cases hm : m ≤ f x
      · rw [List.countP_cons_of_pos (by simpa using hm), List.take_succ_cons, ih hs,
          List.filter_cons_of_pos (by simpa using hm)]
      · have hnone : ∀ y ∈ x :: s, ¬m ≤ f y := by
          rintro y (_ | ⟨_, hy⟩)
          · exact hm
          · have := hx y hy
            omega
        rw [List.countP_eq_zero.mpr (by simpa using hnone), List.take_zero,
          List.filter_eq_nil_iff.mpr (by simpa using hnone)]

/-- The number of elements of weight at least `m`, read off a cut of the list. -/
theorem countP_eq {m k : ℕ} (hk : k ≤ s.length)
    (hbefore : ∀ i (h : i < s.length), i < k → m ≤ f s[i])
    (hafter : ∀ i (h : i < s.length), k ≤ i → f s[i] < m) :
    s.countP (fun x => m ≤ f x) = k := by
  have htake : (s.take k).countP (fun x => m ≤ f x) = k := by
    rw [List.countP_eq_length.mpr, List.length_take, Nat.min_eq_left hk]
    intro x hx
    obtain ⟨i, hi, rfl⟩ := List.mem_iff_getElem.mp hx
    rw [List.length_take] at hi
    simpa using hbefore i (by omega) (by omega)
  have hdrop : (s.drop k).countP (fun x => m ≤ f x) = 0 := by
    rw [List.countP_eq_zero]
    intro x hx
    obtain ⟨i, hi, rfl⟩ := List.mem_iff_getElem.mp hx
    rw [List.length_drop] at hi
    simpa using hafter (k + i) (by omega) (by omega)
  conv_lhs => rw [← List.take_append_drop k s]
  rw [List.countP_append, htake, hdrop, Nat.add_zero]

theorem take_perm (hs : s.Pairwise fun x y => f x ≥ f y) (hperm : s.Perm (l ++ rest))
    (hlt : ∀ x ∈ rest, ∀ y ∈ l, f x < f y) : (s.take l.length).Perm l := by
  cases hnil : l with
  | nil => simp
  | cons first tail =>
    rw [← hnil]
    -- the least weight of `l` separates it from the rest
    obtain ⟨m, hm, hmin⟩ : ∃ m, (∀ y ∈ l, m ≤ f y) ∧ ∀ x ∈ rest, f x < m := by
      obtain ⟨y, hy, hle⟩ := WellFounded.has_min (measure f).wf {y | y ∈ l} ⟨first, by simp [hnil]⟩
      exact ⟨f y, fun z hz => not_lt.mp (hle z hz), fun x hx => hlt x hx y hy⟩
    have hrest : rest.filter (fun x => m ≤ f x) = [] :=
      List.filter_eq_nil_iff.mpr (by simpa using hmin)
    have hl : l.filter (fun x => m ≤ f x) = l := List.filter_eq_self.mpr (by simpa using hm)
    have hcount : s.countP (fun x => m ≤ f x) = l.length := by
      rw [hperm.countP_eq, List.countP_append, List.countP_eq_length_filter,
        List.countP_eq_length_filter, hl, hrest, List.length_nil, Nat.add_zero]
    have htake := take_countP hs m
    rw [hcount] at htake
    rw [htake]
    have := hperm.filter fun x => m ≤ f x
    rwa [List.filter_append, hl, hrest, List.append_nil] at this

theorem map_take_perm (hs : s.Pairwise fun x y => f x ≥ f y) (hperm : s.Perm (l ++ rest))
    (hle : ∀ x ∈ rest, ∀ y ∈ l, f x ≤ f y) : ((s.take l.length).map f).Perm (l.map f) := by
  have hsorted : ∀ l : List ℕ, (l.insertionSort (· ≥ ·)).Pairwise (· ≥ ·) :=
    List.pairwise_insertionSort (· ≥ ·)
  have hp := List.perm_insertionSort (α := ℕ) (· ≥ ·)
  have heq : s.map f =
      (l.map f).insertionSort (· ≥ ·) ++ (rest.map f).insertionSort (· ≥ ·) := by
    refine List.Perm.eq_of_pairwise (fun a b _ _ (h : a ≥ b) h' => Nat.le_antisymm h' h)
      (List.pairwise_map.mpr hs) ?_ ?_
    · refine List.pairwise_append.mpr ⟨hsorted _, hsorted _, fun a ha b hb => ?_⟩
      obtain ⟨y, hy, rfl⟩ := List.mem_map.mp ((hp _).mem_iff.mp ha)
      obtain ⟨x, hx, rfl⟩ := List.mem_map.mp ((hp _).mem_iff.mp hb)
      exact hle x hx y hy
    · have := hperm.map f
      rw [List.map_append] at this
      exact this.trans ((hp _).symm.append (hp _).symm)
  have hlength : ((l.map f).insertionSort (· ≥ ·)).length = l.length := by
    rw [(hp _).length_eq, List.length_map]
  rw [List.map_take, heq, ← hlength, List.take_left']
  · exact hp _
  · rfl

theorem getElem_length_pred_lt (hs : s.Pairwise fun x y => f x ≥ f y)
    (hperm : s.Perm (l ++ rest)) (hle : ∀ x ∈ rest, ∀ y ∈ l, f x ≤ f y) {m : ℕ} {y : α}
    (hy : y ∈ l) (hm : f y < m) (h : l.length - 1 < s.length) : f s[l.length - 1] < m := by
  obtain ⟨x, hx, hxy⟩ :=
    List.mem_map.mp ((map_take_perm hs hperm hle).mem_iff.mpr (List.mem_map_of_mem hy))
  obtain ⟨i, hi, rfl⟩ := List.mem_take_iff_getElem.mp hx
  rcases Nat.lt_or_eq_of_le (show i ≤ l.length - 1 by omega) with hlt | rfl
  · exact (List.pairwise_iff_getElem.mp hs _ _ _ h hlt).trans_lt (hxy ▸ hm)
  · exact hxy ▸ hm

end Descending

end MemoryOptimizer
