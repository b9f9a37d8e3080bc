import Mathlib.Data.List.Pairwise
import Mathlib.Order.Lattice

/-!
# Ranges between cut points

Cutting at one point after the other gives ranges that meet end to start. They are
ranges, one behind the other, exactly when the points ascend, and together they
make up everything from the start to the last point.

* `cutRanges_lt_iff` — every range has something in it.
* `cutRanges_pairwise` — the ranges ascend.
* `exists_mem_cutRanges_iff` — what they cover.
-/

namespace MemoryOptimizer

variable {α : Type*}

/-- The ranges between the points, from `a` on. -/
def cutRanges (a : α) : List α → List (α × α)
  | [] => []
  | c :: cs => (a, c) :: cutRanges c cs

theorem getLastD_append (a : α) (cs ds : List α) :
    (cs ++ ds).getLastD a = ds.getLastD (cs.getLastD a) := by
  induction cs generalizing a with
  | nil => rfl
  | cons c cs ih => rw [List.cons_append, List.getLastD_cons, List.getLastD_cons, ih]

theorem cutRanges_append (a : α) (cs ds : List α) :
    cutRanges a (cs ++ ds) = cutRanges a cs ++ cutRanges (cs.getLastD a) ds := by
  induction cs generalizing a with
  | nil => rfl
  | cons c cs ih =>
      rw [List.cons_append, cutRanges, ih, List.getLastD_cons]
      rfl

variable [LinearOrder α] {a : α} {cs : List α}

theorem cutRanges_lt_iff : (∀ r ∈ cutRanges a cs, r.1 < r.2) ↔ (a :: cs).Pairwise (· < ·) := by
  induction cs generalizing a with
  | nil => simp [cutRanges]
  | cons c cs ih =>
      rw [cutRanges, List.forall_mem_cons, ih, List.pairwise_cons (a := a)]
      constructor
      · rintro ⟨hlt, hcs⟩
        refine ⟨fun x hx => ?_, hcs⟩
        rcases List.mem_cons.mp hx with rfl | hx
        · exact hlt
        · exact hlt.trans ((List.pairwise_cons.mp hcs).1 x hx)
      · exact fun h => ⟨h.1 c List.mem_cons_self, h.2⟩

theorem pairwise_cons_append_iff {ds : List α} :
    (a :: (cs ++ ds)).Pairwise (· < ·) ↔
      (a :: cs).Pairwise (· < ·) ∧ (cs.getLastD a :: ds).Pairwise (· < ·) := by
  rw [← cutRanges_lt_iff, ← cutRanges_lt_iff, ← cutRanges_lt_iff, cutRanges_append]
  exact List.forall_mem_append

theorem le_getLastD (h : (a :: cs).Pairwise (· < ·)) : a ≤ cs.getLastD a := by
  induction cs generalizing a with
  | nil => exact le_rfl
  | cons c cs ih =>
      obtain ⟨ha, hcs⟩ := List.pairwise_cons.mp h
      rw [List.getLastD_cons]
      exact (ha c List.mem_cons_self).le.trans (ih hcs)

/-- Everything from the start to the last point is in a range, and nothing else. -/
theorem exists_mem_cutRanges_iff (h : (a :: cs).Pairwise (· < ·)) (x : α) :
    (∃ r ∈ cutRanges a cs, r.1 ≤ x ∧ x < r.2) ↔ a ≤ x ∧ x < cs.getLastD a := by
  induction cs generalizing a with
  | nil => simp [cutRanges, not_lt]
  | cons c cs ih =>
      obtain ⟨ha, hcs⟩ := List.pairwise_cons.mp h
      have hac := ha c List.mem_cons_self
      simp only [cutRanges, List.mem_cons, exists_eq_or_imp, ih hcs, List.getLastD_cons]
      constructor
      · rintro (⟨hle, hlt⟩ | ⟨hle, hlt⟩)
        · exact ⟨hle, hlt.trans_le (le_getLastD hcs)⟩
        · exact ⟨hac.le.trans hle, hlt⟩
      · rintro ⟨hle, hlt⟩
        rcases lt_or_ge x c with hx | hx
        · exact .inl ⟨hle, hx⟩
        · exact .inr ⟨hx, hlt⟩

theorem cutRanges_pairwise (h : (a :: cs).Pairwise (· < ·)) :
    (cutRanges a cs).Pairwise fun r r' => r.2 ≤ r'.1 := by
  have hstart : ∀ {b : α} {ds : List α}, (b :: ds).Pairwise (· < ·) →
      ∀ r ∈ cutRanges b ds, b ≤ r.1 := by
    intro b ds
    induction ds generalizing b with
    | nil => intro _ r hr; cases hr
    | cons d ds ih =>
        intro hb r hr
        obtain ⟨hlt, hds⟩ := List.pairwise_cons.mp hb
        rcases List.mem_cons.mp hr with rfl | hr
        · exact le_rfl
        · exact (hlt d List.mem_cons_self).le.trans (ih hds r hr)
  induction cs generalizing a with
  | nil => exact .nil
  | cons c cs ih =>
      obtain ⟨-, hcs⟩ := List.pairwise_cons.mp h
      exact .cons (hstart hcs) (ih hcs)

end MemoryOptimizer
