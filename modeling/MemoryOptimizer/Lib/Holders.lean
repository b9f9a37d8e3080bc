import Mathlib.Data.List.Perm.Basic

/-!
# What the members of a list hold

Threads hold jobs, files hold references: each member of a list holds a list of
items, and an operation changes one member. The items of all of them change by
what that member gave up and took, as a multiset.
-/

namespace MemoryOptimizer

variable {H Item : Type*}

/-- Changing the member at `i` exchanges what it held for what it holds now. -/
theorem flatMap_set_perm (holds : H → List Item) {hs : List H} {i : ℕ} {old : H}
    (hi : hs[i]? = some old) (new : H) :
    ((hs.set i new).flatMap holds ++ holds old).Perm (hs.flatMap holds ++ holds new) := by
  induction hs generalizing i with
  | nil => simp at hi
  | cons h hs ih =>
      cases i with
      | zero =>
          obtain rfl : h = old := by simpa using hi
          rw [List.set_cons_zero, List.flatMap_cons, List.flatMap_cons]
          refine List.perm_append_comm.trans ?_
          rw [List.append_assoc]
          exact List.perm_append_comm.append_left _
      | succ i =>
          rw [List.set_cons_succ, List.flatMap_cons, List.flatMap_cons, List.append_assoc,
            List.append_assoc]
          exact (ih (by simpa using hi)).append_left _

variable [DecidableEq Item]

theorem count_flatMap_set (holds : H → List Item) {hs : List H} {i : ℕ} {old : H}
    (hi : hs[i]? = some old) (new : H) (item : Item) :
    ((hs.set i new).flatMap holds).count item + (holds old).count item =
      (hs.flatMap holds).count item + (holds new).count item := by
  have h := (flatMap_set_perm holds hi new).count_eq item
  rwa [List.count_append, List.count_append] at h

omit [DecidableEq Item] in
theorem length_flatMap_set (holds : H → List Item) {hs : List H} {i : ℕ} {old : H}
    (hi : hs[i]? = some old) (new : H) :
    ((hs.set i new).flatMap holds).length + (holds old).length =
      (hs.flatMap holds).length + (holds new).length := by
  have h := (flatMap_set_perm holds hi new).length_eq
  rwa [List.length_append, List.length_append] at h

omit [DecidableEq Item] in
theorem countP_set_of_getElem? (q : H → Bool) {hs : List H} {i : ℕ} {old : H}
    (hi : hs[i]? = some old) (new : H) :
    (hs.set i new).countP q + (if q old then 1 else 0) =
      hs.countP q + (if q new then 1 else 0) := by
  have h := length_flatMap_set (fun h => if q h then [()] else []) hi new
  have hcount : ∀ l : List H,
      (l.flatMap fun h => if q h then [()] else []).length = l.countP q := by
    intro l
    induction l with
    | nil => rfl
    | cons h l ih =>
        rw [List.flatMap_cons, List.length_append, ih, List.countP_cons, Nat.add_comm]
        split <;> rfl
  rw [hcount, hcount] at h
  cases hold : q old <;> cases hnew : q new <;> simpa [hold, hnew] using h

end MemoryOptimizer
