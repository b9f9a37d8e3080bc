import Mathlib.Logic.Function.Basic
import Mathlib.Tactic.Ring
import MemoryOptimizer.Lib.Holders

/-!
# Reference counts and their holders

Every object has a count. A holder keeps references to a list of objects; as
long as whoever takes a reference records it and whoever drops one had it, the
count of an object exceeds the references held by a constant. `unowned` is that
difference: it is what an invariant over a run is about, because an operation
changes it only when it loses or invents a reference.

* `unowned_set` — one holder's references change: the difference changes by what
  the counts did and the holder did not.
* `unowned_append` — a new holder.
* `unowned_eq_of_forall_nil` — nobody holds anything: the counts themselves.
-/

namespace MemoryOptimizer

variable {Obj H : Type*} [DecidableEq Obj]

/-- The reference count of every object. -/
abbrev Refs (Obj : Type*) := Obj → ℤ

namespace Refs

/-- One more reference to `o`. -/
def get (refs : Refs Obj) (o : Obj) : Refs Obj := Function.update refs o (refs o + 1)

/-- One reference to `o` less. -/
def put (refs : Refs Obj) (o : Obj) : Refs Obj := Function.update refs o (refs o - 1)

theorem get_apply (refs : Refs Obj) (o o' : Obj) :
    refs.get o o' = refs o' + [o].count o' := by
  unfold get
  by_cases h : o' = o
  · subst h; simp
  · rw [Function.update_of_ne h, List.count_singleton, if_neg (by simpa using Ne.symm h)]
    simp

theorem put_apply (refs : Refs Obj) (o o' : Obj) :
    refs.put o o' = refs o' - [o].count o' := by
  unfold put
  by_cases h : o' = o
  · subst h; simp
  · rw [Function.update_of_ne h, List.count_singleton, if_neg (by simpa using Ne.symm h)]
    simp

end Refs

section Holders

variable (holds : H → List Obj)

/-- The references to `o` among the holders `hs`. -/
def held (hs : List H) (o : Obj) : ℤ := (hs.flatMap holds).count o

/-- The references to `o` that no holder accounts for. -/
def unowned (refs : Refs Obj) (hs : List H) (o : Obj) : ℤ := refs o - held holds hs o

theorem held_append (hs : List H) (h : H) (o : Obj) :
    held holds (hs ++ [h]) o = held holds hs o + (holds h).count o := by
  simp [held, List.count_append]

theorem held_set {hs : List H} {i : ℕ} {old : H} (hi : hs[i]? = some old) (new : H) (o : Obj) :
    held holds (hs.set i new) o =
      held holds hs o + ((holds new).count o - (holds old).count o : ℤ) := by
  have h := count_flatMap_set holds hi new o
  unfold held
  omega

theorem unowned_append (refs refs' : Refs Obj) (hs : List H) (h : H) (o : Obj) :
    unowned holds refs' (hs ++ [h]) o =
      unowned holds refs hs o + (refs' o - refs o - (holds h).count o) := by
  unfold unowned
  rw [held_append]
  ring

theorem unowned_set (refs refs' : Refs Obj) {hs : List H} {i : ℕ} {old : H}
    (hi : hs[i]? = some old) (new : H) (o : Obj) :
    unowned holds refs' (hs.set i new) o =
      unowned holds refs hs o +
        (refs' o - refs o - ((holds new).count o - (holds old).count o : ℤ)) := by
  unfold unowned
  rw [held_set holds hi]
  ring

theorem unowned_eq_of_forall_nil (refs : Refs Obj) {hs : List H} (hnil : ∀ h ∈ hs, holds h = [])
    (o : Obj) : unowned holds refs hs o = refs o := by
  have hempty : hs.flatMap holds = [] := List.flatMap_eq_nil_iff.mpr hnil
  simp [unowned, held, hempty]

end Holders

end MemoryOptimizer
