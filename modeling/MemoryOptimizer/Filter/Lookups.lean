import MemoryOptimizer.Filter.RangeSet

/-!
# Lookups that stay in the map

`search_range` steps back from what `upper_bound` returns, and once more from a
range that it finds.  From `rmap.begin()` neither step is defined; the code looks
for it afterwards, by comparing the iterators.  `checkedSearch` is the lookup up to
such a step, and `Inside` tells the lookups that have none.
-/

namespace MemoryOptimizer.AddressRangeFilter

/-- `search_range`, without a result where it steps back from `rmap.begin()`. -/
def checkedSearch (rmap : RangeMap) (pid : Int32) (addr : ℕ) : Option Lookup :=
  if rmap.entries = [] then some ⟨none, none, none⟩ else
    let upper := rmap.upperBound ⟨ulongOfInt pid, addr⟩
    match rmap.prev upper with
    | none => none
    | some (k, r) =>
        if k.pid ≠ ulongOfInt pid then some ⟨none, none, upper⟩
        else if addr < ulong (k.start + r.size) then
          match rmap.prev (some (k, r)) with
          | none => none
          | some lower => some ⟨some (k, r), some lower, upper⟩
        else some ⟨none, some (k, r), upper⟩

/-- The lookup finds this entry: it is the last one at or below the address, belongs to
the process and holds the address. -/
def Finds (rmap : RangeMap) (pid : Int32) (addr : ℕ) (e : Key × Range) : Prop :=
  (∀ d ∈ rmap.entries, d.1 ≤ ⟨ulongOfInt pid, addr⟩ → d.1 ≤ e.1) ∧
    e.1.pid = ulongOfInt pid ∧ addr < ulong (e.1.start + e.2.size)

/-- If the map has a first entry, it is at or below the address and is not what the
lookup finds. -/
def Inside (rmap : RangeMap) (pid : Int32) (addr : ℕ) : Prop :=
  ∀ e, rmap.first = some e →
    e.1 ≤ ⟨ulongOfInt pid, addr⟩ ∧ ¬ Finds rmap pid addr e

/-- What a lookup finds is the entry that `upper_bound` and one step back lead to. -/
theorem eq_of_finds {rmap : RangeMap} {pid : Int32} {addr : ℕ} {e p : Key × Range}
    (hprev : rmap.prev (rmap.upperBound ⟨ulongOfInt pid, addr⟩) = some p)
    (hfirst : rmap.first = some e) (hfinds : Finds rmap pid addr e) : e = p := by
  obtain ⟨hp, hle, -⟩ := SortedMap.floor_eq_some.mp hprev
  exact SortedMap.eq_of_mem (SortedMap.mem_of_first hfirst) hp
    (le_antisymm (SortedMap.first_le hfirst hp) (hfinds.1 p hp hle))

/-- A lookup has a result just when it is inside the map, and then it is that of
`search_range`. -/
theorem checkedSearch_eq_some_iff {rmap : RangeMap} {pid : Int32} {addr : ℕ} {found : Lookup} :
    checkedSearch rmap pid addr = some found ↔
      Inside rmap pid addr ∧ found = searchRange rmap pid addr := by
  unfold checkedSearch searchRange
  by_cases hempty : rmap.entries = []
  · have hinside : Inside rmap pid addr := by
      intro e he
      rw [SortedMap.first_eq_none.mpr hempty] at he
      cases he
    simp [hempty, hinside, eq_comm]
  simp only [if_neg hempty]
  cases hfirst : rmap.first with
  | none => exact absurd (SortedMap.first_eq_none.mp hfirst) hempty
  | some e =>
      have hinside : Inside rmap pid addr ↔
          e.1 ≤ ⟨ulongOfInt pid, addr⟩ ∧ ¬ Finds rmap pid addr e :=
        ⟨fun h => h e hfirst, fun h e' he' => by cases hfirst.symm.trans he'; exact h⟩
      rw [hinside]
      cases hprev : rmap.prev (rmap.upperBound ⟨ulongOfInt pid, addr⟩) with
      | none =>
          -- the address is below the first entry
          have habove := SortedMap.floor_eq_none.mp hprev e (SortedMap.mem_of_first hfirst)
          simp [not_le.mpr habove]
      | some p =>
          obtain ⟨hp, hle, hmax⟩ := SortedMap.floor_eq_some.mp hprev
          have hlow := (SortedMap.first_le hfirst hp).trans hle
          have heq := eq_of_finds hprev hfirst
          obtain ⟨k, r⟩ := p
          simp only [hlow, true_and]
          split
          · rename_i hother
            have hnot : ¬ Finds rmap pid addr e := fun h => hother (by
              have := h.2.1
              rwa [heq h] at this)
            simp [hnot, eq_comm]
          · rename_i hsame
            split
            · rename_i hin
              cases hback : rmap.prev (some (k, r)) with
              | none =>
                  -- the range found is the first entry
                  have hfinds : Finds rmap pid addr e := by
                    have hke := SortedMap.prev_some_eq_none.mp hback e
                      (SortedMap.mem_of_first hfirst)
                    have hek := SortedMap.eq_of_mem (SortedMap.mem_of_first hfirst) hp
                      (le_antisymm (SortedMap.first_le hfirst hp) hke)
                    rw [hek]
                    exact ⟨hmax, not_not.mp hsame, hin⟩
                  simp [hfinds]
              | some lower =>
                  have hnot : ¬ Finds rmap pid addr e := by
                    intro h
                    obtain ⟨hlower, hlt, -⟩ := SortedMap.prev_some_eq_some.mp hback
                    have hel := SortedMap.first_le hfirst hlower
                    rw [heq h] at hel
                    exact absurd hlt (not_lt.mpr hel)
                  simp [hnot, eq_comm]
            · rename_i hout
              have hnot : ¬ Finds rmap pid addr e := fun h => hout (by
                have := h.2.2
                rwa [heq h] at this)
              simp [hnot, eq_comm]

/-! ### Runs -/

/-- The lookups of an operation. -/
def Op.lookups : Op → List (Int32 × ℕ)
  | .insertRange pid start size => [(pid, start), (pid, usub (ulong (start + size)) 1)]
  | .clear => []

/-- An operation, without a result where one of its lookups has none. -/
def Op.checkedApply (rmap : RangeMap) (op : Op) : Option RangeMap :=
  if ∀ l ∈ op.lookups, (checkedSearch rmap l.1 l.2).isSome then some (op.apply rmap) else none

/-- A fresh filter after a sequence of operations, without a result where one of them
has none. -/
def checkedRun (ops : List Op) : Option RangeMap :=
  ops.foldlM Op.checkedApply SortedMap.empty

theorem checkedSearch_isSome_iff (rmap : RangeMap) (pid : Int32) (addr : ℕ) :
    (checkedSearch rmap pid addr).isSome ↔ Inside rmap pid addr := by
  rw [Option.isSome_iff_exists]
  simp [checkedSearch_eq_some_iff]

theorem Op.checkedApply_eq_some_iff {rmap rmap' : RangeMap} {op : Op} :
    op.checkedApply rmap = some rmap' ↔
      (∀ l ∈ op.lookups, Inside rmap l.1 l.2) ∧ rmap' = op.apply rmap := by
  simp only [Op.checkedApply, checkedSearch_isSome_iff, Option.ite_none_right_eq_some,
    Option.some.injEq]
  exact and_congr_right fun _ => eq_comm

/-- Every lookup of a sequence of operations is inside the map of its time. -/
def AllInside : RangeMap → List Op → Prop
  | _, [] => True
  | rmap, op :: ops => (∀ l ∈ op.lookups, Inside rmap l.1 l.2) ∧ AllInside (op.apply rmap) ops

theorem checkedFold_eq_some_iff {rmap rmap' : RangeMap} {ops : List Op} :
    ops.foldlM Op.checkedApply rmap = some rmap' ↔
      AllInside rmap ops ∧ rmap' = ops.foldl Op.apply rmap := by
  induction ops generalizing rmap with
  | nil => simp [AllInside, eq_comm]
  | cons op ops ih =>
      rw [List.foldlM_cons, Option.bind_eq_bind, Option.bind_eq_some_iff]
      simp only [Op.checkedApply_eq_some_iff, ih, AllInside, List.foldl_cons]
      constructor
      · rintro ⟨_, ⟨hlookups, rfl⟩, hrest, heq⟩
        exact ⟨⟨hlookups, hrest⟩, heq⟩
      · rintro ⟨⟨hlookups, hrest⟩, heq⟩
        exact ⟨_, ⟨hlookups, rfl⟩, hrest, heq⟩

/-- Every run, and every lookup after it: the run stays in the map, and ends in the state
of the filter, if and only if each of its lookups is inside the map of its time; a lookup
in the state it ends in stays in the map if and only if it is inside. -/
theorem lookups_inside_iff (ops : List Op) :
    (checkedRun ops = some (run ops) ↔ AllInside SortedMap.empty ops) ∧
      (checkedRun ops = none ↔ ¬ AllInside SortedMap.empty ops) ∧
      ∀ pid addr, (checkedSearch (run ops) pid addr).isSome ↔ Inside (run ops) pid addr := by
  refine ⟨?_, ?_, checkedSearch_isSome_iff (run ops)⟩
  · simp [checkedRun, checkedFold_eq_some_iff, run]
  · rw [← Option.not_isSome_iff_eq_none, Option.isSome_iff_exists]
    simp [checkedRun, checkedFold_eq_some_iff]

/-- A second insertion below the first one steps back from `rmap.begin()`. -/
theorem checkedRun_below :
    checkedRun [.insertRange 1 0x2000 0x1000, .insertRange 1 0x1000 0x800] = none := by
  decide

end MemoryOptimizer.AddressRangeFilter
