import MemoryOptimizer.Filter.AddressRangeFilter
import Mathlib.Data.List.Induction
import Mathlib.Data.Set.Basic

/-!
# The filter is a set of addresses per process

`addresses rmap p` is what the map stores for process `p`: a set.  On a map
whose ranges are `Separated` — non-empty, inside the address space, and with a
gap between any two of the same process — a lookup decides membership, and
`insertRange` adds exactly the inserted interval.

The argument has one pivot, `touching`: the stored ranges of the process that
overlap or adjoin the inserted interval.  `extendDown` and `extendUp` compute
the two ends of the union of the interval with everything touching it,
`removeRanges` erases exactly the touching ranges, and `insertNewRange` puts
the union back as one range.
-/

namespace MemoryOptimizer.AddressRangeFilter

/-- The first address after a stored range. -/
def stop (e : Key × Range) : ℕ := e.1.start + e.2.size

/-- `addr` lies in the stored range `e`. -/
def Holds (e : Key × Range) (addr : ℕ) : Prop := e.1.start ≤ addr ∧ addr < stop e

/-- The addresses the map stores for a process. -/
def addresses (rmap : RangeMap) (pid : Int32) : Set ℕ :=
  {addr | ∃ e ∈ rmap.entries, e.1.pid = ulongOfInt pid ∧ Holds e addr}

/-- The ranges the map stores for a process. -/
def rangesOf (rmap : RangeMap) (pid : Int32) : Set (Key × Range) :=
  {e | e ∈ rmap.entries ∧ e.1.pid = ulongOfInt pid}

/-- The stored ranges are non-empty, end inside the address space, and two
ranges of one process neither overlap nor adjoin. -/
structure Separated (rmap : RangeMap) : Prop where
  size_pos : ∀ e ∈ rmap.entries, 0 < e.2.size
  stop_lt : ∀ e ∈ rmap.entries, stop e < 2 ^ 64
  apart : ∀ e ∈ rmap.entries, ∀ f ∈ rmap.entries, e.1.pid = f.1.pid →
    e.1.start < f.1.start → stop e < f.1.start

theorem separated_empty : Separated (SortedMap.empty : RangeMap) :=
  ⟨by simp, by simp, by simp⟩

namespace Separated

variable {rmap : RangeMap} (sep : Separated rmap)

include sep

theorem ulong_stop {e : Key × Range} (he : e ∈ rmap.entries) :
    ulong (e.1.start + e.2.size) = stop e := ulong_of_lt (sep.stop_lt e he)

theorem start_lt_stop {e : Key × Range} (he : e ∈ rmap.entries) :
    e.1.start < stop e := Nat.lt_add_of_pos_right (sep.size_pos e he)

/-- Ranges of one process with distinct entries are ordered with a gap. -/
theorem gap {e f : Key × Range} (he : e ∈ rmap.entries) (hf : f ∈ rmap.entries)
    (hpid : e.1.pid = f.1.pid) (hne : e ≠ f) :
    stop e < f.1.start ∨ stop f < e.1.start := by
  rcases lt_trichotomy e.1.start f.1.start with h | h | h
  · exact Or.inl (sep.apart e he f hf hpid h)
  · exact absurd (SortedMap.eq_of_mem he hf (Key.ext hpid h)) hne
  · exact Or.inr (sep.apart f hf e he hpid.symm h)

end Separated

/-! ### Lookups -/

/-- What one lookup establishes on a separated map. -/
structure LookupSpec (rmap : RangeMap) (pid : Int32) (addr : ℕ) (found : Lookup) :
    Prop where
  it_mem : ∀ e, found.it = some e →
    e ∈ rmap.entries ∧ e.1.pid = ulongOfInt pid ∧ Holds e addr
  it_none : found.it = none →
    ∀ e ∈ rmap.entries, e.1.pid = ulongOfInt pid → ¬ Holds e addr
  lower_mem : found.it = none → ∀ e, found.lower = some e →
    e ∈ rmap.entries ∧ e.1.pid = ulongOfInt pid ∧ stop e ≤ addr ∧
      ∀ d ∈ rmap.entries, d.1 ≤ ⟨ulongOfInt pid, addr⟩ → d.1 ≤ e.1
  lower_none : found.it = none → found.lower = none →
    ∀ e ∈ rmap.entries, e.1.pid = ulongOfInt pid → addr < e.1.start
  upper_eq : found.upper = rmap.upperBound ⟨ulongOfInt pid, addr⟩

theorem searchRange_spec {rmap : RangeMap} (sep : Separated rmap) (pid : Int32)
    (addr : ℕ) : LookupSpec rmap pid addr (searchRange rmap pid addr) := by
  unfold searchRange
  by_cases hempty : rmap.entries = []
  · rw [if_pos hempty]
    exact ⟨by simp, by simp [hempty], by simp, by simp [hempty],
      (SortedMap.upperBound_eq_none.mpr (by simp [hempty])).symm⟩
  rw [if_neg hempty]
  dsimp only
  cases hprev : rmap.prev (rmap.upperBound ⟨ulongOfInt pid, addr⟩) with
  | none =>
      have habove := SortedMap.floor_eq_none.mp hprev
      have hstart : ∀ e ∈ rmap.entries, e.1.pid = ulongOfInt pid → addr < e.1.start := by
        intro e he hpid
        rcases Key.lt_iff.mp (habove e he) with h | ⟨-, h⟩
        · exact absurd hpid h.ne'
        · exact h
      exact ⟨by simp, fun _ e he hpid h => absurd h.1 (not_le.mpr (hstart e he hpid)),
        by simp, fun _ _ => hstart, rfl⟩
  | some e =>
      obtain ⟨he, hle, hmax⟩ := SortedMap.floor_eq_some.mp hprev
      obtain ⟨k, r⟩ := e
      dsimp only
      split
      · -- the entry below the probe belongs to another process
        rename_i hother
        have hlt : k.pid < ulongOfInt pid := by
          rcases Key.le_iff.mp hle with h | ⟨h, -⟩
          · exact h
          · exact absurd h hother
        have hstart : ∀ d ∈ rmap.entries, d.1.pid = ulongOfInt pid → addr < d.1.start := by
          intro d hd hpid
          by_contra hnot
          have : d.1 ≤ k := hmax d hd (Key.le_iff.mpr (Or.inr ⟨hpid, not_lt.mp hnot⟩))
          rcases Key.le_iff.mp this with h | ⟨h, -⟩ <;> omega
        exact ⟨by simp, fun _ d hd hpid h => absurd h.1 (not_le.mpr (hstart d hd hpid)),
          by simp, fun _ _ => hstart, rfl⟩
      · rename_i hsame
        have hpid : k.pid = ulongOfInt pid := not_not.mp hsame
        have hstart : k.start ≤ addr := by
          rcases Key.le_iff.mp hle with h | ⟨-, h⟩
          · exact absurd hpid h.ne
          · exact h
        rw [sep.ulong_stop he]
        split
        · rename_i hin
          refine ⟨?_, by simp, by simp, by simp, rfl⟩
          rintro d ⟨rfl⟩
          exact ⟨he, hpid, hstart, hin⟩
        · rename_i hout
          refine ⟨by simp, fun _ d hd hdpid hold => ?_, ?_, by simp, rfl⟩
          · -- a range holding `addr` would start no later than the floor entry
            have hdk : d.1 ≤ k := hmax d hd (Key.le_iff.mpr (Or.inr ⟨hdpid, hold.1⟩))
            have hne : d ≠ (k, r) := fun h => hout (h ▸ hold.2)
            have hds : d.1.start ≤ k.start := by
              rcases Key.le_iff.mp hdk with h | ⟨-, h⟩ <;> omega
            have := hold.2
            rcases sep.gap hd he (hdpid.trans hpid.symm) hne with h | h
            · simp only at h; omega
            · have := sep.start_lt_stop he
              simp only at *; omega
          · rintro - d ⟨rfl⟩
            exact ⟨he, hpid, not_lt.mp hout, hmax⟩

/-- A lookup decides membership. -/
theorem searchAddress_iff {rmap : RangeMap} (sep : Separated rmap) (pid : Int32)
    (addr : ℕ) : searchAddress rmap pid addr = true ↔ addr ∈ addresses rmap pid := by
  have spec := searchRange_spec sep pid addr
  unfold searchAddress
  cases hit : (searchRange rmap pid addr).it with
  | none =>
      simp only [Option.isSome_none, Bool.false_eq_true, false_iff]
      rintro ⟨e, he, hpid, hold⟩
      exact spec.it_none hit e he hpid hold
  | some e =>
      obtain ⟨he, hpid, hold⟩ := spec.it_mem e hit
      simpa using ⟨e, he, hpid, hold⟩

/-! ### Insertion: the two ends -/

/-- The stored range overlaps or adjoins `[start, start + size)`. -/
def Touches (pid : Int32) (start size : ℕ) (e : Key × Range) : Prop :=
  e.1.pid = ulongOfInt pid ∧ e.1.start ≤ start + size ∧ start ≤ stop e

section Insert

variable {rmap : RangeMap} (sep : Separated rmap) (pid : Int32) {start size : ℕ}

include sep

/-- The lower end: `start`, or the start of the range that touches from below;
no touching range lies before `rm_start`. -/
theorem extendDown_spec (hsize : 0 < size) :
    ∃ newStart rmStart, extendDown rmap pid start = (newStart, rmStart) ∧
      newStart ≤ start ∧
      (newStart = start ∨ ∃ e ∈ rmap.entries, Touches pid start size e ∧
        e.1.start = newStart) ∧
      (∀ e ∈ rmap.entries, Touches pid start size e → newStart ≤ e.1.start) ∧
      (∀ s, rmStart = some s → s ∈ rmap.entries ∧
        ∀ e ∈ rmap.entries, Touches pid start size e → s.1 ≤ e.1) := by
  have spec := searchRange_spec sep pid start
  unfold extendDown
  dsimp only
  cases hit : (searchRange rmap pid start).it with
  | some e =>
      obtain ⟨he, hpid, hstart, hstop⟩ := spec.it_mem e hit
      have hmin : ∀ d ∈ rmap.entries, Touches pid start size d → e.1.start ≤ d.1.start := by
        rintro d hd ⟨hdpid, -, hdstop⟩
        by_contra hlt
        have := sep.apart d hd e he (hdpid.trans hpid.symm) (not_le.mp hlt)
        omega
      refine ⟨e.1.start, some e, rfl, hstart, Or.inr ⟨e, he, ⟨hpid, by omega, hstop.le⟩, rfl⟩,
        hmin, ?_⟩
      rintro s ⟨rfl⟩
      exact ⟨he, fun d hd ht =>
        Key.le_iff.mpr (Or.inr ⟨hpid.trans ht.1.symm, hmin d hd ht⟩)⟩
  | none =>
      dsimp only
      cases hlow : (searchRange rmap pid start).lower with
      | none =>
          have habove := spec.lower_none hit hlow
          exact ⟨start, none, rfl, le_rfl, Or.inl rfl,
            fun d hd ht => (habove d hd ht.1).le, by simp⟩
      | some e =>
          obtain ⟨he, hpid, hstop, hmax⟩ := spec.lower_mem hit e hlow
          -- every other touching range starts above `start`
          have habove : ∀ d ∈ rmap.entries, Touches pid start size d → d ≠ e →
              start < d.1.start := by
            rintro d hd ⟨hdpid, -, hdstop⟩ hne
            by_contra hle
            have hde := hmax d hd (Key.le_iff.mpr (Or.inr ⟨hdpid, not_lt.mp hle⟩))
            have hse := sep.start_lt_stop he
            rcases Key.le_iff.mp hde with h | ⟨-, h⟩
            · omega
            · rcases sep.gap hd he (hdpid.trans hpid.symm) hne with h' | h' <;> omega
          dsimp only
          rw [sep.ulong_stop he]
          split
          · rename_i hmerge
            have hse := sep.start_lt_stop he
            have hmin : ∀ d ∈ rmap.entries, Touches pid start size d →
                e.1.start ≤ d.1.start := by
              intro d hd ht
              by_cases hde : d = e
              · rw [hde]
              · have := habove d hd ht hde
                omega
            refine ⟨e.1.start, some e, rfl, by omega,
              Or.inr ⟨e, he, ⟨hpid, by omega, hmerge.2.ge⟩, rfl⟩, hmin, ?_⟩
            rintro s ⟨rfl⟩
            exact ⟨he, fun d hd ht =>
              Key.le_iff.mpr (Or.inr ⟨hpid.trans ht.1.symm, hmin d hd ht⟩)⟩
          · rename_i hgap
            have hlt : stop e < start :=
              lt_of_le_of_ne hstop fun h => hgap ⟨hpid.symm, h⟩
            have hne : ∀ d, Touches pid start size d → d ≠ e := fun d ht h => by
              have := ht.2.2
              rw [h] at this
              omega
            refine ⟨start, rmap.next e.1, rfl, le_rfl, Or.inl rfl,
              fun d hd ht => (habove d hd ht (hne d ht)).le, fun s hs => ?_⟩
            obtain ⟨hsmem, -, hsmin⟩ := SortedMap.upperBound_eq_some.mp hs
            refine ⟨hsmem, fun d hd ht => hsmin d hd ?_⟩
            have h1 := habove d hd ht (hne d ht)
            have h2 := sep.start_lt_stop he
            exact Key.lt_iff.mpr (Or.inr ⟨hpid.trans ht.1.symm, by omega⟩)

/-- The upper end: `start + size`, or the end of the range that touches from
above, which is then `rm_end`; no touching range lies after `rm_end`. -/
theorem extendUp_spec (hsize : 0 < size) (hwrap : start + size < 2 ^ 64) :
    ∃ newEnd rmEnd, extendUp rmap pid start size = (newEnd, rmEnd) ∧
      start + size ≤ newEnd ∧ newEnd < 2 ^ 64 ∧
      (newEnd = start + size ∨ ∃ e ∈ rmap.entries, Touches pid start size e ∧
        stop e = newEnd) ∧
      (∀ e ∈ rmap.entries, Touches pid start size e → stop e ≤ newEnd) ∧
      (∀ s, rmEnd = some s → s ∈ rmap.entries ∧ Touches pid start size s ∧
        ∀ e ∈ rmap.entries, Touches pid start size e → e.1 ≤ s.1) := by
  have hend : ulong (start + size) = start + size := ulong_of_lt hwrap
  have hlast : usub (start + size) 1 = start + size - 1 := usub_of_le (by omega) hwrap
  have spec := searchRange_spec sep pid (start + size - 1)
  unfold extendUp
  simp only [hend, hlast]
  cases hit : (searchRange rmap pid (start + size - 1)).it with
  | some e =>
      obtain ⟨he, hpid, hstart, hstop⟩ := spec.it_mem e hit
      have hse := sep.start_lt_stop he
      have htouch : Touches pid start size e := ⟨hpid, by omega, by omega⟩
      have hmax : ∀ d ∈ rmap.entries, Touches pid start size d → d.1.start ≤ e.1.start := by
        rintro d hd ⟨hdpid, hdstart, -⟩
        by_contra hlt
        have := sep.apart e he d hd (hpid.trans hdpid.symm) (not_le.mp hlt)
        omega
      refine ⟨stop e, some e, by simp [sep.ulong_stop he], by omega, sep.stop_lt e he,
        Or.inr ⟨e, he, htouch, rfl⟩, fun d hd ht => ?_, ?_⟩
      · by_cases hde : d = e
        · rw [hde]
        · have := hmax d hd ht
          rcases sep.gap hd he (ht.1.trans hpid.symm) hde with h | h <;> omega
      · rintro s ⟨rfl⟩
        exact ⟨he, htouch, fun d hd ht =>
          Key.le_iff.mpr (Or.inr ⟨ht.1.trans hpid.symm, hmax d hd ht⟩)⟩
  | none =>
      have hnot := spec.it_none hit
      -- a touching range either starts exactly at `start + size` or ends inside
      have hcases : ∀ d ∈ rmap.entries, Touches pid start size d →
          d.1.start = start + size ∨ stop d < start + size := by
        rintro d hd ⟨hdpid, hdstart, -⟩
        by_contra hcon
        push Not at hcon
        exact hnot d hd hdpid ⟨by omega, by omega⟩
      -- without a range starting at `start + size` nothing has to be extended
      have hplain : (∀ d ∈ rmap.entries, d.1.pid = ulongOfInt pid →
            d.1.start ≠ start + size) →
          ∃ newEnd rmEnd, (start + size, (none : Iterator)) = (newEnd, rmEnd) ∧
            start + size ≤ newEnd ∧ newEnd < 2 ^ 64 ∧
            (newEnd = start + size ∨ ∃ e ∈ rmap.entries, Touches pid start size e ∧
              stop e = newEnd) ∧
            (∀ e ∈ rmap.entries, Touches pid start size e → stop e ≤ newEnd) ∧
            (∀ s, rmEnd = some s → s ∈ rmap.entries ∧ Touches pid start size s ∧
              ∀ e ∈ rmap.entries, Touches pid start size e → e.1 ≤ s.1) := by
        intro hfree
        refine ⟨start + size, none, rfl, le_rfl, hwrap, Or.inl rfl, fun d hd ht => ?_, by simp⟩
        rcases hcases d hd ht with h | h
        · exact absurd h (hfree d hd ht.1)
        · exact h.le
      rw [spec.upper_eq]
      cases hup : rmap.upperBound ⟨ulongOfInt pid, start + size - 1⟩ with
      | none =>
          refine hplain fun d hd hdpid hds => ?_
          have := SortedMap.upperBound_eq_none.mp hup d hd
          rcases Key.le_iff.mp this with h | ⟨-, h⟩
          · exact absurd hdpid h.ne
          · simp only at h; omega
      | some u =>
          obtain ⟨hu, hlt, hmin⟩ := SortedMap.upperBound_eq_some.mp hup
          simp only
          split
          · rename_i hadj
            have hse := sep.start_lt_stop hu
            have htouch : Touches pid start size u := ⟨hadj.1.symm, by omega, by omega⟩
            refine ⟨stop u, some u, by simp [sep.ulong_stop hu], by omega, sep.stop_lt u hu,
              Or.inr ⟨u, hu, htouch, rfl⟩, fun d hd ht => ?_, ?_⟩
            · by_cases hdu : d = u
              · rw [hdu]
              · rcases hcases d hd ht with h | h
                · exact absurd (SortedMap.eq_of_mem hd hu
                    (Key.ext (ht.1.trans hadj.1) (h.trans hadj.2))) hdu
                · omega
            · rintro s ⟨rfl⟩
              refine ⟨hu, htouch, fun d hd ht =>
                Key.le_iff.mpr (Or.inr ⟨ht.1.trans hadj.1, ?_⟩)⟩
              have := ht.2.1
              omega
          · rename_i hfar
            refine hplain fun d hd hdpid hds => hfar ?_
            have hdlt : (⟨ulongOfInt pid, start + size - 1⟩ : Key) < d.1 :=
              Key.lt_iff.mpr (Or.inr ⟨hdpid.symm, by simp only; omega⟩)
            have hud := hmin d hd hdlt
            rcases Key.lt_iff.mp hlt with h | ⟨h, h'⟩ <;>
              rcases Key.le_iff.mp hud with g | ⟨g, g'⟩ <;> simp only at * <;>
              omega

end Insert

/-! ### Removal -/

/-- The range belongs to the process and lies inside `[newStart, newEnd)`. -/
def Swallowed (pid : Int32) (newStart newEnd : ℕ) (e : Key × Range) : Prop :=
  e.1.pid = ulongOfInt pid ∧ newStart ≤ e.1.start ∧ stop e ≤ newEnd

/-- The entry stands at or after the iterator. -/
def Reached (it : Iterator) (e : Key × Range) : Prop := ∃ d, it = some d ∧ d.1 ≤ e.1

/-- The entry stands before the iterator. -/
def Before (it : Iterator) (e : Key × Range) : Prop := ∀ d, it = some d → e.1 < d.1

theorem reached_iff_next {rmap : RangeMap} {d e : Key × Range} (hd : d ∈ rmap.entries)
    (he : e ∈ rmap.entries) :
    Reached (some d) e ↔ e = d ∨ Reached (rmap.next d.1) e := by
  constructor
  · rintro ⟨d', ⟨rfl⟩, hle⟩
    rcases hle.eq_or_lt with h | h
    · exact Or.inl (SortedMap.eq_of_mem he hd h.symm)
    · cases hn : rmap.next d.1 with
      | none => exact absurd (SortedMap.upperBound_eq_none.mp hn e he) (not_le.mpr h)
      | some f => exact Or.inr ⟨f, rfl, (SortedMap.upperBound_eq_some.mp hn).2.2 e he h⟩
  · rintro (rfl | ⟨f, hf, hle⟩)
    · exact ⟨e, rfl, le_rfl⟩
    · exact ⟨d, rfl, ((SortedMap.upperBound_eq_some.mp hf).2.1.trans_le hle).le⟩

/-- The loop stops at `rm_end` and has erased what it swallowed on the way. -/
theorem removeLoop_spec (rmEnd : Iterator) (pid : Int32) (newStart newEnd : ℕ) :
    ∀ (fuel : ℕ) (rmap : RangeMap) (it : Iterator),
      (∀ e ∈ rmap.entries, stop e < 2 ^ 64) →
      (∀ e, it = some e → e ∈ rmap.entries) →
      (∀ s, rmEnd = some s → s ∈ rmap.entries ∧ Reached it s) →
      rmap.ahead it < fuel →
      (removeLoop rmEnd pid newStart newEnd fuel rmap it).2 = rmEnd ∧
        ∀ e, e ∈ (removeLoop rmEnd pid newStart newEnd fuel rmap it).1.entries ↔
          e ∈ rmap.entries ∧
            ¬ (Swallowed pid newStart newEnd e ∧ Reached it e ∧ Before rmEnd e) := by
  intro fuel
  induction fuel with
  | zero => intro rmap it _ _ _ h; exact absurd h (Nat.not_lt_zero _)
  | succ fuel ih =>
      intro rmap it hfit hit hend hfuel
      cases it with
      | none =>
          refine ⟨?_, fun e => ?_⟩
          · cases hr : rmEnd with
            | none => rfl
            | some s =>
                obtain ⟨-, d, hd, -⟩ := hend s hr
                exact absurd hd (by simp)
          · simp [removeLoop, Reached]
      | some d =>
          have hd := hit d rfl
          obtain ⟨k, r⟩ := d
          unfold removeLoop
          by_cases hat : rmEnd.map Prod.fst = some k
          · rw [if_pos hat]
            obtain ⟨s, hs, hsk⟩ := Option.map_eq_some_iff.mp hat
            have hskr : s = (k, r) := SortedMap.eq_of_mem (hend s hs).1 hd hsk
            refine ⟨by rw [hs, hskr], fun e => ⟨fun he => ⟨he, ?_⟩, And.left⟩⟩
            rintro ⟨-, ⟨d, ⟨rfl⟩, hle⟩, hbefore⟩
            exact absurd (hbefore s hs) (by rw [hskr]; exact not_lt.mpr hle)
          rw [if_neg hat]
          -- the rest of the walk starts at the next entry, still below `rm_end`
          have hnextMem : ∀ e, rmap.next k = some e → e ∈ rmap.entries := fun e he =>
            (SortedMap.upperBound_eq_some.mp he).1
          have hnextEnd : ∀ s, rmEnd = some s → s ∈ rmap.entries ∧
              Reached (rmap.next k) s := by
            intro s hs
            obtain ⟨hsmem, hreach⟩ := hend s hs
            rcases (reached_iff_next hd hsmem).mp hreach with h | h
            · exact absurd (by rw [hs, h]; rfl) hat
            · exact ⟨hsmem, h⟩
          have hless : rmap.ahead (rmap.next k) < fuel :=
            lt_of_lt_of_le (SortedMap.ahead_next_lt hd) (Nat.lt_succ_iff.mp hfuel)
          -- leaving the current entry alone is right when it is not swallowed
          have hkeep : ¬ Swallowed pid newStart newEnd (k, r) →
              (removeLoop rmEnd pid newStart newEnd fuel rmap (rmap.next k)).2 = rmEnd ∧
              ∀ e, e ∈ (removeLoop rmEnd pid newStart newEnd fuel rmap
                  (rmap.next k)).1.entries ↔ e ∈ rmap.entries ∧
                ¬ (Swallowed pid newStart newEnd e ∧ Reached (some (k, r)) e ∧
                  Before rmEnd e) := by
            intro hnot
            obtain ⟨hstop, hmem⟩ := ih rmap _ hfit hnextMem hnextEnd hless
            refine ⟨hstop, fun e => (hmem e).trans (and_congr_right fun he => not_congr ?_)⟩
            rw [reached_iff_next hd he]
            constructor
            · rintro ⟨hsw, hr, hb⟩
              exact ⟨hsw, Or.inr hr, hb⟩
            · rintro ⟨hsw, rfl | hr, hb⟩
              · exact absurd hsw hnot
              · exact ⟨hsw, hr, hb⟩
          have hkfit : ulong (k.start + r.size) = stop (k, r) := ulong_of_lt (hfit _ hd)
          rw [hkfit]
          split
          · rename_i hother
            exact hkeep fun h => hother h.1.symm
          · rename_i hsame
            split
            · rename_i hin
              have hsw : Swallowed pid newStart newEnd (k, r) :=
                ⟨(not_not.mp hsame).symm, hin.1, hin.2⟩
              rw [SortedMap.next_erase]
              have hne : ∀ e, Reached (rmap.next k) e → e.1 ≠ k := by
                rintro e ⟨f, hf, hle⟩
                exact ((SortedMap.upperBound_eq_some.mp hf).2.1.trans_le hle).ne'
              obtain ⟨hstop, hmem⟩ := ih (rmap.erase k) (rmap.next k)
                (fun e he => hfit e (SortedMap.mem_erase.mp he).1)
                (fun e he => SortedMap.mem_erase.mpr ⟨hnextMem e he, hne e ⟨e, he, le_rfl⟩⟩)
                (fun s hs => ⟨SortedMap.mem_erase.mpr
                  ⟨(hnextEnd s hs).1, hne s (hnextEnd s hs).2⟩, (hnextEnd s hs).2⟩)
                ((SortedMap.ahead_erase_le rmap k _).trans_lt hless)
              have hkbefore : Before rmEnd (k, r) := by
                intro s hs
                obtain ⟨f, hf, hle⟩ := (hnextEnd s hs).2
                exact (SortedMap.upperBound_eq_some.mp hf).2.1.trans_le hle
              refine ⟨hstop, fun e => (hmem e).trans ?_⟩
              rw [SortedMap.mem_erase]
              constructor
              · rintro ⟨⟨he, hek⟩, hnot⟩
                refine ⟨he, fun ⟨hs, hr, hb⟩ => hnot ⟨hs, ?_, hb⟩⟩
                exact ((reached_iff_next hd he).mp hr).resolve_left fun h => hek (by rw [h])
              · rintro ⟨he, hnot⟩
                refine ⟨⟨he, fun hek => hnot ?_⟩, fun ⟨hs, hr, hb⟩ =>
                  hnot ⟨hs, (reached_iff_next hd he).mpr (Or.inr hr), hb⟩⟩
                rw [SortedMap.eq_of_mem he hd hek]
                exact ⟨hsw, ⟨_, rfl, le_rfl⟩, hkbefore⟩
            · rename_i hout
              exact hkeep fun h => hout h.2

/-- `remove_ranges` erases what lies inside the new range, and `rm_end`. -/
theorem mem_removeRanges {rmap : RangeMap} (rmStart rmEnd : Iterator) {pid : Int32}
    {newStart newEnd : ℕ} (hfit : ∀ e ∈ rmap.entries, stop e < 2 ^ 64)
    (hstart : ∀ s, rmStart = some s → s ∈ rmap.entries ∧
      ∀ e ∈ rmap.entries, Swallowed pid newStart newEnd e → s.1 ≤ e.1)
    (hend : ∀ s, rmEnd = some s → s ∈ rmap.entries ∧
      Swallowed pid newStart newEnd s ∧
      ∀ e ∈ rmap.entries, Swallowed pid newStart newEnd e → e.1 ≤ s.1)
    (e : Key × Range) :
    e ∈ (removeRanges rmap rmStart rmEnd pid newStart newEnd).entries ↔
      e ∈ rmap.entries ∧ ¬ Swallowed pid newStart newEnd e := by
  have hfrom : ∀ e ∈ rmap.entries, Swallowed pid newStart newEnd e →
      Reached (if rmStart = none then rmap.first else rmStart) e := by
    intro e he hsw
    cases hrs : rmStart with
    | none =>
        cases hf : rmap.first with
        | none => simp [SortedMap.first_eq_none.mp hf] at he
        | some f => exact ⟨f, by simp, SortedMap.first_le hf he⟩
    | some s => exact ⟨s, by simp, (hstart s hrs).2 e he hsw⟩
  have hbegin : ∀ d, (if rmStart = none then rmap.first else rmStart) = some d →
      d ∈ rmap.entries := by
    intro d hd
    split at hd
    · exact SortedMap.mem_of_first hd
    · exact (hstart d hd).1
  obtain ⟨hstop, hmem⟩ := removeLoop_spec rmEnd pid newStart newEnd
    (rmap.entries.length + 1) rmap (if rmStart = none then rmap.first else rmStart) hfit
    hbegin (fun s hs => ⟨(hend s hs).1, hfrom s (hend s hs).1 (hend s hs).2.1⟩)
    (Nat.lt_succ_of_le (SortedMap.ahead_le_length _ _))
  unfold removeRanges
  dsimp only
  rw [hstop]
  cases rmEnd with
  | none =>
      refine (hmem e).trans (and_congr_right fun he => not_congr ⟨And.left, fun h => ?_⟩)
      exact ⟨h, hfrom e he h, by simp [Before]⟩
  | some s =>
      obtain ⟨hs, hssw, hsmax⟩ := hend s rfl
      dsimp only
      rw [SortedMap.mem_erase, hmem e]
      constructor
      · rintro ⟨⟨he, hnot⟩, hne⟩
        refine ⟨he, fun hsw => hnot ⟨hsw, hfrom e he hsw, ?_⟩⟩
        rintro d ⟨rfl⟩
        exact lt_of_le_of_ne (hsmax e he hsw) hne
      · rintro ⟨he, hnot⟩
        refine ⟨⟨he, fun h => hnot h.1⟩, fun hek => hnot ?_⟩
        rw [SortedMap.eq_of_mem he hs hek]
        exact hssw

/-! ### Insertion -/

/-- **One insertion.**  The touching ranges are replaced by one range: the
union of the inserted interval with all of them. -/
theorem insertRange_spec {rmap : RangeMap} (sep : Separated rmap) (pid : Int32)
    {start size : ℕ} (hsize : 0 < size) (hwrap : start + size < 2 ^ 64) :
    ∃ new : Key × Range, new.1.pid = ulongOfInt pid ∧ 0 < new.2.size ∧
      stop new < 2 ^ 64 ∧
      (∀ addr, Holds new addr ↔ (start ≤ addr ∧ addr < start + size) ∨
        ∃ e ∈ rmap.entries, Touches pid start size e ∧ Holds e addr) ∧
      (∀ e ∈ rmap.entries, e.1.pid = ulongOfInt pid → ¬ Touches pid start size e →
        stop e < new.1.start ∨ stop new < e.1.start) ∧
      ∀ e, e ∈ (insertRange rmap pid start size).entries ↔
        e = new ∨ e ∈ rmap.entries ∧ ¬ Touches pid start size e := by
  obtain ⟨newStart, rmStart, hdown, hns, hnsEx, hnsMin, hrmStart⟩ :=
    extendDown_spec sep pid hsize
  obtain ⟨newEnd, rmEnd, hup, hne, hneLt, hneEx, hneMax, hrmEnd⟩ :=
    extendUp_spec sep pid hsize hwrap
  -- a range of the process that does not touch lies beyond the new range
  have hfar : ∀ e ∈ rmap.entries, e.1.pid = ulongOfInt pid → ¬ Touches pid start size e →
      stop e < newStart ∨ newEnd < e.1.start := by
    intro e he hpid hnot
    have hse := sep.start_lt_stop he
    rcases Nat.lt_or_ge (start + size) e.1.start with h | h
    · right
      rcases hneEx with rfl | ⟨d, hd, ht, rfl⟩
      · exact h
      · have hned : e ≠ d := fun h' => hnot (h' ▸ ht)
        have := ht.2.1
        rcases sep.gap he hd (hpid.trans ht.1.symm) hned with g | g <;> omega
    · left
      have hlow : stop e < start := by
        by_contra hge
        exact hnot ⟨hpid, h, not_lt.mp hge⟩
      rcases hnsEx with rfl | ⟨d, hd, ht, rfl⟩
      · exact hlow
      · have hned : e ≠ d := fun h' => hnot (h' ▸ ht)
        have := ht.2.2
        rcases sep.gap he hd (hpid.trans ht.1.symm) hned with g | g <;> omega
  have hswallow : ∀ e ∈ rmap.entries,
      (Swallowed pid newStart newEnd e ↔ Touches pid start size e) := by
    intro e he
    constructor
    · rintro ⟨hpid, h1, h2⟩
      by_contra hnot
      have hse := sep.start_lt_stop he
      rcases hfar e he hpid hnot with h | h <;> omega
    · exact fun ht => ⟨ht.1, hnsMin e he ht, hneMax e he ht⟩
  have hremoved := mem_removeRanges rmStart rmEnd sep.stop_lt
    (fun s hs => ⟨(hrmStart s hs).1, fun e he h =>
      (hrmStart s hs).2 e he ((hswallow e he).mp h)⟩)
    (fun s hs => ⟨(hrmEnd s hs).1, (hswallow s (hrmEnd s hs).1).mpr (hrmEnd s hs).2.1,
      fun e he h => (hrmEnd s hs).2.2 e he ((hswallow e he).mp h)⟩)
  have hwidth : usub newEnd newStart = newEnd - newStart := usub_of_le (by omega) hneLt
  have hstopNew : stop (⟨ulongOfInt pid, newStart⟩, ⟨newEnd - newStart⟩) = newEnd := by
    simp only [stop]; omega
  refine ⟨(⟨ulongOfInt pid, newStart⟩, ⟨newEnd - newStart⟩), rfl, by simp only; omega,
    by rw [hstopNew]; exact hneLt, fun addr => ?_, ?_, fun e => ?_⟩
  · simp only [Holds, hstopNew]
    constructor
    · rintro ⟨h1, h2⟩
      rcases Nat.lt_or_ge addr start with hlo | hlo
      · rcases hnsEx with rfl | ⟨d, hd, ht, rfl⟩
        · omega
        · have := ht.2.2
          exact Or.inr ⟨d, hd, ht, h1, by omega⟩
      · rcases Nat.lt_or_ge addr (start + size) with hhi | hhi
        · exact Or.inl ⟨hlo, hhi⟩
        · rcases hneEx with rfl | ⟨d, hd, ht, rfl⟩
          · omega
          · have := ht.2.1
            exact Or.inr ⟨d, hd, ht, by omega, h2⟩
    · rintro (⟨h1, h2⟩ | ⟨d, hd, ht, h1, h2⟩)
      · exact ⟨by omega, by omega⟩
      · exact ⟨(hnsMin d hd ht).trans h1, h2.trans_le (hneMax d hd ht)⟩
  · intro e he hpid hnot
    rw [hstopNew]
    exact hfar e he hpid hnot
  · simp only [insertRange, hdown, hup, insertNewRange, hwidth]
    rw [SortedMap.mem_insert]
    · rw [hremoved e]
      exact or_congr_right (and_congr_right fun he => not_congr (hswallow e he))
    · intro d hd hkey
      obtain ⟨hdmem, hdnot⟩ := (hremoved d).mp hd
      have hpid : d.1.pid = ulongOfInt pid := by rw [hkey]
      have hds : d.1.start = newStart := by rw [hkey]
      have hse := sep.start_lt_stop hdmem
      rcases hfar d hdmem hpid (fun h => hdnot ((hswallow d hdmem).mpr h)) with h | h <;> omega

/-- Insertion keeps the ranges separated. -/
theorem Separated.insertRange {rmap : RangeMap} (sep : Separated rmap) (pid : Int32)
    {start size : ℕ} (hsize : 0 < size) (hwrap : start + size < 2 ^ 64) :
    Separated (insertRange rmap pid start size) := by
  obtain ⟨new, hpid, hpos, hlt, -, hfar, hmem⟩ := insertRange_spec sep pid hsize hwrap
  refine ⟨fun e he => ?_, fun e he => ?_, fun e he f hf hsame hord => ?_⟩
  · rcases (hmem e).mp he with rfl | ⟨he, -⟩
    · exact hpos
    · exact sep.size_pos e he
  · rcases (hmem e).mp he with rfl | ⟨he, -⟩
    · exact hlt
    · exact sep.stop_lt e he
  · rcases (hmem e).mp he with rfl | ⟨he, hne⟩ <;> rcases (hmem f).mp hf with rfl | ⟨hf, hnf⟩
    · omega
    · rcases hfar f hf (hsame.symm.trans hpid) hnf with h | h
      · have := sep.start_lt_stop hf
        omega
      · exact h
    · rcases hfar e he (hsame.trans hpid) hne with h | h
      · exact h
      · simp only [stop] at h
        omega
    · exact sep.apart e he f hf hsame hord

/-- Insertion adds exactly the inserted interval to its process. -/
theorem addresses_insertRange {rmap : RangeMap} (sep : Separated rmap) (pid : Int32)
    {start size : ℕ} (hsize : 0 < size) (hwrap : start + size < 2 ^ 64) :
    addresses (insertRange rmap pid start size) pid =
      addresses rmap pid ∪ {addr | start ≤ addr ∧ addr < start + size} := by
  obtain ⟨new, hpid, -, -, hnew, -, hmem⟩ := insertRange_spec sep pid hsize hwrap
  ext addr
  constructor
  · rintro ⟨e, he, hepid, hold⟩
    rcases (hmem e).mp he with rfl | ⟨he, -⟩
    · rcases (hnew addr).mp hold with h | ⟨d, hd, ht, hh⟩
      · exact Or.inr h
      · exact Or.inl ⟨d, hd, ht.1, hh⟩
    · exact Or.inl ⟨e, he, hepid, hold⟩
  · rintro (⟨e, he, hepid, hold⟩ | h)
    · by_cases ht : Touches pid start size e
      · exact ⟨new, (hmem new).mpr (Or.inl rfl), hpid, (hnew addr).mpr (Or.inr ⟨e, he, ht, hold⟩)⟩
      · exact ⟨e, (hmem e).mpr (Or.inr ⟨he, ht⟩), hepid, hold⟩
    · exact ⟨new, (hmem new).mpr (Or.inl rfl), hpid, (hnew addr).mpr (Or.inl h)⟩

/-- Insertion for one process leaves every other process's ranges alone. -/
theorem rangesOf_insertRange_of_ne {rmap : RangeMap} (sep : Separated rmap) {pid other : Int32}
    {start size : ℕ} (hsize : 0 < size) (hwrap : start + size < 2 ^ 64)
    (hne : other ≠ pid) :
    rangesOf (insertRange rmap pid start size) other = rangesOf rmap other := by
  obtain ⟨new, hpid, -, -, -, -, hmem⟩ := insertRange_spec sep pid hsize hwrap
  have hother : ulongOfInt other ≠ ulongOfInt pid := fun h => hne (ulongOfInt_injective h)
  ext e
  constructor
  · rintro ⟨he, hepid⟩
    rcases (hmem e).mp he with rfl | ⟨he, -⟩
    · exact absurd (hepid.symm.trans hpid) hother
    · exact ⟨he, hepid⟩
  · rintro ⟨he, hepid⟩
    exact ⟨(hmem e).mpr (Or.inr ⟨he, fun ht => hother (hepid.symm.trans ht.1)⟩), hepid⟩

theorem mem_addresses_iff {rmap : RangeMap} {pid : Int32} {addr : ℕ} :
    addr ∈ addresses rmap pid ↔ ∃ e ∈ rangesOf rmap pid, Holds e addr :=
  ⟨fun ⟨e, he, hpid, h⟩ => ⟨e, ⟨he, hpid⟩, h⟩, fun ⟨e, ⟨he, hpid⟩, h⟩ => ⟨e, he, hpid, h⟩⟩

/-! ### Runs -/

/-- The public operations that change the filter. -/
inductive Op where
  | insertRange (pid : Int32) (start size : ℕ)
  | clear

/-- One operation of the filter. -/
def Op.apply (rmap : RangeMap) : Op → RangeMap
  | .insertRange pid start size => AddressRangeFilter.insertRange rmap pid start size
  | .clear => AddressRangeFilter.clear rmap

/-- A fresh filter after a sequence of operations. -/
def run (ops : List Op) : RangeMap := ops.foldl Op.apply SortedMap.empty

/-- An insertion the filter is meant for: non-empty and inside the address space. -/
def Op.Proper : Op → Prop
  | .insertRange _ start size => 0 < size ∧ start + size < 2 ^ 64
  | .clear => True

instance (op : Op) : Decidable op.Proper := by
  cases op <;> unfold Op.Proper <;> infer_instance

/-- What a sequence of operations means for one process: the union of the
intervals inserted for it since the last `clear`. -/
def inserted (pid : Int32) (ops : List Op) : Set ℕ :=
  ops.foldl (fun stored op => match op with
    | .insertRange p start size =>
        if p = pid then stored ∪ {addr | start ≤ addr ∧ addr < start + size} else stored
    | .clear => ∅) ∅

theorem run_append (ops : List Op) (op : Op) : run (ops ++ [op]) = op.apply (run ops) := by
  simp [run]

theorem Separated.apply {rmap : RangeMap} (sep : Separated rmap) {op : Op}
    (hop : op.Proper) : Separated (op.apply rmap) := by
  cases op with
  | insertRange pid start size => exact sep.insertRange pid hop.1 hop.2
  | clear => exact separated_empty

/-- Every state a run reaches is separated. -/
theorem separated_run {ops : List Op} (hops : ∀ op ∈ ops, op.Proper) :
    Separated (run ops) := by
  induction ops using List.reverseRecOn with
  | nil => exact separated_empty
  | append_singleton ops op ih =>
      rw [run_append]
      exact (ih fun o ho => hops o (List.mem_append_left _ ho)).apply (hops op (by simp))

/-- A run stores for each process the union of what was inserted for it. -/
theorem addresses_run {ops : List Op} (hops : ∀ op ∈ ops, op.Proper) (pid : Int32) :
    addresses (run ops) pid = inserted pid ops := by
  induction ops using List.reverseRecOn with
  | nil =>
      ext addr
      simp [run, addresses, inserted]
  | append_singleton ops op ih =>
      have hops' : ∀ o ∈ ops, o.Proper := fun o ho => hops o (List.mem_append_left _ ho)
      have hop : op.Proper := hops op (by simp)
      rw [run_append, inserted, List.foldl_append, List.foldl_cons, List.foldl_nil,
        ← inserted, ← ih hops']
      cases op with
      | clear =>
          ext addr
          simp [Op.apply, clear, addresses]
      | insertRange p start size =>
          dsimp only [Op.apply]
          split
          · rename_i hp
            rw [hp]
            exact addresses_insertRange (separated_run hops') pid hop.1 hop.2
          · rename_i hp
            ext addr
            rw [mem_addresses_iff, mem_addresses_iff, rangesOf_insertRange_of_ne
              (separated_run hops') hop.1 hop.2 (Ne.symm hp)]

/-- **The filter is a per-process set of addresses.**  After any sequence of
proper operations a lookup answers whether the address was inserted for that
process since the last `clear`; two stored ranges of one process neither
overlap nor adjoin; and an insertion for one process leaves the ranges of
every other process as they were. -/
theorem searchAddress_run (ops : List Op) (hops : ∀ op ∈ ops, op.Proper) :
    (∀ pid addr, searchAddress (run ops) pid addr = true ↔ addr ∈ inserted pid ops) ∧
    (∀ pid, ∀ e ∈ rangesOf (run ops) pid, ∀ f ∈ rangesOf (run ops) pid, e ≠ f →
      stop e < f.1.start ∨ stop f < e.1.start) ∧
    (∀ pid other start size, Op.Proper (.insertRange pid start size) → other ≠ pid →
      rangesOf (run (ops ++ [.insertRange pid start size])) other =
        rangesOf (run ops) other) := by
  have sep := separated_run hops
  refine ⟨fun pid addr => ?_, fun pid e he f hf hne => ?_, fun pid other start size hop hne => ?_⟩
  · rw [searchAddress_iff sep, addresses_run hops]
  · exact sep.gap he.1 hf.1 (he.2.trans hf.2.symm) hne
  · rw [run_append]
    exact rangesOf_insertRange_of_ne sep hop.1 hop.2 hne

/-- A bridging insertion: two ranges become one, and a second process keeps its own. -/
theorem searchAddress_run_bridge :
    (∀ op ∈ [Op.insertRange 1 1000 1000, .insertRange 1 3000 1000, .insertRange 2 0 8,
        .insertRange 1 2000 1000], op.Proper) ∧
      searchAddress (run [Op.insertRange 1 1000 1000, .insertRange 1 3000 1000,
        .insertRange 2 0 8, .insertRange 1 2000 1000]) 1 2500 = true := by
  have hops : ∀ op ∈ [Op.insertRange 1 1000 1000, .insertRange 1 3000 1000,
      .insertRange 2 0 8, .insertRange 1 2000 1000], op.Proper := by decide
  refine ⟨hops, ((searchAddress_run _ hops).1 1 2500).mpr ?_⟩
  simp [inserted]

end MemoryOptimizer.AddressRangeFilter
