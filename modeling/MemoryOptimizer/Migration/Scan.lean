import MemoryOptimizer.Migration.Histogram

/-!
# A scanning period

One round of `GlobalScan::main_loop` up to the plan: `prepare_walk_multi`, the
walks of every range, `count_refs`.  What a walk finds is the environment's
choice (`WalkOutcome`); what it does to the bookkeeping of its range is not.

`period_rows` is the fact the planner depends on: a range without an error has
counted every walk and has `nr_walks + 1` bins in each row, a range with an
error has rows without bins.
-/

namespace MemoryOptimizer

open ProcIdlePageType EPTScan

/-- `class EPTMigrate`, as far as the scan fills it and the planner reads it. -/
structure EPTMigrate where
  ioError : ℤ
  nrWalks : ℕ
  pagetypeRefs : ProcIdlePageType → ProcIdleRefs

/-- How one `ProcIdlePages::walk` of a range goes. -/
inductive WalkOutcome where
  /-- the policy places the process in DRAM: it is skipped -/
  | placementDram
  /-- `proc_maps.load` finds no mapping: the process is gone -/
  | noMaps
  /-- neither idle-page file opens -/
  | openFailed
  /-- the mappings are walked; `page_refs` are what was found, `failed` tells
  whether a seek or a read failed in between -/
  | walked (pageRefs : ProcIdlePageType → AddrSequence) (failed : Bool)

namespace EPTMigrate

/-- The types `0` to `MAX_ACCESSED`. -/
def accessedTypes : List ProcIdlePageType := [pteAccessed, pmdAccessed, pudPresent]

/-- `prepare_walks`. -/
def prepareWalks (range : EPTMigrate) : EPTMigrate :=
  { range with
    nrWalks := 0
    pagetypeRefs := fun type =>
      if type ∈ accessedTypes then
        { pageRefs := (range.pagetypeRefs type).pageRefs.clear.setPageshift type.shift
          histogram2d := fun _ => [] }
      else range.pagetypeRefs type }

/-- `ProcIdlePages::walk`. -/
def walk (range : EPTMigrate) : WalkOutcome → EPTMigrate
  | .placementDram => { range with ioError := 1 }
  | .noMaps => { range with ioError := -3 }
  | .openFailed => { range with ioError := -1 }
  | .walked pageRefs failed =>
      { ioError := if failed then -1 else range.ioError
        nrWalks := range.nrWalks + 1
        pagetypeRefs := fun type =>
          { range.pagetypeRefs type with pageRefs := pageRefs type } }

/-- `EPTScan::count_refs`, but for the system-wide totals. -/
def countRefs (numa : NumaNodeCollection) (range : EPTMigrate) : EPTMigrate :=
  if range.ioError ≠ 0 then range
  else
    { range with
      pagetypeRefs := fun type =>
        if type ∈ accessedTypes then
          { range.pagetypeRefs type with
            histogram2d :=
              countRefsOne numa range.nrWalks (range.pagetypeRefs type).pageRefs.pages }
        else range.pagetypeRefs type }

/-- The period of one range: `scans` are its walks. -/
def period (numa : NumaNodeCollection) (range : EPTMigrate) (scans : List WalkOutcome) :
    EPTMigrate :=
  (scans.foldl walk range.prepareWalks).countRefs numa

/-! ### The rows after a period -/

theorem foldl_walk_empty (scans : List WalkOutcome) {range : EPTMigrate}
    (hrows : ∀ type ∈ accessedTypes, Rows 0 (range.pagetypeRefs type).histogram2d)
    {type : ProcIdlePageType} (htype : type ∈ accessedTypes) :
    Rows 0 ((scans.foldl walk range).pagetypeRefs type).histogram2d := by
  induction scans generalizing range with
  | nil => exact hrows type htype
  | cons scan scans ih =>
      refine ih fun type htype => ?_
      cases scan <;> exact hrows type htype

/-- Once set, an error stays; a walk that sets none counts itself. -/
theorem foldl_walk_nrWalks (scans : List WalkOutcome) {range : EPTMigrate}
    (h : (scans.foldl walk range).ioError = 0) :
    range.ioError = 0 ∧ (scans.foldl walk range).nrWalks = range.nrWalks + scans.length := by
  induction scans generalizing range with
  | nil => exact ⟨h, rfl⟩
  | cons scan scans ih =>
      obtain ⟨herr, hwalks⟩ := ih h
      rw [List.foldl_cons, hwalks]
      cases scan with
      | placementDram => simp [walk] at herr
      | noMaps => simp [walk] at herr
      | openFailed => simp [walk] at herr
      | walked pageRefs failed =>
          cases failed with
          | true => simp [walk] at herr
          | false =>
              refine ⟨herr, ?_⟩
              simp only [walk, List.length_cons]
              omega

@[simp] theorem countRefs_ioError (numa : NumaNodeCollection) (range : EPTMigrate) :
    (range.countRefs numa).ioError = range.ioError := by
  unfold countRefs
  split <;> rfl

/-- After a period, a range has bins for all its walks, or none if it ended
with an error. -/
theorem period_rows (numa : NumaNodeCollection) (range : EPTMigrate) (scans : List WalkOutcome)
    {type : ProcIdlePageType} (htype : type ∈ accessedTypes) :
    Rows (if (range.period numa scans).ioError = 0 then scans.length + 1 else 0)
      ((range.period numa scans).pagetypeRefs type).histogram2d := by
  rw [period, countRefs_ioError]
  split
  · rename_i herr
    have hwalks := (foldl_walk_nrWalks scans herr).2
    have hzero : range.prepareWalks.nrWalks = 0 := rfl
    rw [hzero, Nat.zero_add] at hwalks
    simp only [countRefs, herr, htype, ne_eq, not_true_eq_false, if_false, if_true, hwalks]
    exact countRefsOne_rows _ _ _
  · rename_i herr
    simp only [countRefs, ne_eq, herr, not_false_eq_true, if_true]
    refine foldl_walk_empty scans (fun type htype => ?_) htype
    simp only [prepareWalks, htype, if_true]
    exact fun _ => rfl

/-- Without an error, the histograms are those of the pages that the period found. -/
theorem period_histogram (numa : NumaNodeCollection) (range : EPTMigrate)
    (scans : List WalkOutcome) {type : ProcIdlePageType} (htype : type ∈ accessedTypes)
    (herr : (range.period numa scans).ioError = 0) :
    ((range.period numa scans).pagetypeRefs type).histogram2d = countRefsOne numa scans.length
      ((range.period numa scans).pagetypeRefs type).pageRefs.pages := by
  rw [period, countRefs_ioError] at herr
  have hwalks := (foldl_walk_nrWalks scans herr).2
  have hzero : range.prepareWalks.nrWalks = 0 := rfl
  rw [hzero, Nat.zero_add] at hwalks
  simp only [period, countRefs, herr, htype, ne_eq, not_true_eq_false, if_false, if_true, hwalks]

end EPTMigrate

end MemoryOptimizer
