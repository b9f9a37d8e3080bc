import Mathlib.Algebra.BigOperators.Group.Finset.Basic
import Mathlib.Algebra.Order.BigOperators.Group.Finset
import MemoryOptimizer.Migration.MigrateCount
import MemoryOptimizer.Migration.Thresholds

/-!
# The budget of a plan

The planner stores pages per range and type, and counts kilobytes in two shared
counters. A bin that does not fit into what is left of a limit is cut to it, and
the rest of a page is lost; from then on the limit is used up.

* `Within` — the pages fit into the counters, and these into the limits.
* `planned_le` — the totals stay within the limits, in every plan there is.
* `calcMigrateParameter_budget` — there is a plan, and its parameters hold what their
  thresholds say.
-/

namespace MemoryOptimizer

open ProcIdlePageType EPTScan

namespace GlobalScan

/-! ### What the thresholds select -/

/-- The pages in the bins above a threshold. -/
def pagesAbove (h : Histogram2d) (threshold : ℤ) : ℤ :=
  ((h refLocPmem).drop (threshold + 1).toNat).sum

/-- The pages in the bins below a threshold. -/
def pagesBelow (h : Histogram2d) (threshold : ℤ) : ℤ := ((h refLocDram).take threshold.toNat).sum

/-- A count of pages in KB, over all ranges and types. -/
def plannedKb (count : MigrateParameter → ℤ) (ranges : List EPTMigrate) (plan : Plan) : ℤ :=
  ∑ r ∈ Finset.range ranges.length, (plannedTypes.map fun type =>
    count (plan.parameter r type) * 2 ^ (type.shift - 10)).sum

/-- What a plan promotes: the total of `nr_promote << (pagetype_shift - 10)`. -/
def promotedKb (ranges : List EPTMigrate) (plan : Plan) : ℤ :=
  plannedKb MigrateParameter.nrPromote ranges plan

/-- What a plan demotes. -/
def demotedKb (ranges : List EPTMigrate) (plan : Plan) : ℤ :=
  plannedKb MigrateParameter.nrDemote ranges plan

theorem PromoteForm.nrPromote_eq {n : ℕ} {h : Histogram2d} (rows : Rows (n + 1) h)
    {p : MigrateParameter} (form : PromoteForm n h p) :
    p.nrPromote = p.promoteRemain + pagesAbove h p.hotThreshold := by
  rcases form with ⟨hhot, -, hnr, hremain⟩ | ⟨t, -, -, hhot, -, -, -, -, hnr⟩
  · rw [hnr, hremain, hhot, pagesAbove, List.drop_eq_nil_of_le (by rw [rows refLocPmem]; omega)]
    rfl
  · rw [hnr, hhot, add_comm]
    rfl

theorem DemoteForm.nrDemote_eq {n : ℕ} {h : Histogram2d} {p : MigrateParameter}
    (form : DemoteForm n h p) : p.nrDemote = p.demoteRemain + pagesBelow h p.coldThreshold := by
  rcases form with ⟨hcold, hnr, hremain⟩ | ⟨t, -, hcold, -, -, -, -, hnr⟩
  · rw [hnr, hremain, hcold]
    rfl
  · rw [hnr, hcold, add_comm]
    rfl

variable {cfg : PlanConfig} {ranges : List EPTMigrate}

theorem plannedKb_update (count : MigrateParameter → ℤ) {plan plan' : Plan} {r : ℕ}
    {type : ProcIdlePageType} {p : MigrateParameter} (hr : r < ranges.length)
    (htype : type ∈ plannedTypes)
    (hparam : plan'.parameter =
      Function.update plan.parameter r (Function.update (plan.parameter r) type p)) :
    plannedKb count ranges plan' = plannedKb count ranges plan +
      (count p - count (plan.parameter r type)) * 2 ^ (type.shift - 10) := by
  have hrest : ∀ r' ∈ (Finset.range ranges.length).erase r,
      (plannedTypes.map fun t => count (plan'.parameter r' t) * 2 ^ (t.shift - 10)).sum =
        (plannedTypes.map fun t => count (plan.parameter r' t) * 2 ^ (t.shift - 10)).sum := by
    intro r' hr'
    rw [hparam, Function.update_of_ne (Finset.ne_of_mem_erase hr')]
  unfold plannedKb
  rw [← Finset.add_sum_erase _ _ (Finset.mem_range.mpr hr),
    ← Finset.add_sum_erase (a := r) (f := fun r => (plannedTypes.map fun t =>
      count (plan.parameter r t) * 2 ^ (t.shift - 10)).sum) _ (Finset.mem_range.mpr hr),
    Finset.sum_congr rfl hrest, hparam, Function.update_self]
  simp only [plannedTypes, List.mem_cons, List.not_mem_nil, or_false] at htype
  rcases htype with rfl | rfl <;> simp [plannedTypes] <;> ring

/-! ### The counters -/

section Selection

variable {h : Histogram2d} {shift : ℕ} {p p' : MigrateParameter} {c c' d d' : ℤ}

/-- What a selection adds to a count of pages it adds to the counter, at least. -/
theorem taken_le (n : ℕ) (limit : ℤ) :
    min (n * 2 ^ shift : ℤ) (limit - c) / 2 ^ shift * 2 ^ shift ≤
      min (n * 2 ^ shift : ℤ) (limit - c) := Int.ediv_mul_le _ (by positivity)

theorem HotSelection.counts {hot : ℤ} (hsel : HotSelection cfg h shift hot p c p' c') :
    (p'.nrPromote - p.nrPromote) * 2 ^ shift ≤ c' - c ∧ p'.nrDemote = p.nrDemote ∧
      (c ≤ max cfg.promoteLimitKb 0 → c' ≤ max cfg.promoteLimitKb 0) := by
  cases hsel with
  | full => simp
  | low => simp
  | empty => simp
  | taken n hc =>
      refine ⟨?_, rfl, fun _ => ?_⟩
      · simp only [MigrateParameter.enable, add_sub_cancel_left]
        exact taken_le n _
      · omega

theorem antiThrashing_counts {altered : Bool} (hanti : antiThrashing cfg h p = some (p', altered)) :
    p'.nrPromote = p.nrPromote ∧ p'.nrDemote = p.nrDemote := by
  unfold antiThrashing at hanti
  split at hanti
  · cases hanti
    exact ⟨rfl, rfl⟩
  · split at hanti
    · cases hanti
      exact ⟨rfl, rfl⟩
    · obtain ⟨q, hq, hanti⟩ := Option.bind_eq_some_iff.mp hanti
      have hcounts : q.nrPromote = p.nrPromote ∧ q.nrDemote = p.nrDemote := by
        unfold adjustThreshold at hq
        split at hq <;>
        · obtain ⟨n, -, hq⟩ := Option.bind_eq_some_iff.mp hq
          cases hq
          exact ⟨rfl, rfl⟩
      split at hanti
      · cases hanti
        exact hcounts
      · cases hanti
        exact hcounts

/-- Whether `anti_thrashing` altered the parameter or not. -/
theorem selectColdPage_counts {cold : ℤ} {altered : Bool}
    (hsel : selectColdPage cfg h shift cold p d = some (p', d', altered)) :
    (p'.nrDemote - p.nrDemote) * 2 ^ shift ≤ d' - d ∧ p'.nrPromote = p.nrPromote ∧
      (d ≤ max cfg.demoteLimitKb 0 → d' ≤ max cfg.demoteLimitKb 0) := by
  unfold selectColdPage at hsel
  split at hsel
  · cases hsel
    simp
  · next hd =>
    split at hsel
    · cases hsel
      simp
    · obtain ⟨n, -, hsel⟩ := Option.bind_eq_some_iff.mp hsel
      split at hsel
      · cases hsel
        simp
      · split at hsel
        · cases hsel
          simp
        · have htaken : ∀ q : MigrateParameter, q.nrPromote = p.nrPromote →
              q.nrDemote = p.nrDemote +
                min (n * 2 ^ shift : ℤ) (cfg.demoteLimitKb - d) / 2 ^ shift →
              (q.nrDemote - p.nrDemote) * 2 ^ shift ≤
                  d + min (n * 2 ^ shift : ℤ) (cfg.demoteLimitKb - d) - d ∧
                q.nrPromote = p.nrPromote ∧
                (d ≤ max cfg.demoteLimitKb 0 →
                  d + min (n * 2 ^ shift : ℤ) (cfg.demoteLimitKb - d) ≤
                    max cfg.demoteLimitKb 0) := by
            intro q hpromote hdemote
            refine ⟨?_, hpromote, fun _ => by omega⟩
            rw [hdemote, add_sub_cancel_left, add_sub_cancel_left]
            exact taken_le n _
          dsimp only at hsel
          split at hsel
          · cases hsel
            exact htaken _ rfl rfl
          · obtain ⟨⟨q, b⟩, hanti, hsel⟩ := Option.bind_eq_some_iff.mp hsel
            cases hsel
            obtain ⟨hpromote, hdemote⟩ := antiThrashing_counts hanti
            exact htaken q hpromote hdemote

end Selection

/-! ### The loops -/

/-- The pages of a plan fit into the counters, and these into the limits. -/
structure Within (cfg : PlanConfig) (ranges : List EPTMigrate) (plan : Plan) : Prop where
  promoted_le : promotedKb ranges plan ≤ plan.promoteCountKb
  promoteCount_le : plan.promoteCountKb ≤ max cfg.promoteLimitKb 0
  demoted_le : demotedKb ranges plan ≤ plan.demoteCountKb
  demoteCount_le : plan.demoteCountKb ≤ max cfg.demoteLimitKb 0

theorem Within.visit {plan plan' : Plan} {i r : ℕ} {type : ProcIdlePageType}
    (htype : type ∈ plannedTypes) (within : Within cfg ranges plan)
    (hvisit : visit cfg ranges i r plan type = some plan') :
    Within cfg ranges plan' := by
  obtain ⟨range, p₁, p₂, altered, hrange, hhot, hcold, hparam, -⟩ := visit_selections hvisit
  have hr : r < ranges.length := (List.getElem?_eq_some_iff.mp hrange).1
  obtain ⟨hkb, hdemote, hlimit⟩ := (selectHotPage_cases hhot).counts
  obtain ⟨hkb', hpromote, hlimit'⟩ := selectColdPage_counts hcold
  have hpromoted := plannedKb_update MigrateParameter.nrPromote hr htype hparam
  have hdemoted := plannedKb_update MigrateParameter.nrDemote hr htype hparam
  rw [hpromote] at hpromoted
  rw [← hdemote] at hdemoted
  have hle := within.promoted_le
  have hle' := within.demoted_le
  unfold promotedKb at hle
  unfold demotedKb at hle'
  refine ⟨?_, hlimit within.promoteCount_le, ?_, hlimit' within.demoteCount_le⟩
  · unfold promotedKb
    omega
  · unfold demotedKb
    omega

/-- Every plan there is, whatever bins its ranges have. -/
theorem planned_le {plan : Plan} (hplan : calcMigrateParameter cfg ranges = some plan) :
    promotedKb ranges plan ≤ max cfg.promoteLimitKb 0 ∧
      demotedKb ranges plan ≤ max cfg.demoteLimitKb 0 := by
  have hinit : Within cfg ranges (initPlan cfg.nrWalks) := by
    constructor <;>
      simp [initPlan, promotedKb, demotedKb, plannedKb, initMigrationParameter, plannedTypes]
  have hwithin := foldlM_range_partial hplan (P := fun _ plan => Within cfg ranges plan) hinit
    fun i _ s s' hs hsweep => by
      refine foldlM_range_partial hsweep (P := fun _ plan => Within cfg ranges plan) hs ?_
      intro m _ s s' hs hrun
      obtain ⟨s₁, hpte, hrun⟩ := Option.bind_eq_some_iff.mp hrun
      obtain ⟨s₂, hpmd, hrun⟩ := Option.bind_eq_some_iff.mp hrun
      cases hrun
      exact (hs.visit (by simp [plannedTypes]) hpte).visit (by simp [plannedTypes]) hpmd
  exact ⟨hwithin.promoted_le.trans hwithin.promoteCount_le,
    hwithin.demoted_le.trans hwithin.demoteCount_le⟩

/-- Every range has a bin for each number of walks. -/
def RowsOfWalks (cfg : PlanConfig) (ranges : List EPTMigrate) : Prop :=
  ∀ range ∈ ranges, ∀ type ∈ plannedTypes,
    Rows (cfg.nrWalks + 1) (range.pagetypeRefs type).histogram2d

/-- Over such ranges there is a plan. -/
theorem calcMigrateParameter_total (hrows : RowsOfWalks cfg ranges) :
    ∃ plan, calcMigrateParameter cfg ranges = some plan := by
  obtain ⟨plan, hrun, -⟩ := foldlM_range_total (n := cfg.nrWalks + 1)
    (f := sweep cfg ranges) (s := initPlan cfg.nrWalks) (P := fun _ plan => HotPositive plan)
    (hotPositive_init _) (by
      intro i _ plan hpos
      refine foldlM_range_total (P := fun _ plan => HotPositive plan) hpos ?_
      intro m hm plan hpos
      have hrange := List.getElem?_eq_getElem hm
      have rows := hrows _ (List.mem_of_getElem? hrange)
      obtain ⟨plan₁, h₁, hpos₁, -, -⟩ := visit_total (i := i) hpos hrange pteAccessed
        (.inl (rows pteAccessed (by simp [plannedTypes])))
      obtain ⟨plan₂, h₂, hpos₂, -, -⟩ := visit_total (i := i) hpos₁ hrange pmdAccessed
        (.inl (rows pmdAccessed (by simp [plannedTypes])))
      exact ⟨plan₂, by simp [plannedTypes, h₁, h₂], hpos₂⟩)
  exact ⟨plan, hrun⟩

/-! ### The plan -/

/-- The planner of a period: the limits come from the histogram of the system. -/
structure PlanOptions extends LimitOptions where
  antiThrashThreshold : ℤ
  inAdjustRatioStage : Bool

/-- The configuration that `calc_migrate_parameter` works with, after
`calc_migrate_count`. -/
def PlanOptions.config (option : PlanOptions) (nrWalks : ℕ) (ranges : List EPTMigrate) :
    PlanConfig :=
  let limits := calcMigrateCount option.toLimitOptions nrWalks (sysRefsCount nrWalks ranges)
  ⟨nrWalks, limits.1, limits.2, option.antiThrashThreshold, option.inAdjustRatioStage⟩

/-- Every list of ranges with histograms of `nr_walks + 1` bins, with the limits that
`calc_migrate_count` computes from their sums, for all options: there is a plan, its
totals are within the two limits, and every parameter that `anti_thrashing` has not
altered counts, besides what it took of the last bin, all the bins behind its
threshold. -/
theorem calcMigrateParameter_budget (option : PlanOptions) (nrWalks : ℕ)
    (ranges : List EPTMigrate)
    (hrows : ∀ range ∈ ranges, ∀ type ∈ plannedTypes,
      Rows (nrWalks + 1) (range.pagetypeRefs type).histogram2d) :
    ∃ plan, calcMigrateParameter (option.config nrWalks ranges) ranges = some plan ∧
      promotedKb ranges plan ≤ (option.config nrWalks ranges).promoteLimitKb ∧
      demotedKb ranges plan ≤ (option.config nrWalks ranges).demoteLimitKb ∧
      ∀ r range type, ranges[r]? = some range → type ∈ plannedTypes → (r, type) ∉ plan.notices →
        (plan.parameter r type).nrPromote = (plan.parameter r type).promoteRemain +
            pagesAbove (range.pagetypeRefs type).histogram2d (plan.parameter r type).hotThreshold ∧
          (plan.parameter r type).nrDemote = (plan.parameter r type).demoteRemain +
            pagesBelow (range.pagetypeRefs type).histogram2d
              (plan.parameter r type).coldThreshold := by
  have hlimits :=
    calcMigrateCount_nonneg option.toLimitOptions nrWalks (sysRefsCount nrWalks ranges)
  have hpromote : 0 ≤ (option.config nrWalks ranges).promoteLimitKb := hlimits.1
  have hdemote : 0 ≤ (option.config nrWalks ranges).demoteLimitKb := hlimits.2
  obtain ⟨plan, hplan⟩ : ∃ plan, calcMigrateParameter (option.config nrWalks ranges) ranges =
      some plan := calcMigrateParameter_total hrows
  obtain ⟨hpromoted, hdemoted⟩ := planned_le hplan
  rw [max_eq_left hpromote] at hpromoted
  rw [max_eq_left hdemote] at hdemoted
  refine ⟨plan, hplan, hpromoted, hdemoted, fun r range type hrange htype hnot => ?_⟩
  have rows := hrows range (List.mem_of_getElem? hrange) type htype
  obtain ⟨promoteForm, demoteForm⟩ := plan_forms hrange htype rfl rows hplan hnot
  exact ⟨promoteForm.nrPromote_eq rows, demoteForm.nrDemote_eq⟩

/-- Two ranges after 3 walks, with hot and cold pages of both sizes, counted 0 to 3
times. -/
def budgetRanges : List EPTMigrate :=
  let counted (dram pmem : List ℕ) : ProcIdleRefs :=
    ⟨AddrSequence.init, fun loc => if loc = refLocPmem then pmem else dram⟩
  [⟨0, 3, fun type =>
      if type = pteAccessed then counted [4, 1, 0, 2] [3, 0, 2, 5]
      else counted [1, 0, 0, 0] [0, 0, 1, 0]⟩,
    ⟨0, 3, fun type =>
      if type = pteAccessed then counted [7, 0, 1, 0] [0, 2, 0, 1]
      else counted [0, 0, 0, 1] [2, 0, 0, 0]⟩]

theorem calcMigrateParameter_budget_twoRanges :
    let cfg : PlanConfig := PlanOptions.config ⟨⟨50, 4000⟩, 2, false⟩ 3 budgetRanges
    ∃ plan, calcMigrateParameter cfg budgetRanges = some plan ∧
      promotedKb budgetRanges plan ≤ cfg.promoteLimitKb ∧
      demotedKb budgetRanges plan ≤ cfg.demoteLimitKb ∧
      ∀ r range type, budgetRanges[r]? = some range → type ∈ plannedTypes →
        (r, type) ∉ plan.notices →
          (plan.parameter r type).nrPromote = (plan.parameter r type).promoteRemain +
            pagesAbove (range.pagetypeRefs type).histogram2d (plan.parameter r type).hotThreshold ∧
          (plan.parameter r type).nrDemote = (plan.parameter r type).demoteRemain +
            pagesBelow (range.pagetypeRefs type).histogram2d
              (plan.parameter r type).coldThreshold := by
  refine calcMigrateParameter_budget ⟨⟨50, 4000⟩, 2, false⟩ 3 budgetRanges ?_
  intro range hrange type _ loc
  simp only [budgetRanges, List.mem_cons, List.not_mem_nil, or_false] at hrange
  rcases hrange with rfl | rfl
  all_goals
    by_cases htype : type = pteAccessed <;> by_cases hloc : loc = refLocPmem <;>
      simp [htype, hloc]

end GlobalScan

end MemoryOptimizer
