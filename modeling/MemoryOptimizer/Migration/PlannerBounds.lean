import MemoryOptimizer.Migration.MigrateCount
import MemoryOptimizer.Migration.PlannerSteps

/-!
# When the planner stays inside the histograms

A range whose scan ended with an error has rows without bins, and the planner
does not look at `io_error`.  It gets past such a range only when both limits
are already used up by the ranges before it, in the very first sweep; this is
`calcMigrateParameter_inBounds`.

The first sweep is followed exactly (`FirstSweep`): after `m` ranges the two
counters are the capped sums of the bins read so far (`capped`, `kbBefore`).
-/

namespace MemoryOptimizer

open ProcIdlePageType EPTScan

namespace GlobalScan

/-- The counter of a limit after `sum` KB were on offer. -/
def capped (limit : ℤ) (sum : ℕ) : ℤ := if limit ≤ 0 then 0 else min sum limit

theorem le_capped_iff (limit : ℤ) (sum : ℕ) : limit ≤ capped limit sum ↔ limit ≤ sum := by
  unfold capped
  split <;> omega

/-- What a bin of one range offers, in KB, over the planned types. -/
def rangeKb (loc i : ℕ) (range : EPTMigrate) : ℕ :=
  (plannedTypes.map fun type =>
    (range.pagetypeRefs type).histogram2d.bin loc i * 2 ^ (type.shift - 10)).sum

/-- What the ranges before position `m` offer. -/
def kbBefore (ranges : List EPTMigrate) (loc i m : ℕ) : ℕ :=
  ((ranges.take m).map (rangeKb loc i)).sum

theorem kbBefore_succ {ranges : List EPTMigrate} (loc i : ℕ) {m : ℕ} {range : EPTMigrate}
    (hrange : ranges[m]? = some range) :
    kbBefore ranges loc i (m + 1) = kbBefore ranges loc i m + rangeKb loc i range := by
  simp [kbBefore, List.take_add_one, hrange]

variable {cfg : PlanConfig} {ranges : List EPTMigrate}

/-! ### One step of the first sweep -/

theorem hotSelection_capped {h : Histogram2d} {shift : ℕ} {p p' : MigrateParameter} {c c' : ℤ}
    {sum : ℕ} (hwalks : 0 < cfg.nrWalks)
    (hsel : HotSelection cfg h shift cfg.nrWalks p c p' c')
    (hc : c = capped cfg.promoteLimitKb sum) :
    c' = capped cfg.promoteLimitKb (sum + h.bin refLocPmem cfg.nrWalks * 2 ^ shift) ∧
      p'.nrDemote = p.nrDemote := by
  have hnonneg : (0 : ℤ) ≤ (h.bin refLocPmem cfg.nrWalks * 2 ^ shift : ℕ) := Int.natCast_nonneg _
  cases hsel with
  | full hfull =>
      have hsum := (le_capped_iff _ _).mp (hc ▸ hfull)
      refine ⟨?_, rfl⟩
      unfold capped at hc ⊢
      split at hc <;> omega
  | low _ hlow => omega
  | empty _ _ hread =>
      obtain ⟨-, -, hbin⟩ := readBin_eq_some hread
      rw [Int.toNat_natCast] at hbin
      exact ⟨by simpa [hbin] using hc, rfl⟩
  | taken n hlt _ hread =>
      obtain ⟨-, -, hbin⟩ := readBin_eq_some hread
      rw [Int.toNat_natCast] at hbin
      have hcast : ((n * 2 ^ shift : ℕ) : ℤ) = n * 2 ^ shift := by push_cast; rfl
      refine ⟨?_, rfl⟩
      rw [hbin] at hnonneg ⊢
      unfold capped at hc ⊢
      rw [← hcast]
      split at hc <;> omega

theorem coldSelection_capped {h : Histogram2d} {shift : ℕ} {p p' : MigrateParameter} {d d' : ℤ}
    {altered : Bool} {sum : ℕ} (hwalks : 0 < cfg.nrWalks)
    (hsel : ColdSelection cfg h shift 0 p d p' d' altered) (hnr : p.nrDemote = 0)
    (hd : d = capped cfg.demoteLimitKb sum) :
    d' = capped cfg.demoteLimitKb (sum + h.bin refLocDram 0 * 2 ^ shift) := by
  have hnonneg : (0 : ℤ) ≤ (h.bin refLocDram 0 * 2 ^ shift : ℕ) := Int.natCast_nonneg _
  cases hsel with
  | full hfull =>
      have hsum := (le_capped_iff _ _).mp (hd ▸ hfull)
      unfold capped at hd ⊢
      split at hd <;> omega
  | high _ hhigh => omega
  | empty _ _ hread =>
      obtain ⟨-, -, hbin⟩ := readBin_eq_some hread
      have hbin : h.bin refLocDram 0 = 0 := hbin
      simpa [hbin] using hd
  | skipped _ _ _ _ _ hskip => exact absurd hnr hskip
  | taken n _ _ hlt _ hread =>
      obtain ⟨-, -, hbin⟩ := readBin_eq_some hread
      have hbin : h.bin refLocDram 0 = n := hbin
      have hcast : ((n * 2 ^ shift : ℕ) : ℤ) = n * 2 ^ shift := by push_cast; rfl
      rw [hbin] at hnonneg ⊢
      unfold capped at hd ⊢
      rw [← hcast]
      split at hd <;> omega

/-- A step that does not read has its limit used up. -/
theorem HotSelection.limit_le {h : Histogram2d} {shift : ℕ} {hot : ℤ} {p p' : MigrateParameter}
    {c c' : ℤ} (hsel : HotSelection cfg h shift hot p c p' c') (hhot : 0 < hot)
    (hnone : ∀ n, readBin h refLocPmem hot ≠ some n) : cfg.promoteLimitKb ≤ c := by
  cases hsel with
  | full hfull => exact hfull
  | low _ hlow => omega
  | empty _ _ hread => exact absurd hread (hnone _)
  | taken _ _ _ hread => exact absurd hread (hnone _)

theorem ColdSelection.limit_le {h : Histogram2d} {shift : ℕ} {cold : ℤ} {p p' : MigrateParameter}
    {d d' : ℤ} {altered : Bool} (hsel : ColdSelection cfg h shift cold p d p' d' altered)
    (hcold : cold < cfg.nrWalks) (hnone : ∀ n, readBin h refLocDram cold ≠ some n) :
    cfg.demoteLimitKb ≤ d := by
  cases hsel with
  | full hfull => exact hfull
  | high _ hhigh => omega
  | empty _ _ hread => exact absurd hread (hnone _)
  | skipped _ _ _ hread => exact absurd hread (hnone _)
  | taken _ _ _ _ _ hread => exact absurd hread (hnone _)

/-- The state of the first sweep before range `m`. -/
structure FirstSweep (cfg : PlanConfig) (ranges : List EPTMigrate) (m : ℕ) (plan : Plan) :
    Prop where
  promote_eq : plan.promoteCountKb =
    capped cfg.promoteLimitKb (kbBefore ranges refLocPmem cfg.nrWalks m)
  demote_eq : plan.demoteCountKb = capped cfg.demoteLimitKb (kbBefore ranges refLocDram 0 m)
  fresh : ∀ r, m ≤ r → plan.parameter r = fun _ => initMigrationParameter cfg.nrWalks

/-- One range of the first sweep. -/
theorem firstSweep_range (hwalks : 0 < cfg.nrWalks) {m : ℕ} {plan plan' : Plan}
    (first : FirstSweep cfg ranges m plan)
    (hrun : plannedTypes.foldlM (visit cfg ranges 0 m) plan = some plan') :
    FirstSweep cfg ranges (m + 1) plan' := by
  obtain ⟨plan₁, hpte, hrun⟩ := Option.bind_eq_some_iff.mp hrun
  obtain ⟨plan₂, hpmd, hrun⟩ := Option.bind_eq_some_iff.mp hrun
  cases hrun
  obtain ⟨range, p₁, p₂, b, hrange, hhot, hcold, -, -⟩ := visit_cases hpte
  obtain ⟨range', q₁, q₂, b', hrange', hhot', hcold', hparam', -⟩ := visit_cases hpmd
  obtain rfl : range = range' := Option.some_injective _ (hrange.symm.trans hrange')
  simp only [Nat.cast_zero, sub_zero] at hhot hcold hhot' hcold'
  have hfresh := first.fresh m le_rfl
  have hother : plan₁.parameter m pmdAccessed = initMigrationParameter cfg.nrWalks := by
    rw [visit_parameter_of_ne hpte (by simp), hfresh]
  obtain ⟨hc₁, hnr₁⟩ := hotSelection_capped hwalks hhot first.promote_eq
  rw [hfresh] at hnr₁
  have hd₁ := coldSelection_capped hwalks hcold hnr₁ first.demote_eq
  obtain ⟨hc₂, hnr₂⟩ := hotSelection_capped hwalks hhot' hc₁
  rw [hother] at hnr₂
  have hd₂ := coldSelection_capped hwalks hcold' hnr₂ hd₁
  refine ⟨?_, ?_, fun r hr => ?_⟩
  · rw [hc₂, kbBefore_succ _ _ hrange]
    simp [rangeKb, plannedTypes, Nat.add_assoc]
  · rw [hd₂, kbBefore_succ _ _ hrange]
    simp [rangeKb, plannedTypes, Nat.add_assoc]
  · funext type
    rw [visit_parameter_of_ne hpmd (by simp; omega), visit_parameter_of_ne hpte (by simp; omega),
      first.fresh r (by omega)]

theorem firstSweep_init : FirstSweep cfg ranges 0 (initPlan cfg.nrWalks) := by
  refine ⟨?_, ?_, fun _ _ => rfl⟩ <;>
  · simp only [initPlan, kbBefore, List.take_zero, List.map_nil, List.sum_nil, capped]
    split <;> omega

/-! ### The whole run -/

/-- Before a range without bins, both limits are used up. -/
def LimitsUsedUp (cfg : PlanConfig) (ranges : List EPTMigrate) : Prop :=
  ∀ m range, ranges[m]? = some range → range.ioError ≠ 0 →
    cfg.promoteLimitKb ≤ kbBefore ranges refLocPmem cfg.nrWalks m ∧
      cfg.demoteLimitKb ≤ kbBefore ranges refLocDram 0 m

/-- A histogram as a period leaves it: bins for every walk, or none after an error. -/
def RowsOfPeriod (cfg : PlanConfig) (ranges : List EPTMigrate) : Prop :=
  ∀ range ∈ ranges, ∀ type ∈ plannedTypes,
    Rows (if range.ioError = 0 then cfg.nrWalks + 1 else 0) (range.pagetypeRefs type).histogram2d

theorem range_total (hrows : RowsOfPeriod cfg ranges) {i m : ℕ} (hm : m < ranges.length)
    {plan : Plan} (hpos : HotPositive plan)
    (hused : ∀ range, ranges[m]? = some range → range.ioError ≠ 0 →
      cfg.promoteLimitKb ≤ plan.promoteCountKb ∧ cfg.demoteLimitKb ≤ plan.demoteCountKb) :
    ∃ plan', plannedTypes.foldlM (visit cfg ranges i m) plan = some plan' ∧ HotPositive plan' ∧
      plan.promoteCountKb ≤ plan'.promoteCountKb ∧ plan.demoteCountKb ≤ plan'.demoteCountKb := by
  obtain ⟨range, hrange⟩ : ∃ range, ranges[m]? = some range := ⟨_, List.getElem?_eq_getElem hm⟩
  have hok : ∀ type ∈ plannedTypes, ∀ plan₁ : Plan, plan.promoteCountKb ≤ plan₁.promoteCountKb →
      plan.demoteCountKb ≤ plan₁.demoteCountKb →
      Rows (cfg.nrWalks + 1) (range.pagetypeRefs type).histogram2d ∨
        cfg.promoteLimitKb ≤ plan₁.promoteCountKb ∧ cfg.demoteLimitKb ≤ plan₁.demoteCountKb := by
    intro type htype plan₁ hc hd
    by_cases herr : range.ioError = 0
    · have := hrows range (List.mem_of_getElem? hrange) type htype
      rw [if_pos herr] at this
      exact Or.inl this
    · obtain ⟨h1, h2⟩ := hused range hrange herr
      exact Or.inr ⟨h1.trans hc, h2.trans hd⟩
  obtain ⟨plan₁, h₁, hpos₁, hc₁, hd₁⟩ := visit_total (i := i) hpos hrange pteAccessed
    (hok pteAccessed (by simp [plannedTypes]) plan le_rfl le_rfl)
  obtain ⟨plan₂, h₂, hpos₂, hc₂, hd₂⟩ := visit_total (i := i) hpos₁ hrange pmdAccessed
    (hok pmdAccessed (by simp [plannedTypes]) plan₁ hc₁ hd₁)
  refine ⟨plan₂, ?_, hpos₂, hc₁.trans hc₂, hd₁.trans hd₂⟩
  simp [plannedTypes, h₁, h₂]

theorem sweep_zero_total (hwalks : 0 < cfg.nrWalks) (hrows : RowsOfPeriod cfg ranges)
    (hused : LimitsUsedUp cfg ranges) :
    ∃ plan, sweep cfg ranges (initPlan cfg.nrWalks) 0 = some plan ∧ HotPositive plan ∧
      FirstSweep cfg ranges ranges.length plan := by
  refine foldlM_range_total (P := fun m plan => HotPositive plan ∧ FirstSweep cfg ranges m plan)
    ⟨hotPositive_init _, firstSweep_init⟩ fun m hm plan hplan => ?_
  obtain ⟨plan', hrun, hpos, -, -⟩ := range_total hrows (i := 0) hm hplan.1
    fun range hrange herr => by
      obtain ⟨h1, h2⟩ := hused m range hrange herr
      rw [hplan.2.promote_eq, hplan.2.demote_eq, le_capped_iff, le_capped_iff]
      exact ⟨h1, h2⟩
  exact ⟨plan', hrun, hpos, firstSweep_range hwalks hplan.2 hrun⟩

/-- An error of a range is still paid for once every limit is used up. -/
def ErrorsCovered (cfg : PlanConfig) (ranges : List EPTMigrate) (plan : Plan) : Prop :=
  ∀ range ∈ ranges, range.ioError ≠ 0 →
    cfg.promoteLimitKb ≤ plan.promoteCountKb ∧ cfg.demoteLimitKb ≤ plan.demoteCountKb

theorem kbBefore_mono (ranges : List EPTMigrate) (loc i : ℕ) {m n : ℕ} (h : m ≤ n) :
    kbBefore ranges loc i m ≤ kbBefore ranges loc i n := by
  obtain ⟨k, rfl⟩ := Nat.exists_eq_add_of_le h
  simp [kbBefore, List.take_add]

theorem FirstSweep.covered {plan : Plan} (first : FirstSweep cfg ranges ranges.length plan)
    (hused : LimitsUsedUp cfg ranges) : ErrorsCovered cfg ranges plan := by
  intro range hmem herr
  obtain ⟨m, hm, hrange⟩ := List.getElem_of_mem hmem
  obtain ⟨h1, h2⟩ := hused m range (by rw [List.getElem?_eq_getElem hm, hrange]) herr
  have hp := kbBefore_mono ranges refLocPmem cfg.nrWalks hm.le
  have hd := kbBefore_mono ranges refLocDram 0 hm.le
  rw [first.promote_eq, first.demote_eq, le_capped_iff, le_capped_iff]
  omega

theorem sweep_total (hrows : RowsOfPeriod cfg ranges) (i : ℕ) {plan : Plan}
    (hpos : HotPositive plan) (hcovered : ErrorsCovered cfg ranges plan) :
    ∃ plan', sweep cfg ranges plan i = some plan' ∧ HotPositive plan' ∧
      ErrorsCovered cfg ranges plan' := by
  refine foldlM_range_total
    (P := fun _ plan => HotPositive plan ∧ ErrorsCovered cfg ranges plan)
    ⟨hpos, hcovered⟩ fun m hm plan hplan => ?_
  obtain ⟨plan', hrun, hpos', hc, hd⟩ := range_total hrows (i := i) hm hplan.1
    fun range hrange => hplan.2 range (List.mem_of_getElem? hrange)
  refine ⟨plan', hrun, hpos', fun range hmem herr => ?_⟩
  obtain ⟨h1, h2⟩ := hplan.2 range hmem herr
  exact ⟨h1.trans hc, h2.trans hd⟩

/-- Without a walk nothing is read. -/
theorem visit_of_no_walks (hwalks : cfg.nrWalks = 0) {r : ℕ} (hr : r < ranges.length)
    (plan : Plan) (type : ProcIdlePageType) :
    ∃ plan', visit cfg ranges 0 r plan type = some plan' := by
  have hhot : ∀ h shift p c, ∃ r, selectHotPage cfg h shift (cfg.nrWalks - (0 : ℕ)) p c =
      some r := by
    intro h shift p c
    unfold selectHotPage
    rw [hwalks]
    split <;> exact ⟨_, rfl⟩
  have hcold : ∀ h shift p d, ∃ r, selectColdPage cfg h shift (0 : ℕ) p d = some r := by
    intro h shift p d
    unfold selectColdPage
    rw [hwalks]
    split <;> exact ⟨_, rfl⟩
  unfold visit
  rw [List.getElem?_eq_getElem hr]
  obtain ⟨⟨p, c⟩, h1⟩ := hhot (ranges[r].pagetypeRefs type).histogram2d (type.shift - 10)
    (plan.parameter r type) plan.promoteCountKb
  obtain ⟨⟨q, d, b⟩, h2⟩ := hcold (ranges[r].pagetypeRefs type).histogram2d (type.shift - 10)
    p plan.demoteCountKb
  dsimp only [bind, Option.bind]
  rw [h1]
  dsimp only
  rw [h2]
  exact ⟨_, rfl⟩

/-- The planner stays inside the histograms exactly when there was no walk, or
no range without bins is reached before both limits are used up. -/
theorem calcMigrateParameter_isSome_iff (hrows : RowsOfPeriod cfg ranges) :
    (calcMigrateParameter cfg ranges).isSome ↔ cfg.nrWalks = 0 ∨ LimitsUsedUp cfg ranges := by
  rw [Option.isSome_iff_exists]
  constructor
  · rintro ⟨plan, hrun⟩
    rcases Nat.eq_zero_or_pos cfg.nrWalks with hzero | hwalks
    · exact Or.inl hzero
    · refine Or.inr fun m range hrange herr => ?_
      -- the first sweep reaches range `m`, whose rows have no bins
      obtain ⟨plan₀, plan₁, hinit, hsweep⟩ := foldlM_range_reaches hrun (Nat.succ_pos cfg.nrWalks)
      cases hinit
      have hm : m < ranges.length := by
        by_contra h
        rw [List.getElem?_eq_none (not_lt.mp h)] at hrange
        cases hrange
      obtain ⟨plan₂, plan₃, hbefore, hat⟩ := foldlM_range_reaches hsweep hm
      have first : FirstSweep cfg ranges m plan₂ := by
        refine foldlM_range_partial (P := FirstSweep cfg ranges) hbefore firstSweep_init ?_
        exact fun i _ s s' hs hrun => firstSweep_range hwalks hs hrun
      obtain ⟨plan₄, hpte, -⟩ := Option.bind_eq_some_iff.mp hat
      obtain ⟨range', p₁, p₂, b, hrange', hhot, hcold, -, -⟩ := visit_cases hpte
      obtain rfl : range = range' := Option.some_injective _ (hrange.symm.trans hrange')
      have hempty : ∀ loc, ((range.pagetypeRefs pteAccessed).histogram2d loc).length = 0 := by
        have := hrows range (List.mem_of_getElem? hrange) pteAccessed (by simp [plannedTypes])
        rwa [if_neg herr] at this
      have hnone : ∀ loc i n,
          readBin (range.pagetypeRefs pteAccessed).histogram2d loc i ≠ some n := by
        intro loc i n hread
        have := (readBin_eq_some hread).2.1
        rw [hempty loc] at this
        exact Nat.not_lt_zero _ this
      have hpromote := hhot.limit_le (by simpa using hwalks) (hnone _ _)
      have hdemote := hcold.limit_le (by simpa using hwalks) (hnone _ _)
      rw [first.promote_eq, le_capped_iff] at hpromote
      rw [first.demote_eq, le_capped_iff] at hdemote
      exact ⟨hpromote, hdemote⟩
  · intro hcond
    rcases Nat.eq_zero_or_pos cfg.nrWalks with hzero | hwalks
    · have hsweep : ∃ plan, sweep cfg ranges (initPlan cfg.nrWalks) 0 = some plan ∧ True := by
        refine foldlM_range_total (P := fun _ _ => True) trivial fun m hm plan _ => ?_
        obtain ⟨plan₁, h₁⟩ := visit_of_no_walks hzero hm plan pteAccessed
        obtain ⟨plan₂, h₂⟩ := visit_of_no_walks hzero hm plan₁ pmdAccessed
        exact ⟨plan₂, by simp [plannedTypes, h₁, h₂], trivial⟩
      obtain ⟨plan, hplan, -⟩ := hsweep
      refine ⟨plan, ?_⟩
      rw [calcMigrateParameter, hzero]
      rw [hzero] at hplan
      simpa [initPlan] using hplan
    · have hused : LimitsUsedUp cfg ranges := hcond.resolve_left hwalks.ne'
      obtain ⟨plan, hplan, -⟩ := foldlM_range_total (n := cfg.nrWalks + 1)
        (f := sweep cfg ranges) (s := initPlan cfg.nrWalks)
        (P := fun i plan => if i = 0 then plan = initPlan cfg.nrWalks
          else HotPositive plan ∧ ErrorsCovered cfg ranges plan) (by simp) (by
          intro i _ plan hplan
          simp only [Nat.add_eq_zero_iff, one_ne_zero, and_false, if_false]
          split at hplan
          · rename_i hi
            subst hi hplan
            obtain ⟨plan', hrun, hpos, hfirst⟩ := sweep_zero_total hwalks hrows hused
            exact ⟨plan', hrun, hpos, hfirst.covered hused⟩
          · exact sweep_total hrows i hplan.1 hplan.2)
      exact ⟨plan, hplan⟩

/-! ### After a period -/

/-- The ranges after a period, `scans` being the walks with what each range
meets in them. -/
def scanRanges (numa : NumaNodeCollection) (ranges : List EPTMigrate)
    (scans : List (ℕ → WalkOutcome)) : List EPTMigrate :=
  ranges.mapIdx fun r range => range.period numa (scans.map fun scan => scan r)

/-- A period and its plan: the global `nr_walks` counts the scans. -/
def planPeriod (cfg : PlanConfig) (numa : NumaNodeCollection) (ranges : List EPTMigrate)
    (scans : List (ℕ → WalkOutcome)) : Option Plan :=
  calcMigrateParameter { cfg with nrWalks := scans.length } (scanRanges numa ranges scans)

theorem rowsOfPeriod_scanRanges (cfg : PlanConfig) (numa : NumaNodeCollection)
    (ranges : List EPTMigrate) (scans : List (ℕ → WalkOutcome)) :
    RowsOfPeriod { cfg with nrWalks := scans.length } (scanRanges numa ranges scans) := by
  intro range hmem type htype
  obtain ⟨r, hr, rfl⟩ := List.mem_mapIdx.mp hmem
  have htype' : type ∈ EPTMigrate.accessedTypes := by
    simp only [plannedTypes, EPTMigrate.accessedTypes, List.mem_cons] at htype ⊢
    tauto
  have := EPTMigrate.period_rows numa ranges[r] (scans.map fun scan => scan r) htype'
  rwa [List.length_map] at this

/-- Planning a period reads outside a histogram unless there was no scan, or both
limits are used up before the first range that ended with an error. -/
theorem planPeriod_isSome_iff (cfg : PlanConfig) (numa : NumaNodeCollection)
    (ranges : List EPTMigrate) (scans : List (ℕ → WalkOutcome)) :
    (planPeriod cfg numa ranges scans).isSome ↔
      scans.length = 0 ∨
        LimitsUsedUp { cfg with nrWalks := scans.length } (scanRanges numa ranges scans) :=
  calcMigrateParameter_isSome_iff (rowsOfPeriod_scanRanges cfg numa ranges scans)

/-- A page of persistent memory that was accessed and one of ordinary memory that was not. -/
def hotAndCold : AddrSequence :=
  let s := [(0x1000, 1), (0x2000, 0)].foldl
    (fun s page => (s.incPayload Alloc.ok page.1 page.2).1)
    (AddrSequence.init.clear.setPageshift 12).rewind
  [(0x1000, 1), (0x2000, 0)].foldl
    (fun s page => (s.updateNodeid page.1 page.2 Location.unknow).1) s.prepareUpdate

/-- A process placed in DRAM and one with these two pages, scanned once. By the pages of the
second one a page may be promoted and one demoted, and the planner begins with bin 1 of a row
of the first one, which has no bins. -/
theorem planPeriod_placementDram :
    let numa : NumaNodeCollection :=
      ⟨[some ⟨0, .dram, none, some 1⟩, some ⟨1, .pmem, some 0, none⟩]⟩
    let range : EPTMigrate := ⟨0, 0, fun _ => ⟨AddrSequence.init, fun _ => []⟩⟩
    let scan : ℕ → WalkOutcome := fun r =>
      if r = 0 then .placementDram
      else .walked (fun type => if type = pteAccessed then hotAndCold else AddrSequence.init) false
    calcMigrateCount ⟨0, 16⟩ 1 (sysRefsCount 1 (scanRanges numa [range, range] [scan])) = (4, 4) ∧
      planPeriod ⟨0, 4, 4, 2, false⟩ numa [range, range] [scan] = none := by
  intro numa range scan
  exact ⟨by decide +kernel, Option.isNone_iff_eq_none.mp (by decide +kernel)⟩

end GlobalScan

end MemoryOptimizer
