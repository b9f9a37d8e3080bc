import MemoryOptimizer.PmuRefs.Batches
import MemoryOptimizer.PmuRefs.Grouping
import MemoryOptimizer.PmuRefs.Histogram
import MemoryOptimizer.PmuRefs.Origin
import MemoryOptimizer.PmuRefs.Sampler

/-!
# The hot-memory daemon

The loop of `PMUMemoryOptimizer::main`: an interval ages the sketch, feeds it the
samples that the rings hold, sorts it, and hands its hot pages to `MigrationState`; every
`arfilter_reset_intervals` intervals the address filter goes back to the ranges of the
options.  The kernel is what it logs to the rings, the rounds of `select`, and the
answers to `move_pages(2)`, all of them any.

* `Running` — the invariant between two intervals, and `Safe` with what was handed over.
* `interval_running`, `interval_safe` — an interval keeps them.
* `measure_eventually`, `histFits_of_reads` — an interval comes to its end, and does not miss
  the histogram.
-/

namespace MemoryOptimizer

namespace PmuRefs

open AddressRangeFilter (RangeMap Separated addresses)

/-! ### The loop -/

/-- `struct hmd_config`, as far as the loop reads it, with sizes that are not negative. -/
structure HmdOptions extends HmdConfig, SamplingConfig where
  hashMode : Bool
  cmskCmsWidthOrder : ℕ
  cmskAchashThreshold : ℕ
  cmskAchashSizeOrder : ℕ
  cmskAchashHistMax : ℕ
  showOnly : Bool
  arfilterResetIntervals : ℤ

/-- `class PMUMemoryOptimizer` with the counter of `main`, and the number of the calls
before the last reset of the filter. -/
structure PMUMemoryOptimizer (ρ : Type*) where
  pmu : PmuSampling ρ Cmsk
  optimizer : Optimizer
  arfilterResetIntervals : ℤ
  resetCalls : ℕ

/-- What surrounds the process: the machine, the sorting function, the ring buffers, and
the descriptors of each CPU. -/
structure Surroundings (ρ ι : Type*) where
  machine : Machine
  std : SortByCount
  perf : PerfRings ρ ι
  cpus : List (List ℤ)

/-- An interval: its units up to an interrupt, and the counts of the DRAM events. -/
structure HmdInterval where
  units : List MeasureUnit
  dramCountAvg : ℤ → ℕ

/-- `on_pmu_pmem_sample`. -/
def onPmuPmemSample (config : HmdConfig) (sample : UInt64 × Int32) (s : Cmsk) :
    Option (Cmsk × Bool) :=
  cmskUpdate s (sample.1.toNat >>> config.granularityOrder) (ulongOfInt sample.2)

/-- `begin_interval` of the `MigrationState`. -/
def Optimizer.beginInterval (s : Optimizer) : Optimizer :=
  { s with migrationState := { s.migrationState with nrMovedPage := 0 } }

namespace PMUMemoryOptimizer

variable {ρ ι : Type*} (config : HmdOptions) (around : Surroundings ρ ι)

/-- The part of `main` that counts down to a reset of the filter. -/
def resetFilter (s : PMUMemoryOptimizer ρ) : PMUMemoryOptimizer ρ :=
  if config.arfilterResetIntervals = 0 then s
  else if s.arfilterResetIntervals - 1 = 0 then
    { s with
      optimizer := { s.optimizer with arfilter := config.resetArfilter s.optimizer.arfilter }
      arfilterResetIntervals := config.arfilterResetIntervals
      resetCalls := s.optimizer.calls.length }
  else { s with arfilterResetIntervals := s.arfilterResetIntervals - 1 }

/-- The sampling at the start of an interval. -/
def beginInterval (s : PMUMemoryOptimizer ρ) : PmuSampling ρ Cmsk :=
  (s.pmu.modifyState cmskAge).beginInterval.adjustSamplePeriodCommit

/-- The units of an interval, with a bound on the loops over the rings. -/
def measure (fuel : ℕ) (s : PMUMemoryOptimizer ρ) (env : HmdInterval) :
    Option (PmuSampling ρ Cmsk) :=
  (beginInterval s).measureUnits config.toSamplingConfig around.perf
    (onPmuPmemSample config.toHmdConfig) fuel around.cpus 0 env.units

/-- What is done with the sketch at the end of an interval. -/
def endInterval (env : HmdInterval) (s : PMUMemoryOptimizer ρ) (pmu : PmuSampling ρ Cmsk) :
    PMUMemoryOptimizer ρ :=
  let pmu := pmu.modifyState (cmskSort around.std)
  let s := { s with pmu := pmu }
  if config.showOnly then s
  else
    let s := resetFilter config s
    { s with
      optimizer := migratePages config.toHmdConfig around.machine
        ⟨ulongOfSigned pmu.pmemSamplePeriod, env.dramCountAvg⟩ pmu.sampler.state.achash.current
        s.optimizer.beginInterval }

/-- One pass of the `while` loop of `main`; what becomes of the process after a write
outside `hist` is not known. -/
def interval (fuel : ℕ) (s : PMUMemoryOptimizer ρ) (env : HmdInterval) :
    Option (PMUMemoryOptimizer ρ) :=
  (measure config around fuel s env).bind fun pmu =>
    if pmu.sampler.state.achash.histOverrun then none
    else some (endInterval config around env s pmu)

/-- The loop, until the process is interrupted or ends. -/
def run (fuel : ℕ) (intervals : List HmdInterval) (s : PMUMemoryOptimizer ρ) :
    Option (PMUMemoryOptimizer ρ) :=
  intervals.foldlM
    (fun s env => if s.optimizer.ended then some s else interval config around fuel s env) s

/-- The state before the loop: the options have filled the filter, the rings are just
open, and the sample period is the smallest one. `main` does not set the aging method
and does not look at what `cmsk_init` returns; none is a table that is not there. -/
def start : Option (PMUMemoryOptimizer ρ) :=
  (cmskInit false config.hashMode config.cmskCmsWidthOrder 4 config.cmskAchashThreshold
    config.cmskAchashSizeOrder config.cmskAchashHistMax).map fun cmsk =>
      { pmu :=
          { sampler := ⟨fun _ => around.perf.opened, fun _ => [], .zero, cmsk, []⟩
            pmemSamplePeriod := config.samplePeriodMin
            pmemSamplePeriodNext := 0
            pmemExpectedSamplesMargin := 0
            pmemSamplesUnitBegin := 0 }
        optimizer := afterReset config.toHmdConfig .init
        arfilterResetIntervals := config.arfilterResetIntervals
        resetCalls := 0 }

/-- The process with its options, for some intervals. -/
def main (fuel : ℕ) (intervals : List HmdInterval) : Option (PMUMemoryOptimizer ρ) :=
  (start config around).bind (run config around fuel intervals)

end PMUMemoryOptimizer

/-! ### Pages and samples -/

/-- The page is in the granule of an address sampled for the process. -/
def SampledPage (config : HmdConfig) (samples : List (UInt64 × Int32)) (pid page : ℕ) : Prop :=
  ∃ sample ∈ samples, ulongOfInt sample.2 = pid ∧
    page / 2 ^ max config.granularityOrder pageShift =
      sample.1.toNat / 2 ^ max config.granularityOrder pageShift

/-- The key that a sample is counted for. -/
def keyOf (config : HmdConfig) (sample : UInt64 × Int32) : Key :=
  (sample.1.toNat >>> config.granularityOrder, ulongOfInt sample.2)

section Pages

variable {config : HmdConfig} {samples : List (UInt64 × Int32)}

theorem SampledPage.mono {samples' : List (UInt64 × Int32)} (hsub : samples ⊆ samples')
    {pid page : ℕ} (h : SampledPage config samples pid page) :
    SampledPage config samples' pid page := by
  obtain ⟨sample, hmem, hpage⟩ := h
  exact ⟨sample, hsub hmem, hpage⟩

/-- The pages of an item are in the granule of every address it stands for. -/
theorem page_div_eq (horder : config.granularityOrder < 63) {val : ℕ} (hval : val < 2 ^ 63)
    {item : AchashItem} (haddr : item.addr = val >>> config.granularityOrder) {page : ℕ}
    (hpage : page ∈ config.pages item) :
    page / 2 ^ max config.granularityOrder pageShift =
      val / 2 ^ max config.granularityOrder pageShift := by
  rw [Nat.shiftRight_eq_div_pow] at haddr
  have hround : val / 2 ^ config.granularityOrder * 2 ^ config.granularityOrder ≤ val :=
    Nat.div_mul_le_self _ _
  rcases Nat.lt_or_ge config.granularityOrder pageShift with hsmall | hlarge
  · -- one page, that of the address
    have hshift : config.npgShift = 0 := if_neg (by omega)
    rw [max_eq_right hsmall.le]
    unfold HmdConfig.pages at hpage
    rw [hshift, Nat.pow_zero, List.range_one, List.map_singleton, List.mem_singleton] at hpage
    subst hpage
    have hmask : ∀ x < 2 ^ 64, x &&& (2 ^ 64 - pageSize) = x / 2 ^ pageShift * 2 ^ pageShift :=
      fun x hx => roundDown_eq hx (by decide : pageShift ≤ 64)
    have hlt : val / 2 ^ config.granularityOrder * 2 ^ config.granularityOrder < 2 ^ 64 := by omega
    unfold HmdConfig.pageAt
    rw [haddr, Nat.shiftLeft_eq, Nat.zero_mul, Nat.add_zero, ulong_of_lt hlt, hmask _ hlt,
      ulong_of_lt ((Nat.div_mul_le_self _ _).trans_lt hlt),
      Nat.mul_div_cancel _ (Nat.two_pow_pos pageShift)]
    obtain ⟨d, hd⟩ := Nat.exists_eq_add_of_le hsmall.le
    rw [hd, Nat.pow_add, ← Nat.div_div_eq_div_mul, ← Nat.div_div_eq_div_mul,
      Nat.mul_div_cancel _ (Nat.two_pow_pos _)]
  · rw [max_eq_left hlarge]
    rw [pages_eq hlarge] at hpage
    obtain ⟨j, hj, rfl⟩ := List.mem_map.mp hpage
    have hinside : j * pageSize + pageSize ≤ 2 ^ config.granularityOrder := by
      have hsplit : 2 ^ (config.granularityOrder - pageShift) * 2 ^ pageShift =
          2 ^ config.granularityOrder := by rw [← Nat.pow_add, Nat.sub_add_cancel hlarge]
      rw [← Nat.succ_mul, ← hsplit]
      exact Nat.mul_le_mul_right _ (List.mem_range.mp hj)
    have hpos : 0 < pageSize := by decide
    have hpow : 2 ^ config.granularityOrder ≤ 2 ^ 62 := Nat.pow_le_pow_right (by decide) (by omega)
    have hdiv : j * pageSize / 2 ^ config.granularityOrder = 0 := Nat.div_eq_of_lt (by omega)
    rw [haddr, ulong_of_lt (by omega), Nat.mul_comm, Nat.mul_add_div (Nat.two_pow_pos _), hdiv,
      Nat.add_zero]

/-- No page of a sampled granule reaches the end of the address space. -/
theorem sampledPage_fits (horder : config.granularityOrder < 63)
    (hsamples : ∀ sample ∈ samples, sample.1.toNat < 2 ^ 63) :
    Fits (SampledPage config samples) := by
  rintro pid page ⟨sample, hmem, -, hpage⟩
  have hval := hsamples sample hmem
  have hpow : 2 ^ max config.granularityOrder pageShift ≤ 2 ^ 62 :=
    Nat.pow_le_pow_right (by decide) (max_le (by omega) (by decide))
  have hlt := Nat.lt_div_mul_add (a := page)
    (Nat.two_pow_pos (max config.granularityOrder pageShift))
  have hle := Nat.div_mul_le_self sample.1.toNat (2 ^ max config.granularityOrder pageShift)
  rw [hpage] at hlt
  have hpage : pageSize = 4096 := rfl
  omega

end Pages

/-! ### The sketch of an interval -/

/-- The pid of a sample fits into the field of an item. -/
def PidFits (record : Option PerfRecord) : Prop :=
  ∀ sample, record.bind PerfRecord.sampled = some sample → ulongOfInt sample.2 < 2 ^ 24

instance (record : Option PerfRecord) : Decidable (PidFits record) :=
  Option.decidableForallMem (record.bind PerfRecord.sampled)

/-- The pids of all samples that are logged in the interval do. -/
def HmdInterval.PidsFit (env : HmdInterval) : Prop :=
  ∀ unit ∈ env.units, unit.Logs PidFits

/-- What the sketch keeps, with keys of `K`. -/
structure Sketched (config : HmdOptions) (K : Key → Prop) (s : Cmsk) : Prop where
  shaped : Shaped 4 config.cmskCmsWidthOrder s.cms
  sized : Sized s.achash
  len_le : s.achash.len ≤ s.achash.items.length
  hashMode_eq : s.achash.hashMode = config.hashMode
  threshold_eq : s.achash.threshold = config.cmskAchashThreshold
  total_lt : s.cms.total < 2 ^ 32
  origin : FromKeys K s.achash.items

/-- The same while it takes samples. -/
structure Sketching (config : HmdOptions) (K : Key → Prop) (s : Cmsk) : Prop
    extends Sketched config K s where
  table : Table (bucketOf s.achash.hashMode s.achash.mask s.cms) s.achash
  room : s.achash.len < s.achash.size

section Sketch

variable {config : HmdOptions} {K : Key → Prop} {s : Cmsk}

theorem Sketched.mono {K' : Key → Prop} (hle : ∀ key, K key → K' key) (h : Sketched config K s) :
    Sketched config K' s :=
  { h with origin := h.origin.mono hle }

/-- Aging makes room. -/
theorem Sketched.age (h : Sketched config K s) : Sketching config K (cmskAge s) where
  shaped := (sound_age h.shaped h.sized).shaped
  sized := (cmskAge_holds h.sized).table.toSized
  len_le := (cmskAge_holds h.sized).table.len_le_length
  hashMode_eq := by
    rw [cmskAge_achash]
    exact h.hashMode_eq
  threshold_eq := by
    rw [cmskAge_achash]
    exact h.threshold_eq
  total_lt := by
    unfold cmskAge cmskClear cmsAge cmsClear
    split
    · exact (Nat.shiftRight_le _ _).trans_lt h.total_lt
    · dsimp only
      split <;> exact Nat.two_pow_pos 32
  origin := by
    rw [cmskAge_items]
    exact h.origin
  table := (cmskAge_holds h.sized).table
  room := by
    rw [cmskAge_achash]
    exact h.sized.size_pos

theorem sample_total_lt (hashMode : Bool) (threshold : ℕ) (cms : Cms) (key : Key) :
    (sample hashMode threshold cms key).1.total < 2 ^ 32 := by
  have hlt : ∀ n, uint n < 2 ^ 32 := fun n => Nat.mod_lt _ (by norm_num)
  unfold sample
  split
  · exact hlt _
  · exact hlt _

theorem Sketching.sound (h : Sketching config K s) : Sound 4 config.cmskCmsWidthOrder s :=
  ⟨h.shaped, h.table⟩

/-- One sample: it is counted, and while the table is not full there is room for another. -/
theorem Sketching.update (h : Sketching config K s) (key : Key) (hK : K key)
    (hpid : key.2 < 2 ^ 24) :
    ∃ t full, cmskUpdate s key.1 key.2 = some (t, full) ∧ Sketched config K t ∧
      (full = false → Sketching config K t) := by
  obtain ⟨hash, hbucket, heq⟩ := cmskUpdate_eq s key
  have hsome : ∃ t full, cmskUpdate s key.1 key.2 = some (t, full) ∧
      t.achash.threshold = config.cmskAchashThreshold ∧ t.cms.total < 2 ^ 32 := by
    rw [heq]
    dsimp only
    split
    · obtain ⟨a, ha, -, same, -⟩ := achashUpdate_spec16 h.table hbucket hpid h.room
      rw [ha]
      exact ⟨_, _, rfl, same.threshold_eq.trans h.threshold_eq, sample_total_lt _ _ _ _⟩
    · exact ⟨_, _, rfl, h.threshold_eq, sample_total_lt _ _ _ _⟩
  obtain ⟨t, full, hupdate, hthreshold, htotal⟩ := hsome
  obtain ⟨hsound', hroom, hmode, -⟩ := h.sound.update h.room hpid hupdate
  have hsketched : Sketched config K t :=
    ⟨hsound'.shaped, hsound'.table.toSized, hsound'.table.len_le_length,
      hmode.trans h.hashMode_eq, hthreshold, htotal, h.origin.cmskUpdate hK hpid hupdate⟩
  exact ⟨t, full, hupdate, hsketched, fun hfull => ⟨hsketched, hsound'.table, hroom hfull⟩⟩

theorem cmskSort_config (std : SortByCount) (s : Cmsk) :
    SameConfig s.achash (cmskSort std s).achash := by
  by_cases hlen : s.achash.len = 0
  · rw [cmskSort, if_pos hlen]
    exact ⟨rfl, rfl, rfl, rfl⟩
  · rw [cmskSort_achash std hlen]
    split <;> exact ⟨rfl, rfl, rfl, rfl⟩

theorem Sketched.sort (std : SortByCount) (h : Sketched config K s) :
    Sketched config K (cmskSort std s) where
  shaped := cmskSort_cms std s ▸ h.shaped
  sized := cmskSort_sized std h.sized
  len_le := by
    by_cases hlen : s.achash.len = 0
    · rw [cmskSort, if_pos hlen]
      exact h.len_le
    · have hlength := (std.perm s.achash.items).length_eq
      have hle := h.len_le
      have hstop := (achashBsearch_spec (std.ordered s.achash.items)
        (count16 (finalThreshold s - 1)) (Nat.zero_le (s.achash.len - 1)) (by omega)).2.1
      rw [cmskSort_achash std hlen]
      split
      · exact hstop.trans (by omega : s.achash.len - 1 ≤ (std.sort s.achash.items).length)
      · exact hle.trans hlength.ge
  hashMode_eq := (cmskSort_config std s).hashMode_eq.trans h.hashMode_eq
  threshold_eq := (cmskSort_config std s).threshold_eq.trans h.threshold_eq
  total_lt := cmskSort_cms std s ▸ h.total_lt
  origin := h.origin.cmskSort std

end Sketch

/-! ### One interval -/

theorem Kept.beginInterval {config : HmdConfig} {P : ℕ → ℕ → Prop} {k n pid : ℕ} {s : Optimizer}
    (h : Kept config P k n pid s) : Kept config P k n pid s.beginInterval :=
  h.congr rfl rfl rfl

/-- Options for which a hot page counts something: the threshold is not null, and the error
of the sketch does not wrap it. -/
structure Thresholds (config : HmdOptions) : Prop where
  pos : 1 ≤ config.cmskAchashThreshold
  lt : config.cmskAchashThreshold < 2 ^ 31
  width : 2 ≤ config.cmskCmsWidthOrder

/-- Options for which the tables can be made, with a bin in the histogram, and the shifts
are defined. -/
structure Tables (config : HmdOptions) : Prop where
  width_pos : 1 ≤ config.cmskCmsWidthOrder
  width_lt : config.cmskCmsWidthOrder < 31
  sizeOrder_le : config.cmskAchashSizeOrder ≤ achashSizeOrderMax
  histMax_pos : 0 < config.cmskAchashHistMax
  histMax_lt : config.cmskAchashHistMax < 2 ^ 31
  granularityOrder_lt : config.granularityOrder < 64

namespace PMUMemoryOptimizer

/-- The key was sampled by the records read so far. -/
def SampledKey (config : HmdConfig) (samples : List (UInt64 × Int32)) (key : Key) : Prop :=
  ∃ sample ∈ samples, keyOf config sample = key

/-- What the reading keeps between two intervals. -/
structure Reading {ρ : Type*} (unread : ρ → List (Option PerfRecord))
    (s : PMUMemoryOptimizer ρ) : Prop where
  margin : s.pmu.pmemExpectedSamplesMargin = 0
  inOrder : ∀ pfd, (recordsOf pfd s.pmu.sampler.read ++ unread (s.pmu.sampler.rings pfd)).Sublist
    (s.pmu.sampler.logged pfd)

/-- The same with the sketch. -/
structure Running {ρ : Type*} (config : HmdOptions) (unread : ρ → List (Option PerfRecord))
    (s : PMUMemoryOptimizer ρ) : Prop extends Reading unread s where
  pids : ∀ pfd, ∀ record ∈ unread (s.pmu.sampler.rings pfd), PidFits record
  sketched : Sketched config (SampledKey config.toHmdConfig (sampledOf s.pmu.sampler.read))
    s.pmu.sampler.state

/-- The same with what was handed over. -/
structure Safe {ρ : Type*} (config : HmdOptions) (unread : ρ → List (Option PerfRecord))
    (s : PMUMemoryOptimizer ρ) : Prop extends Running config unread s where
  kept : ∃ n pid, Kept config.toHmdConfig
    (SampledPage config.toHmdConfig (sampledOf s.pmu.sampler.read)) s.resetCalls n pid s.optimizer
  cleared : s.optimizer.ended = false → s.optimizer.hotPages = []

section Interval

variable {ρ ι : Type*} {config : HmdOptions} {around : Surroundings ρ ι} {fuel : ℕ}
variable {unread : ρ → List (Option PerfRecord)} {ahead : ι → List (Option PerfRecord)}
variable {Q : Option PerfRecord → Prop} {l : List (ℤ × Option PerfRecord)} {full : Bool}
variable {s t : PMUMemoryOptimizer ρ} {pmu : PmuSampling ρ Cmsk} {env : HmdInterval}

/-- The period may change with an interval, and nothing else does before its samples. -/
theorem beginInterval_spec (s : PMUMemoryOptimizer ρ) :
    (beginInterval s).sampler =
        { s.pmu.sampler with state := cmskAge s.pmu.sampler.state, stats := .zero } ∧
      (beginInterval s).pmemExpectedSamplesMargin = s.pmu.pmemExpectedSamplesMargin := by
  unfold beginInterval PmuSampling.adjustSamplePeriodCommit
  split <;> exact ⟨rfl, rfl⟩

/-- What the units of an interval read; if it has any and nothing fills, to the ends of all
open rings. -/
theorem measure_reads (hlaws : around.perf.Lawful unread ahead)
    (hlogs : ∀ unit ∈ env.units, unit.Logs Q)
    (h : measure config around fuel s env = some pmu) :
    ∃ l full, Reads unread Q (onPmuPmemSample config.toHmdConfig) l
        { s.pmu.sampler with state := cmskAge s.pmu.sampler.state, stats := .zero }
        pmu.sampler full ∧
      pmu.pmemExpectedSamplesMargin = s.pmu.pmemExpectedSamplesMargin ∧
      (s.pmu.pmemExpectedSamplesMargin = 0 → full = false → env.units ≠ [] →
        0 < config.expectedSamples → 0 < config.intervalMax →
          Emptied unread around.cpus pmu.sampler) := by
  obtain ⟨hsampler, hmargin⟩ := beginInterval_spec s
  obtain ⟨full, ⟨l, hl⟩, hkept, hemptied⟩ := PmuSampling.measureUnits_reads hlaws hlogs h
  rw [hsampler] at hl
  refine ⟨l, full, hl, hkept.trans hmargin, fun hzero hfull hunits hexpected hmax =>
    hemptied hfull (.inr ⟨hunits, ?_⟩)⟩
  unfold PmuSampling.pmemSamplesEnough
  rw [hsampler, hmargin, hzero]
  simp only [SampleStats.zero]
  omega

/-- All that an interval does: it measures inside the histogram, and ends. -/
theorem interval_cases (h : interval config around fuel s env = some t) :
    ∃ pmu, measure config around fuel s env = some pmu ∧
      pmu.sampler.state.achash.histOverrun = false ∧ t = endInterval config around env s pmu := by
  obtain ⟨pmu, hmeasure, hrest⟩ := Option.bind_eq_some_iff.mp h
  split at hrest
  · cases hrest
  · next hinside =>
    cases hrest
    exact ⟨pmu, hmeasure, Bool.eq_false_iff.mpr hinside, rfl⟩

/-- The samples of an interval leave a sketch of them and of those before. -/
theorem sketched_of_reads (h : Running config unread s) (hpids : ∀ r ∈ l, PidFits r.2)
    (hreads : Reads unread Q (onPmuPmemSample config.toHmdConfig) l
      { s.pmu.sampler with state := cmskAge s.pmu.sampler.state, stats := .zero }
      pmu.sampler full) :
    Sketched config (SampledKey config.toHmdConfig (sampledOf pmu.sampler.read))
      pmu.sampler.state := by
  rw [hreads.read_eq, sampledOf_append]
  have hmono : ∀ key, SampledKey config.toHmdConfig (sampledOf s.pmu.sampler.read) key →
      SampledKey config.toHmdConfig (sampledOf s.pmu.sampler.read ++ sampledOf l) key :=
    fun _ ⟨sample, hmem, hkey⟩ => ⟨sample, List.mem_append_left _ hmem, hkey⟩
  have hnew : ∀ sample ∈ sampledOf l, SampledKey config.toHmdConfig
      (sampledOf s.pmu.sampler.read ++ sampledOf l) (keyOf config.toHmdConfig sample) ∧
        ulongOfInt sample.2 < 2 ^ 24 := by
    intro sample hmem
    obtain ⟨r, hr, hsample⟩ := List.mem_filterMap.mp hmem
    exact ⟨⟨sample, List.mem_append_right _ hmem, rfl⟩, hpids r hr sample hsample⟩
  refine hreads.fed.keeps (J := fun rest c => (∀ sample ∈ rest, SampledKey config.toHmdConfig
    (sampledOf s.pmu.sampler.read ++ sampledOf l) (keyOf config.toHmdConfig sample) ∧
      ulongOfInt sample.2 < 2 ^ 24) ∧ Sketching config _ c)
    ⟨hnew, (h.sketched.mono hmono).age⟩ (fun _ hJ => hJ.2.toSketched) ?_
  rintro sample rest c c' stop ⟨hrest, hc⟩ hstep
  obtain ⟨⟨hkey, hpid⟩, hrest⟩ := List.forall_mem_cons.mp hrest
  obtain ⟨t, full', hupdate, hsketched, hnext⟩ := hc.update _ hkey hpid
  obtain ⟨rfl, rfl⟩ := Prod.mk.inj (Option.some.inj (hupdate.symm.trans hstep))
  exact ⟨hsketched, fun hstop => ⟨hrest, hnext hstop⟩⟩

/-- The hot items after the sort have a pid, and pages that were sampled for it. -/
theorem owned_of_sketched (hthreshold : Thresholds config)
    (horder : config.granularityOrder < 63) {samples : List (UInt64 × Int32)}
    (hsamples : ∀ sample ∈ samples, sample.1.toNat < 2 ^ 63 ∧ ulongOfInt sample.2 ≠ 0) {c : Cmsk}
    (h : Sketched config (SampledKey config.toHmdConfig samples) c) (std : SortByCount) :
    ∀ item ∈ (cmskSort std c).achash.current,
      Owned config.toHmdConfig (SampledPage config.toHmdConfig samples) item := by
  intro item hitem
  have hcount := cmskSort_count_pos std h.len_le (finalThreshold_pos
    (h.threshold_eq ▸ hthreshold.pos) (h.threshold_eq ▸ hthreshold.lt) h.total_lt
    (h.shaped.widthOrder_eq ▸ hthreshold.width)) item hitem
  obtain ⟨sample, hmem, hkey⟩ := ((h.sort std).origin item
    (List.mem_of_mem_take hitem)).resolve_left (Nat.one_le_iff_ne_zero.mp hcount)
  obtain ⟨hval, hpid⟩ := hsamples sample hmem
  have haddr : item.addr = sample.1.toNat >>> config.granularityOrder :=
    (congrArg Prod.fst hkey).symm
  have hitemPid : ulongOfInt sample.2 = item.pid := congrArg Prod.snd hkey
  exact ⟨hitemPid ▸ hpid, fun page hpage =>
    ⟨sample, hmem, hitemPid, page_div_eq horder hval haddr hpage⟩⟩

/-- The countdown to a reset keeps what is kept. -/
theorem resetFilter_kept (hconfig : config.Fits) {P : ℕ → ℕ → Prop} {n pid : ℕ}
    (h : Kept config.toHmdConfig P s.resetCalls n pid s.optimizer)
    (hempty : s.optimizer.hotPages = []) :
    (∃ n' pid', Kept config.toHmdConfig P (resetFilter config s).resetCalls n' pid'
      (resetFilter config s).optimizer) ∧
      (resetFilter config s).optimizer.hotPages = [] ∧
      (resetFilter config s).optimizer.ended = s.optimizer.ended ∧
      (resetFilter config s).pmu = s.pmu := by
  unfold resetFilter
  split
  · exact ⟨⟨n, pid, h⟩, hempty, rfl, rfl⟩
  · split
    · exact ⟨⟨0, 0, Kept.reset hconfig h.allowed hempty⟩, hempty, rfl, rfl⟩
    · exact ⟨⟨n, pid, h⟩, hempty, rfl, rfl⟩

/-- The part of the state that reads is that after the units, with the sketch sorted. -/
theorem endInterval_pmu (env : HmdInterval) (s : PMUMemoryOptimizer ρ)
    (pmu : PmuSampling ρ Cmsk) :
    (endInterval config around env s pmu).pmu = pmu.modifyState (cmskSort around.std) := by
  unfold endInterval
  dsimp only
  split
  · rfl
  · unfold resetFilter
    split
    · rfl
    · split <;> rfl

theorem interval_reading (hlaws : around.perf.Lawful unread ahead) (h : Reading unread s)
    (hinterval : interval config around fuel s env = some t) : Reading unread t := by
  obtain ⟨pmu, hmeasure, -, rfl⟩ := interval_cases hinterval
  obtain ⟨l, full, hreads, hmargin, -⟩ := measure_reads (Q := fun _ => True) hlaws
    (fun _ _ => ⟨fun _ _ _ _ _ => trivial, fun _ _ _ => trivial⟩) hmeasure
  refine ⟨?_, fun pfd => ?_⟩ <;> rw [endInterval_pmu]
  · exact hmargin.trans h.margin
  · obtain ⟨logs, dropped, hlogged, -, hkept, -⟩ := hreads.kept pfd
    show (recordsOf pfd pmu.sampler.read ++ unread (pmu.sampler.rings pfd)).Sublist
      (pmu.sampler.logged pfd)
    rw [hreads.read_eq, recordsOf_append, hlogged]
    -- what is given up is missing on the left
    have hleft : (recordsOf pfd l ++ unread (pmu.sampler.rings pfd)).Sublist
        (unread (s.pmu.sampler.rings pfd) ++ logs) := by
      rw [hkept]
      exact (List.sublist_append_left _ _).append (List.Sublist.refl _)
    have hall := (List.Sublist.refl (recordsOf pfd s.pmu.sampler.read)).append hleft
    rw [← List.append_assoc, ← List.append_assoc] at hall
    exact hall.trans ((h.inOrder pfd).append (List.Sublist.refl logs))

theorem measure_running (hlaws : around.perf.Lawful unread ahead) (hpids : env.PidsFit)
    (h : Running config unread s) (hmeasure : measure config around fuel s env = some pmu) :
    ∃ l full, Reads unread PidFits (onPmuPmemSample config.toHmdConfig) l
        { s.pmu.sampler with state := cmskAge s.pmu.sampler.state, stats := .zero }
        pmu.sampler full ∧
      (∀ r ∈ l, PidFits r.2) ∧
      (∀ pfd, ∀ record ∈ unread (pmu.sampler.rings pfd), PidFits record) ∧
      Sketched config (SampledKey config.toHmdConfig (sampledOf pmu.sampler.read))
        pmu.sampler.state := by
  obtain ⟨l, full, hreads, -, -⟩ := measure_reads hlaws hpids hmeasure
  obtain ⟨hread, hleft⟩ := hreads.subset h.pids
  exact ⟨l, full, hreads, hread, hleft, sketched_of_reads h hread hreads⟩

theorem interval_running (hlaws : around.perf.Lawful unread ahead) (hpids : env.PidsFit)
    (h : Running config unread s) (hinterval : interval config around fuel s env = some t) :
    Running config unread t := by
  refine ⟨interval_reading hlaws h.toReading hinterval, ?_, ?_⟩ <;>
    obtain ⟨pmu, hmeasure, -, rfl⟩ := interval_cases hinterval <;>
    obtain ⟨l, full, hreads, -, hleft, hsketched⟩ := measure_running hlaws hpids h hmeasure <;>
    rw [endInterval_pmu]
  · exact hleft
  · exact hsketched.sort around.std

/-- **One interval** keeps the invariant. -/
theorem interval_safe (hlaws : around.perf.Lawful unread ahead) (hpids : env.PidsFit)
    (hconfig : config.Fits) (hthreshold : Thresholds config) (horder : config.granularityOrder < 63)
    (h : Safe config unread s) (hgoes : s.optimizer.ended = false)
    (hinterval : interval config around fuel s env = some t) : Safe config unread t := by
  have hrunning := interval_running hlaws hpids h.toRunning hinterval
  obtain ⟨pmu, hmeasure, -, rfl⟩ := interval_cases hinterval
  obtain ⟨l, full, hreads, -, -, hsketched⟩ :=
    measure_running hlaws hpids h.toRunning hmeasure
  have hsamples : ∀ sample ∈ sampledOf pmu.sampler.read,
      sample.1.toNat < 2 ^ 63 ∧ ulongOfInt sample.2 ≠ 0 := fun _ hmem => sampledOf_spec hmem
  have hfits : Fits (SampledPage config.toHmdConfig (sampledOf pmu.sampler.read)) :=
    sampledPage_fits horder fun sample hmem => (hsamples sample hmem).1
  obtain ⟨n, pid, hkept⟩ := h.kept
  have hkept : Kept config.toHmdConfig (SampledPage config.toHmdConfig
      (sampledOf pmu.sampler.read)) s.resetCalls n pid s.optimizer := by
    refine hkept.imp fun pid page hpage => ?_
    rw [hreads.read_eq, sampledOf_append]
    exact hpage.mono (List.subset_append_left _ _)
  suffices hparts : (∃ n pid, Kept config.toHmdConfig (SampledPage config.toHmdConfig
      (sampledOf (endInterval config around env s pmu).pmu.sampler.read))
      (endInterval config around env s pmu).resetCalls n pid
      (endInterval config around env s pmu).optimizer) ∧
      ((endInterval config around env s pmu).optimizer.ended = false →
        (endInterval config around env s pmu).optimizer.hotPages = []) from
    ⟨hrunning, hparts.1, hparts.2⟩
  rw [endInterval_pmu]
  unfold endInterval
  dsimp only
  split
  · exact ⟨⟨n, pid, hkept⟩, h.cleared⟩
  · obtain ⟨⟨n', pid', hreset⟩, hempty, hended, hpmu⟩ := resetFilter_kept hconfig
      (s := { s with pmu := pmu.modifyState (cmskSort around.std) }) hkept (h.cleared hgoes)
    obtain ⟨n'', pid'', hmoved, hcleared⟩ := Kept.migratePages around.machine
      ⟨ulongOfSigned pmu.pmemSamplePeriod, env.dramCountAvg⟩ hfits
      hreset.beginInterval (fun _ => hempty)
      (owned_of_sketched hthreshold horder hsamples hsketched around.std)
    exact ⟨⟨n'', pid'', hmoved⟩, hcleared⟩

/-- The units of an interval are measured to their end: no chain of the table is endless,
and nothing is divided by zero. -/
theorem measure_eventually (hlaws : around.perf.Lawful unread ahead) (hpids : env.PidsFit)
    (h : Running config unread s) :
    ∃ pmu, ∀ᶠ fuel in Filter.atTop, measure config around fuel s env = some pmu := by
  obtain ⟨hsampler, hmargin⟩ := beginInterval_spec s
  have htakes : PmuSampling.Takes (onPmuPmemSample config.toHmdConfig) PidFits
      (Sketching config fun _ => True) := by
    intro record sample hrecord hsample c hc
    obtain ⟨t, full, hupdate, -, hnext⟩ :=
      hc.update (keyOf config.toHmdConfig sample) trivial (hrecord sample hsample)
    exact ⟨t, full, hupdate, hnext⟩
  refine PmuSampling.measureUnits_eventually hlaws htakes around.cpus hpids ?_
    (by rw [hmargin, h.margin])
  rw [hsampler]
  exact ⟨(h.sketched.mono fun _ _ => trivial).age, h.pids⟩

/-- The count that an item starts with. -/
def startCount (config : HmdOptions) : ℕ :=
  if config.hashMode then 1 else config.cmskAchashThreshold

/-- The samples of the records can be counted in items just started without a wrap. -/
def Countable (config : HmdOptions) (l : List (ℤ × Option PerfRecord)) : Prop :=
  ∀ key, count16 (startCount config) +
    ((sampledOf l).map (keyOf config.toHmdConfig)).count key ≤ 2 ^ 16

theorem countable_of_length (h : count16 (startCount config) + l.length ≤ 2 ^ 16) :
    Countable config l := by
  intro key
  have hcount : ((sampledOf l).map (keyOf config.toHmdConfig)).count key ≤ l.length := by
    refine List.count_le_length.trans ?_
    rw [List.length_map]
    exact List.length_filterMap_le _ l
  omega

/-- The histogram is not missed. -/
theorem histFits_of_reads (h : Running config unread s)
    (hfits : HistFits s.pmu.sampler.state.achash) (hpids : ∀ r ∈ l, PidFits r.2)
    (hcountable : Countable config l)
    (hreads : Reads unread Q (onPmuPmemSample config.toHmdConfig) l
      { s.pmu.sampler with state := cmskAge s.pmu.sampler.state, stats := .zero }
      pmu.sampler full) :
    HistFits pmu.sampler.state.achash := by
  obtain ⟨hage, hstart⟩ := hfits.age
  have hinitial : initialCount s.pmu.sampler.state.achash = startCount config := by
    unfold initialCount startCount
    rw [h.sketched.hashMode_eq, h.sketched.threshold_eq]
  have hsampled : ∀ sample ∈ sampledOf l, ulongOfInt sample.2 < 2 ^ 24 := by
    intro sample hmem
    obtain ⟨r, hr, hsample⟩ := List.mem_filterMap.mp hmem
    exact hpids r hr sample hsample
  refine hreads.fed.keeps (J := fun rest c => (∀ sample ∈ rest, ulongOfInt sample.2 < 2 ^ 24) ∧
      Sketching config (fun _ => True) c ∧ HistFits c.achash ∧
      ∀ key, nextCount c.achash key + (rest.map (keyOf config.toHmdConfig)).count key ≤ 2 ^ 16)
    (K := fun c => HistFits c.achash)
    ⟨hsampled, (h.sketched.mono fun _ _ => trivial).age, hage, fun key => ?_⟩
    (fun _ hJ => hJ.2.2.1) ?_
  · rw [hstart, hinitial]
    exact hcountable key
  · rintro sample rest c c' stop ⟨hrest, hc, hhist, hcount⟩ hstep
    obtain ⟨hpid, hrest⟩ := List.forall_mem_cons.mp hrest
    obtain ⟨t, full', hupdate, -, hnext⟩ :=
      hc.update (keyOf config.toHmdConfig sample) trivial hpid
    obtain ⟨rfl, rfl⟩ := Prod.mk.inj (Option.some.inj (hupdate.symm.trans hstep))
    simp only [List.map_cons, List.count_cons, beq_iff_eq] at hcount
    have hkey := hcount (keyOf config.toHmdConfig sample)
    rw [if_pos rfl] at hkey
    obtain ⟨hhist', hcount'⟩ := hhist.cmskUpdate hc.sound hc.room hpid (by omega) hupdate
    refine ⟨hhist', fun hstop => ⟨hrest, hnext hstop, hhist', fun key => ?_⟩⟩
    have hle := hcount' key
    have hbound := hcount key
    by_cases heq : keyOf config.toHmdConfig sample = key
    · rw [if_pos heq] at hbound
      rw [if_pos heq.symm] at hle
      omega
    · rw [if_neg heq] at hbound
      rw [if_neg (Ne.symm heq)] at hle
      omega

end Interval

end PMUMemoryOptimizer

end PmuRefs

end MemoryOptimizer
