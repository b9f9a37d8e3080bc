import MemoryOptimizer.PmuRefs.Hmd

/-!
# Runs of the hot-memory daemon

The process from its options on, for any intervals.

* `run_rule` — what every interval keeps.
* `main_unique` — the bound on the loops over the rings decides only whether there is a
  result.
* `main_ends` — a run ends, if no count of an item wraps.
* `main_reads`, `main_allowed`, `main_notRetried` — what its intervals read, and what they
  hand over.
-/

namespace MemoryOptimizer

namespace PmuRefs

namespace PMUMemoryOptimizer

section Runs

variable {ρ ι : Type*} {config : HmdOptions} {around : Surroundings ρ ι} {fuel fuel' : ℕ}
variable {unread : ρ → List (Option PerfRecord)} {ahead : ι → List (Option PerfRecord)}
variable {intervals : List HmdInterval} {env : HmdInterval} {s t : PMUMemoryOptimizer ρ}

/-- What every interval keeps holds after a run. -/
theorem run_rule {I : PMUMemoryOptimizer ρ → Prop}
    (hstep : ∀ s, ∀ env ∈ intervals, ∀ t, I s → s.optimizer.ended = false →
      interval config around fuel s env = some t → I t)
    (hstart : I s) (h : run config around fuel intervals s = some t) : I t := by
  induction intervals generalizing s with
  | nil =>
      cases h
      exact hstart
  | cons env intervals ih =>
      obtain ⟨s', hfirst, hrest⟩ := Option.bind_eq_some_iff.mp h
      refine ih (fun s env henv => hstep s env (List.mem_cons_of_mem _ henv)) ?_ hrest
      dsimp only at hfirst
      split at hfirst
      · cases hfirst
        exact hstart
      · next hgoes => exact hstep s env List.mem_cons_self s' hstart (by simpa using hgoes) hfirst

theorem main_rule {I : PMUMemoryOptimizer ρ → Prop}
    (hstart : ∀ s, start config around = some s → I s)
    (hstep : ∀ s, ∀ env ∈ intervals, ∀ t, I s → s.optimizer.ended = false →
      interval config around fuel s env = some t → I t)
    (h : main config around fuel intervals = some t) : I t := by
  obtain ⟨s, hs, hrun⟩ := Option.bind_eq_some_iff.mp h
  exact run_rule hstep (hstart s hs) hrun

theorem start_reading (hlaws : around.perf.Lawful unread ahead) (h : start config around = some s) :
    Reading unread s := by
  obtain ⟨cmsk, -, rfl⟩ := Option.map_eq_some_iff.mp h
  refine ⟨rfl, fun pfd => ?_⟩
  show ([] ++ unread around.perf.opened).Sublist []
  rw [hlaws.opened]
  exact List.Sublist.refl _

/-- A table just made has no item that counts. -/
theorem start_running (hlaws : around.perf.Lawful unread ahead) (h : start config around = some s) :
    Running config unread s := by
  refine ⟨start_reading hlaws h, ?_, ?_⟩ <;>
    obtain ⟨cmsk, hcmsk, rfl⟩ := Option.map_eq_some_iff.mp h
  · intro pfd record hrecord
    rw [hlaws.opened] at hrecord
    exact absurd hrecord List.not_mem_nil
  · have fresh := cmskInit_fresh hcmsk
    have htable : Table (fun _ => 0) cmsk.achash := fresh.table
    refine ⟨fresh.cms_eq ▸ cmsInit_shaped 4 config.cmskCmsWidthOrder, fresh.sized,
      htable.len_le_length, fresh.hashMode_eq, fresh.threshold_eq, ?_, fun item hitem => .inl ?_⟩
    · show cmsk.cms.total < 2 ^ 32
      rw [fresh.cms_eq]
      exact Nat.two_pow_pos 32
    · rw [fresh.items_eq item hitem]
      rfl

theorem start_safe (hconfig : config.Fits) (hlaws : around.perf.Lawful unread ahead)
    (h : start config around = some s) : Safe config unread s := by
  refine ⟨start_running hlaws h, ?_, ?_⟩ <;>
    obtain ⟨cmsk, -, rfl⟩ := Option.map_eq_some_iff.mp h
  · exact ⟨0, 0, Kept.reset hconfig (s := { afterReset config.toHmdConfig .init with
      arfilter := SortedMap.empty }) (fun _ hc => absurd hc List.not_mem_nil) rfl⟩
  · exact fun _ => rfl

theorem main_safe (hlaws : around.perf.Lawful unread ahead) (hpids : ∀ env ∈ intervals, env.PidsFit)
    (hconfig : config.Fits) (hthreshold : Thresholds config) (horder : config.granularityOrder < 63)
    (h : main config around fuel intervals = some t) : Safe config unread t :=
  main_rule (fun _ => start_safe hconfig hlaws)
    (fun _ env henv _ hs hgoes =>
      interval_safe hlaws (hpids env henv) hconfig hthreshold horder hs hgoes) h

/-! ### A larger bound -/

theorem measure_mono (hle : fuel ≤ fuel') {pmu : PmuSampling ρ Cmsk}
    (h : measure config around fuel s env = some pmu) :
    measure config around fuel' s env = some pmu :=
  PmuSampling.measureUnits_mono hle h

theorem measure_unique {pmu pmu' : PmuSampling ρ Cmsk}
    (h : measure config around fuel s env = some pmu)
    (h' : measure config around fuel' s env = some pmu') : pmu' = pmu := by
  have h := measure_mono (le_max_left fuel fuel') h
  have h' := measure_mono (le_max_right fuel fuel') h'
  exact Option.some.inj (h'.symm.trans h)

theorem interval_mono (hle : fuel ≤ fuel') (h : interval config around fuel s env = some t) :
    interval config around fuel' s env = some t := by
  obtain ⟨pmu, hmeasure, hrest⟩ := Option.bind_eq_some_iff.mp h
  exact Option.bind_eq_some_iff.mpr ⟨pmu, measure_mono hle hmeasure, hrest⟩

theorem run_mono (hle : fuel ≤ fuel') (h : run config around fuel intervals s = some t) :
    run config around fuel' intervals s = some t := by
  induction intervals generalizing s with
  | nil => exact h
  | cons env intervals ih =>
      obtain ⟨s', hfirst, hrest⟩ := Option.bind_eq_some_iff.mp h
      refine Option.bind_eq_some_iff.mpr ⟨s', ?_, ih hrest⟩
      dsimp only at hfirst ⊢
      split at hfirst
      · next hended => rwa [if_pos hended]
      · next hended =>
        rw [if_neg hended]
        exact interval_mono hle hfirst

theorem main_unique {t' : PMUMemoryOptimizer ρ} (h : main config around fuel intervals = some t)
    (h' : main config around fuel' intervals = some t') : t' = t := by
  obtain ⟨s, hs, hrun⟩ := Option.bind_eq_some_iff.mp h
  obtain ⟨s', hs', hrun'⟩ := Option.bind_eq_some_iff.mp h'
  obtain rfl := Option.some.inj (hs.symm.trans hs')
  have hrun := run_mono (le_max_left fuel fuel') hrun
  have hrun' := run_mono (le_max_right fuel fuel') hrun'
  exact Option.some.inj (hrun'.symm.trans hrun)

/-! ### What a run does -/

/-- In no interval of a run from the state on so many samples of one page are read that the
count of its item wraps. -/
def Sparse {ρ ι : Type*} (config : HmdOptions) (around : Surroundings ρ ι) :
    List HmdInterval → PMUMemoryOptimizer ρ → Prop
  | [], _ => True
  | env :: intervals, s => s.optimizer.ended = false →
      (∀ fuel pmu, measure config around fuel s env = some pmu →
        Countable config (pmu.sampler.read.drop s.pmu.sampler.read.length)) ∧
      ∀ fuel t, interval config around fuel s env = some t → Sparse config around intervals t

theorem Sparse.of_ended (h : s.optimizer.ended = true) (intervals : List HmdInterval) :
    Sparse config around intervals s := by
  cases intervals with
  | nil => trivial
  | cons env intervals => exact fun hgoes => absurd (h.symm.trans hgoes) Bool.true_eq_false.mp

/-- An interval that can be counted has a result, for which the histogram is not missed
either. -/
theorem interval_ends (hlaws : around.perf.Lawful unread ahead) (hpids : env.PidsFit)
    (hs : Running config unread s) (hfits : HistFits s.pmu.sampler.state.achash)
    (hcountable : ∀ fuel pmu, measure config around fuel s env = some pmu →
      Countable config (pmu.sampler.read.drop s.pmu.sampler.read.length)) :
    ∃ t, (∀ᶠ fuel in Filter.atTop, interval config around fuel s env = some t) ∧
      HistFits t.pmu.sampler.state.achash := by
  obtain ⟨pmu, hmeasure⟩ := measure_eventually hlaws hpids hs
  obtain ⟨fuel, hfuel⟩ := hmeasure.exists
  obtain ⟨l, full, hreads, hread, -, -⟩ := measure_running hlaws hpids hs hfuel
  have hcount := hcountable fuel pmu hfuel
  rw [hreads.read_eq, List.drop_left] at hcount
  have hhist := histFits_of_reads hs hfits hread hcount hreads
  refine ⟨endInterval config around env s pmu, hmeasure.mono fun fuel hfuel => ?_, ?_⟩
  · rw [interval, hfuel, Option.bind_some, hhist.histOverrun_eq]
    rfl
  · rw [endInterval_pmu]
    exact hhist.sort around.std

/-- Every run comes to an end, whatever is logged to the rings: no loop over a ring and no
chain of the table is endless, the sample period is not divided by zero, and the histogram
is not missed; with every bound on the loops over the rings that is large enough, and with
no other result for a smaller one. -/
theorem main_ends (hlaws : around.perf.Lawful unread ahead) (htables : Tables config)
    (hpids : ∀ env ∈ intervals, env.PidsFit)
    (hsparse : ∀ s, start config around = some s → Sparse config around intervals s) :
    ∃ t bound, (∀ fuel ≥ bound, main config around fuel intervals = some t) ∧
      ∀ fuel t', main config around fuel intervals = some t' → t' = t := by
  obtain ⟨s, hs, hfits⟩ : ∃ s, start config around = some s ∧
      HistFits s.pmu.sampler.state.achash := by
    obtain ⟨cmsk, hcmsk⟩ : ∃ cmsk, cmskInit false config.hashMode config.cmskCmsWidthOrder 4
        config.cmskAchashThreshold config.cmskAchashSizeOrder config.cmskAchashHistMax =
          some cmsk := by
      unfold cmskInit achashInit
      rw [if_neg (not_lt.mpr htables.sizeOrder_le)]
      exact ⟨_, rfl⟩
    refine ⟨_, by rw [start, hcmsk]; rfl, HistFits.init (cmskInit_fresh hcmsk) htables.histMax_pos⟩
  have hrun : ∀ (intervals : List HmdInterval) s, (∀ env ∈ intervals, env.PidsFit) →
      Running config unread s → HistFits s.pmu.sampler.state.achash →
      Sparse config around intervals s →
      ∃ t, ∀ᶠ fuel in Filter.atTop, run config around fuel intervals s = some t := by
    intro intervals
    induction intervals with
    | nil => exact fun s _ _ _ _ => ⟨s, .of_forall fun _ => rfl⟩
    | cons env intervals ih =>
        intro s hpids hs hfits hsparse
        obtain ⟨henv, hpids⟩ := List.forall_mem_cons.mp hpids
        cases hended : s.optimizer.ended with
        | true =>
            obtain ⟨t, ht⟩ := ih s hpids hs hfits (.of_ended hended intervals)
            refine ⟨t, ht.mono fun fuel hfuel => ?_⟩
            rw [run, List.foldlM_cons, if_pos hended]
            exact hfuel
        | false =>
            obtain ⟨hcountable, hlater⟩ := hsparse hended
            obtain ⟨s', hinterval, hfits'⟩ := interval_ends hlaws henv hs hfits hcountable
            obtain ⟨fuel, hfuel⟩ := hinterval.exists
            obtain ⟨t, ht⟩ := ih s' hpids (interval_running hlaws henv hs hfuel) hfits'
              (hlater fuel s' hfuel)
            refine ⟨t, (hinterval.and ht).mono fun fuel hfuel => ?_⟩
            rw [run, List.foldlM_cons, if_neg (Bool.eq_false_iff.mp hended), hfuel.1]
            exact hfuel.2
  obtain ⟨t, ht⟩ := hrun intervals s hpids (start_running hlaws hs) hfits (hsparse s hs)
  obtain ⟨bound, hbound⟩ := Filter.eventually_atTop.mp ht
  have hmain : ∀ fuel ≥ bound, main config around fuel intervals = some t := by
    intro fuel hfuel
    rw [main, hs]
    exact hbound fuel hfuel
  exact ⟨t, bound, hmain, fun fuel t' h => main_unique (hmain bound le_rfl) h⟩

/-- What an interval did with the records of `l`: what was in a ring and what was logged to
it is read in order and without a gap, or still there, up to what may be given up behind a
sample that fills; if nothing fills and there is a unit, all open rings are read to their
ends. The records are counted in one of the statistics each; the samples among them went to
the aged sketch one by one, up to the one that fills the table, behind which nothing was
read. In the whole run no record was read twice or out of order. -/
structure ReadOnce {ρ ι : Type*} (config : HmdOptions) (around : Surroundings ρ ι)
    (unread : ρ → List (Option PerfRecord)) (env : HmdInterval) (s t : PMUMemoryOptimizer ρ)
    (l : List (ℤ × Option PerfRecord)) (cmsk : Cmsk) (full : Bool) : Prop where
  read_eq : t.pmu.sampler.read = s.pmu.sampler.read ++ l
  rings : ∀ pfd, RingKept unread (fun _ => True) l s.pmu.sampler t.pmu.sampler full pfd
  emptied : full = false → env.units ≠ [] → 0 < config.expectedSamples → 0 < config.intervalMax →
    Emptied unread around.cpus t.pmu.sampler
  inOrder : ∀ pfd, (recordsOf pfd t.pmu.sampler.read ++
    unread (t.pmu.sampler.rings pfd)).Sublist (t.pmu.sampler.logged pfd)
  stats_eq : t.pmu.sampler.stats =
    { samples := l.countP (ofType .sample)
      others := l.countP (ofType .other)
      throttled := l.countP (ofType .throttle)
      skipped := l.countP fun r => r.2.isNone
      lost := ulong (l.map lostBy).sum }
  fed : Fed (onPmuPmemSample config.toHmdConfig) (sampledOf l) (cmskAge s.pmu.sampler.state) cmsk
    full
  last : full = true → ∃ l' r, l = l' ++ [r] ∧ sampledOf [r] ≠ []
  sketch_eq : t.pmu.sampler.state = cmskSort around.std cmsk

/-- Every interval of every run reads its records once. -/
theorem main_reads (hlaws : around.perf.Lawful unread ahead)
    (h : main config around fuel intervals = some s)
    (hinterval : interval config around fuel s env = some t) :
    ∃ l cmsk full, ReadOnce config around unread env s t l cmsk full := by
  have hreading : Reading unread s := main_rule (fun _ => start_reading hlaws)
    (fun _ _ _ _ hs _ => interval_reading hlaws hs) h
  have hreading' := interval_reading hlaws hreading hinterval
  obtain ⟨pmu, hmeasure, -, rfl⟩ := interval_cases hinterval
  obtain ⟨l, full, hreads, -, hemptied⟩ := measure_reads (Q := fun _ => True) hlaws
    (fun _ _ => ⟨fun _ _ _ _ _ => trivial, fun _ _ _ => trivial⟩) hmeasure
  refine ⟨l, pmu.sampler.state, full, ?_, ?_, ?_, hreading'.inOrder, ?_, hreads.fed, hreads.last,
    ?_⟩ <;> rw [endInterval_pmu]
  · exact hreads.read_eq
  · exact hreads.kept
  · exact hemptied hreading.margin
  · exact hreads.stats_eq.trans (statsOf_zero l)
  · rfl

/-- Every page that a run hands over for a process is in the granule of an address that
was sampled for that process, and in no range that the options keep out; and no batch is
longer than the vectors it is copied to. -/
theorem main_allowed (hlaws : around.perf.Lawful unread ahead)
    (hpids : ∀ env ∈ intervals, env.PidsFit) (hconfig : config.Fits)
    (hthreshold : Thresholds config) (horder : config.granularityOrder < 63)
    (h : main config around fuel intervals = some t) :
    ∀ c ∈ t.optimizer.calls, c.hotPages.length ≤ config.movePagesMax ∧
      ∀ page ∈ c.hotPages, page ∉ config.configured c.pid ∧
        ∃ sample ∈ sampledOf t.pmu.sampler.read, sample.2 = c.pid ∧
          page / 2 ^ max config.granularityOrder pageShift =
            sample.1.toNat / 2 ^ max config.granularityOrder pageShift := by
  intro c hc
  obtain ⟨n, pid, hkept⟩ := (main_safe hlaws hpids hconfig hthreshold horder h).kept
  obtain ⟨⟨pid, hpid, howned⟩, hunfiltered, hlength⟩ := hkept.allowed c hc
  refine ⟨hlength, fun page hpage => ⟨hunfiltered page hpage, ?_⟩⟩
  obtain ⟨sample, hmem, heq, hgranule⟩ := howned page hpage
  exact ⟨sample, hmem, by rw [hpid, ← heq, ofNat_ulongOfInt], hgranule⟩

/-- Since the last reset of the filter no page was handed over after a move of it had
failed; without resets, in the whole run. -/
theorem main_notRetried (hlaws : around.perf.Lawful unread ahead)
    (hpids : ∀ env ∈ intervals, env.PidsFit) (hconfig : config.Fits)
    (hthreshold : Thresholds config) (horder : config.granularityOrder < 63)
    (h : main config around fuel intervals = some t) :
    NotRetried (t.optimizer.calls.drop t.resetCalls) ∧
      (config.arfilterResetIntervals = 0 → NotRetried t.optimizer.calls) := by
  obtain ⟨n, pid, hkept⟩ := (main_safe hlaws hpids hconfig hthreshold horder h).kept
  refine ⟨hkept.notRetried, fun hnever => ?_⟩
  have hzero : t.resetCalls = 0 := by
    refine main_rule (I := fun t => t.resetCalls = 0) ?_ ?_ h
    · intro s hs
      obtain ⟨cmsk, -, rfl⟩ := Option.map_eq_some_iff.mp hs
      rfl
    · intro s env _ t hs _ hinterval
      obtain ⟨pmu, -, -, rfl⟩ := interval_cases hinterval
      unfold endInterval resetFilter
      dsimp only
      split <;> exact hs
  rw [← List.drop_zero (l := t.optimizer.calls), ← hzero]
  exact hkept.notRetried

end Runs

/-! ### A small machine -/

/-- Rings with room for sixteen records. An iterator is what it has not gone over, and a ring
that is given back is empty. -/
def queueRings : PerfRings (List (Option PerfRecord)) (List (Option PerfRecord)) where
  opened := []
  perfIterInit ring := ring
  perfIterFinished iter := iter.isEmpty
  perfBufferRead iter := (iter.tail, iter.headD none)
  perfIterContinue _ := []
  log ring records :=
    (ring ++ records.take (16 - ring.length), records.take (16 - ring.length))

theorem queueRings_lawful : queueRings.Lawful id id where
  opened := rfl
  init _ := rfl
  finished _ := List.isEmpty_iff
  read iter record rest h := by
    subst h
    exact ⟨rfl, rfl⟩
  «continue» _ := List.nil_suffix
  log _ _ := rfl
  logSublist _ _ := List.take_sublist _ _

/-- A sample of 24 bytes. -/
def sampleRecord (val pid : UInt64) : Option PerfRecord := some ⟨.sample, 24, [pid, val]⟩

/-- Two rings, on two CPUs. All pages are on the second node, and none can be moved. -/
def twoRings : Surroundings (List (Option PerfRecord)) (List (Option PerfRecord)) where
  machine := busyMachine
  std := insertionSortByCount
  perf := queueRings
  cpus := [[3, -1], [5]]

/-- Hash mode with four items and a threshold of one. -/
def smallOptions : HmdOptions where
  toHmdConfig := pageConfig [⟨8, 0x2f000, 0x1000⟩]
  samplePeriodMin := 1000
  expectedSamples := 4
  intervalMax := 10
  hashMode := true
  cmskCmsWidthOrder := 2
  cmskAchashThreshold := 1
  cmskAchashSizeOrder := 2
  cmskAchashHistMax := 8
  showOnly := false
  arfilterResetIntervals := 2

/-- A round finds two samples of process 7 and one of the kernel in the first ring; until the
events are disabled five records are lost there, and one that cannot be read is in the
second ring. -/
def firstInterval : HmdInterval where
  units := [{
    rounds := [{
      set := fun _ => true
      logs := fun pfd => if pfd = 3 then
        [sampleRecord 0x1f008 7, sampleRecord 0x1f010 7, sampleRecord 0x8000000000000000 7]
      else [] }]
    drained := fun pfd =>
      if pfd = 3 then [some ⟨.lost, 24, [0, 5]⟩] else if pfd = 5 then [none] else [] }]
  dramCountAvg := fun _ => 0

/-- One sample of process 8 in each ring. -/
def secondInterval : HmdInterval where
  units := [{
    rounds := []
    drained := fun pfd =>
      if pfd = 3 then [sampleRecord 0x2f000 8] else if pfd = 5 then [sampleRecord 0x2f800 8]
      else [] }]
  dramCountAvg := fun _ => 0

theorem pidFits_ite {c : Prop} [Decidable c] {l l' : List (Option PerfRecord)}
    (h : ∀ record ∈ l, PidFits record) (h' : ∀ record ∈ l', PidFits record) :
    ∀ record ∈ if c then l else l', PidFits record := by
  split
  · exact h
  · exact h'

theorem smallIntervals_pidsFit : ∀ env ∈ [firstInterval, secondInterval], env.PidsFit := by
  have hnone : ∀ record ∈ ([] : List (Option PerfRecord)), PidFits record := by decide
  intro env henv unit hunit
  rcases List.mem_pair.mp henv with rfl | rfl <;> obtain rfl := List.mem_singleton.mp hunit
  · refine ⟨fun round hround pfd => ?_, fun pfd => ?_⟩
    · obtain rfl := List.mem_singleton.mp hround
      exact pidFits_ite (by decide +kernel) hnone
    · exact pidFits_ite (by decide +kernel) (pidFits_ite (by decide +kernel) hnone)
  · refine ⟨fun round hround => absurd hround List.not_mem_nil, fun pfd => ?_⟩
    exact pidFits_ite (by decide +kernel) (pidFits_ite (by decide +kernel) hnone)

theorem smallOptions_fits : smallOptions.Fits ∧ Thresholds smallOptions ∧ Tables smallOptions :=
  ⟨by unfold HmdConfig.Fits; decide, by constructor <;> decide, by constructor <;> decide⟩

theorem main_smallOptions_calls : ((main smallOptions twoRings 8
    [firstInterval, secondInterval]).map fun t => t.optimizer.calls) =
      some [⟨7, [0x1f000], [0x1f000]⟩, ⟨8, [], []⟩] := by
  decide +kernel

/-- The records read in the two intervals: five and two more. -/
theorem main_smallOptions_read :
    ((start smallOptions twoRings).bind fun s =>
      (measure smallOptions twoRings 8 s firstInterval).map fun pmu => pmu.sampler.read.length) =
        some 5 ∧
    ((main smallOptions twoRings 8 [firstInterval]).bind fun s =>
      (measure smallOptions twoRings 8 s secondInterval).map fun pmu =>
        pmu.sampler.read.length) = some 7 := by
  decide +kernel

theorem smallOptions_sparse {s : PMUMemoryOptimizer (List (Option PerfRecord))}
    (hs : start smallOptions twoRings = some s) :
    Sparse smallOptions twoRings [firstInterval, secondInterval] s := by
  obtain ⟨hfirst, hsecond⟩ := main_smallOptions_read
  rw [hs, Option.bind_some] at hfirst
  obtain ⟨pmu₁, hmeasure₁, hlength₁⟩ := Option.map_eq_some_iff.mp hfirst
  obtain ⟨t₁, ht₁, hsecond⟩ := Option.bind_eq_some_iff.mp hsecond
  obtain ⟨pmu₂, hmeasure₂, hlength₂⟩ := Option.map_eq_some_iff.mp hsecond
  refine fun hgoes => ⟨fun fuel pmu hmeasure => countable_of_length ?_, fun fuel t ht =>
    fun _ => ⟨fun fuel' pmu hmeasure => countable_of_length ?_, fun _ _ _ => trivial⟩⟩
  · rw [measure_unique hmeasure₁ hmeasure, List.length_drop, hlength₁]
    exact (Nat.add_le_add_left (Nat.sub_le _ _) _).trans (by decide)
  · have hmain : main smallOptions twoRings fuel [firstInterval] = some t := by
      rw [main, hs, Option.bind_some, run, List.foldlM_cons,
        if_neg (Bool.eq_false_iff.mp hgoes), ht]
      rfl
    obtain rfl := main_unique ht₁ hmain
    rw [measure_unique hmeasure₂ hmeasure, List.length_drop, hlength₂]
    exact (Nat.add_le_add_left (Nat.sub_le _ _) _).trans (by decide)

theorem main_ends_twoRings : ∃ t bound, ∀ fuel ≥ bound,
    main smallOptions twoRings fuel [firstInterval, secondInterval] = some t := by
  obtain ⟨t, bound, hmain, -⟩ := main_ends queueRings_lawful smallOptions_fits.2.2
    smallIntervals_pidsFit fun _ => smallOptions_sparse
  exact ⟨t, bound, hmain⟩

/-- The second interval reads what it logged, behind the five records of the first one. -/
theorem main_reads_twoRings : ∃ s t l cmsk full,
    main smallOptions twoRings 8 [firstInterval] = some s ∧ s.pmu.sampler.read.length = 5 ∧
    interval smallOptions twoRings 8 s secondInterval = some t ∧
    t.pmu.sampler.read.drop 5 = [(3, sampleRecord 0x2f000 8), (5, sampleRecord 0x2f800 8)] ∧
    ReadOnce smallOptions twoRings id secondInterval s t l cmsk full := by
  have hrun : ((main smallOptions twoRings 8 [firstInterval]).bind fun s =>
      (interval smallOptions twoRings 8 s secondInterval).map fun t =>
        (s.pmu.sampler.read.length, t.pmu.sampler.read.drop 5)) =
      some (5, [(3, sampleRecord 0x2f000 8), (5, sampleRecord 0x2f800 8)]) := by decide +kernel
  obtain ⟨s, hs, hsecond⟩ := Option.bind_eq_some_iff.mp hrun
  obtain ⟨t, ht, heq⟩ := Option.map_eq_some_iff.mp hsecond
  obtain ⟨l, cmsk, full, hreads⟩ := main_reads queueRings_lawful hs ht
  exact ⟨s, t, l, cmsk, full, hs, congrArg Prod.fst heq, ht, congrArg Prod.snd heq, hreads⟩

theorem main_allowed_twoRings : ∃ t,
    main smallOptions twoRings 8 [firstInterval, secondInterval] = some t ∧
    t.optimizer.calls = [⟨7, [0x1f000], [0x1f000]⟩, ⟨8, [], []⟩] ∧
    ∀ c ∈ t.optimizer.calls, ∀ page ∈ c.hotPages,
      ∃ sample ∈ sampledOf t.pmu.sampler.read, sample.2 = c.pid ∧
        page / 2 ^ 12 = sample.1.toNat / 2 ^ 12 := by
  obtain ⟨t, ht, hcalls⟩ := Option.map_eq_some_iff.mp main_smallOptions_calls
  exact ⟨t, ht, hcalls, fun c hc page hpage =>
    ((main_allowed queueRings_lawful smallIntervals_pidsFit smallOptions_fits.1
      smallOptions_fits.2.1 (by decide) ht c hc).2 page hpage).2⟩

theorem main_notRetried_twoRings : ∃ t,
    main smallOptions twoRings 8 [firstInterval, secondInterval] = some t ∧
    t.optimizer.calls = [⟨7, [0x1f000], [0x1f000]⟩, ⟨8, [], []⟩] ∧
    NotRetried (t.optimizer.calls.drop t.resetCalls) := by
  obtain ⟨t, ht, hcalls⟩ := Option.map_eq_some_iff.mp main_smallOptions_calls
  exact ⟨t, ht, hcalls, (main_notRetried queueRings_lawful smallIntervals_pidsFit
    smallOptions_fits.1 smallOptions_fits.2.1 (by decide) ht).1⟩

end PMUMemoryOptimizer

end PmuRefs

end MemoryOptimizer
