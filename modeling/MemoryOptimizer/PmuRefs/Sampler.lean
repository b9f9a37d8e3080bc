import MemoryOptimizer.PmuRefs.Rings
import Mathlib.Order.Filter.AtTopBot.Basic

/-!
# The units of an interval

`pmu.cc` and the loop over the units in `main`: a unit reads the rings and chooses the next
sample period; it is the last one when it does so, or a sample has filled.  None stands, as
for the rings, for a bound that was too small or for a processor that fails, and for a
division by zero.

* `measureUnits_reads` — what the units read.
* `measureUnits_mono` — a larger bound changes no result.
* `measureUnits_eventually` — with a bound that is large enough there is one.
-/

namespace MemoryOptimizer

namespace PmuRefs

/-- What the sampler reads of `hmd_config`. -/
structure SamplingConfig where
  samplePeriodMin : ℤ
  expectedSamples : ℤ
  intervalMax : ℤ

/-- `class PmuState`, as far as the sampling needs it. -/
structure PmuSampling (ρ σ : Type*) where
  sampler : Sampler ρ σ
  pmemSamplePeriod : ℤ
  pmemSamplePeriodNext : ℤ
  pmemExpectedSamplesMargin : ℤ
  pmemSamplesUnitBegin : ℕ

namespace PmuSampling

variable {ρ ι σ : Type*}

/-- The state of the processor changes outside the sampler. -/
def modifyState (f : σ → σ) (s : PmuSampling ρ σ) : PmuSampling ρ σ :=
  { s with sampler := { s.sampler with state := f s.sampler.state } }

/-- `begin_interval`. -/
def beginInterval (s : PmuSampling ρ σ) : PmuSampling ρ σ :=
  { s with sampler := { s.sampler with stats := .zero } }

/-- `adjust_sample_period_commit`. -/
def adjustSamplePeriodCommit (s : PmuSampling ρ σ) : PmuSampling ρ σ :=
  if s.pmemSamplePeriodNext = 0 then s
  else { s with pmemSamplePeriod := s.pmemSamplePeriodNext, pmemSamplePeriodNext := 0 }

/-- `begin_interval_unit`. -/
def beginIntervalUnit (s : PmuSampling ρ σ) : PmuSampling ρ σ :=
  { s with pmemSamplesUnitBegin := s.sampler.stats.samples }

variable (config : SamplingConfig)

/-- `pmem_samples_enough`. -/
def pmemSamplesEnough (s : PmuSampling ρ σ) : Prop :=
  (s.sampler.stats.samples : ℤ) ≥ config.expectedSamples - s.pmemExpectedSamplesMargin

instance (s : PmuSampling ρ σ) : Decidable (s.pmemSamplesEnough config) :=
  inferInstanceAs (Decidable (_ ≥ _))

/-- `adjust_sample_period_prepare`; none where it divides by zero. -/
def adjustSamplePeriodPrepare (s : PmuSampling ρ σ) : Option (PmuSampling ρ σ × Bool) :=
  let samples : ℤ := s.sampler.stats.samples - s.pmemSamplesUnitBegin
  if samples > config.expectedSamples + s.pmemExpectedSamplesMargin ∨
      samples < config.expectedSamples - s.pmemExpectedSamplesMargin ∧
        s.pmemSamplePeriod > config.samplePeriodMin then
    if config.expectedSamples = 0 then none
    else
      let newPeriod := intOfLong ((samples * s.pmemSamplePeriod).tdiv config.expectedSamples)
      some ({ s with
        pmemSamplePeriodNext :=
          if newPeriod < config.samplePeriodMin then config.samplePeriodMin else newPeriod }, true)
  else some (s, false)

variable (perf : PerfRings ρ ι) (processor : UInt64 × Int32 → σ → Option (σ × Bool)) (fuel : ℕ)
variable (cpus : List (List ℤ))

/-- One unit in `main`; the flag says that the loop over the units ends there. -/
def measureUnit (unit : MeasureUnit) (s : PmuSampling ρ σ) : Option (PmuSampling ρ σ × Bool) :=
  let s := s.beginIntervalUnit
  (readPmemSamples perf processor fuel cpus unit.rounds unit.drained s.sampler).bind fun r =>
    (adjustSamplePeriodPrepare config { s with sampler := r.1 }).map fun p => (p.1, p.2 || r.2)

/-- The loop over the units in `main`, from unit `i` on; the list of the units ends
where the process is interrupted. -/
def measureUnits : ℕ → List MeasureUnit → PmuSampling ρ σ → Option (PmuSampling ρ σ)
  | _, [], s => some s
  | i, unit :: units, s =>
      if s.pmemSamplesEnough config ∨ config.intervalMax ≤ i then some s
      else
        (measureUnit config perf processor fuel cpus unit s).bind fun r =>
          if r.2 then some r.1 else measureUnits (i + 1) units r.1

end PmuSampling

/-! ### What the units read -/

namespace PmuSampling

section Units

variable {ρ ι σ : Type*} {config : SamplingConfig} {s t : PmuSampling ρ σ} {stop : Bool}

/-- `adjust_sample_period_prepare` sets the next period only. -/
theorem adjustSamplePeriodPrepare_cases (h : s.adjustSamplePeriodPrepare config = some (t, stop)) :
    ∃ next, t = { s with pmemSamplePeriodNext := next } := by
  unfold adjustSamplePeriodPrepare at h
  dsimp only at h
  split at h
  · split at h
    · cases h
    · cases h
      exact ⟨_, rfl⟩
  · cases h
    exact ⟨_, rfl⟩

/-- It does not divide by zero where samples are expected. -/
theorem adjustSamplePeriodPrepare_isSome (hpos : 0 < config.expectedSamples) :
    ∃ t stop, s.adjustSamplePeriodPrepare config = some (t, stop) := by
  unfold adjustSamplePeriodPrepare
  dsimp only
  split
  · rw [if_neg hpos.ne']
    exact ⟨_, _, rfl⟩
  · exact ⟨_, _, rfl⟩

variable {perf : PerfRings ρ ι} {unread : ρ → List (Option PerfRecord)}
variable {ahead : ι → List (Option PerfRecord)} {Q : Option PerfRecord → Prop}
variable {processor : UInt64 × Int32 → σ → Option (σ × Bool)} {fuel : ℕ} {cpus : List (List ℤ)}

/-- A sample that fills ends the loop with its unit. -/
theorem measureUnit_reads (hlaws : perf.Lawful unread ahead) {unit : MeasureUnit}
    (hlogs : unit.Logs Q)
    (h : measureUnit config perf processor fuel cpus unit s = some (t, stop)) :
    ∃ full, (∃ l, Reads unread Q processor l s.sampler t.sampler full) ∧
      t.pmemExpectedSamplesMargin = s.pmemExpectedSamplesMargin ∧
      (full = false → Emptied unread cpus t.sampler) ∧ (full = true → stop = true) := by
  obtain ⟨⟨sampler, full⟩, hread, hprepare⟩ := Option.bind_eq_some_iff.mp h
  obtain ⟨⟨t', stop'⟩, hadjust, heq⟩ := Option.map_eq_some_iff.mp hprepare
  cases heq
  obtain ⟨next, rfl⟩ := adjustSamplePeriodPrepare_cases hadjust
  obtain ⟨hreads, hemptied⟩ := readPmemSamples_reads hlaws hlogs hread
  refine ⟨full, hreads, rfl, hemptied, fun hfull => ?_⟩
  show (stop' || full) = true
  rw [hfull, Bool.or_true]

/-- The units of an interval read; if there is any and nothing fills, to the end of all open
rings. -/
theorem measureUnits_reads (hlaws : perf.Lawful unread ahead) {units : List MeasureUnit} {i : ℕ}
    (hlogs : ∀ unit ∈ units, unit.Logs Q)
    (h : measureUnits config perf processor fuel cpus i units s = some t) :
    ∃ full, (∃ l, Reads unread Q processor l s.sampler t.sampler full) ∧
      t.pmemExpectedSamplesMargin = s.pmemExpectedSamplesMargin ∧
      (full = false →
        Emptied unread cpus s.sampler ∨
          units ≠ [] ∧ ¬(s.pmemSamplesEnough config ∨ config.intervalMax ≤ i) →
        Emptied unread cpus t.sampler) := by
  induction units generalizing i s with
  | nil =>
      cases h
      exact ⟨false, ⟨[], .refl _⟩, rfl, fun _ hempty => hempty.resolve_right fun h => h.1 rfl⟩
  | cons unit units ih =>
      rw [measureUnits] at h
      split at h
      · next hends =>
        cases h
        exact ⟨false, ⟨[], .refl _⟩, rfl, fun _ hempty => hempty.resolve_right fun h => h.2 hends⟩
      · obtain ⟨⟨s', stop'⟩, hunit, hrest⟩ := Option.bind_eq_some_iff.mp h
        obtain ⟨full, ⟨l, hl⟩, hmargin, hemptied, hends⟩ :=
          measureUnit_reads hlaws (hlogs unit List.mem_cons_self) hunit
        cases stop' with
        | true =>
            cases hrest
            exact ⟨full, ⟨l, hl⟩, hmargin, fun hfull _ => hemptied hfull⟩
        | false =>
            obtain rfl : full = false := by
              by_contra hfull
              exact Bool.false_ne_true (hends (Bool.not_eq_false _ ▸ hfull))
            obtain ⟨full', ⟨l', hl'⟩, hmargin', hemptied'⟩ :=
              ih (fun unit hunit => hlogs unit (List.mem_cons_of_mem _ hunit)) hrest
            exact ⟨full', ⟨l ++ l', hl.trans hl'⟩, hmargin'.trans hmargin,
              fun hfull _ => hemptied' hfull (.inl (hemptied rfl))⟩

/-! ### A larger bound -/

theorem readRecords_mono {pfd : ℤ} {fuel' : ℕ} (hle : fuel ≤ fuel') {iter : ι} {s : Sampler ρ σ}
    {r : ι × Sampler ρ σ × Bool} (h : readRecords perf processor pfd fuel iter s = some r) :
    readRecords perf processor pfd fuel' iter s = some r := by
  induction fuel generalizing fuel' iter s with
  | zero => cases h
  | succ fuel ih =>
      obtain ⟨fuel', rfl⟩ := Nat.exists_eq_add_of_le' (Nat.one_le_of_lt hle)
      rw [readRecords] at h ⊢
      by_cases hfinished : perf.perfIterFinished iter = true
      · rwa [if_pos hfinished] at h ⊢
      · rw [if_neg hfinished] at h ⊢
        obtain ⟨q, hstep, hrest⟩ := Option.bind_eq_some_iff.mp h
        refine Option.bind_eq_some_iff.mpr ⟨q, hstep, ?_⟩
        split at hrest
        · next hstop => rwa [if_pos hstop]
        · next hstop =>
          rw [if_neg hstop]
          exact ih (Nat.le_of_succ_le_succ hle) hrest

theorem cpus_mono {fuel' : ℕ} (hle : fuel ≤ fuel') {fdSet : Option (ℤ → Bool)}
    {s t : Sampler ρ σ} {stop : Bool}
    (h : untilStop (PmuCpu.readPmemSamples perf processor fuel fdSet) cpus s = some (t, stop)) :
    untilStop (PmuCpu.readPmemSamples perf processor fuel' fdSet) cpus s = some (t, stop) := by
  refine untilStop_mono (fun pmemFds s r h => untilStop_mono (fun pfd s r h => ?_) h) h
  split at h
  · next hopen =>
    rw [if_pos hopen]
    obtain ⟨q, hloop, rfl⟩ := Option.map_eq_some_iff.mp h
    exact Option.map_eq_some_iff.mpr ⟨q, readRecords_mono hle hloop, rfl⟩
  · next hopen => rwa [if_neg hopen]

theorem measureUnit_mono {fuel' : ℕ} (hle : fuel ≤ fuel') {unit : MeasureUnit}
    {r : PmuSampling ρ σ × Bool}
    (h : measureUnit config perf processor fuel cpus unit s = some r) :
    measureUnit config perf processor fuel' cpus unit s = some r := by
  obtain ⟨q, hread, hadjust⟩ := Option.bind_eq_some_iff.mp h
  refine Option.bind_eq_some_iff.mpr ⟨q, ?_, hadjust⟩
  obtain ⟨r, hrounds, hdrain⟩ := Option.bind_eq_some_iff.mp hread
  refine Option.bind_eq_some_iff.mpr
    ⟨r, untilStop_mono (fun round s r h => cpus_mono hle h) hrounds, ?_⟩
  split at hdrain
  · next hstop => rwa [if_pos hstop]
  · next hstop =>
    rw [if_neg hstop]
    exact cpus_mono hle hdrain

/-- The bound decides whether there is a result, not which. -/
theorem measureUnits_mono {fuel' : ℕ} (hle : fuel ≤ fuel') {units : List MeasureUnit} {i : ℕ}
    (h : measureUnits config perf processor fuel cpus i units s = some t) :
    measureUnits config perf processor fuel' cpus i units s = some t := by
  induction units generalizing i s with
  | nil => exact h
  | cons unit units ih =>
      rw [measureUnits] at h ⊢
      by_cases hends : s.pmemSamplesEnough config ∨ config.intervalMax ≤ i
      · rwa [if_pos hends] at h ⊢
      · rw [if_neg hends] at h ⊢
        obtain ⟨r, hunit, hrest⟩ := Option.bind_eq_some_iff.mp h
        refine Option.bind_eq_some_iff.mpr ⟨r, measureUnit_mono hle hunit, ?_⟩
        split at hrest
        · next hstop => rwa [if_pos hstop]
        · next hstop =>
          rw [if_neg hstop]
          exact ih hrest

/-! ### The loops end -/

/-- The processor takes every sample of a record in `Q` while `J` holds of its state, and
`J` goes on to hold unless it is full. -/
def Takes (processor : UInt64 × Int32 → σ → Option (σ × Bool)) (Q : Option PerfRecord → Prop)
    (J : σ → Prop) : Prop :=
  ∀ record sample, Q record → record.bind PerfRecord.sampled = some sample →
    ∀ s, J s → ∃ t stop, processor sample s = some (t, stop) ∧ (stop = false → J t)

/-- The processor takes what is in the rings. -/
structure Going (unread : ρ → List (Option PerfRecord)) (Q : Option PerfRecord → Prop)
    (J : σ → Prop) (s : Sampler ρ σ) : Prop where
  state : J s.state
  rings : ∀ pfd, ∀ record ∈ unread (s.rings pfd), Q record

section Ends

variable {J : σ → Prop}

theorem readRecord_isSome (htakes : Takes processor Q J) (pfd : ℤ) {record : Option PerfRecord}
    (hrecord : Q record) {s : Sampler ρ σ} (hs : J s.state) :
    ∃ t stop, readRecord processor pfd record s = some (t, stop) ∧ (stop = false → J t.state) := by
  unfold readRecord
  dsimp only
  split
  · exact ⟨_, _, rfl, fun _ => hs⟩
  · next sample hsample =>
    obtain ⟨t, stop, ht, hJ⟩ := htakes record sample hrecord hsample s.state hs
    rw [ht]
    exact ⟨_, _, rfl, hJ⟩

/-- A bound above the number of the records ahead is large enough. -/
theorem readRecords_isSome (hlaws : perf.Lawful unread ahead) (htakes : Takes processor Q J)
    (pfd : ℤ) {records : List (Option PerfRecord)} {iter : ι} {s : Sampler ρ σ}
    (hahead : ahead iter = records) (hrecords : ∀ record ∈ records, Q record) (hs : J s.state) :
    ∃ iter' t stop, (∀ fuel, records.length < fuel →
      readRecords perf processor pfd fuel iter s = some (iter', t, stop)) ∧
        (stop = false → J t.state) := by
  induction records generalizing iter s with
  | nil =>
      refine ⟨iter, s, false, fun fuel hfuel => ?_, fun _ => hs⟩
      obtain ⟨fuel, rfl⟩ := Nat.exists_eq_succ_of_ne_zero hfuel.ne'
      rw [readRecords, if_pos ((hlaws.finished iter).mpr hahead)]
  | cons record records ih =>
      have hgoes : ¬perf.perfIterFinished iter = true := by
        rw [hlaws.finished, hahead]
        exact List.cons_ne_nil record records
      obtain ⟨hrecord, hrest⟩ := hlaws.read iter record records hahead
      obtain ⟨t, stop, ht, hJ⟩ :=
        readRecord_isSome htakes pfd (hrecords record List.mem_cons_self) hs
      cases stop with
      | true =>
          refine ⟨(perf.perfBufferRead iter).1, t, true, fun fuel hfuel => ?_, fun h => by cases h⟩
          obtain ⟨fuel, rfl⟩ := Nat.exists_eq_succ_of_ne_zero (Nat.ne_zero_of_lt hfuel)
          rw [readRecords, if_neg hgoes]
          dsimp only
          rw [hrecord, ht]
          rfl
      | false =>
          obtain ⟨iter', u, stop, hloop, hend⟩ :=
            ih hrest (fun record h => hrecords record (List.mem_cons_of_mem _ h)) (hJ rfl)
          refine ⟨iter', u, stop, fun fuel hfuel => ?_, hend⟩
          obtain ⟨fuel, rfl⟩ := Nat.exists_eq_succ_of_ne_zero (Nat.ne_zero_of_lt hfuel)
          rw [readRecords, if_neg hgoes]
          dsimp only
          rw [hrecord, ht]
          exact hloop fuel (Nat.lt_of_succ_lt_succ hfuel)

theorem readPmemSamplesFd_eventually (hlaws : perf.Lawful unread ahead)
    (htakes : Takes processor Q J) (pfd : ℤ) {s : Sampler ρ σ} (hs : Going unread Q J s) :
    ∃ t stop, (∀ᶠ fuel in Filter.atTop, readPmemSamplesFd perf processor fuel pfd s =
      some (t, stop)) ∧ (stop = false → Going unread Q J t) := by
  obtain ⟨iter, t, stop, hloop, hJ⟩ :=
    readRecords_isSome hlaws htakes pfd (hlaws.init (s.rings pfd)) (hs.rings pfd) hs.state
  have hread : ∀ fuel > (unread (s.rings pfd)).length, readPmemSamplesFd perf processor fuel pfd s =
      some ({ t with rings := Function.update t.rings pfd (perf.perfIterContinue iter) },
        stop) := by
    intro fuel hfuel
    rw [readPmemSamplesFd, hloop fuel hfuel]
    rfl
  obtain ⟨⟨l, hreads⟩, -, -⟩ :=
    readPmemSamplesFd_reads (Q := Q) hlaws (hread _ (Nat.lt_succ_self _))
  exact ⟨_, stop, (Filter.eventually_gt_atTop _).mono hread,
    fun hstop => ⟨hJ hstop, (hreads.subset hs.rings).2⟩⟩

theorem cpus_eventually (hlaws : perf.Lawful unread ahead) (htakes : Takes processor Q J)
    (fdSet : Option (ℤ → Bool)) (cpus : List (List ℤ)) {s : Sampler ρ σ}
    (hs : Going unread Q J s) :
    ∃ t stop, (∀ᶠ fuel in Filter.atTop,
      untilStop (PmuCpu.readPmemSamples perf processor fuel fdSet) cpus s = some (t, stop)) ∧
        (stop = false → Going unread Q J t) := by
  refine untilStop_eventually hs fun pmemFds _ s hs => untilStop_eventually hs fun pfd _ s hs => ?_
  split
  · exact readPmemSamplesFd_eventually hlaws htakes pfd hs
  · exact ⟨s, false, .of_forall fun _ => rfl, fun _ => hs⟩

theorem Going.log (hlaws : perf.Lawful unread ahead) {logs : ℤ → List (Option PerfRecord)}
    (hlogs : ∀ pfd, ∀ record ∈ logs pfd, Q record) {s : Sampler ρ σ} (hs : Going unread Q J s) :
    Going unread Q J (s.log perf logs) := by
  have hreads : Reads unread Q (fun _ _ => none) [] s (s.log perf logs) false :=
    log_reads hlaws hlogs s
  exact ⟨hs.state, (hreads.subset hs.rings).2⟩

theorem readPmemSamples_eventually (hlaws : perf.Lawful unread ahead)
    (htakes : Takes processor Q J) (cpus : List (List ℤ)) {unit : MeasureUnit}
    (hlogs : unit.Logs Q) {s : Sampler ρ σ} (hs : Going unread Q J s) :
    ∃ t stop, (∀ᶠ fuel in Filter.atTop,
      readPmemSamples perf processor fuel cpus unit.rounds unit.drained s = some (t, stop)) ∧
        (stop = false → Going unread Q J t) := by
  obtain ⟨s₁, stop, hrounds, hgoing⟩ := untilStop_eventually
    (f := fun fuel (round : Ready) (s : Sampler ρ σ) =>
      untilStop (PmuCpu.readPmemSamples perf processor fuel (some round.set)) cpus
        (s.log perf round.logs))
    hs fun round hround s hs =>
      cpus_eventually hlaws htakes (some round.set) cpus (hs.log hlaws (hlogs.1 round hround))
  cases stop with
  | true =>
      refine ⟨s₁, true, hrounds.mono fun fuel hfuel => ?_, fun h => by cases h⟩
      rw [readPmemSamples, hfuel]
      rfl
  | false =>
      obtain ⟨t, stop, hdrain, hend⟩ :=
        cpus_eventually hlaws htakes none cpus ((hgoing rfl).log hlaws hlogs.2)
      refine ⟨t, stop, (hrounds.and hdrain).mono fun fuel hfuel => ?_, hend⟩
      rw [readPmemSamples, hfuel.1]
      exact hfuel.2

theorem measureUnit_eventually (hlaws : perf.Lawful unread ahead) (htakes : Takes processor Q J)
    (cpus : List (List ℤ)) (hpos : 0 < config.expectedSamples) {unit : MeasureUnit}
    (hlogs : unit.Logs Q) {s : PmuSampling ρ σ} (hs : Going unread Q J s.sampler) :
    ∃ t stop, (∀ᶠ fuel in Filter.atTop,
      measureUnit config perf processor fuel cpus unit s = some (t, stop)) ∧
        t.pmemExpectedSamplesMargin = s.pmemExpectedSamplesMargin ∧
        (stop = false → Going unread Q J t.sampler) := by
  obtain ⟨sampler, full, hread, hgoing⟩ := readPmemSamples_eventually hlaws htakes cpus hlogs
    (s := s.beginIntervalUnit.sampler) hs
  obtain ⟨t, stop, hadjust⟩ := adjustSamplePeriodPrepare_isSome hpos
    (s := { s.beginIntervalUnit with sampler := sampler })
  refine ⟨t, stop || full, hread.mono fun fuel hfuel => ?_, ?_⟩
  · unfold measureUnit
    dsimp only
    rw [hfuel, Option.bind_some, hadjust]
    rfl
  · obtain ⟨next, rfl⟩ := adjustSamplePeriodPrepare_cases hadjust
    exact ⟨rfl, fun hstop => hgoing (Bool.or_eq_false_iff.mp hstop).2⟩

/-- The guard of the loop keeps the division off a zero. -/
theorem measureUnits_eventually (hlaws : perf.Lawful unread ahead) (htakes : Takes processor Q J)
    (cpus : List (List ℤ)) {units : List MeasureUnit} {i : ℕ} {s : PmuSampling ρ σ}
    (hlogs : ∀ unit ∈ units, unit.Logs Q) (hs : Going unread Q J s.sampler)
    (hmargin : 0 ≤ s.pmemExpectedSamplesMargin) :
    ∃ t, ∀ᶠ fuel in Filter.atTop,
      measureUnits config perf processor fuel cpus i units s = some t := by
  induction units generalizing i s with
  | nil => exact ⟨s, .of_forall fun _ => rfl⟩
  | cons unit units ih =>
      by_cases hends : s.pmemSamplesEnough config ∨ config.intervalMax ≤ i
      · refine ⟨s, .of_forall fun fuel => ?_⟩
        rw [measureUnits, if_pos hends]
      · have hpos : 0 < config.expectedSamples := by
          have hfew : ¬s.pmemSamplesEnough config := fun h => hends (.inl h)
          unfold pmemSamplesEnough at hfew
          omega
        obtain ⟨s', stop, hunit, hmargin', hgoing⟩ := measureUnit_eventually hlaws htakes cpus hpos
          (hlogs unit List.mem_cons_self) hs
        cases stop with
        | true =>
            refine ⟨s', hunit.mono fun fuel hfuel => ?_⟩
            rw [measureUnits, if_neg hends, hfuel]
            rfl
        | false =>
            obtain ⟨t, ht⟩ := ih (i := i + 1)
              (fun unit hunit => hlogs unit (List.mem_cons_of_mem _ hunit)) (hgoing rfl)
              (hmargin'.symm ▸ hmargin)
            refine ⟨t, (hunit.and ht).mono fun fuel hfuel => ?_⟩
            rw [measureUnits, if_neg hends, hfuel.1]
            exact hfuel.2

end Ends

end Units

end PmuSampling

end PmuRefs

end MemoryOptimizer
