import MemoryOptimizer.Lib.UntilStop
import MemoryOptimizer.Lib.Words
import Mathlib.Data.List.Induction
import Mathlib.Logic.Function.Basic

/-!
# Reading the rings

`pmu.cc`: the ring buffers of the sampling events, one per open descriptor, which the
kernel writes and `read_pmem_samples_fd` reads, and the loops above it over the
descriptors of a CPU, the CPUs and the rounds of `select`.  Every loop ends at the sample
for which the processor says that it is full.

* The iterators over a ring are those of jevents, which the sources only refer to: a
  parameter (`PerfRings`), with what is documented of it (`PerfRings.Lawful`).
* The loop over the records of a ring has a bound on its passes; none stands for one that
  was too small, or for a processor that fails.
* The model keeps the lists of the records logged so far (`logged`) and of those read
  (`read`).
* A `select` that fails ends the loop over the rounds as the clock does.

`Reads` is what any of the loops does to the state: `readPmemSamples_reads`.
-/

namespace MemoryOptimizer

namespace PmuRefs

/-! ### Records -/

/-- The types of records that the reader tells apart. -/
inductive RecordType where
  | sample
  | throttle
  | lost
  | other
  deriving DecidableEq, Repr

/-- A record: its header, and the words behind it. -/
structure PerfRecord where
  type : RecordType
  size : ℕ
  payload : List UInt64
  deriving DecidableEq, Repr

/-- `struct sample_stats`, without the largest count of a CPU. -/
structure SampleStats where
  samples : ℕ
  others : ℕ
  throttled : ℕ
  skipped : ℕ
  lost : ℕ
  deriving DecidableEq, Repr

/-- The statistics after `memset`. -/
def SampleStats.zero : SampleStats := ⟨0, 0, 0, 0, 0⟩

/-- What one pass of the loop counts; null is a record that `perf_buffer_read` could
not read. -/
def SampleStats.count (st : SampleStats) : Option PerfRecord → SampleStats
  | none => { st with skipped := st.skipped + 1 }
  | some record =>
      match record.type with
      | .sample => { st with samples := st.samples + 1 }
      | .throttle => { st with throttled := st.throttled + 1 }
      | .lost => { st with lost := ulong (st.lost + (record.payload.getD 1 0).toNat) }
      | .other => { st with others := st.others + 1 }

/-- `sample_size`. -/
def sampleSize : ℕ := 24

/-- The address and the pid of a sample, unless it is thrown away: it has another
size, the address is negative or null, or the pid is null. -/
def PerfRecord.sampled (record : PerfRecord) : Option (UInt64 × Int32) :=
  if record.type ≠ .sample ∨ record.size ≠ sampleSize then none
  else
    let pid := record.payload.getD 0 0
    let val := record.payload.getD 1 0
    if val.toInt64 ≤ 0 then none
    else
      let pid := pid &&& 0xffffffff
      if pid = 0 then none else some (val, pid.toUInt32.toInt32)

theorem ofNat_ulongOfInt (pid : Int32) : Int32.ofNat (ulongOfInt pid) = pid := by
  unfold ulongOfInt
  refine Int32.toInt_inj.mp ?_
  have hle := pid.le_toInt
  have hlt := pid.toInt_lt
  rw [Int32.toInt_ofNat', Int.bmod_def, Int32.size]
  omega

/-- An address that is positive as a signed number. -/
theorem toNat_lt_of_pos {val : UInt64} (h : ¬val.toInt64 ≤ 0) : val.toNat < 2 ^ 63 := by
  have hlt := val.toNat_lt
  rw [Int64.le_iff_toInt_le, show (0 : Int64).toInt = 0 from rfl, not_le, ← Int64.toInt_toBitVec,
    UInt64.toBitVec_toInt64, BitVec.toInt_eq_toNat_cond] at h
  split at h
  · next hsmall =>
    rw [UInt64.toNat_toBitVec] at hsmall
    omega
  · rw [UInt64.toNat_toBitVec] at h
    omega

/-- The lower half of a word that is not null. -/
theorem ulongOfInt_low_ne_zero {word : UInt64} (h : ¬word &&& 0xffffffff = 0) :
    ulongOfInt (word &&& 0xffffffff).toUInt32.toInt32 ≠ 0 := by
  intro hzero
  have hint : (word &&& 0xffffffff).toUInt32.toInt32 = 0 := by
    rw [← ofNat_ulongOfInt (word &&& 0xffffffff).toUInt32.toInt32, hzero]
    rfl
  have hnat := congrArg (fun pid : Int32 => pid.toUInt32.toNat) hint
  simp only [UInt32.toUInt32_toInt32, UInt64.toNat_toUInt32] at hnat
  have hle : (word &&& 0xffffffff).toNat ≤ 0xffffffff := by
    rw [UInt64.toNat_and]
    exact Nat.and_le_right
  rw [Nat.mod_eq_of_lt (by omega)] at hnat
  exact h (UInt64.toNat_inj.mp hnat)

/-- A sample that is not thrown away. -/
theorem sampled_spec {record : PerfRecord} {sample : UInt64 × Int32}
    (h : record.sampled = some sample) : sample.1.toNat < 2 ^ 63 ∧ ulongOfInt sample.2 ≠ 0 := by
  unfold PerfRecord.sampled at h
  split at h
  · cases h
  · dsimp only at h
    split at h
    · cases h
    · next hval =>
      split at h
      · cases h
      · next hpid =>
        cases h
        exact ⟨toNat_lt_of_pos hval, ulongOfInt_low_ne_zero hpid⟩

/-! ### Rings -/

/-- The ring buffers: `ρ` is a ring with the pages that the kernel and the process share,
`ι` an iterator of `perf-iter.h`.  A record that `perf_buffer_read` cannot hand out is
null.  `log` is the kernel, which says for which records there was room. -/
structure PerfRings (ρ ι : Type*) where
  opened : ρ
  perfIterInit : ρ → ι
  perfIterFinished : ι → Bool
  perfBufferRead : ι → ι × Option PerfRecord
  perfIterContinue : ι → ρ
  log : ρ → List (Option PerfRecord) → ρ × List (Option PerfRecord)

/-- What is documented of them, with the records of a ring that are not yet read, and those
in front of an iterator.  An iterator goes over what was in the ring when it was made, and
one that is given back leaves at most what it has not gone over. -/
structure PerfRings.Lawful {ρ ι : Type*} (perf : PerfRings ρ ι)
    (unread : ρ → List (Option PerfRecord)) (ahead : ι → List (Option PerfRecord)) : Prop where
  opened : unread perf.opened = []
  init : ∀ ring, ahead (perf.perfIterInit ring) = unread ring
  finished : ∀ iter, perf.perfIterFinished iter = true ↔ ahead iter = []
  read : ∀ iter record rest, ahead iter = record :: rest →
    (perf.perfBufferRead iter).2 = record ∧ ahead (perf.perfBufferRead iter).1 = rest
  «continue» : ∀ iter, unread (perf.perfIterContinue iter) <:+ ahead iter
  log : ∀ ring records,
    unread (perf.log ring records).1 = unread ring ++ (perf.log ring records).2
  logSublist : ∀ ring records, (perf.log ring records).2.Sublist records

/-! ### The loops -/

/-- What the reader works on: the rings, the statistics, the state of the processor, and
the records logged to each ring and read so far. -/
structure Sampler (ρ σ : Type*) where
  rings : ℤ → ρ
  logged : ℤ → List (Option PerfRecord)
  stats : SampleStats
  state : σ
  read : List (ℤ × Option PerfRecord)

/-- A round of `select`: the descriptors it reports, and what was logged to each ring until
it is read. -/
structure Ready where
  set : ℤ → Bool
  logs : ℤ → List (Option PerfRecord)

/-- One unit: its rounds, and what was logged until the events are disabled. -/
structure MeasureUnit where
  rounds : List Ready
  drained : ℤ → List (Option PerfRecord)

/-- All that the kernel logs in the unit is in `Q`. -/
def MeasureUnit.Logs (Q : Option PerfRecord → Prop) (unit : MeasureUnit) : Prop :=
  (∀ round ∈ unit.rounds, ∀ pfd, ∀ record ∈ round.logs pfd, Q record) ∧
    ∀ pfd, ∀ record ∈ unit.drained pfd, Q record

section Loops

variable {ρ ι σ : Type*} (perf : PerfRings ρ ι)

/-- The kernel logs. -/
def Sampler.log (logs : ℤ → List (Option PerfRecord)) (s : Sampler ρ σ) : Sampler ρ σ :=
  { s with
    rings := fun pfd => (perf.log (s.rings pfd) (logs pfd)).1
    logged := fun pfd => s.logged pfd ++ (perf.log (s.rings pfd) (logs pfd)).2 }

variable (processor : UInt64 × Int32 → σ → Option (σ × Bool))

/-- What a pass of the loop in `read_pmem_samples_fd` does with its record. -/
def readRecord (pfd : ℤ) (record : Option PerfRecord) (s : Sampler ρ σ) :
    Option (Sampler ρ σ × Bool) :=
  let s := { s with stats := s.stats.count record, read := s.read ++ [(pfd, record)] }
  match record.bind PerfRecord.sampled with
  | none => some (s, false)
  | some sample => (processor sample s.state).map fun r => ({ s with state := r.1 }, r.2)

/-- The loop, with a bound on its passes, up to the last record or to the sample that
fills. -/
def readRecords (pfd : ℤ) : ℕ → ι → Sampler ρ σ → Option (ι × Sampler ρ σ × Bool)
  | 0, _, _ => none
  | fuel + 1, iter, s =>
      if perf.perfIterFinished iter then some (iter, s, false)
      else
        let r := perf.perfBufferRead iter
        (readRecord processor pfd r.2 s).bind fun q =>
          if q.2 then some (r.1, q.1, true) else readRecords pfd fuel r.1 q.1

variable (fuel : ℕ)

/-- `PmuCpu::read_pmem_samples_fd`. -/
def readPmemSamplesFd (pfd : ℤ) (s : Sampler ρ σ) : Option (Sampler ρ σ × Bool) :=
  (readRecords perf processor pfd fuel (perf.perfIterInit (s.rings pfd)) s).map fun r =>
    ({ r.2.1 with rings := Function.update r.2.1.rings pfd (perf.perfIterContinue r.1) }, r.2.2)

/-- `PmuCpu::read_pmem_samples`, with the `pfd` of the descriptors of the CPU. -/
def PmuCpu.readPmemSamples (fdSet : Option (ℤ → Bool)) (pmemFds : List ℤ) (s : Sampler ρ σ) :
    Option (Sampler ρ σ × Bool) :=
  untilStop (fun pfd s =>
    if pfd > -1 ∧ (fdSet.all fun set => set pfd) then
      readPmemSamplesFd perf processor fuel pfd s
    else some (s, false)) pmemFds s

/-- `PmuState::read_pmem_samples`: the rounds until the clock ends them, and then what
is left in the rings, unless a sample has filled. -/
def readPmemSamples (cpus : List (List ℤ)) (rounds : List Ready)
    (drained : ℤ → List (Option PerfRecord)) (s : Sampler ρ σ) : Option (Sampler ρ σ × Bool) :=
  (untilStop (fun round s =>
    untilStop (PmuCpu.readPmemSamples perf processor fuel (some round.set)) cpus
      (s.log perf round.logs)) rounds s).bind fun r =>
    if r.2 then some r
    else untilStop (PmuCpu.readPmemSamples perf processor fuel none) cpus (r.1.log perf drained)

end Loops

/-! ### What the loops read -/

/-- The samples among the records of a list, without those thrown away. -/
def sampledOf (l : List (ℤ × Option PerfRecord)) : List (UInt64 × Int32) :=
  l.filterMap fun r => r.2.bind PerfRecord.sampled

/-- The records of one descriptor. -/
def recordsOf (pfd : ℤ) (l : List (ℤ × Option PerfRecord)) : List (Option PerfRecord) :=
  (l.filter fun r => r.1 = pfd).map Prod.snd

/-- The statistics after the records of a list. -/
def statsOf (st : SampleStats) (l : List (ℤ × Option PerfRecord)) : SampleStats :=
  l.foldl (fun st r => st.count r.2) st

/-- A record of a type. -/
def ofType (type : RecordType) (r : ℤ × Option PerfRecord) : Bool :=
  r.2.any fun record => record.type = type

/-- What a record says is lost. -/
def lostBy (r : ℤ × Option PerfRecord) : ℕ :=
  if ofType .lost r then (r.2.elim 0 fun record => (record.payload.getD 1 0).toNat) else 0

/-- Every record is in exactly one of the statistics. -/
theorem statsOf_zero (l : List (ℤ × Option PerfRecord)) :
    statsOf .zero l =
      { samples := l.countP (ofType .sample)
        others := l.countP (ofType .other)
        throttled := l.countP (ofType .throttle)
        skipped := l.countP fun r => r.2.isNone
        lost := ulong (l.map lostBy).sum } := by
  induction l using List.reverseRecOn with
  | nil => rfl
  | append_singleton l r ih =>
      have hstep : statsOf .zero (l ++ [r]) = (statsOf .zero l).count r.2 := List.foldl_concat ..
      rw [hstep, ih, List.map_append, List.sum_append]
      simp only [List.countP_append]
      cases hrecord : r.2 with
      | none => simp [SampleStats.count, ofType, lostBy, hrecord]
      | some record =>
          cases htype : record.type <;>
            simp [SampleStats.count, ofType, lostBy, hrecord, htype, ulong]

theorem sampledOf_spec {l : List (ℤ × Option PerfRecord)} {sample : UInt64 × Int32}
    (h : sample ∈ sampledOf l) : sample.1.toNat < 2 ^ 63 ∧ ulongOfInt sample.2 ≠ 0 := by
  obtain ⟨r, -, hr⟩ := List.mem_filterMap.mp h
  obtain ⟨record, -, hsampled⟩ := Option.bind_eq_some_iff.mp hr
  exact sampled_spec hsampled

theorem sampledOf_append (l l' : List (ℤ × Option PerfRecord)) :
    sampledOf (l ++ l') = sampledOf l ++ sampledOf l' :=
  List.filterMap_append

theorem recordsOf_append (pfd : ℤ) (l l' : List (ℤ × Option PerfRecord)) :
    recordsOf pfd (l ++ l') = recordsOf pfd l ++ recordsOf pfd l' := by
  unfold recordsOf
  rw [List.filter_append, List.map_append]

theorem recordsOf_map_self (pfd : ℤ) (l : List (Option PerfRecord)) :
    recordsOf pfd (l.map fun record => (pfd, record)) = l := by
  unfold recordsOf
  rw [List.filter_eq_self.mpr, List.map_map]
  · exact List.map_id l
  · intro r hr
    obtain ⟨record, -, rfl⟩ := List.mem_map.mp hr
    exact decide_eq_true rfl

theorem recordsOf_map_of_ne {pfd other : ℤ} (hne : other ≠ pfd) (l : List (Option PerfRecord)) :
    recordsOf other (l.map fun record => (pfd, record)) = [] := by
  unfold recordsOf
  rw [List.filter_eq_nil_iff.mpr, List.map_nil]
  intro r hr
  obtain ⟨record, -, rfl⟩ := List.mem_map.mp hr
  simpa using hne.symm

/-- What becomes of one ring while the records of `l` are read: what was in it and what is
logged meanwhile is read in order, given up, or still there.  Only behind a sample that
fills is anything given up, in its own ring. -/
def RingKept {ρ σ : Type*} (unread : ρ → List (Option PerfRecord)) (Q : Option PerfRecord → Prop)
    (l : List (ℤ × Option PerfRecord)) (s t : Sampler ρ σ) (full : Bool) (pfd : ℤ) : Prop :=
  ∃ logs dropped, t.logged pfd = s.logged pfd ++ logs ∧ (∀ record ∈ logs, Q record) ∧
    unread (s.rings pfd) ++ logs = recordsOf pfd l ++ dropped ++ unread (t.rings pfd) ∧
    (dropped ≠ [] → full = true ∧ ∃ l' record, l = l' ++ [(pfd, record)])

/-- Between two states of the reader the records of `l` were read: each is counted, and
every sample among them processed, up to the one that fills, which is the last record
read. -/
structure Took {ρ σ : Type*} (processor : UInt64 × Int32 → σ → Option (σ × Bool))
    (l : List (ℤ × Option PerfRecord)) (s t : Sampler ρ σ) (full : Bool) : Prop where
  read_eq : t.read = s.read ++ l
  stats_eq : t.stats = statsOf s.stats l
  fed : Fed processor (sampledOf l) s.state t.state full
  last : full = true → ∃ l' r, l = l' ++ [r] ∧ sampledOf [r] ≠ []

/-- The same with the rings that the records are from. -/
structure Reads {ρ σ : Type*} (unread : ρ → List (Option PerfRecord))
    (Q : Option PerfRecord → Prop) (processor : UInt64 × Int32 → σ → Option (σ × Bool))
    (l : List (ℤ × Option PerfRecord)) (s t : Sampler ρ σ) (full : Bool) : Prop
    extends Took processor l s t full where
  kept : ∀ pfd, RingKept unread Q l s t full pfd

section Reads

variable {ρ ι σ : Type*} {perf : PerfRings ρ ι} {unread : ρ → List (Option PerfRecord)}
variable {ahead : ι → List (Option PerfRecord)} {Q : Option PerfRecord → Prop}
variable {processor : UInt64 × Int32 → σ → Option (σ × Bool)} {fuel : ℕ}
variable {l l' : List (ℤ × Option PerfRecord)} {s t u : Sampler ρ σ} {full : Bool} {pfd : ℤ}

theorem Took.refl (s : Sampler ρ σ) : Took processor [] s s false where
  read_eq := (List.append_nil _).symm
  stats_eq := rfl
  fed := .nil s.state
  last := fun h => by cases h

theorem Took.trans (h : Took processor l s t false) (h' : Took processor l' t u full) :
    Took processor (l ++ l') s u full where
  read_eq := by rw [h'.read_eq, h.read_eq, List.append_assoc]
  stats_eq := by
    unfold statsOf
    rw [List.foldl_append]
    exact h'.stats_eq.trans (congrArg (statsOf · l') h.stats_eq)
  fed := sampledOf_append l l' ▸ h.fed.append h'.fed
  last := fun hfull => by
    obtain ⟨init, r, rfl, hr⟩ := h'.last hfull
    exact ⟨l ++ init, r, (List.append_assoc ..).symm, hr⟩

/-- While a ring is read nothing is logged to it. -/
theorem RingKept.of_quiet (dropped : List (Option PerfRecord))
    (hquiet : t.logged pfd = s.logged pfd)
    (hkept : unread (s.rings pfd) = recordsOf pfd l ++ dropped ++ unread (t.rings pfd))
    (hdropped : dropped ≠ [] → full = true ∧ ∃ l' record, l = l' ++ [(pfd, record)]) :
    RingKept unread Q l s t full pfd :=
  ⟨[], dropped, by rw [hquiet, List.append_nil], fun _ h => absurd h List.not_mem_nil,
    by rw [List.append_nil, hkept], hdropped⟩

theorem RingKept.refl (s : Sampler ρ σ) (pfd : ℤ) : RingKept unread Q [] s s false pfd :=
  .of_quiet [] rfl rfl fun h => absurd rfl h

theorem RingKept.trans (h : RingKept unread Q l s t false pfd)
    (h' : RingKept unread Q l' t u full pfd) : RingKept unread Q (l ++ l') s u full pfd := by
  obtain ⟨logs, dropped, hlogged, hQ, hkept, hdropped⟩ := h
  obtain ⟨logs', dropped', hlogged', hQ', hkept', hdropped'⟩ := h'
  obtain rfl : dropped = [] := by
    by_contra hne
    exact Bool.false_ne_true (hdropped hne).1
  refine ⟨logs ++ logs', dropped', by rw [hlogged', hlogged, List.append_assoc],
    fun record hrecord => (List.mem_append.mp hrecord).elim (hQ record) (hQ' record), ?_,
    fun hne => ?_⟩
  · rw [List.append_nil] at hkept
    rw [← List.append_assoc, hkept, List.append_assoc, hkept', recordsOf_append]
    simp only [List.append_assoc]
  · obtain ⟨hfull, init, record, rfl⟩ := hdropped' hne
    exact ⟨hfull, l ++ init, record, (List.append_assoc ..).symm⟩

theorem Reads.refl (s : Sampler ρ σ) : Reads unread Q processor [] s s false :=
  ⟨.refl s, RingKept.refl s⟩

theorem Reads.trans (h : Reads unread Q processor l s t false)
    (h' : Reads unread Q processor l' t u full) : Reads unread Q processor (l ++ l') s u full :=
  ⟨h.toTook.trans h'.toTook, fun pfd => (h.kept pfd).trans (h'.kept pfd)⟩

/-- What is read or left was there or has been logged. -/
theorem Reads.subset (h : Reads unread Q processor l s t full)
    (hs : ∀ pfd, ∀ record ∈ unread (s.rings pfd), Q record) :
    (∀ r ∈ l, Q r.2) ∧ ∀ pfd, ∀ record ∈ unread (t.rings pfd), Q record := by
  have hall : ∀ pfd record, record ∈ recordsOf pfd l ∨ record ∈ unread (t.rings pfd) →
      Q record := by
    intro pfd record hrecord
    obtain ⟨logs, dropped, -, hQ, hkept, -⟩ := h.kept pfd
    have hmem : record ∈ unread (s.rings pfd) ++ logs := by
      rw [hkept]
      rcases hrecord with hread | hleft
      · exact List.mem_append_left _ (List.mem_append_left _ hread)
      · exact List.mem_append_right _ hleft
    exact (List.mem_append.mp hmem).elim (hs pfd record) (hQ record)
  refine ⟨fun r hr => hall r.1 r.2 (.inl ?_), fun pfd record hleft => hall pfd record (.inr hleft)⟩
  exact List.mem_map.mpr ⟨r, List.mem_filter.mpr ⟨hr, decide_eq_true rfl⟩, rfl⟩

/-- A ring that is empty stays so while nothing is logged. -/
theorem Reads.stays_empty (h : Reads unread Q processor l s t full) (hquiet : t.logged = s.logged)
    (hempty : unread (s.rings pfd) = []) : unread (t.rings pfd) = [] := by
  obtain ⟨logs, dropped, hlogged, -, hkept, -⟩ := h.kept pfd
  rw [hquiet, List.self_eq_append_right] at hlogged
  rw [hlogged, hempty, List.append_nil] at hkept
  exact (List.append_eq_nil_iff.mp hkept.symm).2

/-! ### One ring -/

theorem readRecord_took {record : Option PerfRecord}
    (h : readRecord processor pfd record s = some (t, full)) :
    Took processor [(pfd, record)] s t full ∧ t.rings = s.rings ∧ t.logged = s.logged := by
  unfold readRecord at h
  dsimp only at h
  split at h
  · next hnone =>
    have hempty : sampledOf [(pfd, record)] = [] := by simp [sampledOf, hnone]
    cases h
    exact ⟨⟨rfl, rfl, hempty ▸ .nil _, fun hfull => Bool.noConfusion hfull⟩, rfl, rfl⟩
  · next sample hsome =>
    have hone : sampledOf [(pfd, record)] = [sample] := by simp [sampledOf, hsome]
    obtain ⟨r, hr, heq⟩ := Option.map_eq_some_iff.mp h
    cases heq
    exact ⟨⟨rfl, rfl, hone ▸ .single hr, fun _ => ⟨[], _, rfl, by simp [hone]⟩⟩, rfl, rfl⟩

/-- The loop goes over records from the front of those ahead, over all of them if none
fills. -/
theorem readRecords_fed (hlaws : perf.Lawful unread ahead) {iter iter' : ι}
    (h : readRecords perf processor pfd fuel iter s = some (iter', t, full)) :
    ∃ records, ahead iter = records ++ ahead iter' ∧ (full = false → ahead iter' = []) ∧
      Fed (readRecord processor pfd) records s t full := by
  induction fuel generalizing iter s with
  | zero => cases h
  | succ fuel ih =>
      rw [readRecords] at h
      split at h
      · next hfinished =>
        cases h
        exact ⟨[], rfl, fun _ => (hlaws.finished iter').mp hfinished, .nil t⟩
      · next hfinished =>
        obtain ⟨record, rest, hahead⟩ :=
          List.exists_cons_of_ne_nil (mt (hlaws.finished iter).mpr hfinished)
        obtain ⟨hrecord, hrest⟩ := hlaws.read iter record rest hahead
        obtain ⟨⟨s', stop⟩, hstep, hnext⟩ := Option.bind_eq_some_iff.mp h
        rw [hrecord] at hstep
        cases stop with
        | true =>
            cases hnext
            exact ⟨[record], by rw [hahead, hrest]; rfl, fun hfull => Bool.noConfusion hfull,
              .last hstep⟩
        | false =>
            obtain ⟨records, hsplit, hend, hfed⟩ := ih hnext
            exact ⟨record :: records, by rw [hahead, ← hrest, hsplit]; rfl, hend,
              .cons hstep hfed⟩

/-- One ring is read, to its end if nothing fills, and the others stay. -/
theorem readPmemSamplesFd_reads (hlaws : perf.Lawful unread ahead)
    (h : readPmemSamplesFd perf processor fuel pfd s = some (t, full)) :
    (∃ l, Reads unread Q processor l s t full) ∧ t.logged = s.logged ∧
      (full = false → unread (t.rings pfd) = []) := by
  obtain ⟨⟨iter, s', stop⟩, hloop, heq⟩ := Option.map_eq_some_iff.mp h
  cases heq
  obtain ⟨records, hsplit, hend, hfed⟩ := readRecords_fed hlaws hloop
  rw [hlaws.init] at hsplit
  obtain ⟨htook, hrings, hlogged⟩ := hfed.rule
    (R := fun records s t full =>
      Took processor (records.map fun record => (pfd, record)) s t full ∧ t.rings = s.rings ∧
        t.logged = s.logged)
    (fun s => ⟨.refl s, rfl, rfl⟩)
    (fun h h' => ⟨List.map_append ▸ h.1.trans h'.1, h'.2.1.trans h.2.1, h'.2.2.trans h.2.2⟩)
    fun record s t full hstep => readRecord_took hstep
  obtain ⟨dropped, hdropped⟩ := hlaws.continue iter
  have hread : Function.update s'.rings pfd (perf.perfIterContinue iter) pfd =
      perf.perfIterContinue iter := Function.update_self ..
  refine ⟨⟨records.map fun record => (pfd, record),
    ⟨htook.read_eq, htook.stats_eq, htook.fed, htook.last⟩, fun other => ?_⟩, hlogged, ?_⟩
  · by_cases hother : other = pfd
    · subst hother
      refine .of_quiet dropped (congrFun hlogged other) ?_ fun hne => ?_
      · show unread (s.rings other) = recordsOf other _ ++ dropped ++
          unread (Function.update s'.rings other (perf.perfIterContinue iter) other)
        rw [hread, List.append_assoc, hdropped, recordsOf_map_self, hsplit]
      · -- the iterator was not at its end
        have hfull : stop = true := by
          by_contra hstop
          rw [hend (Bool.eq_false_iff.mpr hstop)] at hdropped
          exact hne (List.append_eq_nil_iff.mp hdropped).1
        obtain ⟨l', r, hl, -⟩ := htook.last hfull
        have hr : r ∈ records.map fun record => (other, record) := by
          rw [hl]
          exact List.mem_append_right _ (List.mem_singleton_self r)
        obtain ⟨record, -, rfl⟩ := List.mem_map.mp hr
        exact ⟨hfull, l', record, hl⟩
    · refine .of_quiet [] (congrFun hlogged other) ?_ fun h => absurd rfl h
      show unread (s.rings other) = recordsOf other _ ++ [] ++
        unread (Function.update s'.rings pfd (perf.perfIterContinue iter) other)
      rw [Function.update_of_ne hother, hrings, recordsOf_map_of_ne hother, List.append_nil,
        List.nil_append]
  · intro hfull
    show unread (Function.update s'.rings pfd (perf.perfIterContinue iter) pfd) = []
    rw [hread]
    rw [hend hfull] at hdropped
    exact (List.append_eq_nil_iff.mp hdropped).2

/-- The kernel logs. -/
theorem log_reads (hlaws : perf.Lawful unread ahead) {logs : ℤ → List (Option PerfRecord)}
    (hlogs : ∀ pfd, ∀ record ∈ logs pfd, Q record) (s : Sampler ρ σ) :
    Reads unread Q processor [] s (s.log perf logs) false := by
  have hrefl : Took processor [] s s false := .refl s
  refine ⟨⟨hrefl.read_eq, rfl, hrefl.fed, hrefl.last⟩, fun pfd =>
    ⟨(perf.log (s.rings pfd) (logs pfd)).2, [], rfl, fun record hrecord => ?_, ?_,
      fun h => absurd rfl h⟩⟩
  · exact hlogs pfd record ((hlaws.logSublist _ _).subset hrecord)
  · exact (hlaws.log (s.rings pfd) (logs pfd)).symm

/-! ### The descriptors, the CPUs and the rounds -/

/-- All open rings of the CPUs are read to their ends. -/
def Emptied (unread : ρ → List (Option PerfRecord)) (cpus : List (List ℤ)) (s : Sampler ρ σ) :
    Prop :=
  ∀ pmemFds ∈ cpus, ∀ pfd ∈ pmemFds, pfd > -1 → unread (s.rings pfd) = []

/-- A loop whose passes read, and during which nothing is logged. -/
theorem untilStop_reads {α : Type*} {f : α → Sampler ρ σ → Option (Sampler ρ σ × Bool)}
    {as : List α}
    (hstep : ∀ a s t full, f a s = some (t, full) →
      (∃ l, Reads unread Q processor l s t full) ∧ t.logged = s.logged)
    (h : untilStop f as s = some (t, full)) :
    (∃ l, Reads unread Q processor l s t full) ∧ t.logged = s.logged :=
  untilStop_rule
    (R := fun s t full => (∃ l, Reads unread Q processor l s t full) ∧ t.logged = s.logged)
    (fun s => ⟨⟨[], .refl s⟩, rfl⟩)
    (fun ⟨⟨l, hl⟩, hquiet⟩ ⟨⟨l', hl'⟩, hquiet'⟩ => ⟨⟨l ++ l', hl.trans hl'⟩, hquiet'.trans hquiet⟩)
    (fun a _ => hstep a) h

/-- One descriptor of a CPU. -/
theorem readOpen_reads (hlaws : perf.Lawful unread ahead) {fdSet : Option (ℤ → Bool)}
    (h : (if pfd > -1 ∧ (fdSet.all fun set => set pfd) then
      readPmemSamplesFd perf processor fuel pfd s else some (s, false)) = some (t, full)) :
    (∃ l, Reads unread Q processor l s t full) ∧ t.logged = s.logged := by
  split at h
  · obtain ⟨hreads, hquiet, -⟩ := readPmemSamplesFd_reads hlaws h
    exact ⟨hreads, hquiet⟩
  · cases h
    exact ⟨⟨[], .refl s⟩, rfl⟩

theorem PmuCpu.readPmemSamples_reads (hlaws : perf.Lawful unread ahead)
    {fdSet : Option (ℤ → Bool)} {pmemFds : List ℤ}
    (h : PmuCpu.readPmemSamples perf processor fuel fdSet pmemFds s = some (t, full)) :
    (∃ l, Reads unread Q processor l s t full) ∧ t.logged = s.logged :=
  untilStop_reads (fun _ _ _ _ => readOpen_reads hlaws) h

/-- A CPU whose descriptors are all read, and on which nothing fills. -/
theorem PmuCpu.readPmemSamples_empties (hlaws : perf.Lawful unread ahead) {pmemFds : List ℤ}
    (h : PmuCpu.readPmemSamples perf processor fuel none pmemFds s = some (t, false)) :
    ∀ pfd ∈ pmemFds, pfd > -1 → unread (t.rings pfd) = [] := by
  refine untilStop_visits (Q := fun pfd (t : Sampler ρ σ) => pfd > -1 → unread (t.rings pfd) = [])
    (fun pfd _ s t hstep hopen => ?_) (fun pfd other s t hstep hempty hopen => ?_) h
  · rw [if_pos ⟨hopen, rfl⟩] at hstep
    exact (readPmemSamplesFd_reads (Q := fun _ => True) hlaws hstep).2.2 rfl
  · obtain ⟨⟨l, hreads⟩, hquiet⟩ := readOpen_reads (Q := fun _ => True) hlaws hstep
    exact hreads.stays_empty hquiet (hempty hopen)

/-- A unit reads; if nothing fills, to the end of all open rings. -/
theorem readPmemSamples_reads (hlaws : perf.Lawful unread ahead) {cpus : List (List ℤ)}
    {unit : MeasureUnit} (hlogs : unit.Logs Q)
    (h : readPmemSamples perf processor fuel cpus unit.rounds unit.drained s = some (t, full)) :
    (∃ l, Reads unread Q processor l s t full) ∧ (full = false → Emptied unread cpus t) := by
  obtain ⟨⟨s₁, stop⟩, hrounds, hdrain⟩ := Option.bind_eq_some_iff.mp h
  obtain ⟨l, hl⟩ : ∃ l, Reads unread Q processor l s s₁ stop := by
    refine untilStop_rule (R := fun s t full => ∃ l, Reads unread Q processor l s t full)
      (fun s => ⟨[], .refl s⟩) (fun ⟨l, hl⟩ ⟨l', hl'⟩ => ⟨l ++ l', hl.trans hl'⟩)
      (fun round hround s t full hround' => ?_) hrounds
    obtain ⟨⟨l, hreads⟩, -⟩ :=
      untilStop_reads (fun _ _ _ _ => PmuCpu.readPmemSamples_reads (Q := Q) hlaws) hround'
    exact ⟨[] ++ l, (log_reads hlaws (hlogs.1 round hround) s).trans hreads⟩
  cases stop with
  | true =>
      cases hdrain
      exact ⟨⟨l, hl⟩, fun hfull => by cases hfull⟩
  | false =>
      have hlog := hl.trans (log_reads hlaws hlogs.2 s₁)
      obtain ⟨⟨l', hl'⟩, -⟩ :=
        untilStop_reads (fun _ _ _ _ => PmuCpu.readPmemSamples_reads (Q := Q) hlaws) hdrain
      refine ⟨⟨_, hlog.trans hl'⟩, fun hfull => ?_⟩
      subst hfull
      refine untilStop_visits
        (Q := fun pmemFds (t : Sampler ρ σ) =>
          ∀ pfd ∈ pmemFds, pfd > -1 → unread (t.rings pfd) = [])
        (fun pmemFds _ s t hstep => PmuCpu.readPmemSamples_empties hlaws hstep)
        (fun pmemFds other s t hstep hempty pfd hpfd hopen => ?_) hdrain
      obtain ⟨⟨l, hreads⟩, hquiet⟩ :=
        PmuCpu.readPmemSamples_reads (Q := fun _ => True) hlaws hstep
      exact hreads.stays_empty hquiet (hempty pfd hpfd hopen)

end Reads

end PmuRefs

end MemoryOptimizer
