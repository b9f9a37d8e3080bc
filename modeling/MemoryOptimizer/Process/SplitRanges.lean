import MemoryOptimizer.Lib.Alignment
import MemoryOptimizer.Lib.Cuts
import Mathlib.Data.List.Range
import Mathlib.Data.Option.Basic

/-!
# Splitting an address space between scanners

`Process::split_ranges` (`Process.cc`) cuts the address space of a process into
ranges that threads scan one each: inside a mapping every `max_bytes`, at the
2 MB boundary below, and behind a mapping once the mappings since the last cut
are more than `max_bytes` together.

* `cutsFrom` — where the rule cuts a list of mappings, without the loop and the
  wrapping of its counter; `splitRanges_eq` is the refinement.
* `Partition` — what the ranges are for.
* `splitRanges_partition_iff` — the mappings that the rule does split so.
-/

namespace MemoryOptimizer

namespace Process

def pmdSize : ℕ := 2 ^ 21

def taskSizeMax : ℕ := 2 ^ 47 - 2 ^ 12

/-- `proc_maps_entry`; `stop` is the source's `end`. -/
structure ProcMapsEntry where
  start : ℕ
  stop : ℕ

/-- `vma.end - vma.start`. -/
def ProcMapsEntry.size (vma : ProcMapsEntry) : ℕ := usub vma.stop vma.start

/-- The locals of `split_ranges`, and the ranges that `add_range` got so far. -/
structure Split where
  sum : ℕ
  start : ℕ
  ranges : List (ℕ × ℕ)

/-- `add_range(start, end); start = end; sum = 0;` -/
def Split.cut (s : Split) (stop : ℕ) : Split := ⟨0, stop, s.ranges ++ [(s.start, stop)]⟩

/-- `for (offset = max_bytes; offset < vma_size; offset += max_bytes)`, from `offset` on. -/
def splitInner (maxBytes : ℕ) (vma : ProcMapsEntry) : ℕ → ℕ → Split → Option Split
  | 0, _, _ => none
  | fuel + 1, offset, s =>
      if offset < vma.size then
        splitInner maxBytes vma fuel (ulong (offset + maxBytes))
          (s.cut (roundDown (ulong (vma.start + offset)) pmdSize))
      else some s

/-- The body of `for (auto& vma: vmas)`. -/
def splitVma (fuel maxBytes : ℕ) (s : Split) (vma : ProcMapsEntry) : Option Split :=
  if taskSizeMax ≤ vma.start then some s
  else do
    let s ← splitInner maxBytes vma fuel maxBytes { s with sum := ulong (s.sum + vma.size) }
    return if maxBytes < s.sum then s.cut vma.stop else s

/-- `split_ranges`: the ranges it adds.  `maxBytes` is the parsed `split_rss_size`,
`fuel` bounds the inner loop. -/
def splitRanges (fuel rssAnon maxBytes : ℕ) (vmas : List ProcMapsEntry) :
    Option (List (ℕ × ℕ)) :=
  let maxOr := if maxBytes = 0 then taskSizeMax else maxBytes
  if rssAnon = 0 then some []
  else if rssAnon < maxOr then some [(0, taskSizeMax)]
  else do
    let s ← vmas.foldlM (splitVma fuel maxOr) ⟨0, 0, []⟩
    return if s.sum ≠ 0 then s.ranges ++ [(s.start, taskSizeMax)] else s.ranges

/-! ## What it is for -/

/-- The ranges have something in them, ascend, and cover the mappings that start
in user space. -/
structure Partition (vmas : List ProcMapsEntry) (ranges : List (ℕ × ℕ)) : Prop where
  nonempty : ∀ r ∈ ranges, r.1 < r.2
  ascending : ranges.Pairwise fun r r' => r.2 ≤ r'.1
  covers : ∀ vma ∈ vmas, vma.start < taskSizeMax → ∀ addr, vma.start ≤ addr → addr < vma.stop →
    ∃ r ∈ ranges, r.1 ≤ addr ∧ addr < r.2

/-- Mappings as `/proc/PID/maps` lists them. -/
structure AscendingVmas (vmas : List ProcMapsEntry) : Prop where
  nonempty : ∀ vma ∈ vmas, vma.start < vma.stop
  isWord : ∀ vma ∈ vmas, vma.stop < 2 ^ 64
  ascending : vmas.Pairwise fun vma vma' => vma.stop ≤ vma'.start

/-! ## Where the rule cuts -/

/-- How often a mapping is cut inside. -/
def ProcMapsEntry.splits (vma : ProcMapsEntry) (maxBytes : ℕ) : ℕ := (vma.size - 1) / maxBytes

/-- The `k`-th cut inside a mapping. -/
def ProcMapsEntry.splitAt (vma : ProcMapsEntry) (maxBytes k : ℕ) : ℕ :=
  roundDown (vma.start + k * maxBytes) pmdSize

/-- The cuts inside a mapping. -/
def ProcMapsEntry.cuts (vma : ProcMapsEntry) (maxBytes : ℕ) : List ℕ :=
  (List.range' 1 (vma.splits maxBytes)).map (vma.splitAt maxBytes)

/-- The cuts in a list of mappings in user space, `sum` bytes being left from before. -/
def cutsFrom (maxBytes : ℕ) : ℕ → List ProcMapsEntry → List ℕ
  | sum, [] => if sum = 0 then [] else [taskSizeMax]
  | sum, vma :: vmas =>
      if maxBytes < vma.size then vma.cuts maxBytes ++ cutsFrom maxBytes 0 vmas
      else if maxBytes < sum + vma.size then vma.stop :: cutsFrom maxBytes 0 vmas
      else cutsFrom maxBytes (sum + vma.size) vmas

/-- The offset does not wrap behind the last cut. -/
def ProcMapsEntry.NoWrap (vma : ProcMapsEntry) (maxBytes : ℕ) : Prop :=
  (vma.splits maxBytes + 1) * maxBytes < 2 ^ 64

instance (vma : ProcMapsEntry) (maxBytes : ℕ) : Decidable (vma.NoWrap maxBytes) :=
  inferInstanceAs (Decidable (_ < _))

/-! ## The loop makes these cuts -/

theorem foldl_cut (s : Split) (cs : List ℕ) :
    cs.foldl Split.cut s =
      ⟨if cs = [] then s.sum else 0, cs.getLastD s.start, s.ranges ++ cutRanges s.start cs⟩ := by
  induction cs generalizing s with
  | nil => simp [cutRanges]
  | cons c cs ih =>
      rw [List.foldl_cons, ih, List.getLastD_cons]
      simp [Split.cut, cutRanges]

theorem ProcMapsEntry.size_eq {vma : ProcMapsEntry} (hlt : vma.start < vma.stop)
    (hword : vma.stop < 2 ^ 64) : vma.size = vma.stop - vma.start :=
  usub_of_le hlt.le hword

/-- The offset is below the size as long as there are cuts to make. -/
theorem ProcMapsEntry.mul_lt_size_iff {vma : ProcMapsEntry} {maxBytes k : ℕ} (hmax : 0 < maxBytes)
    (hsize : 0 < vma.size) : k * maxBytes < vma.size ↔ k ≤ vma.splits maxBytes := by
  rw [splits, Nat.le_div_iff_mul_le hmax]
  omega

theorem splitInner_succ {maxBytes fuel offset : ℕ} {vma : ProcMapsEntry} {s t : Split}
    (h : splitInner maxBytes vma fuel offset s = some t) :
    splitInner maxBytes vma (fuel + 1) offset s = some t := by
  induction fuel generalizing offset s with
  | zero => cases h
  | succ fuel ih =>
      rw [splitInner] at h ⊢
      split
      · rename_i hlt
        rw [if_pos hlt] at h
        exact ih h
      · rename_i hlt
        rw [if_neg hlt] at h
        exact h

theorem splitInner_add {maxBytes fuel offset : ℕ} {vma : ProcMapsEntry} {s t : Split}
    (h : splitInner maxBytes vma fuel offset s = some t) (m : ℕ) :
    splitInner maxBytes vma (fuel + m) offset s = some t := by
  induction m with
  | zero => exact h
  | succ m ih => exact splitInner_succ ih

/-- From the `k`-th cut to the last one. -/
theorem splitInner_cuts {maxBytes : ℕ} {vma : ProcMapsEntry} (hmax : 0 < maxBytes)
    (hlt : vma.start < vma.stop) (hword : vma.stop < 2 ^ 64) (fuel m : ℕ) {k : ℕ} (s : Split)
    (hk : k + m = vma.splits maxBytes + 1) :
    splitInner maxBytes vma (fuel + m) (if m = 0 then ulong (k * maxBytes) else k * maxBytes) s =
      splitInner maxBytes vma fuel (ulong ((vma.splits maxBytes + 1) * maxBytes))
        (((List.range' k m).map (vma.splitAt maxBytes)).foldl Split.cut s) := by
  have hsize := ProcMapsEntry.size_eq hlt hword
  induction m generalizing k s with
  | zero =>
      rw [if_pos rfl, ← hk]
      rfl
  | succ m ih =>
      have hoff : k * maxBytes < vma.size :=
        (ProcMapsEntry.mul_lt_size_iff hmax (by omega)).mpr (by omega)
      have haddr : ulong (vma.start + k * maxBytes) = vma.start + k * maxBytes :=
        ulong_of_lt (by omega)
      have hnext : ulong (k * maxBytes + maxBytes) =
          if m = 0 then ulong ((k + 1) * maxBytes) else (k + 1) * maxBytes := by
        rw [← Nat.succ_mul]
        split
        · rfl
        · refine ulong_of_lt (lt_trans ?_ (hsize ▸ (Nat.sub_le _ _).trans_lt hword))
          exact (ProcMapsEntry.mul_lt_size_iff hmax (by omega)).mpr (by omega)
      rw [if_neg (Nat.succ_ne_zero m), ← Nat.add_assoc, splitInner, if_pos hoff, haddr, hnext,
        ih _ (by omega)]
      rfl

/-- The loop inside a mapping makes its cuts, when the offset does not wrap. -/
theorem splitInner_eq {maxBytes fuel : ℕ} {vma : ProcMapsEntry} (hmax : 0 < maxBytes)
    (hlt : vma.start < vma.stop) (hword : vma.stop < 2 ^ 64)
    (hwrap : maxBytes < vma.size → vma.NoWrap maxBytes) (hfuel : vma.splits maxBytes < fuel)
    (s : Split) :
    splitInner maxBytes vma fuel maxBytes s = some ((vma.cuts maxBytes).foldl Split.cut s) := by
  have hsize := ProcMapsEntry.size_eq hlt hword
  obtain ⟨fuel, rfl⟩ : ∃ f, fuel = f + 1 + vma.splits maxBytes :=
    ⟨fuel - 1 - vma.splits maxBytes, by omega⟩
  rcases Nat.lt_or_ge maxBytes vma.size with hbig | hsmall
  · have hpos : 1 ≤ vma.splits maxBytes :=
      (ProcMapsEntry.mul_lt_size_iff hmax (by omega)).mp (by omega)
    have hend : vma.size ≤ (vma.splits maxBytes + 1) * maxBytes :=
      not_lt.mp fun h => absurd ((ProcMapsEntry.mul_lt_size_iff hmax (by omega)).mp h) (by omega)
    have hcuts := splitInner_cuts hmax hlt hword (fuel + 1) (vma.splits maxBytes) (k := 1) s
      (by omega)
    rw [if_neg (by omega), Nat.one_mul] at hcuts
    rw [hcuts, ulong_of_lt (hwrap hbig), splitInner, if_neg (not_lt.mpr hend)]
    rfl
  · have hzero : vma.splits maxBytes = 0 :=
      Nat.div_eq_of_lt (by omega)
    rw [hzero, Nat.add_zero, splitInner, if_neg (not_lt.mpr hsmall), ProcMapsEntry.cuts, hzero]
    rfl

theorem cuts_eq_nil_iff {maxBytes : ℕ} {vma : ProcMapsEntry} (hmax : 0 < maxBytes)
    (hsize : 0 < vma.size) : vma.cuts maxBytes = [] ↔ ¬ maxBytes < vma.size := by
  have hone := ProcMapsEntry.mul_lt_size_iff (k := 1) hmax hsize
  rw [Nat.one_mul] at hone
  rw [hone, ProcMapsEntry.cuts, List.map_eq_nil_iff, List.range'_eq_nil_iff]
  omega

theorem getLastD_cuts {maxBytes : ℕ} {vma : ProcMapsEntry} (a : ℕ)
    (hpos : 1 ≤ vma.splits maxBytes) :
    (vma.cuts maxBytes).getLastD a = vma.splitAt maxBytes (vma.splits maxBytes) := by
  obtain ⟨n, hn⟩ : ∃ n, vma.splits maxBytes = n + 1 := ⟨_, (Nat.sub_add_cancel hpos).symm⟩
  rw [ProcMapsEntry.cuts, hn, List.range'_concat, List.map_append, List.getLastD_eq_getLast?]
  simp [Nat.add_comm]

/-- The loop over the mappings makes the cuts of the rule. -/
theorem foldlM_splitVma {maxBytes fuel : ℕ} (hmax : 0 < maxBytes) {vmas : List ProcMapsEntry}
    (h : AscendingVmas vmas)
    (hwrap : ∀ vma ∈ vmas, vma.start < taskSizeMax → maxBytes < vma.size → vma.NoWrap maxBytes)
    (hfuel : ∀ vma ∈ vmas, vma.splits maxBytes < fuel) (s : Split)
    (hsum : ∀ vma ∈ vmas, s.sum ≤ vma.start) (hword : s.sum < 2 ^ 64) :
    ∃ t, vmas.foldlM (splitVma fuel maxBytes) s = some t ∧
      (if t.sum ≠ 0 then t.ranges ++ [(t.start, taskSizeMax)] else t.ranges) =
        s.ranges ++ cutRanges s.start
          (cutsFrom maxBytes s.sum (vmas.filter (·.start < taskSizeMax))) := by
  induction vmas generalizing s with
  | nil =>
      refine ⟨s, rfl, ?_⟩
      rcases Nat.eq_zero_or_pos s.sum with h0 | hpos
      · simp [h0, cutsFrom, cutRanges]
      · simp [hpos.ne', cutsFrom, cutRanges]
  | cons vma vmas ih =>
      have hlt := h.nonempty vma List.mem_cons_self
      have hstop := h.isWord vma List.mem_cons_self
      have hsize := ProcMapsEntry.size_eq hlt hstop
      obtain ⟨hafter, hasc⟩ := List.pairwise_cons.mp h.ascending
      have hrest : AscendingVmas vmas :=
        ⟨fun v hv => h.nonempty v (List.mem_cons_of_mem _ hv),
          fun v hv => h.isWord v (List.mem_cons_of_mem _ hv), hasc⟩
      have hle := hsum vma List.mem_cons_self
      have ih := ih hrest (fun v hv => hwrap v (List.mem_cons_of_mem _ hv))
        (fun v hv => hfuel v (List.mem_cons_of_mem _ hv))
      rw [List.foldlM_cons, splitVma]
      rcases Nat.lt_or_ge vma.start taskSizeMax with hkept | hskip
      · have hsum' : ulong (s.sum + vma.size) = s.sum + vma.size := ulong_of_lt (by omega)
        rw [if_neg (not_le.mpr hkept), splitInner_eq hmax hlt hstop
          (hwrap vma List.mem_cons_self hkept) (hfuel vma List.mem_cons_self), foldl_cut, hsum',
          List.filter_cons_of_pos (by simpa using hkept), cutsFrom]
        by_cases hbig : maxBytes < vma.size
        · have hcuts : vma.cuts maxBytes ≠ [] := by
            rw [Ne, cuts_eq_nil_iff hmax (by omega)]
            exact not_not.mpr hbig
          rw [if_neg hcuts, if_pos hbig, cutRanges_append, ← List.append_assoc]
          exact ih _ (fun v hv => Nat.zero_le _) (by simp)
        · have hcuts : vma.cuts maxBytes = [] := (cuts_eq_nil_iff hmax (by omega)).mpr hbig
          rw [if_pos hcuts, hcuts, if_neg hbig]
          by_cases hfull : maxBytes < s.sum + vma.size
          · have ih := ih ⟨0, vma.stop, s.ranges ++ [(s.start, vma.stop)]⟩
              (fun v hv => Nat.zero_le _) (by simp)
            rw [List.append_assoc] at ih
            simpa [hfull, Split.cut, cutRanges] using ih
          · have ih := ih ⟨s.sum + vma.size, s.start, s.ranges⟩
              (fun v hv => le_trans (by simp only; omega) (hafter v hv)) (by simp only; omega)
            simpa [hfull, cutRanges] using ih
      · rw [if_pos hskip, List.filter_cons_of_neg (by simpa using hskip)]
        exact ih s (fun v hv => hsum v (List.mem_cons_of_mem _ hv)) hword

theorem ProcMapsEntry.splits_lt (vma : ProcMapsEntry) (maxBytes : ℕ) :
    vma.splits maxBytes < 2 ^ 64 :=
  (Nat.div_le_self _ _).trans_lt ((Nat.sub_le _ _).trans_lt (ulong_lt _))

/-- More fuel for the inner loop changes nothing. -/
theorem splitRanges_add {rssAnon maxBytes fuel : ℕ} {vmas : List ProcMapsEntry}
    {ranges : List (ℕ × ℕ)} (h : splitRanges fuel rssAnon maxBytes vmas = some ranges) (m : ℕ) :
    splitRanges (fuel + m) rssAnon maxBytes vmas = some ranges := by
  have hvma {maxBytes : ℕ} {vma : ProcMapsEntry} {s t : Split}
      (h : splitVma fuel maxBytes s vma = some t) :
      splitVma (fuel + m) maxBytes s vma = some t := by
    rw [splitVma] at h ⊢
    split
    · rename_i hskip
      rwa [if_pos hskip] at h
    · rename_i hkept
      rw [if_neg hkept] at h
      obtain ⟨u, hu, ht⟩ := Option.bind_eq_some_iff.mp h
      exact Option.bind_eq_some_iff.mpr ⟨u, splitInner_add hu m, ht⟩
  have hloop {maxBytes : ℕ} {vmas : List ProcMapsEntry} {s t : Split}
      (h : vmas.foldlM (splitVma fuel maxBytes) s = some t) :
      vmas.foldlM (splitVma (fuel + m) maxBytes) s = some t := by
    induction vmas generalizing s with
    | nil => exact h
    | cons vma vmas ih =>
        rw [List.foldlM_cons] at h ⊢
        obtain ⟨u, hu, ht⟩ := Option.bind_eq_some_iff.mp h
        exact Option.bind_eq_some_iff.mpr ⟨u, hvma hu, ih ht⟩
  simp only [splitRanges] at h ⊢
  generalize (if maxBytes = 0 then taskSizeMax else maxBytes) = maxOr at h ⊢
  by_cases hzero : rssAnon = 0
  · rwa [if_pos hzero] at h ⊢
  · by_cases hfits : rssAnon < maxOr
    · rwa [if_neg hzero, if_pos hfits] at h ⊢
    · rw [if_neg hzero, if_neg hfits] at h ⊢
      obtain ⟨t, ht, hranges⟩ := Option.bind_eq_some_iff.mp h
      exact Option.bind_eq_some_iff.mpr ⟨t, hloop ht, hranges⟩

/-- The ranges of the rule, as long as the offset does not wrap. -/
theorem splitRanges_eq {rssAnon maxBytes fuel : ℕ} (hmax : 0 < maxBytes)
    (hrss : maxBytes ≤ rssAnon) {vmas : List ProcMapsEntry} (h : AscendingVmas vmas)
    (hwrap : ∀ vma ∈ vmas, vma.start < taskSizeMax → maxBytes < vma.size → vma.NoWrap maxBytes)
    (hfuel : ∀ vma ∈ vmas, vma.splits maxBytes < fuel) :
    splitRanges fuel rssAnon maxBytes vmas =
      some (cutRanges 0 (cutsFrom maxBytes 0 (vmas.filter (·.start < taskSizeMax)))) := by
  obtain ⟨t, ht, hranges⟩ := foldlM_splitVma hmax h hwrap hfuel ⟨0, 0, []⟩
    (fun _ _ => Nat.zero_le _) (by simp)
  simp only [splitRanges, if_neg hmax.ne', if_neg (hmax.trans_le hrss).ne',
    if_neg (not_lt.mpr hrss), ht]
  exact congrArg some hranges

/-! ## An offset that wraps -/

theorem splitInner_ranges {maxBytes fuel offset : ℕ} {vma : ProcMapsEntry} {s t : Split}
    (h : splitInner maxBytes vma fuel offset s = some t) : s.ranges ⊆ t.ranges := by
  induction fuel generalizing offset s with
  | zero => cases h
  | succ fuel ih =>
      rw [splitInner] at h
      split at h
      · exact fun r hr => ih h (List.mem_append_left _ hr)
      · cases h
        exact fun r hr => hr

theorem splitVma_ranges {fuel maxBytes : ℕ} {vma : ProcMapsEntry} {s t : Split}
    (h : splitVma fuel maxBytes s vma = some t) : s.ranges ⊆ t.ranges := by
  rw [splitVma] at h
  split at h
  · cases h
    exact fun r hr => hr
  · obtain ⟨u, hu, ht⟩ := Option.bind_eq_some_iff.mp h
    cases ht
    intro r hr
    have hr := splitInner_ranges hu hr
    split
    · exact List.mem_append_left _ hr
    · exact hr

theorem foldlM_splitVma_ranges {fuel maxBytes : ℕ} {vmas : List ProcMapsEntry} {s t : Split}
    (h : vmas.foldlM (splitVma fuel maxBytes) s = some t) : s.ranges ⊆ t.ranges := by
  induction vmas generalizing s with
  | nil =>
      cases h
      exact fun r hr => hr
  | cons vma vmas ih =>
      rw [List.foldlM_cons] at h
      obtain ⟨u, hu, ht⟩ := Option.bind_eq_some_iff.mp h
      exact fun r hr => ih ht (splitVma_ranges hu hr)

theorem roundDown_mono {x y : ℕ} (hy : y < 2 ^ 64) (h : x ≤ y) :
    roundDown x pmdSize ≤ roundDown y pmdSize := by
  rw [pmdSize, roundDown_eq (h.trans_lt hy) (by decide), roundDown_eq hy (by decide)]
  exact Nat.mul_le_mul_right _ (Nat.div_le_div_right h)

/-- Behind the last cut of a mapping whose offset wraps, the loop cuts below it. -/
theorem splitInner_wraps {maxBytes fuel : ℕ} {vma : ProcMapsEntry} (hmax : 0 < maxBytes)
    (hlt : vma.start < vma.stop) (hword : vma.stop < 2 ^ 64) (hbig : maxBytes < vma.size)
    (hwrap : ¬ vma.NoWrap maxBytes) {s t : Split}
    (h : splitInner maxBytes vma fuel maxBytes s = some t) : ∃ r ∈ t.ranges, r.2 ≤ r.1 := by
  have hsize := ProcMapsEntry.size_eq hlt hword
  have hsplits (k : ℕ) : k * maxBytes < vma.size ↔ k ≤ vma.splits maxBytes :=
    ProcMapsEntry.mul_lt_size_iff hmax (by omega)
  have hpos : 1 ≤ vma.splits maxBytes := (hsplits 1).mp (by omega)
  have hlast := (hsplits (vma.splits maxBytes)).mpr le_rfl
  have hone : maxBytes ≤ vma.splits maxBytes * maxBytes := Nat.le_mul_of_pos_left _ hpos
  have hcuts := splitInner_cuts hmax hlt hword fuel (vma.splits maxBytes) (k := 1) s (by omega)
  rw [if_neg (by omega), Nat.one_mul, splitInner_add h, foldl_cut] at hcuts
  -- The wrapped offset is smaller than the step.
  have hoff : ulong ((vma.splits maxBytes + 1) * maxBytes) ≤ vma.splits maxBytes * maxBytes := by
    unfold ProcMapsEntry.NoWrap at hwrap
    rw [Nat.succ_mul] at hwrap ⊢
    unfold ulong
    omega
  cases fuel with
  | zero => cases hcuts
  | succ fuel =>
      rw [splitInner, if_pos (hoff.trans_lt hlast)] at hcuts
      rw [← ProcMapsEntry.cuts, getLastD_cuts _ hpos] at hcuts
      refine ⟨_, splitInner_ranges hcuts.symm (List.mem_append_right _ List.mem_cons_self), ?_⟩
      rw [ulong_of_lt (by omega)]
      exact roundDown_mono (by omega) (Nat.add_le_add_left hoff _)

theorem foldlM_splitVma_wraps {maxBytes fuel : ℕ} (hmax : 0 < maxBytes)
    {vmas : List ProcMapsEntry} (h : AscendingVmas vmas) {vma : ProcMapsEntry} (hmem : vma ∈ vmas)
    (hkept : vma.start < taskSizeMax) (hbig : maxBytes < vma.size)
    (hwrap : ¬ vma.NoWrap maxBytes) {s t : Split}
    (ht : vmas.foldlM (splitVma fuel maxBytes) s = some t) : ∃ r ∈ t.ranges, r.2 ≤ r.1 := by
  obtain ⟨pre, post, rfl⟩ := List.append_of_mem hmem
  rw [List.foldlM_append] at ht
  obtain ⟨u, -, ht⟩ := Option.bind_eq_some_iff.mp ht
  rw [List.foldlM_cons] at ht
  obtain ⟨v, hv, ht⟩ := Option.bind_eq_some_iff.mp ht
  rw [splitVma, if_neg (not_le.mpr hkept)] at hv
  obtain ⟨w, hw, hv⟩ := Option.bind_eq_some_iff.mp hv
  obtain ⟨r, hr, hle⟩ := splitInner_wraps hmax (h.nonempty vma hmem) (h.isWord vma hmem) hbig
    hwrap hw
  refine ⟨r, foldlM_splitVma_ranges ht ?_, hle⟩
  cases hv
  split
  · exact List.mem_append_left _ hr
  · exact hr

/-! ## The mappings that are split so -/

/-- Before a list of mappings in user space, with `sum` bytes left over since the cut at
`start`: the cuts inside a mapping fall into 2 MB blocks of their own, the first of them
behind `start`, and no mapping is left over at the end, except that mappings of at most
`maxBytes` together may be, below the end of user space. -/
def SplitsApart (maxBytes : ℕ) : ℕ → ℕ → List ProcMapsEntry → Prop
  | _, _, [] => True
  | start, sum, vma :: vmas =>
      if maxBytes < vma.size then
        (start < vma.splitAt maxBytes 1 ∧
          ∀ k, 1 ≤ k → (k + 1) * maxBytes < vma.size →
            (vma.start + k * maxBytes) / pmdSize < (vma.start + (k + 1) * maxBytes) / pmdSize) ∧
        vmas ≠ [] ∧ SplitsApart maxBytes (vma.splitAt maxBytes (vma.splits maxBytes)) 0 vmas
      else if maxBytes < sum + vma.size then SplitsApart maxBytes vma.stop 0 vmas
      else (vmas = [] → vma.stop ≤ taskSizeMax) ∧ SplitsApart maxBytes start (sum + vma.size) vmas

theorem partition_cutRanges_iff {vmas : List ProcMapsEntry} (h : AscendingVmas vmas)
    (cs : List ℕ) :
    Partition vmas (cutRanges 0 cs) ↔
      (0 :: cs).Pairwise (· < ·) ∧
        ∀ vma ∈ vmas.filter (·.start < taskSizeMax), vma.stop ≤ cs.getLastD 0 := by
  constructor
  · intro hpart
    have hasc := cutRanges_lt_iff.mp hpart.nonempty
    refine ⟨hasc, fun vma hvma => ?_⟩
    obtain ⟨hmem, hkept⟩ := List.mem_filter.mp hvma
    have hlt := h.nonempty vma hmem
    have hcover := hpart.covers vma hmem (by simpa using hkept) (vma.stop - 1) (by omega) (by omega)
    have := ((exists_mem_cutRanges_iff hasc _).mp hcover).2
    omega
  · rintro ⟨hasc, hstop⟩
    refine ⟨cutRanges_lt_iff.mpr hasc, cutRanges_pairwise hasc, fun vma hmem hkept addr _ hlt => ?_⟩
    have hle := hstop vma (List.mem_filter.mpr ⟨hmem, by simpa using hkept⟩)
    exact (exists_mem_cutRanges_iff hasc addr).mpr ⟨Nat.zero_le _, hlt.trans_le hle⟩

/-- The cuts inside a mapping ascend when they fall into different blocks. -/
theorem pairwise_cuts_iff {maxBytes a : ℕ} {vma : ProcMapsEntry} (hmax : 0 < maxBytes)
    (hlt : vma.start < vma.stop) (hword : vma.stop < 2 ^ 64) (hbig : maxBytes < vma.size) :
    (a :: vma.cuts maxBytes).Pairwise (· < ·) ↔
      a < vma.splitAt maxBytes 1 ∧
        ∀ k, 1 ≤ k → (k + 1) * maxBytes < vma.size →
          (vma.start + k * maxBytes) / pmdSize < (vma.start + (k + 1) * maxBytes) / pmdSize := by
  have hsize := ProcMapsEntry.size_eq hlt hword
  have hsplits (k : ℕ) : k * maxBytes < vma.size ↔ k ≤ vma.splits maxBytes :=
    ProcMapsEntry.mul_lt_size_iff hmax (by omega)
  have hpos : 1 ≤ vma.splits maxBytes := (hsplits 1).mp (by omega)
  have hblock {k : ℕ} (hk : k ≤ vma.splits maxBytes) :
      vma.splitAt maxBytes k = (vma.start + k * maxBytes) / pmdSize * pmdSize :=
    roundDown_eq (by have := (hsplits k).mpr hk; omega) (by decide)
  have hlength : (vma.cuts maxBytes).length = vma.splits maxBytes := by
    rw [ProcMapsEntry.cuts, List.length_map, List.length_range']
  have hget (i : ℕ) (hi : i < (vma.cuts maxBytes).length) :
      (vma.cuts maxBytes)[i] = vma.splitAt maxBytes (i + 1) := by
    simp [ProcMapsEntry.cuts, Nat.add_comm]
  rw [← List.isChain_iff_pairwise, List.isChain_iff_getElem]
  constructor
  · intro hchain
    constructor
    · have hfirst := hchain 0 (by rw [List.length_cons]; omega)
      simpa [hget] using hfirst
    · rintro (_ | k) hk hnext
      · exact absurd hk (by omega)
      · have hlast := (hsplits (k + 1 + 1)).mp hnext
        have hstep := hchain (k + 1) (by rw [List.length_cons]; omega)
        simp only [List.getElem_cons_succ, hget] at hstep
        rw [hblock (by omega), hblock hlast] at hstep
        exact Nat.lt_of_mul_lt_mul_right hstep
  · rintro ⟨hfirst, hnext⟩ (_ | i) hi
    · simpa [hget] using hfirst
    · rw [List.length_cons, hlength] at hi
      have hlast : i + 2 ≤ vma.splits maxBytes := by omega
      simp only [List.getElem_cons_succ, hget]
      rw [hblock (by omega), hblock hlast]
      exact Nat.mul_lt_mul_of_pos_right
        (hnext (i + 1) (by omega) ((hsplits _).mpr hlast)) (by decide)

/-- What is left to cover after the cuts of a list of mappings. -/
theorem splitsApart_iff {maxBytes : ℕ} (hmax : 0 < maxBytes) {vmas : List ProcMapsEntry}
    (h : AscendingVmas vmas) (huser : ∀ vma ∈ vmas, vma.start < taskSizeMax) (start sum : ℕ)
    (hstart : ∀ vma ∈ vmas, start ≤ vma.start) (hsum : sum ≠ 0 → start < taskSizeMax) :
    ((start :: cutsFrom maxBytes sum vmas).Pairwise (· < ·) ∧
      ∀ vma ∈ vmas, vma.stop ≤ (cutsFrom maxBytes sum vmas).getLastD start) ↔
      SplitsApart maxBytes start sum vmas := by
  induction vmas generalizing start sum with
  | nil =>
      rw [cutsFrom, SplitsApart, iff_true]
      refine ⟨?_, fun vma hvma => absurd hvma List.not_mem_nil⟩
      split
      · exact List.pairwise_singleton _ _
      · rename_i hne
        exact List.pairwise_pair.mpr (hsum hne)
  | cons vma vmas ih =>
      have hlt := h.nonempty vma List.mem_cons_self
      have hstop := h.isWord vma List.mem_cons_self
      have hsize := ProcMapsEntry.size_eq hlt hstop
      have hle := hstart vma List.mem_cons_self
      have hkept := huser vma List.mem_cons_self
      obtain ⟨hafter, hasc⟩ := List.pairwise_cons.mp h.ascending
      have hrest : AscendingVmas vmas :=
        ⟨fun v hv => h.nonempty v (List.mem_cons_of_mem _ hv),
          fun v hv => h.isWord v (List.mem_cons_of_mem _ hv), hasc⟩
      have huser' : ∀ v ∈ vmas, v.start < taskSizeMax :=
        fun v hv => huser v (List.mem_cons_of_mem _ hv)
      -- A mapping is covered when the next one is.
      have hcovered {last : ℕ} (hne : vmas ≠ []) (hlast : ∀ v ∈ vmas, v.stop ≤ last) :
          vma.stop ≤ last := by
        obtain ⟨v, hv⟩ := List.exists_mem_of_ne_nil vmas hne
        exact (hafter v hv).trans ((hrest.nonempty v hv).le.trans (hlast v hv))
      rw [cutsFrom, SplitsApart, List.forall_mem_cons]
      by_cases hbig : maxBytes < vma.size
      · have hpos : 1 ≤ vma.splits maxBytes := by
          refine (ProcMapsEntry.mul_lt_size_iff hmax (by omega)).mp ?_
          rwa [Nat.one_mul]
        have hlast := (ProcMapsEntry.mul_lt_size_iff hmax (by omega)).mpr
          (le_refl (vma.splits maxBytes))
        have hbelow : vma.splitAt maxBytes (vma.splits maxBytes) < vma.stop := by
          have hround := roundDown_le (vma.start + vma.splits maxBytes * maxBytes) pmdSize
          rw [ProcMapsEntry.splitAt]
          omega
        have ih := ih hrest huser' (vma.splitAt maxBytes (vma.splits maxBytes)) 0
          (fun v hv => hbelow.le.trans (hafter v hv)) (fun h => absurd rfl h)
        rw [if_pos hbig, if_pos hbig, pairwise_cons_append_iff, getLastD_append,
          getLastD_cuts _ hpos, pairwise_cuts_iff hmax hlt hstop hbig, ← ih]
        constructor
        · rintro ⟨⟨hcuts, hrest⟩, hself, hothers⟩
          refine ⟨hcuts, ?_, hrest, hothers⟩
          rintro rfl
          exact absurd hself (not_le.mpr hbelow)
        · rintro ⟨hcuts, hne, hrest, hothers⟩
          exact ⟨⟨hcuts, hrest⟩, hcovered hne hothers, hothers⟩
      · rw [if_neg hbig, if_neg hbig]
        by_cases hfull : maxBytes < sum + vma.size
        · have ih := ih hrest huser' vma.stop 0 hafter (fun h => absurd rfl h)
          rw [if_pos hfull, if_pos hfull, List.getLastD_cons, ← ih]
          constructor
          · rintro ⟨hasc, -, hothers⟩
            exact ⟨(List.pairwise_cons.mp hasc).2, hothers⟩
          · rintro ⟨hasc, hothers⟩
            refine ⟨List.pairwise_cons.mpr ⟨fun c hc => ?_, hasc⟩, le_getLastD hasc, hothers⟩
            rcases List.mem_cons.mp hc with rfl | hc
            · exact hle.trans_lt hlt
            · exact (hle.trans_lt hlt).trans ((List.pairwise_cons.mp hasc).1 c hc)
        · have ih := ih hrest huser' start (sum + vma.size)
            (fun v hv => hstart v (List.mem_cons_of_mem _ hv)) (fun _ => hle.trans_lt hkept)
          rw [if_neg hfull, if_neg hfull, ← ih]
          constructor
          · rintro ⟨hasc, hself, hothers⟩
            refine ⟨?_, hasc, hothers⟩
            rintro rfl
            have hne : sum + vma.size ≠ 0 := by omega
            rwa [cutsFrom, if_neg hne, List.getLastD_cons, List.getLastD_nil] at hself
          · rintro ⟨hend, hasc, hothers⟩
            refine ⟨hasc, ?_, hothers⟩
            rcases eq_or_ne vmas [] with rfl | hne
            · have hne : sum + vma.size ≠ 0 := by omega
              rw [cutsFrom, if_neg hne, List.getLastD_cons, List.getLastD_nil]
              exact hend rfl
            · exact hcovered hne hothers

theorem AscendingVmas.filter {vmas : List ProcMapsEntry} (h : AscendingVmas vmas)
    (p : ProcMapsEntry → Bool) : AscendingVmas (vmas.filter p) :=
  ⟨fun v hv => h.nonempty v (List.mem_of_mem_filter hv),
    fun v hv => h.isWord v (List.mem_of_mem_filter hv), h.ascending.filter p⟩

/-- The ranges are a partition exactly for the mappings that are split apart, with an
offset that does not wrap in one of them. -/
theorem splitRanges_partition_iff {rssAnon maxBytes : ℕ} (hmax : 0 < maxBytes)
    (hrss : maxBytes ≤ rssAnon) {vmas : List ProcMapsEntry} (h : AscendingVmas vmas) :
    (∃ fuel ranges, splitRanges fuel rssAnon maxBytes vmas = some ranges ∧
      Partition vmas ranges) ↔
      (∀ vma ∈ vmas, vma.start < taskSizeMax → maxBytes < vma.size → vma.NoWrap maxBytes) ∧
        SplitsApart maxBytes 0 0 (vmas.filter (·.start < taskSizeMax)) := by
  have hiff := splitsApart_iff hmax (h.filter (·.start < taskSizeMax))
    (fun v hv => by simpa using (List.mem_filter.mp hv).2) 0 0
    (fun _ _ => Nat.zero_le _) (fun hne => absurd rfl hne)
  rw [← hiff, ← partition_cutRanges_iff h]
  constructor
  · rintro ⟨fuel, ranges, hranges, hpart⟩
    have hwrap : ∀ vma ∈ vmas, vma.start < taskSizeMax → maxBytes < vma.size →
        vma.NoWrap maxBytes := by
      intro vma hmem hkept hbig
      by_contra hwrap
      simp only [splitRanges, if_neg hmax.ne', if_neg (hmax.trans_le hrss).ne',
        if_neg (not_lt.mpr hrss)] at hranges
      obtain ⟨t, ht, hranges⟩ := Option.bind_eq_some_iff.mp hranges
      obtain ⟨r, hr, hle⟩ := foldlM_splitVma_wraps hmax h hmem hkept hbig hwrap ht
      refine absurd (hpart.nonempty r ?_) (not_lt.mpr hle)
      cases hranges
      split
      · exact List.mem_append_left _ hr
      · exact hr
    refine ⟨hwrap, ?_⟩
    -- A run with more fuel gives the same ranges, so they are those of the rule.
    have hmore := splitRanges_add hranges (2 ^ 64)
    rw [splitRanges_eq hmax hrss h hwrap fun vma _ =>
      (vma.splits_lt maxBytes).trans_le (Nat.le_add_left _ _)] at hmore
    rwa [Option.some.inj hmore]
  · rintro ⟨hwrap, hpart⟩
    exact ⟨2 ^ 64, _, splitRanges_eq hmax hrss h hwrap fun vma _ => vma.splits_lt maxBytes,
      hpart⟩

/-- Two mappings of 5 MB and 1 MB, split every 2 MB. -/
theorem splitRanges_partition_iff_twoVmas :
    ∃ fuel ranges, splitRanges fuel (6 * 2 ^ 20) (2 ^ 21)
        [⟨0x200000, 0x700000⟩, ⟨0x800000, 0x900000⟩] = some ranges ∧
      Partition [⟨0x200000, 0x700000⟩, ⟨0x800000, 0x900000⟩] ranges := by
  refine (splitRanges_partition_iff (by decide) (by decide) ⟨?_, ?_, ?_⟩).mpr ⟨?_, ?_⟩
  · decide
  · decide
  · decide
  · intro vma hmem _ _
    rcases List.mem_pair.mp hmem with rfl | rfl <;> decide
  · refine ⟨⟨by decide, fun k hk hlt => ?_⟩, by decide, fun _ => by decide, trivial⟩
    have hsize : ProcMapsEntry.size ⟨0x200000, 0x700000⟩ = 0x500000 := by decide
    obtain rfl : k = 1 := by omega
    decide

/-- A mapping of 4 MB, split every 2 MB: its second half is not scanned. -/
theorem splitRanges_notCovered :
    splitRanges 3 (4 * 2 ^ 20) (2 ^ 21) [⟨0x200000, 0x600000⟩] = some [(0, 0x400000)] ∧
      AscendingVmas [⟨0x200000, 0x600000⟩] ∧
      ¬ Partition [⟨0x200000, 0x600000⟩] [(0, 0x400000)] := by
  refine ⟨by decide, ⟨by decide, by decide, by decide⟩, fun hpart => ?_⟩
  obtain ⟨r, hr, -, hlt⟩ := hpart.covers _ List.mem_cons_self (by decide) 0x500000 (by decide)
    (by decide)
  rw [List.mem_singleton.mp hr] at hlt
  exact absurd hlt (by decide)

end Process

end MemoryOptimizer
