import MemoryOptimizer.IdlePages.Walk
import Mathlib.Data.Set.Basic
import Mathlib.Order.Interval.Set.Defs

/-!
# Reading past a mapping

What a walk does to the accessed bits, without the reads and the streams
(`Walked`): the reads for a mapping clear the bits up to where the last of them
ends, while the counts stop at the end of the mapping.  Where that is for a
mapping is arithmetic (`readBytes`), and the mappings lose nothing to each other
if the reads of each end before the next ones (`Spaced`).

* `Walked.counted` — in spaced mappings every accessed page is counted, once;
* `exists_lost` — in others the walk misses the first page of a mapping whenever
  it is accessed.
-/

namespace MemoryOptimizer.ProcIdlePages

/-- The updates of the counts from `va` up to `stop` if every accessed page there
is counted once. -/
structure CountsPages (accessed : Set ℕ) (va stop : ℕ) (counts : List (ℕ × ℕ)) : Prop where
  ascending : counts.Pairwise fun c d => c.1 < d.1
  range : ∀ c ∈ counts, va ≤ c.1 ∧ c.1 < stop
  le_one : ∀ c ∈ counts, c.2 ≤ 1
  mem_iff : ∀ addr, (addr, 1) ∈ counts ↔ addr ∈ accessed ∧ va ≤ addr ∧ addr < stop

theorem CountsPages.append {accessed : Set ℕ} {va mid stop : ℕ} {counts counts' : List (ℕ × ℕ)}
    (h : CountsPages accessed va mid counts)
    (h' : CountsPages (accessed \ Set.Ico va mid) mid stop counts') (hva : va ≤ mid)
    (hmid : mid ≤ stop) : CountsPages accessed va stop (counts ++ counts') where
  ascending := List.pairwise_append.mpr ⟨h.ascending, h'.ascending, fun c hc d hd =>
    (h.range c hc).2.trans_le (h'.range d hd).1⟩
  range := by
    intro c hc
    rcases List.mem_append.mp hc with hc | hc
    · exact ⟨(h.range c hc).1, (h.range c hc).2.trans_le hmid⟩
    · exact ⟨hva.trans (h'.range c hc).1, (h'.range c hc).2⟩
  le_one := by
    intro c hc
    rcases List.mem_append.mp hc with hc | hc
    · exact h.le_one c hc
    · exact h'.le_one c hc
  mem_iff := by
    intro addr
    rw [List.mem_append, h.mem_iff, h'.mem_iff]
    simp only [Set.mem_sdiff, Set.mem_Ico]
    constructor
    · rintro (⟨hacc, hle, hlt⟩ | ⟨⟨hacc, -⟩, hle, hlt⟩)
      · exact ⟨hacc, hle, hlt.trans_le hmid⟩
      · exact ⟨hacc, hva.trans hle, hlt⟩
    · rintro ⟨hacc, hle, hlt⟩
      rcases Nat.lt_or_ge addr mid with hlow | hhigh
      · exact Or.inl ⟨hacc, hle, hlow⟩
      · exact Or.inr ⟨⟨hacc, fun h => absurd h.2 (not_lt.mpr hhigh)⟩, hhigh, hlt⟩

/-- How many bytes of address space the reads for `size` bytes go over: 32 GiB at
a time, then what is left, in units of 32 KiB and at least `min_read_size` of them. -/
def readBytes (minReadSize size : ℕ) : ℕ :=
  let full := (size - 1) / 2 ^ 35 * 2 ^ 35
  full + max (minReadSize * 2 ^ 15) ((size - full + (2 ^ 15 - 1)) / 2 ^ 15 * 2 ^ 15)

/-- The reads for each mapping end before the mappings behind it. -/
def Spaced (minReadSize : ℕ) (vmas : List Vma) : Prop :=
  vmas.Pairwise fun vma vma' =>
    vma.start + readBytes minReadSize (vma.stop - vma.start) ≤ vma'.start

instance (minReadSize : ℕ) (vmas : List Vma) : Decidable (Spaced minReadSize vmas) :=
  inferInstanceAs (Decidable (List.Pairwise _ _))

/-- What a walk makes of the mappings from `next_va` on: the bits of a mapping are
cleared as far as its reads go, and the next mapping starts at `next` or above. -/
inductive Walked (minReadSize : ℕ) : Set ℕ → ℕ → List Vma → List (ℕ × ℕ) → Prop
  | nil {accessed : Set ℕ} {nextVa : ℕ} : Walked minReadSize accessed nextVa [] []
  | passed {accessed : Set ℕ} {nextVa : ℕ} {vma : Vma} {vmas : List Vma}
      {counts : List (ℕ × ℕ)} (hpassed : vma.stop ≤ nextVa)
      (rest : Walked minReadSize accessed nextVa vmas counts) :
      Walked minReadSize accessed nextVa (vma :: vmas) counts
  | read {accessed : Set ℕ} {nextVa va next : ℕ} {vma : Vma} {vmas : List Vma}
      {counts counts' : List (ℕ × ℕ)} (hva : va = max vma.start nextVa)
      (hnext : next ≤ va + readBytes minReadSize (vma.stop - va))
      (hcounts : CountsPages accessed va vma.stop counts)
      (rest : Walked minReadSize
        (accessed \ Set.Ico va (va + readBytes minReadSize (vma.stop - va))) next vmas counts') :
      Walked minReadSize accessed nextVa (vma :: vmas) (counts ++ counts')

section Walked

variable {minReadSize nextVa : ℕ} {accessed : Set ℕ} {vmas : List Vma} {counts : List (ℕ × ℕ)}

/-- A walk counts pages of the mappings. -/
theorem Walked.within (h : Walked minReadSize accessed nextVa vmas counts) :
    ∀ c ∈ counts, ∃ vma ∈ vmas, vma.start ≤ c.1 ∧ c.1 < vma.stop := by
  induction h with
  | nil => simp
  | passed _ _ ih =>
      intro c hc
      obtain ⟨vma, hvma, hin⟩ := ih c hc
      exact ⟨vma, List.mem_cons_of_mem _ hvma, hin⟩
  | read hva _ hcounts _ ih =>
      intro c hc
      rcases List.mem_append.mp hc with hc | hc
      · have hrange := hcounts.range c hc
        rw [hva] at hrange
        exact ⟨_, List.mem_cons_self .., (le_max_left _ _).trans hrange.1, hrange.2⟩
      · obtain ⟨vma, hvma, hin⟩ := ih c hc
        exact ⟨vma, List.mem_cons_of_mem _ hvma, hin⟩

theorem Walked.le_one (h : Walked minReadSize accessed nextVa vmas counts) :
    ∀ c ∈ counts, c.2 ≤ 1 := by
  induction h with
  | nil => simp
  | passed _ _ ih => exact ih
  | read _ _ hcounts _ ih => exact List.forall_mem_append.mpr ⟨hcounts.le_one, ih⟩

theorem Walked.ascending (h : Walked minReadSize accessed nextVa vmas counts)
    (hasc : vmas.Pairwise fun vma vma' => vma.stop ≤ vma'.start) :
    counts.Pairwise fun c d => c.1 < d.1 := by
  induction h with
  | nil => exact List.Pairwise.nil
  | passed _ _ ih => exact ih (List.pairwise_cons.mp hasc).2
  | read _ _ hcounts rest ih =>
      obtain ⟨hhead, hasc⟩ := List.pairwise_cons.mp hasc
      refine List.pairwise_append.mpr ⟨hcounts.ascending, ih hasc, fun c hc d hd => ?_⟩
      obtain ⟨vma', hvma', hin, -⟩ := rest.within d hd
      exact (hcounts.range c hc).2.trans_le ((hhead vma' hvma').trans hin)

/-- A walk counts accessed pages only. -/
theorem Walked.mem_accessed (h : Walked minReadSize accessed nextVa vmas counts) :
    ∀ addr, (addr, 1) ∈ counts → addr ∈ accessed := by
  induction h with
  | nil => simp
  | passed _ _ ih => exact ih
  | read _ _ hcounts _ ih =>
      intro addr haddr
      rcases List.mem_append.mp haddr with haddr | haddr
      · exact ((hcounts.mem_iff addr).mp haddr).1
      · exact (ih addr haddr).1

/-- In spaced mappings a walk counts every accessed page. -/
theorem Walked.counted (h : Walked minReadSize accessed nextVa vmas counts)
    (hnonempty : ∀ vma ∈ vmas, vma.start < vma.stop) (hspaced : Spaced minReadSize vmas)
    (hnext : ∀ vma ∈ vmas, nextVa ≤ vma.start) :
    ∀ vma ∈ vmas, ∀ addr ∈ accessed, vma.start ≤ addr → addr < vma.stop → (addr, 1) ∈ counts := by
  induction h with
  | nil => simp
  | @passed _ _ vma _ _ hpassed =>
      have hstart := hnext vma (List.mem_cons_self ..)
      have hlt := hnonempty vma (List.mem_cons_self ..)
      omega
  | @read _ _ va next head _ _ _ hva hle hcounts _ ih =>
      obtain ⟨hbefore, hspaced⟩ := List.pairwise_cons.mp hspaced
      rw [max_eq_left (hnext head (List.mem_cons_self ..))] at hva
      subst hva
      intro vma hvma addr hacc hlow hhigh
      rw [List.mem_append]
      rcases List.mem_cons.mp hvma with rfl | hvma
      · exact Or.inl ((hcounts.mem_iff addr).mpr ⟨hacc, hlow, hhigh⟩)
      · -- the reads for the head ended before this mapping
        have hclear := (hbefore vma hvma).trans hlow
        exact Or.inr (ih (fun v hv => hnonempty v (List.mem_cons_of_mem _ hv)) hspaced
          (fun v hv => hle.trans (hbefore v hv)) vma hvma addr
          ⟨hacc, fun hin => absurd hin.2 (not_lt.mpr hclear)⟩ hlow hhigh)

/-- In mappings that are not spaced, one is there whose first page a walk never
counts. -/
theorem exists_lost (hnonempty : ∀ vma ∈ vmas, vma.start < vma.stop)
    (hasc : vmas.Pairwise fun vma vma' => vma.stop ≤ vma'.start)
    (hspaced : ¬ Spaced minReadSize vmas) :
    ∃ vma ∈ vmas, ∀ accessed nextVa counts, (∀ vma ∈ vmas, nextVa ≤ vma.start) →
      Walked minReadSize accessed nextVa vmas counts → (vma.start, 1) ∉ counts := by
  induction vmas with
  | nil => exact absurd List.Pairwise.nil hspaced
  | cons head vmas ih =>
      obtain ⟨hhead, hasc⟩ := List.pairwise_cons.mp hasc
      have hlt := hnonempty head (List.mem_cons_self ..)
      by_cases hbefore : ∀ vma ∈ vmas,
          head.start + readBytes minReadSize (head.stop - head.start) ≤ vma.start
      · -- the head takes nothing from the mappings behind it
        obtain ⟨vma, hvma, hlost⟩ := ih (fun v hv => hnonempty v (List.mem_cons_of_mem _ hv)) hasc
          fun h => hspaced (List.pairwise_cons.mpr ⟨hbefore, h⟩)
        refine ⟨vma, List.mem_cons_of_mem _ hvma, fun accessed nextVa counts hnext h => ?_⟩
        have hstart := hnext head (List.mem_cons_self ..)
        cases h with
        | passed hpassed _ => omega
        | read hva hle hcounts rest =>
            rw [max_eq_left hstart] at hva
            subst hva
            rw [List.mem_append, not_or]
            refine ⟨fun hmem => ?_, ?_⟩
            · have := (hcounts.range _ hmem).2
              have := hhead vma hvma
              omega
            · exact hlost _ _ _ (fun v hv => hle.trans (hbefore v hv)) rest
      · -- its reads clear the first page of a mapping behind it
        obtain ⟨vma, hvma, hover⟩ : ∃ vma ∈ vmas,
            vma.start < head.start + readBytes minReadSize (head.stop - head.start) := by
          simpa only [not_forall, not_le, exists_prop] using hbefore
        have hstop := hhead vma hvma
        refine ⟨vma, List.mem_cons_of_mem _ hvma, fun accessed nextVa counts hnext h => ?_⟩
        have hstart := hnext head (List.mem_cons_self ..)
        cases h with
        | passed hpassed _ => omega
        | read hva _ hcounts rest =>
            rw [max_eq_left hstart] at hva
            subst hva
            rw [List.mem_append, not_or]
            refine ⟨fun hmem => ?_, fun hmem => ?_⟩
            · have := (hcounts.range _ hmem).2
              omega
            · exact (rest.mem_accessed _ hmem).2 ⟨by omega, hover⟩

end Walked

end MemoryOptimizer.ProcIdlePages
