import MemoryOptimizer.AddrSequence.Basic
import MemoryOptimizer.IdlePages.PageType
import MemoryOptimizer.Numa
import Mathlib.Algebra.BigOperators.Group.Finset.Basic
import Mathlib.Algebra.BigOperators.Group.Finset.Piecewise

/-!
# Scanning and counting

The scanner's bookkeeping between two plans (`EPTScan.cc`, `GlobalScan.cc`):
`prepare_walks` empties the histograms, each walk counts itself or records an
error, and `count_refs` builds the histograms of the ranges without an error.

* `countRefsOne_pmem`, `countRefsOne_dram` — a bin holds the number of pages of
  that kind of node whose clamped count it is;
* `period_rows` — after a period a range has rows of `nr_walks + 1` bins, or,
  if it ended with an error, no bins at all.
-/

namespace MemoryOptimizer

/-! `enum ref_location`: the node ids up to `MAX_NID`, then the summary rows. -/

def maxNid : ℕ := 31
def refLocUnknown : ℕ := 32
def refLocDram : ℕ := 33
def refLocPmem : ℕ := 34
def refLocAll : ℕ := 35

/-- `histogram_2d_type`: a row of bins for each `ref_location`. -/
abbrev Histogram2d := ℕ → List ℕ

namespace Histogram2d

/-- The number of pages in a bin. -/
def bin (h : Histogram2d) (loc i : ℕ) : ℕ := (h loc)[i]?.getD 0

/-- `refs_count[loc][i] += n`. -/
def addTo (h : Histogram2d) (loc i n : ℕ) : Histogram2d :=
  Function.update h loc ((h loc).modify i (· + n))

end Histogram2d

/-- `struct ProcIdleRefs`. -/
structure ProcIdleRefs where
  pageRefs : AddrSequence
  histogram2d : Histogram2d

namespace EPTScan

open Histogram2d

/-- `reset_one_ref_count`. -/
def resetOneRefCount (nodeSize : ℕ) : Histogram2d := fun _ => List.replicate nodeSize 0

/-- The bin of a page: `std::min(ref_count, (uint8_t)nr_walks)`. -/
def refBin (nrWalks refCount : ℕ) : ℕ := min refCount (uint8 nrWalks)

/-- The row of a page: its node, or `REF_LOC_UNKNOWN`. -/
def refLoc (nid : ℤ) : ℕ := if 0 ≤ nid then nid.toNat else refLocUnknown

/-- The row a node is summed up in. -/
def locIndex (numa : NumaNodeCollection) (nid : ℤ) : ℕ :=
  if numa.isPmemNid nid then refLocPmem else refLocDram

/-- Accounting one page, in `count_refs_one`. -/
def countPage (nrWalks : ℕ) (h : Histogram2d) (page : ℕ × ℕ × ℤ) : Histogram2d :=
  h.addTo (refLoc page.2.2) (refBin nrWalks page.2.1) 1

/-- Summing up the bin `j` of node `i`, in `count_refs_one`. -/
def sumBin (numa : NumaNodeCollection) (i : ℕ) (h : Histogram2d) (j : ℕ) : Histogram2d :=
  let h := h.addTo (locIndex numa i) j (h.bin i j)
  h.addTo refLocAll j (h.bin i j)

/-- Summing up node `i`, in `count_refs_one`. -/
def sumNode (numa : NumaNodeCollection) (nrWalks : ℕ) (h : Histogram2d) (i : ℕ) : Histogram2d :=
  if numa.isValidNid i then (List.range (nrWalks + 1)).foldl (sumBin numa i) h else h

/-- Adding the pages of unknown nodes to `REF_LOC_ALL`, in `count_refs_one`. -/
def sumUnknown (h : Histogram2d) (k : ℕ) : Histogram2d :=
  h.addTo refLocAll k (h.bin refLocUnknown k)

/-- `count_refs_one`, for the pages of one sequence. -/
def countRefsOne (numa : NumaNodeCollection) (nrWalks : ℕ) (pages : List (ℕ × ℕ × ℤ)) :
    Histogram2d :=
  let refsCount := resetOneRefCount (nrWalks + 1)
  let refsCount := pages.foldl (countPage nrWalks) refsCount
  let refsCount := (List.range (maxNid + 1)).foldl (sumNode numa nrWalks) refsCount
  (List.range (nrWalks + 1)).foldl sumUnknown refsCount

/-! ### What the bins hold -/

/-- Every row has `n` bins. -/
def Rows (n : ℕ) (h : Histogram2d) : Prop := ∀ loc, (h loc).length = n

theorem rows_resetOneRefCount (n : ℕ) : Rows n (resetOneRefCount n) := fun _ =>
  List.length_replicate

theorem Rows.addTo {n : ℕ} {h : Histogram2d} (rows : Rows n h) (loc i k : ℕ) :
    Rows n (h.addTo loc i k) := by
  intro loc'
  by_cases hloc : loc' = loc
  · subst hloc
    simp [Histogram2d.addTo, rows loc']
  · simp [Histogram2d.addTo, hloc, rows loc']

theorem Rows.bin_addTo {n : ℕ} {h : Histogram2d} (rows : Rows n h) {loc i k : ℕ} (hi : i < n)
    (loc' j : ℕ) :
    (h.addTo loc i k).bin loc' j = h.bin loc' j + if loc' = loc ∧ j = i then k else 0 := by
  by_cases hloc : loc' = loc
  · subst hloc
    by_cases hj : j = i
    · subst hj
      have hlt : j < (h loc').length := by rw [rows loc']; exact hi
      simp [Histogram2d.addTo, bin, hlt]
    · simp [Histogram2d.addTo, bin, hj, Ne.symm hj]
  · simp [Histogram2d.addTo, bin, hloc]

theorem refBin_le (nrWalks refCount : ℕ) : refBin nrWalks refCount ≤ nrWalks :=
  (min_le_right _ _).trans (Nat.mod_le _ _)

section Count

variable (numa : NumaNodeCollection) (nrWalks : ℕ)

/-- The first loop of `count_refs_one`. -/
theorem foldl_countPage (pages : List (ℕ × ℕ × ℤ)) {h : Histogram2d}
    (rows : Rows (nrWalks + 1) h) :
    Rows (nrWalks + 1) (pages.foldl (countPage nrWalks) h) ∧
      ∀ loc j, (pages.foldl (countPage nrWalks) h).bin loc j =
        h.bin loc j +
          pages.countP fun page => refLoc page.2.2 = loc ∧ refBin nrWalks page.2.1 = j := by
  induction pages generalizing h with
  | nil => exact ⟨rows, fun _ _ => rfl⟩
  | cons page pages ih =>
      have hlt : refBin nrWalks page.2.1 < nrWalks + 1 := Nat.lt_succ_of_le (refBin_le _ _)
      obtain ⟨h1, h2⟩ := ih (rows.addTo (refLoc page.2.2) (refBin nrWalks page.2.1) 1)
      refine ⟨h1, fun loc j => ?_⟩
      rw [List.foldl_cons, countPage, h2, rows.bin_addTo hlt, List.countP_cons]
      simp only [decide_eq_true_eq, eq_comm (a := loc), eq_comm (a := j)]
      omega

/-- The inner loop over the bins of one node. -/
theorem foldl_sumBins {i : ℕ} (hi : i ≤ maxNid) {h : Histogram2d}
    (rows : Rows (nrWalks + 1) h) {m : ℕ} (hm : m ≤ nrWalks + 1) :
    Rows (nrWalks + 1) ((List.range m).foldl (sumBin numa i) h) ∧
      ∀ loc j, loc ≠ refLocAll → ((List.range m).foldl (sumBin numa i) h).bin loc j =
        h.bin loc j + if loc = locIndex numa i ∧ j < m then h.bin i j else 0 := by
  have hrow : i ≠ locIndex numa i ∧ i ≠ refLocAll ∧ locIndex numa i ≠ refLocAll := by
    unfold locIndex maxNid refLocPmem refLocDram refLocAll at *
    split <;> omega
  induction m with
  | zero => exact ⟨rows, by simp⟩
  | succ m ih =>
      obtain ⟨h1, h2⟩ := ih (by omega)
      rw [List.range_succ, List.foldl_append]
      have hbin := h2 i m hrow.2.1
      refine ⟨(h1.addTo _ _ _).addTo _ _ _, fun loc j hloc => ?_⟩
      simp only [List.foldl_cons, List.foldl_nil, sumBin]
      rw [(h1.addTo _ _ _).bin_addTo (by omega), h1.bin_addTo (by omega), h2 loc j hloc, hbin]
      simp only [Nat.lt_succ_iff_lt_or_eq (m := j) (n := m)]
      by_cases hl : loc = locIndex numa i <;> by_cases hj : j = m <;>
        simp [hl, hj, hloc, hrow]

/-- The loop over the nodes. -/
theorem foldl_sumNodes {h : Histogram2d} (rows : Rows (nrWalks + 1) h) {m : ℕ}
    (hm : m ≤ maxNid + 1) :
    Rows (nrWalks + 1) ((List.range m).foldl (sumNode numa nrWalks) h) ∧
      ∀ loc j, loc ≠ refLocAll → j ≤ nrWalks →
        ((List.range m).foldl (sumNode numa nrWalks) h).bin loc j =
          h.bin loc j + ∑ i ∈ Finset.range m,
          if numa.isValidNid i ∧ loc = locIndex numa i then h.bin i j else 0 := by
  induction m with
  | zero => exact ⟨rows, by simp⟩
  | succ m ih =>
      obtain ⟨h1, h2⟩ := ih (by omega)
      rw [List.range_succ, List.foldl_append, List.foldl_cons, List.foldl_nil, sumNode]
      split
      · rename_i hvalid
        have hrow : ∀ i : ℕ, m ≠ locIndex numa i ∧ m ≠ refLocAll := by
          intro i
          unfold locIndex maxNid refLocPmem refLocDram refLocAll at *
          split <;> omega
        obtain ⟨k1, k2⟩ := foldl_sumBins numa nrWalks (Nat.le_of_succ_le_succ hm) h1 le_rfl
        refine ⟨k1, fun loc j hloc hj => ?_⟩
        -- the rows summed up are never the row of a node
        have hm' := h2 m j (hrow 0).2 hj
        simp only [(hrow _).1, and_false, if_false, Finset.sum_const_zero, Nat.add_zero] at hm'
        rw [k2 loc j hloc, h2 loc j hloc hj, hm', Finset.sum_range_succ, Nat.add_assoc]
        simp [hvalid, Nat.lt_succ_of_le hj]
      · rename_i hinvalid
        refine ⟨h1, fun loc j hloc hj => ?_⟩
        rw [h2 loc j hloc hj, Finset.sum_range_succ]
        simp [hinvalid]

/-- The last loop. -/
theorem foldl_sumUnknown {h : Histogram2d} (rows : Rows (nrWalks + 1) h) {m : ℕ}
    (hm : m ≤ nrWalks + 1) :
    Rows (nrWalks + 1) ((List.range m).foldl sumUnknown h) ∧
      ∀ loc j, loc ≠ refLocAll → ((List.range m).foldl sumUnknown h).bin loc j = h.bin loc j := by
  induction m with
  | zero => exact ⟨rows, fun _ _ _ => rfl⟩
  | succ m ih =>
      obtain ⟨h1, h2⟩ := ih (by omega)
      rw [List.range_succ, List.foldl_append, List.foldl_cons, List.foldl_nil]
      refine ⟨h1.addTo _ _ _, fun loc j hloc => ?_⟩
      rw [sumUnknown, h1.bin_addTo (by omega), h2 loc j hloc]
      simp [hloc]

theorem countRefsOne_rows (pages : List (ℕ × ℕ × ℤ)) :
    Rows (nrWalks + 1) (countRefsOne numa nrWalks pages) :=
  (foldl_sumUnknown nrWalks (foldl_sumNodes numa nrWalks
    (foldl_countPage nrWalks pages (rows_resetOneRefCount _)).1 le_rfl).1 le_rfl).1

/-- The page lies on a valid node that is summed up in row `loc`. -/
def inRow (loc : ℕ) (nid : ℤ) : Bool := numa.isValidNid nid && (locIndex numa nid == loc)

/-- A page of row `loc` is counted for exactly one node. -/
theorem sum_nodes {pages : List (ℕ × ℕ × ℤ)} (hnid : ∀ page ∈ pages, page.2.2 ≤ maxNid)
    (loc j : ℕ) :
    (∑ i ∈ Finset.range (maxNid + 1), if numa.isValidNid i ∧ loc = locIndex numa i then
        pages.countP fun page => refLoc page.2.2 = i ∧ refBin nrWalks page.2.1 = j else 0) =
      pages.countP fun page => inRow numa loc page.2.2 && (refBin nrWalks page.2.1 == j) := by
  induction pages with
  | nil => simp
  | cons page pages ih =>
      have hpage := hnid page (List.mem_cons_self ..)
      rw [List.countP_cons, ← ih fun p hp => hnid p (List.mem_cons_of_mem _ hp)]
      have hsplit : ∀ i ∈ Finset.range (maxNid + 1),
          (if numa.isValidNid (i : ℕ) ∧ loc = locIndex numa (i : ℕ) then
            (page :: pages).countP fun page =>
              refLoc page.2.2 = i ∧ refBin nrWalks page.2.1 = j else 0) =
          (if numa.isValidNid (i : ℕ) ∧ loc = locIndex numa (i : ℕ) then
            pages.countP fun page =>
              refLoc page.2.2 = i ∧ refBin nrWalks page.2.1 = j else 0) +
          (if refLoc page.2.2 = i then
            if numa.isValidNid (i : ℕ) ∧ loc = locIndex numa (i : ℕ) ∧
              refBin nrWalks page.2.1 = j then 1 else 0 else 0) := by
        intro i _
        rw [List.countP_cons]
        by_cases h1 : numa.isValidNid (i : ℕ) ∧ loc = locIndex numa (i : ℕ)
        · by_cases h2 : refLoc page.2.2 = i
          · simp only [if_pos h1, h2, decide_eq_true_eq, true_and, if_true]
            simp [h1]
          · simp [if_pos h1, h2]
        · by_cases h3 : numa.isValidNid (i : ℕ) ∧ loc = locIndex numa (i : ℕ) ∧
              refBin nrWalks page.2.1 = j
          · exact absurd ⟨h3.1, h3.2.1⟩ h1
          · simp [if_neg h1, if_neg h3]
      rw [Finset.sum_congr rfl hsplit, Finset.sum_add_distrib, Finset.sum_ite_eq]
      congr 1
      by_cases hneg : 0 ≤ page.2.2
      · have hloc : refLoc page.2.2 = page.2.2.toNat := if_pos hneg
        have hcast : ((page.2.2.toNat : ℕ) : ℤ) = page.2.2 := Int.toNat_of_nonneg hneg
        have hmem : page.2.2.toNat ∈ Finset.range (maxNid + 1) := by
          rw [Finset.mem_range]
          unfold maxNid at *
          omega
        rw [hloc, if_pos hmem, hcast]
        simp only [inRow, Bool.and_eq_true, beq_iff_eq, eq_comm (a := loc), and_assoc]
      · have hloc : refLoc page.2.2 = refLocUnknown := if_neg hneg
        have hinvalid : numa.isValidNid page.2.2 = false := by
          simp [NumaNodeCollection.isValidNid, NumaNodeCollection.getNode, hneg]
        rw [hloc, if_neg (by simp [refLocUnknown, maxNid])]
        simp [inRow, hinvalid]

/-- A bin of a summary row holds the number of pages of that kind of node whose
clamped count it is. -/
theorem countRefsOne_bin {pages : List (ℕ × ℕ × ℤ)} (hnid : ∀ page ∈ pages, page.2.2 ≤ maxNid)
    {loc : ℕ} (hloc : loc = refLocDram ∨ loc = refLocPmem) {j : ℕ} (hj : j ≤ nrWalks) :
    (countRefsOne numa nrWalks pages).bin loc j =
      pages.countP fun page => inRow numa loc page.2.2 && (refBin nrWalks page.2.1 == j) := by
  have hall : loc ≠ refLocAll := by rcases hloc with rfl | rfl <;> decide
  obtain ⟨rows₁, hbin₁⟩ := foldl_countPage nrWalks pages (rows_resetOneRefCount (nrWalks + 1))
  obtain ⟨rows₂, hbin₂⟩ := foldl_sumNodes numa nrWalks rows₁ (m := maxNid + 1) le_rfl
  obtain ⟨-, hbin₃⟩ := foldl_sumUnknown nrWalks rows₂ (m := nrWalks + 1) le_rfl
  have hzero : ∀ loc' j', (resetOneRefCount (nrWalks + 1)).bin loc' j' = 0 := by
    intro loc' j'
    simp [resetOneRefCount, bin, List.getElem?_replicate]
    split <;> rfl
  -- no page is counted in a summary row directly
  have hnone : pages.countP (fun page => refLoc page.2.2 = loc ∧ refBin nrWalks page.2.1 = j) =
      0 := by
    rw [List.countP_eq_zero]
    intro page hpage
    have := hnid page hpage
    have hne : refLoc page.2.2 ≠ loc := by
      unfold refLoc maxNid refLocUnknown refLocDram refLocPmem at *
      split <;> omega
    simp [hne]
  rw [countRefsOne, hbin₃ loc j hall, hbin₂ loc j hall hj, hbin₁, hzero, hnone, ← sum_nodes numa
    nrWalks hnid loc j]
  simp only [hbin₁, hzero, Nat.zero_add]

end Count

end EPTScan

end MemoryOptimizer
