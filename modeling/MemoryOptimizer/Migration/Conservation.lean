import MemoryOptimizer.Migration.Histogram

/-!
# Which pages the histogram keeps

`count_refs_one` bins every page by its node, and then folds the rows of the nodes
that are configured into the summary rows. A page on a node that is not configured
is in none of these.

* `countRefsOne_all` — the pages in a bin of `REF_LOC_ALL`.
* `countRefsOne_losesNoPage_iff` — no page is lost if and only if every page is on
  a configured node or on none.
-/

namespace MemoryOptimizer

namespace EPTScan

open Histogram2d

section Rows

variable (numa : NumaNodeCollection) (nrWalks : ℕ) {h : Histogram2d}

/-- The two rows of kinds of memory make up `REF_LOC_ALL`. -/
def Folded (h : Histogram2d) : Prop :=
  ∀ j, h.bin refLocAll j = h.bin refLocDram j + h.bin refLocPmem j

theorem Folded.countPage (hfold : Folded h) (rows : Rows (nrWalks + 1) h) {page : ℕ × ℕ × ℤ}
    (hnid : page.2.2 ≤ maxNid) : Folded (countPage nrWalks h page) := by
  have hlt : refBin nrWalks page.2.1 < nrWalks + 1 := Nat.lt_succ_of_le (refBin_le _ _)
  have hloc : refLocAll ≠ refLoc page.2.2 ∧ refLocDram ≠ refLoc page.2.2 ∧
      refLocPmem ≠ refLoc page.2.2 := by
    unfold refLoc maxNid refLocUnknown refLocAll refLocDram refLocPmem at *
    split <;> omega
  intro j
  rw [EPTScan.countPage, rows.bin_addTo hlt, rows.bin_addTo hlt, rows.bin_addTo hlt,
    if_neg fun h => hloc.1 h.1, if_neg fun h => hloc.2.1 h.1, if_neg fun h => hloc.2.2 h.1]
  exact hfold j

theorem Folded.countPages (hfold : Folded h) (rows : Rows (nrWalks + 1) h)
    {pages : List (ℕ × ℕ × ℤ)} (hnid : ∀ page ∈ pages, page.2.2 ≤ maxNid) :
    Folded (pages.foldl (EPTScan.countPage nrWalks) h) := by
  induction pages generalizing h with
  | nil => exact hfold
  | cons page pages ih =>
      obtain ⟨hpage, hpages⟩ := List.forall_mem_cons.mp hnid
      exact ih (hfold.countPage nrWalks rows hpage) (rows.addTo _ _ _) hpages

/-- Every bin of a node goes into one kind of memory, and into `REF_LOC_ALL`. -/
theorem Folded.sumBin (hfold : Folded h) {n i j : ℕ} (rows : Rows n h) (hi : i ≤ maxNid)
    (hj : j < n) : Folded (sumBin numa i h j) := by
  have hrow : i ≠ locIndex numa i := by
    unfold locIndex maxNid refLocPmem refLocDram at *
    split <;> omega
  have hsame : (h.addTo (locIndex numa i) j (h.bin i j)).bin i j = h.bin i j := by
    rw [rows.bin_addTo hj, if_neg fun h => hrow h.1, Nat.add_zero]
  intro k
  rw [EPTScan.sumBin, hsame, (rows.addTo _ _ _).bin_addTo hj, (rows.addTo _ _ _).bin_addTo hj,
    (rows.addTo _ _ _).bin_addTo hj, rows.bin_addTo hj, rows.bin_addTo hj, rows.bin_addTo hj,
    hfold k]
  by_cases hk : k = j
  · unfold locIndex
    split <;> simp [hk, refLocAll, refLocDram, refLocPmem] <;> omega
  · simp [hk]

theorem rows_foldl_sumBin {n i m : ℕ} (rows : Rows n h) :
    Rows n ((List.range m).foldl (EPTScan.sumBin numa i) h) := by
  induction m with
  | zero => exact rows
  | succ m ih =>
      rw [List.range_succ, List.foldl_append]
      exact (ih.addTo _ _ _).addTo _ _ _

theorem Folded.sumNode (hfold : Folded h) (rows : Rows (nrWalks + 1) h) {i : ℕ}
    (hi : i ≤ maxNid) : Folded (sumNode numa nrWalks h i) := by
  unfold EPTScan.sumNode
  split
  · have hrun : ∀ m ≤ nrWalks + 1, Folded ((List.range m).foldl (EPTScan.sumBin numa i) h) := by
      intro m hm
      induction m with
      | zero => exact hfold
      | succ m ih =>
          rw [List.range_succ, List.foldl_append]
          exact (ih (by omega)).sumBin numa (rows_foldl_sumBin numa rows) hi hm
    exact hrun _ le_rfl
  · exact hfold

theorem Folded.sumNodes (hfold : Folded h) (rows : Rows (nrWalks + 1) h) {m : ℕ}
    (hm : m ≤ maxNid + 1) :
    Folded ((List.range m).foldl (EPTScan.sumNode numa nrWalks) h) := by
  induction m with
  | zero => exact hfold
  | succ m ih =>
      rw [List.range_succ, List.foldl_append]
      exact (ih (by omega)).sumNode numa nrWalks
        (foldl_sumNodes numa nrWalks rows (by omega)).1 (Nat.le_of_succ_le_succ hm)

/-- The last loop adds the pages of unknown nodes to `REF_LOC_ALL`. -/
theorem foldl_sumUnknown_all (rows : Rows (nrWalks + 1) h) {m : ℕ} (hm : m ≤ nrWalks + 1)
    (j : ℕ) : ((List.range m).foldl sumUnknown h).bin refLocAll j =
      h.bin refLocAll j + if j < m then h.bin refLocUnknown j else 0 := by
  induction m with
  | zero => rfl
  | succ m ih =>
      obtain ⟨rows', hsame⟩ := foldl_sumUnknown nrWalks rows (by omega : m ≤ nrWalks + 1)
      rw [List.range_succ, List.foldl_append, List.foldl_cons, List.foldl_nil, sumUnknown,
        rows'.bin_addTo hm, ih (by omega), hsame refLocUnknown m (by decide)]
      simp only [Nat.lt_succ_iff_lt_or_eq (m := j) (n := m)]
      by_cases hj : j = m
      · simp [hj]
      · simp [hj]

end Rows

section Count

variable (numa : NumaNodeCollection) (nrWalks : ℕ) {pages : List (ℕ × ℕ × ℤ)}

/-- The summary rows, from the rows that the first two loops leave. -/
theorem countRefsOne_eq (hnid : ∀ page ∈ pages, page.2.2 ≤ maxNid) {j : ℕ} (hj : j ≤ nrWalks) :
    (countRefsOne numa nrWalks pages).bin refLocUnknown j =
        pages.countP (fun page => decide (page.2.2 < 0) && (refBin nrWalks page.2.1 == j)) ∧
      (countRefsOne numa nrWalks pages).bin refLocAll j =
        (countRefsOne numa nrWalks pages).bin refLocDram j +
          (countRefsOne numa nrWalks pages).bin refLocPmem j +
            (countRefsOne numa nrWalks pages).bin refLocUnknown j := by
  have hzero : ∀ loc j, (resetOneRefCount (nrWalks + 1)).bin loc j = 0 := by
    intro loc j
    simp [resetOneRefCount, bin, List.getElem?_replicate]
    split <;> rfl
  have hempty : Folded (resetOneRefCount (nrWalks + 1)) := fun j => by
    rw [hzero, hzero, hzero]
  obtain ⟨rows₁, hbin₁⟩ := foldl_countPage nrWalks pages (rows_resetOneRefCount (nrWalks + 1))
  have hfold₁ := hempty.countPages nrWalks (rows_resetOneRefCount _) hnid
  obtain ⟨rows₂, hbin₂⟩ := foldl_sumNodes numa nrWalks rows₁ (m := maxNid + 1) le_rfl
  have hfold₂ := hfold₁.sumNodes numa nrWalks rows₁ (m := maxNid + 1) le_rfl
  obtain ⟨-, hbin₃⟩ := foldl_sumUnknown nrWalks rows₂ (m := nrWalks + 1) le_rfl
  have hall := foldl_sumUnknown_all nrWalks rows₂ (m := nrWalks + 1) le_rfl j
  refine ⟨?_, ?_⟩
  · have hrow : ∀ i : ℕ, refLocUnknown ≠ locIndex numa i := by
      intro i
      unfold locIndex refLocPmem refLocDram refLocUnknown
      split <;> omega
    rw [countRefsOne, hbin₃ _ j (by decide), hbin₂ _ j (by decide) hj, hbin₁, hzero]
    simp only [hrow, and_false, if_false, Finset.sum_const_zero, Nat.add_zero, Nat.zero_add]
    refine List.countP_congr fun page hpage => ?_
    have hle := hnid page hpage
    unfold refLoc maxNid refLocUnknown at *
    simp only [decide_eq_true_eq, Bool.and_eq_true, beq_iff_eq]
    split <;> constructor <;> rintro ⟨h1, h2⟩ <;> exact ⟨by omega, h2⟩
  · rw [if_pos (Nat.lt_succ_of_le hj)] at hall
    rw [countRefsOne, hall, hbin₃ _ j (by decide), hbin₃ _ j (by decide), hbin₃ _ j (by decide),
      hfold₂ j]

/-- The page is on a configured node, or on none. -/
def Located (numa : NumaNodeCollection) (nid : ℤ) : Bool :=
  decide (nid < 0) || numa.isValidNid nid

/-- A bin of `REF_LOC_ALL` holds the pages that are on a configured node or on none,
and have its clamped count. -/
theorem countRefsOne_all (hnid : ∀ page ∈ pages, page.2.2 ≤ maxNid) {j : ℕ} (hj : j ≤ nrWalks) :
    (countRefsOne numa nrWalks pages).bin refLocAll j =
      pages.countP fun page => Located numa page.2.2 && (refBin nrWalks page.2.1 == j) := by
  obtain ⟨hunknown, hall⟩ := countRefsOne_eq numa nrWalks hnid hj
  rw [hall, hunknown, countRefsOne_bin numa nrWalks hnid (Or.inl rfl) hj,
    countRefsOne_bin numa nrWalks hnid (Or.inr rfl) hj]
  clear hunknown hall hnid
  induction pages with
  | nil => rfl
  | cons page pages ih =>
      simp only [List.countP_cons, ← ih]
      have hrows : refLocDram ≠ refLocPmem := by decide
      by_cases hneg : page.2.2 < 0
      · have hinvalid : numa.isValidNid page.2.2 = false := by
          simp [NumaNodeCollection.isValidNid, NumaNodeCollection.getNode, not_le.mpr hneg]
        simp [inRow, Located, hneg, hinvalid]
        omega
      · unfold inRow Located locIndex
        cases numa.isValidNid page.2.2 <;> cases numa.isPmemNid page.2.2 <;>
          simp [hneg, hrows, hrows.symm] <;> omega

/-- No page is lost: the bins of `REF_LOC_ALL` hold the pages by their clamped count,
add up to all of them, and are made up of the three other summary rows. -/
structure LosesNoPage (numa : NumaNodeCollection) (nrWalks : ℕ) (pages : List (ℕ × ℕ × ℤ)) :
    Prop where
  all : ∀ k ≤ nrWalks, (countRefsOne numa nrWalks pages).bin refLocAll k =
    pages.countP fun page => min page.2.1 nrWalks == k
  sum : (countRefsOne numa nrWalks pages refLocAll).sum = pages.length
  parts : ∀ k ≤ nrWalks, (countRefsOne numa nrWalks pages).bin refLocDram k +
      (countRefsOne numa nrWalks pages).bin refLocPmem k +
        (countRefsOne numa nrWalks pages).bin refLocUnknown k =
    (countRefsOne numa nrWalks pages).bin refLocAll k

/-- The pages by their clamped count. -/
theorem sum_countP_refBin (q : ℕ × ℕ × ℤ → Bool) :
    ∑ k ∈ Finset.range (nrWalks + 1),
      (pages.countP fun page => q page && (refBin nrWalks page.2.1 == k)) = pages.countP q := by
  induction pages with
  | nil => simp
  | cons page pages ih =>
      have hmem : refBin nrWalks page.2.1 ∈ Finset.range (nrWalks + 1) :=
        Finset.mem_range.mpr (Nat.lt_succ_of_le (refBin_le _ _))
      simp only [List.countP_cons, Finset.sum_add_distrib, ih]
      congr 1
      cases hq : q page <;> simp [Finset.sum_ite_eq, hmem]

theorem sum_row (row : List ℕ) : row.sum = ∑ k ∈ Finset.range row.length, row[k]?.getD 0 := by
  induction row with
  | nil => rfl
  | cons n row ih =>
      rw [List.sum_cons, List.length_cons, Finset.sum_range_succ', ih, Nat.add_comm]
      simp

theorem sum_all (hnid : ∀ page ∈ pages, page.2.2 ≤ maxNid) :
    (countRefsOne numa nrWalks pages refLocAll).sum =
      pages.countP fun page => Located numa page.2.2 := by
  rw [sum_row, countRefsOne_rows numa nrWalks pages refLocAll,
    ← sum_countP_refBin nrWalks fun page => Located numa page.2.2]
  refine Finset.sum_congr rfl fun k hk => ?_
  exact countRefsOne_all numa nrWalks hnid (Nat.le_of_lt_succ (Finset.mem_range.mp hk))

/-- Any pages and any topology, with counts of up to 255 walks: no page is lost if and
only if every page is on a configured node, or on none. -/
theorem countRefsOne_losesNoPage_iff (numa : NumaNodeCollection) (nrWalks : ℕ)
    (pages : List (ℕ × ℕ × ℤ)) (hwalks : nrWalks ≤ 255)
    (hnid : ∀ page ∈ pages, -128 ≤ page.2.2 ∧ page.2.2 ≤ maxNid) :
    LosesNoPage numa nrWalks pages ↔
      ∀ page ∈ pages, page.2.2 < 0 ∨ numa.isValidNid page.2.2 = true := by
  have hle : ∀ page ∈ pages, page.2.2 ≤ maxNid := fun page hpage => (hnid page hpage).2
  have hlocated : ∀ page : ℕ × ℕ × ℤ, Located numa page.2.2 = true ↔
      page.2.2 < 0 ∨ numa.isValidNid page.2.2 = true := by
    intro page
    simp [Located]
  have hbin : ∀ refCount, refBin nrWalks refCount = min refCount nrWalks := by
    intro refCount
    rw [refBin, show uint8 nrWalks = nrWalks from Nat.mod_eq_of_lt (by omega)]
  constructor
  · intro h page hpage
    have hsum := h.sum
    rw [sum_all numa nrWalks hle, List.countP_eq_length] at hsum
    exact (hlocated page).mp (hsum page hpage)
  · intro h
    have hall : ∀ page ∈ pages, Located numa page.2.2 = true := fun page hpage =>
      (hlocated page).mpr (h page hpage)
    refine ⟨fun k hk => ?_, ?_, fun k hk => (countRefsOne_eq numa nrWalks hle hk).2.symm⟩
    · rw [countRefsOne_all numa nrWalks hle hk]
      refine List.countP_congr fun page hpage => ?_
      rw [hall page hpage, hbin, Bool.true_and]
    · rw [sum_all numa nrWalks hle, List.countP_eq_length]
      exact hall

/-- A node of ordinary memory with the id 0, and no other one. -/
def oneNode : NumaNodeCollection := ⟨[some ⟨0, .dram, none, none⟩, none]⟩

theorem countRefsOne_losesNoPage_oneNode :
    LosesNoPage oneNode 2 [(0x1000, 1, 0), (0x2000, 3, -1)] ↔
      ∀ page ∈ ([(0x1000, 1, 0), (0x2000, 3, -1)] : List (ℕ × ℕ × ℤ)),
        page.2.2 < 0 ∨ oneNode.isValidNid page.2.2 = true :=
  countRefsOne_losesNoPage_iff oneNode 2 [(0x1000, 1, 0), (0x2000, 3, -1)] (by decide)
    (by decide)

/-- The page of a node that is not configured is in no bin of `REF_LOC_ALL`. -/
theorem countRefsOne_losesPage :
    ¬LosesNoPage oneNode 2 [(0x1000, 1, 0), (0x2000, 3, 1)] := by
  intro h
  have hsum := h.sum
  revert hsum
  decide

end Count

end EPTScan

end MemoryOptimizer
