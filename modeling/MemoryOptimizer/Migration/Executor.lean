import MemoryOptimizer.Migration.Thresholds

/-!
# The migration against its plan

`EPTMigrate::promote_and_demote` classifies the pages a second time, now with
their raw counts, where `count_refs_one` had clamped them to
`(uint8_t)nr_walks`.  `promoteAndDemote_exact_iff` says exactly when the two
passes agree: the clamped bin is the only one in which they can differ.

A `rowCount` is a number of pages on the nodes of one kind; the histogram, the
plan and the migration are all sums of row counts.
-/

namespace MemoryOptimizer

open ProcIdlePageType EPTScan GlobalScan

namespace EPTMigrate

/-! ### `promote_and_demote` -/

/-- A page to move: its address, its node and the node it goes to. -/
structure Move where
  addr : ℕ
  fromNid : ℤ
  targetNid : ℕ
  deriving DecidableEq, Repr

/-- The arrays `promote_and_demote` collects, and its counters. -/
structure Moves where
  hot : List Move
  cold : List Move
  promoteRemain : ℤ
  demoteRemain : ℤ
  deriving DecidableEq, Repr

/-- `save_migrate_parameter`: a page whose node has no peer is skipped. -/
def saveMigrateParameter (numa : NumaNodeCollection) (addr : ℕ) (nid : ℤ) (moves : List Move) :
    List Move :=
  match (numa.getNode nid).bind NumaNode.getPeerNode with
  | none => moves
  | some peer => moves ++ [⟨addr, nid, peer⟩]

/-- The loop body of `promote_and_demote`, for one page. -/
def collectPage (numa : NumaNodeCollection) (p : MigrateParameter) (m : Moves)
    (page : ℕ × ℕ × ℤ) : Moves :=
  let (addr, refs, nid) := page
  match numa.getNode nid with
  | none => m
  | some node =>
      if node.isPmem then
        let refsInRange := (refs : ℤ) > p.hotThreshold ∧ refs ≤ p.hotThresholdMax
        if (refs : ℤ) = p.hotThreshold then
          let hot := if m.promoteRemain > 0 then saveMigrateParameter numa addr nid m.hot
            else m.hot
          { m with hot := hot, promoteRemain := m.promoteRemain - 1 }
        else if refsInRange then { m with hot := saveMigrateParameter numa addr nid m.hot }
        else m
      else
        let refsInRange := (refs : ℤ) < p.coldThreshold ∧ refs ≥ p.coldThresholdMin
        if (refs : ℤ) = p.coldThreshold then
          let cold := if m.demoteRemain > 0 then saveMigrateParameter numa addr nid m.cold
            else m.cold
          { m with cold := cold, demoteRemain := m.demoteRemain - 1 }
        else if refsInRange then { m with cold := saveMigrateParameter numa addr nid m.cold }
        else m

/-- The pages `promote_and_demote` hands to the migration. -/
def promoteAndDemote (numa : NumaNodeCollection) (p : MigrateParameter)
    (pages : List (ℕ × ℕ × ℤ)) : Moves :=
  pages.foldl (collectPage numa p) ⟨[], [], p.promoteRemain, p.demoteRemain⟩

/-! ### Counting pages of one kind -/

/-- The pages on nodes summed up in row `loc` whose count satisfies `q`. -/
def rowCount (numa : NumaNodeCollection) (loc : ℕ) (pages : List (ℕ × ℕ × ℤ)) (q : ℕ → Bool) :
    ℕ :=
  pages.countP fun page => inRow numa loc page.2.2 && q page.2.1

section RowCount

variable {numa : NumaNodeCollection} {loc : ℕ} {pages : List (ℕ × ℕ × ℤ)}

theorem rowCount_add {q q₁ q₂ : ℕ → Bool}
    (h : ∀ page ∈ pages, (q page.2.1).toNat = (q₁ page.2.1).toNat + (q₂ page.2.1).toNat) :
    rowCount numa loc pages q = rowCount numa loc pages q₁ + rowCount numa loc pages q₂ := by
  induction pages with
  | nil => rfl
  | cons page pages ih =>
      have hpage := h page (List.mem_cons_self ..)
      have hrest := ih fun p hp => h p (List.mem_cons_of_mem _ hp)
      unfold rowCount at hrest ⊢
      rw [List.countP_cons, List.countP_cons, List.countP_cons, hrest]
      cases inRow numa loc page.2.2 <;> cases hq : q page.2.1 <;> cases hq₁ : q₁ page.2.1 <;>
        cases hq₂ : q₂ page.2.1 <;> simp [hq, hq₁, hq₂] at hpage ⊢ <;> omega

theorem rowCount_congr {q q' : ℕ → Bool} (h : ∀ page ∈ pages, q page.2.1 = q' page.2.1) :
    rowCount numa loc pages q = rowCount numa loc pages q' :=
  List.countP_congr fun page hp => by rw [h page hp]

theorem rowCount_eq_zero {q : ℕ → Bool} (h : ∀ page ∈ pages, q page.2.1 = false) :
    rowCount numa loc pages q = 0 := by
  rw [rowCount, List.countP_eq_zero]
  intro page hp
  simp [h page hp]

end RowCount

section Histogram

variable {numa : NumaNodeCollection} {pages : List (ℕ × ℕ × ℤ)} (nrWalks : ℕ)
variable (hnid : ∀ page ∈ pages, page.2.2 ≤ maxNid)
include hnid

theorem bin_eq_rowCount {loc : ℕ} (hloc : loc = refLocDram ∨ loc = refLocPmem) {t : ℕ}
    (ht : t ≤ nrWalks) :
    (countRefsOne numa nrWalks pages).bin loc t =
      rowCount numa loc pages fun n => refBin nrWalks n == t :=
  countRefsOne_bin numa nrWalks hnid hloc ht

theorem hotter_eq_rowCount {t : ℕ} (ht : t ≤ nrWalks + 1) :
    hotter (countRefsOne numa nrWalks pages) t =
      rowCount numa refLocPmem pages fun n => t ≤ refBin nrWalks n := by
  obtain ⟨k, hk⟩ := Nat.exists_eq_add_of_le ht
  induction k generalizing t with
  | zero =>
      obtain rfl : t = nrWalks + 1 := by omega
      rw [hotter_of_rows (countRefsOne_rows numa nrWalks pages), rowCount_eq_zero]
      intro page _
      have := refBin_le nrWalks page.2.1
      simp only [decide_eq_false_iff_not]
      omega
  | succ k ih =>
      rw [hotter_eq, ih (t := t + 1) (by omega) (by omega),
        bin_eq_rowCount nrWalks hnid (Or.inr rfl) (by omega)]
      refine (rowCount_add fun page _ => ?_).symm
      rcases lt_trichotomy t (refBin nrWalks page.2.1) with h | h | h
      · have h1 : t ≤ refBin nrWalks page.2.1 := h.le
        have h2 : refBin nrWalks page.2.1 ≠ t := h.ne'
        simp [h1, h2, Nat.succ_le_of_lt h]
      · simp [← h]
      · have h1 : ¬t ≤ refBin nrWalks page.2.1 := not_le.mpr h
        have h2 : ¬t + 1 ≤ refBin nrWalks page.2.1 := by omega
        simp [h1, h2, beq_false_of_ne h.ne]

theorem colder_eq_rowCount {t : ℕ} (ht : t ≤ nrWalks + 1) :
    colder (countRefsOne numa nrWalks pages) t =
      rowCount numa refLocDram pages fun n => refBin nrWalks n < t := by
  induction t with
  | zero =>
      rw [colder_zero, rowCount_eq_zero]
      intro page _
      simp
  | succ t ih =>
      rw [colder_succ, ih (by omega), bin_eq_rowCount nrWalks hnid (Or.inl rfl) (by omega)]
      refine (rowCount_add fun page _ => ?_).symm
      rcases lt_trichotomy (refBin nrWalks page.2.1) t with h | h | h
      · have h1 : refBin nrWalks page.2.1 < t + 1 := by omega
        simp [h1, h, h.ne]
      · simp [h]
      · have h1 : ¬refBin nrWalks page.2.1 < t + 1 := by omega
        have h2 : ¬refBin nrWalks page.2.1 < t := by omega
        simp [h1, h2, beq_false_of_ne h.ne']

end Histogram

/-! ### What the migration collects -/

theorem inRow_pmem (numa : NumaNodeCollection) (nid : ℤ) :
    inRow numa refLocPmem nid = (numa.getNode nid).any NumaNode.isPmem := by
  unfold inRow locIndex NumaNodeCollection.isValidNid NumaNodeCollection.isPmemNid
  cases numa.getNode nid with
  | none => rfl
  | some node => cases hp : node.isPmem <;> simp [hp, refLocPmem, refLocDram]

theorem inRow_dram (numa : NumaNodeCollection) (nid : ℤ) :
    inRow numa refLocDram nid = (numa.getNode nid).any fun node => !node.isPmem := by
  unfold inRow locIndex NumaNodeCollection.isValidNid NumaNodeCollection.isPmemNid
  cases numa.getNode nid with
  | none => rfl
  | some node => cases hp : node.isPmem <;> simp [hp, refLocPmem, refLocDram]

/-- Every node has a peer. -/
def PeersKnown (numa : NumaNodeCollection) : Prop :=
  ∀ nid node, numa.getNode nid = some node → node.getPeerNode.isSome

theorem length_saveMigrateParameter {numa : NumaNodeCollection} (hpeer : PeersKnown numa)
    {nid : ℤ} {node : NumaNode} (hnode : numa.getNode nid = some node) (addr : ℕ)
    (moves : List Move) :
    (saveMigrateParameter numa addr nid moves).length = moves.length + 1 := by
  obtain ⟨peer, hpeer⟩ := Option.isSome_iff_exists.mp (hpeer nid node hnode)
  simp [saveMigrateParameter, hnode, hpeer]

theorem foldl_collectPage {numa : NumaNodeCollection} (hpeer : PeersKnown numa)
    (p : MigrateParameter) (pages : List (ℕ × ℕ × ℤ)) (m : Moves) :
    ((pages.foldl (collectPage numa p) m).hot.length = m.hot.length +
        min m.promoteRemain.toNat
          (rowCount numa refLocPmem pages fun n => (n : ℤ) = p.hotThreshold) +
        rowCount numa refLocPmem pages fun n =>
          (n : ℤ) > p.hotThreshold ∧ n ≤ p.hotThresholdMax) ∧
      (pages.foldl (collectPage numa p) m).cold.length = m.cold.length +
        min m.demoteRemain.toNat
          (rowCount numa refLocDram pages fun n => (n : ℤ) = p.coldThreshold) +
        rowCount numa refLocDram pages fun n =>
          (n : ℤ) < p.coldThreshold ∧ n ≥ p.coldThresholdMin := by
  induction pages generalizing m with
  | nil => simp [rowCount]
  | cons page pages ih =>
      obtain ⟨addr, refs, nid⟩ := page
      obtain ⟨ihHot, ihCold⟩ := ih (collectPage numa p m (addr, refs, nid))
      rw [List.foldl_cons, ihHot, ihCold]
      clear ihHot ihCold ih
      unfold rowCount
      rw [List.countP_cons, List.countP_cons, List.countP_cons, List.countP_cons]
      cases hnode : numa.getNode nid with
      | none => simp [collectPage, hnode, inRow_pmem, inRow_dram]
      | some node =>
          have hsave := length_saveMigrateParameter hpeer hnode addr
          cases hpmem : node.isPmem with
          | true =>
              simp only [collectPage, hnode, hpmem, inRow_pmem, inRow_dram, if_true,
                Option.any_some, Bool.not_true, Bool.false_and, Bool.true_and,
                Bool.false_eq_true, if_false, Nat.add_zero, decide_eq_true_eq]
              by_cases hat : (refs : ℤ) = p.hotThreshold
              · have hout : ¬((refs : ℤ) > p.hotThreshold ∧ refs ≤ p.hotThresholdMax) := by omega
                simp only [if_pos hat, if_neg hout, apply_ite List.length, hsave, and_true]
                split <;> omega
              · by_cases hin : (refs : ℤ) > p.hotThreshold ∧ refs ≤ p.hotThresholdMax
                · simp only [if_neg hat, if_pos hin, hsave, and_true]
                  omega
                · simp only [if_neg hat, if_neg hin, and_true]
                  omega
          | false =>
              simp only [collectPage, hnode, hpmem, inRow_pmem, inRow_dram,
                Option.any_some, Bool.not_false, Bool.false_and, Bool.true_and,
                Bool.false_eq_true, if_false, Nat.add_zero, decide_eq_true_eq]
              by_cases hat : (refs : ℤ) = p.coldThreshold
              · have hout : ¬((refs : ℤ) < p.coldThreshold ∧ refs ≥ p.coldThresholdMin) := by
                  omega
                simp only [if_pos hat, if_neg hout, apply_ite List.length, hsave, true_and]
                split <;> omega
              · by_cases hin : (refs : ℤ) < p.coldThreshold ∧ refs ≥ p.coldThresholdMin
                · simp only [if_neg hat, if_pos hin, hsave, true_and]
                  omega
                · simp only [if_neg hat, if_neg hin, true_and]
                  omega

/-- What is collected, from a finished parameter. -/
theorem length_promoteAndDemote {numa : NumaNodeCollection} (hpeer : PeersKnown numa)
    (p : MigrateParameter) (pages : List (ℕ × ℕ × ℤ)) :
    (promoteAndDemote numa p pages).hot.length =
        min p.promoteRemain.toNat
          (rowCount numa refLocPmem pages fun n => (n : ℤ) = p.hotThreshold) +
        rowCount numa refLocPmem pages (fun n =>
          (n : ℤ) > p.hotThreshold ∧ n ≤ p.hotThresholdMax) ∧
      (promoteAndDemote numa p pages).cold.length =
        min p.demoteRemain.toNat
          (rowCount numa refLocDram pages fun n => (n : ℤ) = p.coldThreshold) +
        rowCount numa refLocDram pages fun n =>
          (n : ℤ) < p.coldThreshold ∧ n ≥ p.coldThresholdMin := by
  simpa [promoteAndDemote] using
    foldl_collectPage hpeer p pages ⟨[], [], p.promoteRemain, p.demoteRemain⟩

/-! ### When the two passes agree -/

/-- The clamped PMEM bin does no harm.  With fewer than 256 walks it holds the
pages counted `nr_walks` times and, wrongly, those counted more often, which the
migration leaves out; from 256 walks on it holds everything from
`(uint8_t)nr_walks` up, which the migration does not leave out. -/
def PromoteExact (numa : NumaNodeCollection) (nrWalks : ℕ) (p : MigrateParameter)
    (pages : List (ℕ × ℕ × ℤ)) : Prop :=
  if nrWalks < 256 then
    (p.hotThreshold < nrWalks → rowCount numa refLocPmem pages (fun n => nrWalks < n) = 0) ∧
      (p.hotThreshold = nrWalks →
        p.promoteRemain ≤ rowCount numa refLocPmem pages fun n => n == nrWalks)
  else
    p.hotThreshold = uint8 nrWalks →
      rowCount numa refLocPmem pages (fun n => uint8 nrWalks < n) = 0 ∨
        p.promoteRemain = rowCount numa refLocPmem pages fun n => uint8 nrWalks ≤ n

/-- The clamped DRAM bin does no harm; it can be a cold bin only from 256 walks on. -/
def DemoteExact (numa : NumaNodeCollection) (nrWalks : ℕ) (p : MigrateParameter)
    (pages : List (ℕ × ℕ × ℤ)) : Prop :=
  p.coldThreshold = uint8 nrWalks →
    p.demoteRemain ≤ rowCount numa refLocDram pages fun n => n == uint8 nrWalks

section Exact

variable {numa : NumaNodeCollection} {nrWalks : ℕ} {pages : List (ℕ × ℕ × ℤ)}
variable (hnid : ∀ page ∈ pages, page.2.2 ≤ maxNid) (hrefs : ∀ page ∈ pages, page.2.1 < 256)
variable {p : MigrateParameter}

/-- Up to the clamp, a bin is the pages with that very count. -/
theorem rowCount_refBin_eq {loc t : ℕ} (ht : t < uint8 nrWalks) :
    rowCount numa loc pages (fun n => refBin nrWalks n == t) =
      rowCount numa loc pages fun n => n == t := by
  refine rowCount_congr fun page _ => ?_
  unfold refBin
  rw [Bool.eq_iff_iff, beq_iff_eq, beq_iff_eq]
  omega

theorem rowCount_le_refBin {loc t : ℕ} (ht : t ≤ uint8 nrWalks) :
    rowCount numa loc pages (fun n => t ≤ refBin nrWalks n) =
      rowCount numa loc pages fun n => t ≤ n := by
  refine rowCount_congr fun page _ => ?_
  unfold refBin
  rw [Bool.eq_iff_iff, decide_eq_true_iff, decide_eq_true_iff]
  omega

/-- The clamped bin holds everything from the clamp up. -/
theorem rowCount_refBin_clamp (loc : ℕ) :
    rowCount numa loc pages (fun n => refBin nrWalks n == uint8 nrWalks) =
      rowCount numa loc pages fun n => uint8 nrWalks ≤ n := by
  refine rowCount_congr fun page _ => ?_
  unfold refBin
  rw [Bool.eq_iff_iff, beq_iff_eq, decide_eq_true_iff]
  omega

theorem rowCount_le_split (loc t : ℕ) :
    rowCount numa loc pages (fun n => t ≤ n) =
      rowCount numa loc pages (fun n => n == t) + rowCount numa loc pages fun n => t < n := by
  refine rowCount_add fun page _ => ?_
  rcases lt_trichotomy t page.2.1 with h | h | h
  · simp [h, h.le, beq_false_of_ne h.ne']
  · simp [h]
  · simp [not_le.mpr h, not_lt.mpr h.le, beq_false_of_ne h.ne]

theorem rowCount_lt_split {loc t u : ℕ} (htu : t ≤ u) :
    rowCount numa loc pages (fun n => t < n) =
      rowCount numa loc pages (fun n => t < n ∧ n ≤ u) +
        rowCount numa loc pages fun n => u < n := by
  refine rowCount_add fun page _ => ?_
  by_cases h1 : t < page.2.1 <;> by_cases h2 : page.2.1 ≤ u
  · simp [h1, h2]
  · simp [h1, h2, not_le.mp h2]
  · simp [h1, not_lt.mpr h2]
  · omega

include hnid

/-- The bin of a hot threshold is not above the clamp, having pages in it. -/
theorem threshold_le_clamp {loc t : ℕ} (hloc : loc = refLocDram ∨ loc = refLocPmem)
    (ht : t ≤ nrWalks) (hbin : (countRefsOne numa nrWalks pages).bin loc t ≠ 0) :
    t ≤ uint8 nrWalks := by
  by_contra hlt
  refine hbin ?_
  rw [bin_eq_rowCount nrWalks hnid hloc ht, rowCount_eq_zero]
  intro page _
  refine beq_false_of_ne ?_
  unfold refBin
  omega

include hrefs

theorem promote_exact_iff (hpeer : PeersKnown numa)
    (form : PromoteForm nrWalks (countRefsOne numa nrWalks pages) p) :
    ((promoteAndDemote numa p pages).hot.length : ℤ) = p.nrPromote ↔
      PromoteExact numa nrWalks p pages := by
  rw [(length_promoteAndDemote hpeer p pages).1]
  rcases form with ⟨hhot, hmax, hnr, hremain⟩ | ⟨t, ht1, ht2, hhot, hmax, hbin, h0, hle, hnr⟩
  · have hnone : rowCount numa refLocPmem pages (fun n =>
        (n : ℤ) > p.hotThreshold ∧ n ≤ p.hotThresholdMax) = 0 := by
      refine rowCount_eq_zero fun page _ => ?_
      rw [decide_eq_false_iff_not]
      omega
    have hclamp : uint8 nrWalks ≤ nrWalks := Nat.mod_le _ _
    refine iff_of_true (by rw [hnone, hremain, hnr]; simp) ?_
    unfold PromoteExact
    split
    · exact ⟨fun h => by omega, fun h => by omega⟩
    · exact fun h => by omega
  · have hclamp := threshold_le_clamp hnid (Or.inr rfl) ht2 hbin
    have heq : rowCount numa refLocPmem pages (fun n => (n : ℤ) = p.hotThreshold) =
        rowCount numa refLocPmem pages fun n => n == t := by
      refine rowCount_congr fun page _ => ?_
      rw [hhot, Bool.eq_iff_iff, decide_eq_true_iff, beq_iff_eq, Nat.cast_inj]
    have hrange : rowCount numa refLocPmem pages (fun n =>
          (n : ℤ) > p.hotThreshold ∧ n ≤ p.hotThresholdMax) =
        rowCount numa refLocPmem pages fun n => t < n ∧ n ≤ nrWalks := by
      refine rowCount_congr fun page _ => ?_
      rw [hhot, hmax, Bool.eq_iff_iff, decide_eq_true_iff, decide_eq_true_iff, gt_iff_lt,
        Nat.cast_lt, Nat.cast_le]
    rw [bin_eq_rowCount nrWalks hnid (Or.inr rfl) ht2] at hle
    rw [hotter_eq_rowCount nrWalks hnid (by omega)] at hnr
    rw [heq, hrange, hnr]
    have hsplit : rowCount numa refLocPmem pages (fun n => t < n) = _ + _ :=
      rowCount_lt_split ht2
    rcases hclamp.lt_or_eq with hlt | rfl
    · -- the threshold bin is exact; above it only the clamped pages can be missing
      rw [rowCount_refBin_eq hlt] at hle
      rw [rowCount_le_refBin (Nat.succ_le_of_lt hlt)]
      show _ = ((rowCount numa refLocPmem pages fun n => t < n : ℕ) : ℤ) + _ ↔ _
      unfold PromoteExact
      split
      · rename_i hsmall
        have hw : uint8 nrWalks = nrWalks := Nat.mod_eq_of_lt hsmall
        have hne : p.hotThreshold ≠ nrWalks := by omega
        have hlt' : p.hotThreshold < nrWalks := by omega
        simp only [hlt', hne, true_implies, false_implies, and_true]
        omega
      · have hne : p.hotThreshold ≠ uint8 nrWalks := by omega
        have hover : rowCount numa refLocPmem pages (fun n => nrWalks < n) = 0 := by
          refine rowCount_eq_zero fun page hpage => ?_
          have := hrefs page hpage
          rw [decide_eq_false_iff_not]
          omega
        simp only [hne, false_implies, iff_true]
        omega
    · -- the threshold bin is the clamped one
      rw [rowCount_refBin_clamp, rowCount_le_split] at hle
      have htop : rowCount numa refLocPmem pages
          (fun n => uint8 nrWalks + 1 ≤ refBin nrWalks n) = 0 := by
        refine rowCount_eq_zero fun page _ => ?_
        have : refBin nrWalks page.2.1 ≤ uint8 nrWalks := min_le_right _ _
        rw [decide_eq_false_iff_not]
        omega
      rw [htop]
      unfold PromoteExact
      split
      · rename_i hsmall
        have hw : uint8 nrWalks = nrWalks := Nat.mod_eq_of_lt hsmall
        have hnone : rowCount numa refLocPmem pages
            (fun n => nrWalks < n ∧ n ≤ nrWalks) = 0 := by
          refine rowCount_eq_zero fun page _ => ?_
          rw [decide_eq_false_iff_not]
          omega
        have heq' : p.hotThreshold = nrWalks := by omega
        simp only [heq', hw, hnone, lt_irrefl, true_implies, false_implies, true_and]
        omega
      · have hover : rowCount numa refLocPmem pages (fun n => nrWalks < n) = 0 := by
          refine rowCount_eq_zero fun page hpage => ?_
          have := hrefs page hpage
          rw [decide_eq_false_iff_not]
          omega
        rw [rowCount_le_split]
        simp only [hhot, true_implies]
        omega

omit hrefs in
theorem demote_exact_iff (hpeer : PeersKnown numa)
    (form : DemoteForm nrWalks (countRefsOne numa nrWalks pages) p) :
    ((promoteAndDemote numa p pages).cold.length : ℤ) = p.nrDemote ↔
      DemoteExact numa nrWalks p pages := by
  rw [(length_promoteAndDemote hpeer p pages).2]
  rcases form with ⟨hcold, hnr, hremain⟩ | ⟨t, ht, hcold, hmin, hbin, h0, hle, hnr⟩
  · have hnone : rowCount numa refLocDram pages (fun n =>
        (n : ℤ) < p.coldThreshold ∧ n ≥ p.coldThresholdMin) = 0 := by
      refine rowCount_eq_zero fun page _ => ?_
      rw [decide_eq_false_iff_not]
      omega
    refine iff_of_true (by rw [hnone, hremain, hnr]; simp) fun h => ?_
    omega
  · have hclamp := threshold_le_clamp hnid (Or.inl rfl) ht.le hbin
    have heq : rowCount numa refLocDram pages (fun n => (n : ℤ) = p.coldThreshold) =
        rowCount numa refLocDram pages fun n => n == t := by
      refine rowCount_congr fun page _ => ?_
      rw [hcold, Bool.eq_iff_iff, decide_eq_true_iff, beq_iff_eq, Nat.cast_inj]
    have hrange : rowCount numa refLocDram pages (fun n =>
          (n : ℤ) < p.coldThreshold ∧ n ≥ p.coldThresholdMin) =
        colder (countRefsOne numa nrWalks pages) t := by
      rw [colder_eq_rowCount nrWalks hnid (by omega)]
      refine rowCount_congr fun page _ => ?_
      rw [hcold, hmin, Bool.eq_iff_iff, decide_eq_true_iff, decide_eq_true_iff]
      unfold refBin
      omega
    rw [bin_eq_rowCount nrWalks hnid (Or.inl rfl) ht.le] at hle
    rw [heq, hrange, hnr, DemoteExact, hcold]
    rcases hclamp.lt_or_eq with hlt | rfl
    · rw [rowCount_refBin_eq hlt] at hle
      have hne : (t : ℤ) ≠ uint8 nrWalks := by omega
      simp only [hne, false_implies, iff_true]
      omega
    · simp only [true_implies]
      omega

end Exact

/-- The migration of one range and type collects exactly what was planned for it
if and only if the clamped bins do no harm.  This does not need the parameter to
be enabled: a disabled one that `anti_thrashing` left alone plans no page. -/
theorem promoteAndDemote_exact_iff (numa : NumaNodeCollection) (hpeer : PeersKnown numa)
    (cfg : PlanConfig) (ranges : List EPTMigrate) (plan : Plan)
    (hplan : calcMigrateParameter cfg ranges = some plan) (r : ℕ) (range : EPTMigrate)
    (hrange : ranges[r]? = some range) (type : ProcIdlePageType) (htype : type ∈ plannedTypes)
    (seq : AddrSequence)
    (hseq : range.pagetypeRefs type = ⟨seq, countRefsOne numa cfg.nrWalks seq.pages⟩)
    (hnid : ∀ page ∈ seq.pages, page.2.2 ≤ maxNid) (hrefs : ∀ page ∈ seq.pages, page.2.1 < 256)
    (hnotice : (r, type) ∉ plan.notices) :
    ((promoteAndDemote numa (plan.parameter r type) seq.pages).hot.length : ℤ) =
          (plan.parameter r type).nrPromote ∧
        ((promoteAndDemote numa (plan.parameter r type) seq.pages).cold.length : ℤ) =
          (plan.parameter r type).nrDemote ↔
      PromoteExact numa cfg.nrWalks (plan.parameter r type) seq.pages ∧
        DemoteExact numa cfg.nrWalks (plan.parameter r type) seq.pages := by
  have hhist : (range.pagetypeRefs type).histogram2d =
      countRefsOne numa cfg.nrWalks seq.pages := by rw [hseq]
  obtain ⟨hpromote, hdemote⟩ := plan_forms hrange htype hhist (countRefsOne_rows _ _ _) hplan
    hnotice
  rw [promote_exact_iff hnid hrefs hpeer hpromote, demote_exact_iff hnid hpeer hdemote]

/-! ### Some ranges -/

/-- Node 0 is DRAM, node 1 is PMEM, each the other's peer. -/
def twoNodes : NumaNodeCollection :=
  ⟨[some ⟨0, NumaNodeType.dram, none, some 1⟩, some ⟨1, NumaNodeType.pmem, some 0, none⟩]⟩

/-- One walk over one PMEM page. -/
def countedOnce : AddrSequence :=
  let s := AddrSequence.init.clear.setPageshift 21
  let s := (s.rewind.incPayload Alloc.ok 0x200000 1).1
  (s.prepareUpdate.updateNodeid 0x200000 1 Location.pmem).1

/-- Two walks over one PMEM page; in the second one a huge page under two VMAs
counts it twice. -/
def countedTwice : AddrSequence :=
  let s := (countedOnce.rewind.incPayload Alloc.ok 0x200000 1).1
  (s.incPayload Alloc.ok 0x200000 1).1

/-- A range with one sequence of 2M pages, after `count_refs`. -/
def rangeOf (nrWalks : ℕ) (seq : AddrSequence) : EPTMigrate :=
  { ioError := 0
    nrWalks := nrWalks
    pagetypeRefs := fun type =>
      if type = pmdAccessed then ⟨seq, countRefsOne twoNodes nrWalks seq.pages⟩
      else ⟨AddrSequence.init, countRefsOne twoNodes nrWalks []⟩ }

/-- Three pages of persistent memory accessed in 2, 1 and 1 walks, and two pages of ordinary
memory accessed in 0 and 1. -/
def fivePages : AddrSequence :=
  let s := [(0x200000, 2), (0x400000, 1), (0x600000, 1), (0x800000, 0), (0xa00000, 1)].foldl
    (fun s page => (s.incPayload Alloc.ok page.1 page.2).1)
    (AddrSequence.init.clear.setPageshift 21).rewind
  [(0x200000, 1), (0x400000, 1), (0x600000, 1), (0x800000, 0), (0xa00000, 0)].foldl
    (fun s page => (s.updateNodeid page.1 page.2 Location.unknow).1) s.prepareUpdate

theorem twoNodes_peersKnown : PeersKnown twoNodes := by
  intro nid node h
  unfold NumaNodeCollection.getNode at h
  split at h
  · rcases hn : nid.toNat with _ | _ | n <;> simp [twoNodes, hn] at h <;>
      rw [← h] <;> rfl
  · cases h

/-- Three pages may be promoted: the page accessed twice, then the page of the first range,
and one of the two pages left. -/
theorem promoteAndDemote_fivePages :
    ∃ plan, calcMigrateParameter ⟨2, 6144, 2048, 0, false⟩
        [rangeOf 2 countedOnce, rangeOf 2 fivePages] = some plan ∧
      (promoteAndDemote twoNodes (plan.parameter 1 pmdAccessed) fivePages.pages).hot.length = 2 ∧
      (promoteAndDemote twoNodes (plan.parameter 1 pmdAccessed) fivePages.pages).cold.length =
        1 := by
  have hvalues : (calcMigrateParameter ⟨2, 6144, 2048, 0, false⟩
      [rangeOf 2 countedOnce, rangeOf 2 fivePages]).map
        (fun plan => (plan.notices, plan.parameter 1 pmdAccessed)) =
      some ([], ⟨1, 2, 2, 1, 0, 0, 1, 1, true, "None"⟩) := by decide +kernel
  obtain ⟨plan, hplan, hvalues⟩ := Option.map_eq_some_iff.mp hvalues
  obtain ⟨hnotices, hparam⟩ := Prod.mk.inj hvalues
  obtain ⟨hhot, hcold⟩ := (promoteAndDemote_exact_iff twoNodes twoNodes_peersKnown
    ⟨2, 6144, 2048, 0, false⟩ [rangeOf 2 countedOnce, rangeOf 2 fivePages] plan hplan 1
    (rangeOf 2 fivePages) rfl pmdAccessed (by decide) fivePages rfl (by decide +kernel)
    (by decide +kernel) (by simp [hnotices])).mpr
    (by
      rw [hparam]
      unfold PromoteExact DemoteExact
      decide +kernel)
  rw [hparam] at hhot hcold
  refine ⟨plan, hplan, ?_, ?_⟩
  · rw [hparam]
    exact Int.ofNat_inj.mp hhot
  · rw [hparam]
    exact Int.ofNat_inj.mp hcold

/-- The page counted twice in one walk is planned for promotion and not collected. -/
theorem promoteAndDemote_countedTwice :
    ((calcMigrateParameter ⟨2, 4096, 4096, 2, false⟩ [rangeOf 2 countedTwice]).map fun plan =>
      (plan.notices, (plan.parameter 0 pmdAccessed).enabled,
        (plan.parameter 0 pmdAccessed).nrPromote,
        (promoteAndDemote twoNodes (plan.parameter 0 pmdAccessed) countedTwice.pages).hot)) =
      some ([], true, 1, []) := by
  decide

end EPTMigrate

end MemoryOptimizer
