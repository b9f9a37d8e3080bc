import MemoryOptimizer.Migration.Conservation
import MemoryOptimizer.Migration.Executor
import Mathlib.Algebra.Order.BigOperators.Group.Finset

/-!
# What `anti_thrashing` decides

It moves one threshold where the two are too close, and then compares the
thresholds from before the move once more, so a parameter that it repairs is
disabled all the same.

* `selectedHot`, `selectedCold` — the pages a parameter selects.
* `adjustThreshold_cases` — the two repairs.
* `antiThrashing_repairs_iff` — when the decision is that of the thresholds moved;
  the selection never grows.
-/

namespace MemoryOptimizer

open EPTScan EPTMigrate Histogram2d

namespace GlobalScan

/-! ### What a parameter selects -/

/-- The pages of a row in the bins that satisfy `q`. -/
def pagesIn (h : Histogram2d) (loc : ℕ) (q : ℕ → Prop) [DecidablePred q] : ℕ :=
  ∑ j ∈ Finset.range (h loc).length with q j, h.bin loc j

/-- The pages of persistent memory that `promote_and_demote` saves: those above the
hot threshold, and of those at it as many as remain. -/
def selectedHot (h : Histogram2d) (p : MigrateParameter) : ℕ :=
  min p.promoteRemain.toNat (pagesIn h refLocPmem fun j => (j : ℤ) = p.hotThreshold) +
    pagesIn h refLocPmem fun j => (j : ℤ) > p.hotThreshold ∧ (j : ℤ) ≤ p.hotThresholdMax

/-- The pages of ordinary memory that it saves. -/
def selectedCold (h : Histogram2d) (p : MigrateParameter) : ℕ :=
  min p.demoteRemain.toNat (pagesIn h refLocDram fun j => (j : ℤ) = p.coldThreshold) +
    pagesIn h refLocDram fun j => (j : ℤ) < p.coldThreshold ∧ (j : ℤ) ≥ p.coldThresholdMin

section Pages

variable {h : Histogram2d} {loc : ℕ} {q r : ℕ → Prop} [DecidablePred q] [DecidablePred r]

theorem pagesIn_mono (hq : ∀ j, r j → q j) : pagesIn h loc r ≤ pagesIn h loc q := by
  refine Finset.sum_le_sum_of_subset fun j hj => ?_
  rw [Finset.mem_filter] at hj ⊢
  exact ⟨hj.1, hq j hj.2⟩

theorem pagesIn_eq_zero (hq : ∀ j, ¬q j) : pagesIn h loc q = 0 := by
  rw [pagesIn, Finset.filter_false_of_mem fun j _ => hq j, Finset.sum_empty]

theorem pagesIn_add (hq : ∀ j, q j → ¬r j) :
    pagesIn h loc q + pagesIn h loc r = pagesIn h loc fun j => q j ∨ r j := by
  unfold pagesIn
  rw [Finset.filter_or, Finset.sum_union]
  exact Finset.disjoint_filter.mpr fun j _ => hq j

/-- A moved threshold with what remains at it selects no more than `nr`, if the bins
that it adds to were selected before, or there are none. -/
theorem repaired_le {t : ℤ} {nr : ℕ} (hnr : pagesIn h loc q ≤ nr) (n : ℕ)
    (hbins : ((∀ j : ℕ, (j : ℤ) = t ∨ r j → q j) ∧ ∀ j : ℕ, (j : ℤ) = t → ¬r j) ∨ ∀ j, ¬r j) :
    min (min (n : ℤ) nr).toNat (pagesIn h loc fun j => (j : ℤ) = t) + pagesIn h loc r ≤ nr := by
  rcases hbins with ⟨hsub, hdisjoint⟩ | hempty
  · have hle := @pagesIn_mono h loc q (fun j => (j : ℤ) = t ∨ r j) _ _ hsub
    rw [← pagesIn_add hdisjoint] at hle
    omega
  · rw [pagesIn_eq_zero hempty]
    omega

end Pages

/-- On the pages a histogram was counted from, it is what the migration collects. -/
theorem length_promoteAndDemote_eq_selected {numa : NumaNodeCollection} (hpeer : PeersKnown numa)
    {nrWalks : ℕ} {pages : List (ℕ × ℕ × ℤ)} (hnid : ∀ page ∈ pages, page.2.2 ≤ maxNid)
    (hrefs : ∀ page ∈ pages, page.2.1 ≤ uint8 nrWalks) (p : MigrateParameter) :
    (promoteAndDemote numa p pages).hot.length = selectedHot (countRefsOne numa nrWalks pages) p ∧
      (promoteAndDemote numa p pages).cold.length =
        selectedCold (countRefsOne numa nrWalks pages) p := by
  have hpages : ∀ {loc : ℕ}, loc = refLocDram ∨ loc = refLocPmem → ∀ (q : ℕ → Prop)
      [DecidablePred q], pagesIn (countRefsOne numa nrWalks pages) loc q =
        rowCount numa loc pages fun n => q n := by
    intro loc hloc q _
    unfold pagesIn
    rw [countRefsOne_rows numa nrWalks pages loc, Finset.sum_filter, rowCount,
      ← sum_countP_refBin nrWalks]
    refine Finset.sum_congr rfl fun j hj => ?_
    rw [bin_eq_rowCount nrWalks hnid hloc (Nat.le_of_lt_succ (Finset.mem_range.mp hj)), rowCount]
    -- a page that is not clamped is in the bin of its own count
    have hbin : ∀ page ∈ pages, refBin nrWalks page.2.1 = page.2.1 := fun page hpage =>
      Nat.min_eq_left (hrefs page hpage)
    split
    · next hq =>
      refine List.countP_congr fun page hpage => ?_
      rw [hbin page hpage]
      simp only [Bool.and_eq_true, beq_iff_eq, decide_eq_true_eq]
      constructor
      · rintro ⟨hrow, rfl⟩
        exact ⟨⟨hrow, hq⟩, rfl⟩
      · exact fun h => ⟨h.1.1, h.2⟩
    · next hq =>
      refine (List.countP_eq_zero.mpr fun page hpage => ?_).symm
      rw [hbin page hpage]
      simp only [Bool.and_eq_true, beq_iff_eq, decide_eq_true_eq]
      rintro ⟨⟨-, hqpage⟩, rfl⟩
      exact hq hqpage
  obtain ⟨hhot, hcold⟩ := length_promoteAndDemote hpeer p pages
  rw [hhot, hcold]
  unfold selectedHot selectedCold
  rw [hpages (.inr rfl), hpages (.inr rfl), hpages (.inl rfl), hpages (.inl rfl)]
  exact ⟨rfl, rfl⟩

/-! ### The repair -/

section Repair

variable (cfg : PlanConfig) {h : Histogram2d} {p p' : MigrateParameter}

/-- The two repairs: the threshold that is moved, how far, and what remains at it. -/
theorem adjustThreshold_cases (rows : Rows (cfg.nrWalks + 1) h) (hcold : 0 ≤ p.coldThreshold)
    (hanti : 0 ≤ cfg.antiThrashThreshold) :
    (p.hotThreshold = cfg.nrWalks ∧ ∃ n : ℕ, adjustThreshold cfg h p = some
      { p with
        coldThreshold := max (p.hotThreshold - cfg.antiThrashThreshold) 0
        demoteRemain := min (n : ℤ) p.nrDemote }) ∨
    (p.hotThreshold ≠ cfg.nrWalks ∧ ∃ n : ℕ, adjustThreshold cfg h p = some
      { p with
        hotThreshold := min (p.coldThreshold + cfg.antiThrashThreshold) cfg.nrWalks
        promoteRemain := min (n : ℤ) p.nrPromote }) := by
  unfold adjustThreshold
  by_cases heq : p.hotThreshold = cfg.nrWalks
  · refine .inl ⟨heq, h.bin refLocDram (max (p.hotThreshold - cfg.antiThrashThreshold) 0).toNat, ?_⟩
    have hread := readBin_of_rows rows refLocDram
      (i := max (p.hotThreshold - cfg.antiThrashThreshold) 0) (le_max_right _ _) (by omega)
    simp only [if_pos heq, hread]
    rfl
  · refine .inr ⟨heq,
      h.bin refLocPmem (min (p.coldThreshold + cfg.antiThrashThreshold) cfg.nrWalks).toNat, ?_⟩
    have hread := readBin_of_rows rows refLocPmem
      (i := min (p.coldThreshold + cfg.antiThrashThreshold) cfg.nrWalks)
      (by omega) (min_le_right _ _)
    simp only [if_neg heq, hread]
    rfl

/-- The thresholds that `anti_thrashing` leaves are too close. -/
def TooClose (p : MigrateParameter) : Prop :=
  p.hotThreshold - p.coldThreshold < cfg.antiThrashThreshold

/-- The repair cannot reach the threshold: the one that is moved stops at its limit. -/
def NoRoom (p : MigrateParameter) : Prop :=
  if p.hotThreshold = cfg.nrWalks then (cfg.nrWalks : ℤ) < cfg.antiThrashThreshold
  else cfg.nrWalks - p.coldThreshold < cfg.antiThrashThreshold

/-- The call decides by the thresholds that it leaves, and selects no more than was
planned. -/
def Repairs (h : Histogram2d) (p : MigrateParameter) : Prop :=
  ∃ p' altered, antiThrashing cfg h p = some (p', altered) ∧
    (p'.enabled = false ↔ TooClose cfg p') ∧
    (p.nrPromote = selectedHot h p → selectedHot h p' ≤ p'.nrPromote) ∧
    (p.nrDemote = selectedCold h p → selectedCold h p' ≤ p'.nrDemote)

/-- The selection after a repair. -/
theorem adjustThreshold_selected (rows : Rows (cfg.nrWalks + 1) h) (hcold : 0 ≤ p.coldThreshold)
    (hhot : p.hotThreshold ≤ cfg.nrWalks) (hanti : 0 ≤ cfg.antiThrashThreshold)
    (hclose : TooClose cfg p) (hadjust : adjustThreshold cfg h p = some p') :
    (TooClose cfg p' ↔ NoRoom cfg p) ∧
    (p.nrPromote = selectedHot h p → selectedHot h p' ≤ p'.nrPromote) ∧
    (p.nrDemote = selectedCold h p → selectedCold h p' ≤ p'.nrDemote) := by
  unfold TooClose at hclose
  unfold TooClose NoRoom
  rcases adjustThreshold_cases cfg rows hcold hanti with ⟨heq, n, hcase⟩ | ⟨hne, n, hcase⟩
  · rw [hcase] at hadjust
    cases hadjust
    refine ⟨by rw [if_pos heq]; dsimp only; omega, fun hpromote => hpromote.ge, fun hdemote => ?_⟩
    -- the cold threshold goes down
    have hle : pagesIn h refLocDram (fun j => (j : ℤ) < p.coldThreshold ∧
        (j : ℤ) ≥ p.coldThresholdMin) ≤ selectedCold h p := Nat.le_add_left _ _
    have hrepair := repaired_le hle n
      (t := max (p.hotThreshold - cfg.antiThrashThreshold) 0)
      (r := fun j => (j : ℤ) < max (p.hotThreshold - cfg.antiThrashThreshold) 0 ∧
        (j : ℤ) ≥ p.coldThresholdMin) ?_
    · rw [hdemote]
      exact_mod_cast hrepair
    · by_cases hmin : p.coldThresholdMin ≤ max (p.hotThreshold - cfg.antiThrashThreshold) 0 ∧
          max (p.hotThreshold - cfg.antiThrashThreshold) 0 < p.coldThreshold
      · exact .inl ⟨fun j hj => by omega, fun j hj => by omega⟩
      · exact .inr fun j hj => by omega
  · rw [hcase] at hadjust
    cases hadjust
    refine ⟨by rw [if_neg hne]; dsimp only; omega, fun hpromote => ?_, fun hdemote => hdemote.ge⟩
    -- the hot threshold goes up
    have hle : pagesIn h refLocPmem (fun j => (j : ℤ) > p.hotThreshold ∧
        (j : ℤ) ≤ p.hotThresholdMax) ≤ selectedHot h p := Nat.le_add_left _ _
    have hrepair := repaired_le hle n
      (t := min (p.coldThreshold + cfg.antiThrashThreshold) cfg.nrWalks)
      (r := fun j => (j : ℤ) > min (p.coldThreshold + cfg.antiThrashThreshold) cfg.nrWalks ∧
        (j : ℤ) ≤ p.hotThresholdMax) ?_
    · rw [hpromote]
      exact_mod_cast hrepair
    · by_cases hmax : min (p.coldThreshold + cfg.antiThrashThreshold) cfg.nrWalks ≤
          p.hotThresholdMax
      · exact .inl ⟨fun j hj => by omega, fun j hj => by omega⟩
      · exact .inr fun j hj => by omega

/-- An enabled parameter with both thresholds set. They are `int`s, and so is
`cold_threshold + anti_threshold`: a cold threshold is below `nr_walks`. -/
structure BothSet (p : MigrateParameter) : Prop where
  enabled : p.enabled = true
  cold_nonneg : 0 ≤ p.coldThreshold
  hot_le : p.hotThreshold ≤ cfg.nrWalks
  anti_nonneg : 0 ≤ cfg.antiThrashThreshold
  sum_lt : cfg.antiThrashThreshold + cfg.nrWalks < 2 ^ 31

/-- Any histogram with a bin for each count, any threshold and any enabled parameter
with both thresholds set: the parameter is disabled exactly when the thresholds it is
left with are too close, if and only if they were not too close, or the repair cannot
reach the threshold. The selection never grows. -/
theorem antiThrashing_repairs_iff (rows : Rows (cfg.nrWalks + 1) h) (hset : BothSet cfg p) :
    (Repairs cfg h p ↔ ¬TooClose cfg p ∨ NoRoom cfg p) ∧
      ∃ p' altered, antiThrashing cfg h p = some (p', altered) ∧
        (p.nrPromote = selectedHot h p → selectedHot h p' ≤ p'.nrPromote) ∧
        (p.nrDemote = selectedCold h p → selectedCold h p' ≤ p'.nrDemote) := by
  obtain ⟨henabled, hcold, hhot, hanti, -⟩ := hset
  have hset : ¬(p.coldThreshold < 0 ∨ p.hotThreshold > cfg.nrWalks) := by omega
  by_cases hclose : TooClose cfg p
  · obtain ⟨q, hq⟩ : ∃ q, adjustThreshold cfg h p = some q := by
      rcases adjustThreshold_cases cfg rows hcold hanti with ⟨-, n, hcase⟩ | ⟨-, n, hcase⟩
      · exact ⟨_, hcase⟩
      · exact ⟨_, hcase⟩
    have hcall : antiThrashing cfg h p = some (q.disable "fail to anti-thrashing", true) := by
      unfold TooClose at hclose
      unfold antiThrashing
      rw [if_neg hset, if_neg (not_le.mpr hclose), hq]
      exact if_pos hclose
    obtain ⟨hroom, hpromote, hdemote⟩ :=
      adjustThreshold_selected cfg rows hcold hhot hanti hclose hq
    refine ⟨⟨?_, fun h => ?_⟩, _, _, hcall, hpromote, hdemote⟩
    · rintro ⟨p', altered, hcall', hdisabled, -⟩
      rw [hcall] at hcall'
      cases hcall'
      exact .inr (hroom.mp (hdisabled.mp rfl))
    · have hnoRoom := h.resolve_left (not_not.mpr hclose)
      exact ⟨_, _, hcall, ⟨fun _ => hroom.mpr hnoRoom, fun _ => rfl⟩, hpromote, hdemote⟩
  · have hcall : antiThrashing cfg h p = some (p, false) := by
      unfold TooClose at hclose
      unfold antiThrashing
      rw [if_neg hset, if_pos (not_lt.mp hclose)]
    have hsame : Repairs cfg h p := by
      refine ⟨p, false, hcall, ?_, fun hpromote => hpromote.ge, fun hdemote => hdemote.ge⟩
      rw [henabled]
      exact ⟨fun h => absurd h (by decide), fun h => absurd h hclose⟩
    exact ⟨⟨fun _ => .inl hclose, fun _ => hsame⟩, p, false, hcall,
      fun hpromote => hpromote.ge, fun hdemote => hdemote.ge⟩

end Repair

/-- Four walks, and a gap of 2 asked for. -/
def gapOfTwo : PlanConfig := ⟨4, 100, 100, 2, false⟩

/-- One page in every bin of every row. -/
def onePageEach : Histogram2d := fun _ => [1, 1, 1, 1, 1]

/-- All pages from `hot` walks up and from `cold` walks down. -/
def selectAll (hot cold : ℤ) : MigrateParameter :=
  ⟨hot, 4, 5 - hot, 1, cold, 0, cold + 1, 1, true, "None"⟩

theorem antiThrashing_repairs_iff_apart :
    Repairs gapOfTwo onePageEach (selectAll 3 1) ∧
      ∃ p' altered, antiThrashing gapOfTwo onePageEach (selectAll 3 1) = some (p', altered) ∧
        selectedHot onePageEach p' ≤ 2 ∧ selectedCold onePageEach p' ≤ 2 := by
  obtain ⟨hrepairs, p', altered, hcall, hpromote, hdemote⟩ :=
    antiThrashing_repairs_iff gapOfTwo (h := onePageEach) (p := selectAll 3 1) (fun _ => rfl)
      ⟨rfl, by decide, by decide, by decide, by decide⟩
  refine ⟨hrepairs.mpr (.inl (by unfold TooClose; decide)), p', altered, hcall, ?_, ?_⟩
  · cases hcall
    exact Int.ofNat_le.mp (hpromote (by decide))
  · cases hcall
    exact Int.ofNat_le.mp (hdemote (by decide))

/-- Thresholds of 2 and 1 become 3 and 1, far enough apart, and the parameter is
disabled. -/
theorem antiThrashing_repaired_disabled : ¬Repairs gapOfTwo onePageEach (selectAll 2 1) := by
  rintro ⟨p', altered, hcall, hdisabled, -⟩
  cases hcall
  have hclose := hdisabled.mp rfl
  unfold TooClose at hclose
  revert hclose
  decide

end GlobalScan

end MemoryOptimizer
