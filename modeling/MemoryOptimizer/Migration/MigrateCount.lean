import Mathlib.Tactic.Positivity
import MemoryOptimizer.Lib.Rounding
import MemoryOptimizer.Migration.Planner

/-!
# The limits of a plan

`GlobalScan::calc_migrate_count`: from the system's histogram it takes the memory
sizes and how much is there to promote and to demote, and balances the two by the
ratio that brings the DRAM closer to its share. Its `float` and `double` values are
rationals, rounded after every operation.

* `calcMigrateCount_nonneg` — neither limit is ever negative, whatever the options
  are.
-/

namespace MemoryOptimizer

open ProcIdlePageType

namespace GlobalScan

/-! ### The histogram of the system -/

/-- `EPTScan::sys_refs_count`: the sum of the histograms of the ranges. -/
def sysRefsCount (nrWalks : ℕ) (ranges : List EPTMigrate) (type : ProcIdlePageType) :
    Histogram2d :=
  fun loc => (List.range (nrWalks + 1)).map fun i =>
    (ranges.map fun range => (range.pagetypeRefs type).histogram2d.bin loc i).sum

/-- `global_total_pmem_kb` and `global_total_dram_kb` of `calc_memory_size`. -/
def globalTotalKb (sysRefs : ProcIdlePageType → Histogram2d) (loc : ℕ) : ℤ :=
  (plannedTypes.map fun type => ((sysRefs type loc).sum * 2 ^ (type.shift - 10) : ℤ)).sum

/-! ### The limits -/

/-- A `float`. -/
def float32 (q : ℚ) : ℚ := roundTo 24 q

/-- A `double`. -/
def float64 (q : ℚ) : ℚ := roundTo 53 q

/-- `option.dram_percent` and `option.one_period_migration_size`. -/
structure LimitOptions where
  dramPercent : ℤ
  onePeriodMigrationSize : ℤ

/-- `in_unbalanced_stage`. -/
def inUnbalancedStage (dramPercent pmemKb dramKb : ℤ) : Bool :=
  dramPercent ≠ 0 ∧
    |dramKb - ((pmemKb + dramKb) * dramPercent).tdiv 100| > max ((pmemKb + dramKb).tdiv 100) 102400

/-- `gap`: what there is too much of persistent memory. -/
def pmemGap (dramPercent pmemKb dramKb : ℤ) : ℤ :=
  pmemKb - ((pmemKb + dramKb) * (100 - dramPercent)).tdiv 100

/-- `too_many_aep`. -/
def tooManyAep (dramPercent pmemKb dramKb : ℤ) : Bool :=
  inUnbalancedStage dramPercent pmemKb dramKb ∧ pmemGap dramPercent pmemKb dramKb > 0

/-- `limit`. -/
def periodLimit (option : LimitOptions) (pmemKb dramKb : ℤ) : ℤ :=
  if tooManyAep option.dramPercent pmemKb dramKb then
    max option.onePeriodMigrationSize ((pmemGap option.dramPercent pmemKb dramKb).tdiv 8)
  else option.onePeriodMigrationSize

/-- `dram_target`. -/
def dramTarget (dramPercent totalMemKb : ℤ) : ℤ :=
  truncate (float64 (float64 totalMemKb * float64 (dramPercent / 100)))

/-- `promote_kb` and `demote_kb`, before the loop. -/
def splitLimit (dramPercent pmemKb dramKb limit : ℤ) : ℤ × ℤ :=
  if dramPercent ≠ 0 then
    let adjust := limit.tdiv 8
    let delta := dramTarget dramPercent (pmemKb + dramKb) - dramKb
    let delta := if delta < 0 then max delta (0 - limit + adjust) else min delta (limit - adjust)
    ((limit + delta).tdiv 2, (limit - delta).tdiv 2)
  else (limit.tdiv 2, limit.tdiv 2)

/-- The variables of the loop. -/
structure Available where
  promoteKb : ℤ
  demoteKb : ℤ
  availHotPageKb : ℤ
  availColdPageKb : ℤ

section Loop

variable (tooMany : Bool) (nrWalks : ℕ) (sysRefs : ProcIdlePageType → Histogram2d)

/-- The first half of the loop body. -/
def countHotPages (type : ProcIdlePageType) (hotThreshold : ℤ) (a : Available) : Available :=
  let pageKb : ℤ := min
    ((sysRefs type).bin refLocPmem hotThreshold.toNat * 2 ^ (type.shift - 10)) a.promoteKb
  if !tooMany then
    if hotThreshold ≥ nrWalks then { a with availHotPageKb := a.availHotPageKb + pageKb } else a
  else if hotThreshold ≤ 0 then a
  else if a.promoteKb ≤ 0 then a
  else
    { a with
      availHotPageKb := a.availHotPageKb + pageKb
      promoteKb := a.promoteKb - pageKb }

/-- The second half of the loop body. -/
def countColdPages (type : ProcIdlePageType) (coldThreshold : ℕ) (a : Available) : Available :=
  if coldThreshold ≥ nrWalks then a
  else if a.demoteKb ≤ 0 then a
  else
    let pageKb : ℤ := min
      ((sysRefs type).bin refLocDram coldThreshold * 2 ^ (type.shift - 10)) a.demoteKb
    { a with
      availColdPageKb := a.availColdPageKb + pageKb
      demoteKb := a.demoteKb - pageKb }

/-- The loop. -/
def countAvailable (a : Available) : Available :=
  (List.range (nrWalks + 1)).foldl
    (fun a i => plannedTypes.foldl
      (fun a type =>
        countColdPages nrWalks sysRefs type i
          (countHotPages tooMany nrWalks sysRefs type (nrWalks - i) a)) a) a

end Loop

/-- `demote_ratio > 1.0`, the ratio rounded by `round`. With nothing to promote the ratio
is infinite, with the sign of `demote_kb`, or not a number. -/
def needMoreColdPageBy (round : ℚ → ℚ) (promoteKb demoteKb : ℤ) : Bool :=
  if promoteKb = 0 then 0 < demoteKb else 1 < round (round demoteKb / round promoteKb)

/-- `need_more_cold_page`: `demote_ratio` is a `float`. -/
def needMoreColdPage (promoteKb demoteKb : ℤ) : Bool :=
  needMoreColdPageBy float32 promoteKb demoteKb

/-- The two limits, from what is available, the ratio and what is computed with it rounded
by `round`. The ratio is used only when hot pages are available, and so `promote_kb` is
not 0. -/
def adjustLimitsBy (round : ℚ → ℚ) (unbalanced : Bool)
    (promoteKb demoteKb availHotPageKb availColdPageKb : ℤ) : ℤ × ℤ :=
  let demoteRatio := round (round demoteKb / round promoteKb)
  let needMore := needMoreColdPageBy round promoteKb demoteKb
  if availColdPageKb ≠ 0 ∧ availHotPageKb ≠ 0 then
    let pageKb := truncate (round (round availHotPageKb * demoteRatio))
    let demoteLimitKb := min availColdPageKb pageKb
    if needMore ∧ pageKb > availColdPageKb then
      (truncate (round (round demoteLimitKb / demoteRatio)), demoteLimitKb)
    else (availHotPageKb, demoteLimitKb)
  else if availHotPageKb ≠ 0 then
    (if unbalanced then if needMore then 0 else availHotPageKb else 0, 0)
  else if availColdPageKb ≠ 0 then
    (0, if unbalanced then if needMore then availColdPageKb else 0 else 0)
  else (0, 0)

/-- The two limits of the code. -/
def adjustLimits (unbalanced : Bool) (promoteKb demoteKb availHotPageKb availColdPageKb : ℤ) :
    ℤ × ℤ :=
  adjustLimitsBy float32 unbalanced promoteKb demoteKb availHotPageKb availColdPageKb

/-- `saved_promote_kb` and `saved_demote_kb`. -/
def savedKb (option : LimitOptions) (pmemKb dramKb : ℤ) : ℤ × ℤ :=
  splitLimit option.dramPercent pmemKb dramKb (periodLimit option pmemKb dramKb)

/-- `calc_migrate_count` for any sizes of the memories, the ratio rounded by `round`. -/
def calcMigrateCountBy (round : ℚ → ℚ) (option : LimitOptions) (nrWalks : ℕ)
    (sysRefs : ProcIdlePageType → Histogram2d) (pmemKb dramKb : ℤ) : ℤ × ℤ :=
  let (promoteKb, demoteKb) := savedKb option pmemKb dramKb
  let a := countAvailable (tooManyAep option.dramPercent pmemKb dramKb) nrWalks sysRefs
    ⟨promoteKb, demoteKb, 0, 0⟩
  adjustLimitsBy round (inUnbalancedStage option.dramPercent pmemKb dramKb) promoteKb demoteKb
    a.availHotPageKb a.availColdPageKb

/-- `calc_migrate_count`: `promote_limit_kb` and `demote_limit_kb`. -/
def calcMigrateCount (option : LimitOptions) (nrWalks : ℕ)
    (sysRefs : ProcIdlePageType → Histogram2d) : ℤ × ℤ :=
  calcMigrateCountBy float32 option nrWalks sysRefs (globalTotalKb sysRefs refLocPmem)
    (globalTotalKb sysRefs refLocDram)

/-! ### A limit that is not negative -/

theorem float32_nonneg {q : ℚ} (hq : 0 ≤ q) : 0 ≤ float32 q := roundTo_nonneg le_rfl hq

theorem splitLimit_nonneg (dramPercent pmemKb dramKb : ℤ) {limit : ℤ} (hlimit : 0 ≤ limit) :
    0 ≤ (splitLimit dramPercent pmemKb dramKb limit).1 ∧
      0 ≤ (splitLimit dramPercent pmemKb dramKb limit).2 := by
  have hadjust : 0 ≤ limit.tdiv 8 := Int.tdiv_nonneg hlimit (by decide)
  have hle : limit.tdiv 8 ≤ limit := Int.tdiv_le_self _ hlimit
  unfold splitLimit
  split
  · dsimp only
    split <;> exact ⟨Int.tdiv_nonneg (by omega) (by decide), Int.tdiv_nonneg (by omega) (by decide)⟩
  · exact ⟨Int.tdiv_nonneg hlimit (by decide), Int.tdiv_nonneg hlimit (by decide)⟩

section Loop

variable {tooMany : Bool} {nrWalks : ℕ} {sysRefs : ProcIdlePageType → Histogram2d}

/-- The loop rule: what both halves of the body keep, the loop keeps. -/
theorem countAvailable_keeps {P : Available → Prop}
    (hhot : ∀ type hot a, P a → P (countHotPages tooMany nrWalks sysRefs type hot a))
    (hcold : ∀ type cold a, P a → P (countColdPages nrWalks sysRefs type cold a)) {a : Available}
    (h : P a) : P (countAvailable tooMany nrWalks sysRefs a) := by
  refine List.foldlRecOn (motive := P) _ _ h fun a ha i _ => ?_
  refine List.foldlRecOn (motive := P) _ _ ha fun a ha type _ => ?_
  exact hcold type i _ (hhot type _ a ha)

/-- Nothing is negative. -/
structure Available.Nonneg (a : Available) : Prop where
  promote : 0 ≤ a.promoteKb
  demote : 0 ≤ a.demoteKb
  hot : 0 ≤ a.availHotPageKb
  cold : 0 ≤ a.availColdPageKb

theorem countAvailable_nonneg {a : Available} (h : a.Nonneg) :
    (countAvailable tooMany nrWalks sysRefs a).Nonneg := by
  refine countAvailable_keeps (fun type hot a h => ?_) (fun type cold a h => ?_) h
  · have hbin : (0 : ℤ) ≤ (sysRefs type).bin refLocPmem hot.toNat * 2 ^ (type.shift - 10) := by
      positivity
    have hpage := le_min hbin h.promote
    have hle := min_le_right
      ((sysRefs type).bin refLocPmem hot.toNat * 2 ^ (type.shift - 10) : ℤ) a.promoteKb
    unfold countHotPages
    dsimp only
    split
    · split
      · exact { h with hot := add_nonneg h.hot hpage }
      · exact h
    · split
      · exact h
      · split
        · exact h
        · exact { h with hot := add_nonneg h.hot hpage, promote := sub_nonneg.mpr hle }
  · have hbin : (0 : ℤ) ≤ (sysRefs type).bin refLocDram cold * 2 ^ (type.shift - 10) := by
      positivity
    unfold countColdPages
    dsimp only
    split
    · exact h
    · split
      · exact h
      · exact { h with
          cold := add_nonneg h.cold (le_min hbin h.demote)
          demote := sub_nonneg.mpr (min_le_right _ _) }

/-- With a negative budget, and without too much persistent memory, the loop finds no
cold pages, and a negative amount of hot ones unless there is nothing to promote. -/
structure Available.Negative (promoteKb : ℤ) (a : Available) : Prop where
  promote : a.promoteKb = promoteKb
  demote : a.demoteKb ≤ 0
  hot : promoteKb = 0 → a.availHotPageKb = 0
  cold : a.availColdPageKb = 0

theorem Available.Negative.start (promoteKb : ℤ) {demoteKb : ℤ} (hdemote : demoteKb ≤ 0) :
    Available.Negative promoteKb ⟨promoteKb, demoteKb, 0, 0⟩ :=
  ⟨rfl, hdemote, fun _ => rfl, rfl⟩

theorem countAvailable_negative {promoteKb : ℤ} {a : Available} (h : a.Negative promoteKb) :
    (countAvailable false nrWalks sysRefs a).Negative promoteKb := by
  refine countAvailable_keeps (fun type hot a h => ?_) (fun type cold a h => ?_) h
  · have hbin : (0 : ℤ) ≤ (sysRefs type).bin refLocPmem hot.toNat * 2 ^ (type.shift - 10) := by
      positivity
    unfold countHotPages
    dsimp only
    split
    · split
      · refine { h with hot := fun hzero => ?_ }
        rw [h.hot hzero, h.promote, hzero, min_eq_right hbin, add_zero]
      · exact h
    · next htrue => exact absurd rfl htrue
  · unfold countColdPages
    split
    · exact h
    · split
      · exact h
      · next hpos => exact absurd h.demote hpos

end Loop

theorem adjustLimits_nonneg {unbalanced : Bool} {promoteKb demoteKb hot cold : ℤ}
    (hpromote : 0 ≤ promoteKb) (hdemote : 0 ≤ demoteKb) (hhot : 0 ≤ hot) (hcold : 0 ≤ cold) :
    0 ≤ (adjustLimits unbalanced promoteKb demoteKb hot cold).1 ∧
      0 ≤ (adjustLimits unbalanced promoteKb demoteKb hot cold).2 := by
  have hratio : 0 ≤ float32 (float32 demoteKb / float32 promoteKb) :=
    float32_nonneg (div_nonneg (float32_nonneg (by exact_mod_cast hdemote))
      (float32_nonneg (by exact_mod_cast hpromote)))
  have hpage : 0 ≤ truncate (float32 (float32 hot *
      float32 (float32 demoteKb / float32 promoteKb))) :=
    truncate_nonneg (float32_nonneg (mul_nonneg (float32_nonneg (by exact_mod_cast hhot)) hratio))
  have hmin := le_min hcold hpage
  unfold adjustLimits adjustLimitsBy
  dsimp only
  split
  · split
    · refine ⟨truncate_nonneg (float32_nonneg (div_nonneg (float32_nonneg ?_) hratio)), hmin⟩
      exact_mod_cast hmin
    · exact ⟨hhot, hmin⟩
  · split
    · refine ⟨?_, le_rfl⟩
      split
      · split
        · exact le_rfl
        · exact hhot
      · exact le_rfl
    · split
      · refine ⟨le_rfl, ?_⟩
        split
        · split
          · exact hcold
          · exact le_rfl
        · exact le_rfl
      · exact ⟨le_rfl, le_rfl⟩

/-! ### A negative option

`one_period_migration_size` may be negative. Then nothing is to be demoted, and hot
pages are available in a negative amount, which would become the limit; but that
happens only in the unbalanced stage with too little persistent memory, and there the
ratio asks for cold pages. -/

/-- C's division. -/
theorem tdiv_eq (a b : ℤ) : a.tdiv b = if 0 ≤ a then a / b else -(-a / b) := by
  split
  · next ha => exact Int.tdiv_eq_ediv_of_nonneg ha
  · next ha =>
    rw [← Int.tdiv_eq_ediv_of_nonneg (by omega : 0 ≤ -a), Int.neg_tdiv, neg_neg]

/-- An unbalanced stage without too much persistent memory has far too much DRAM. -/
theorem dramKb_gt {target total pmemKb dramKb : ℤ} (htotal : total = pmemKb + dramKb)
    (hpmem : 0 ≤ pmemKb) (hgap : pmemKb - (100 * total - target).tdiv 100 ≤ 0)
    (hbalance : |dramKb - target.tdiv 100| > max (total.tdiv 100) 102400) :
    2 * target + total + 10000000 < 200 * dramKb := by
  simp only [tdiv_eq] at *
  rcases abs_cases (dramKb - if 0 ≤ target then target / 100 else -(-target / 100)) with
    ⟨habs, -⟩ | ⟨habs, -⟩ <;> rw [habs] at hbalance <;> split_ifs at * <;> omega

theorem dramTarget_lt_add (dramPercent totalKb : ℤ) :
    (dramTarget dramPercent totalKb : ℚ) <
      (totalKb * dramPercent : ℤ) / 100 +
        |((totalKb * dramPercent : ℤ) : ℚ)| / 100 / 2 ^ 20 + 1 := by
  have herr := abs_le.mp
    (abs_roundTo_mul_sub_le (p := 53) (by decide) (totalKb : ℚ) ((dramPercent : ℚ) / 100))
  have htrunc := (truncate_bounds (float64 (float64 totalKb * float64 (dramPercent / 100)))).1
  have habs : |((totalKb * dramPercent : ℤ) : ℚ)| / 100 =
      |(totalKb : ℚ)| * |(dramPercent : ℚ) / 100| := by
    rw [Int.cast_mul, abs_mul, abs_div, abs_of_pos (by norm_num : (0 : ℚ) < 100), mul_div_assoc]
  have hmul : ((totalKb * dramPercent : ℤ) : ℚ) / 100 = totalKb * (dramPercent / 100) := by
    rw [Int.cast_mul, mul_div_assoc]
  rw [habs, hmul]
  unfold dramTarget float64 at *
  linarith [herr.2]

/-- There, the rounded target is below what there is. -/
theorem dramTarget_lt {dramPercent pmemKb dramKb : ℤ} (hpmem : 0 ≤ pmemKb) (hdram : 0 ≤ dramKb)
    (hbalance : inUnbalancedStage dramPercent pmemKb dramKb = true)
    (hgap : pmemGap dramPercent pmemKb dramKb ≤ 0) :
    dramTarget dramPercent (pmemKb + dramKb) < dramKb := by
  simp only [inUnbalancedStage, decide_eq_true_eq] at hbalance
  have hrest : (pmemKb + dramKb) * (100 - dramPercent) =
      100 * (pmemKb + dramKb) - (pmemKb + dramKb) * dramPercent := by ring
  rw [pmemGap, hrest] at hgap
  have hkb := dramKb_gt rfl hpmem hgap hbalance.2
  have htarget := dramTarget_lt_add dramPercent (pmemKb + dramKb)
  generalize (pmemKb + dramKb) * dramPercent = target at *
  have hkbq : (2 * target + ((pmemKb + dramKb : ℤ) : ℚ) + 10000000 : ℚ) < 200 * dramKb := by
    exact_mod_cast hkb
  have htotal : (dramKb : ℚ) ≤ ((pmemKb + dramKb : ℤ) : ℚ) := by
    exact_mod_cast (by omega : dramKb ≤ pmemKb + dramKb)
  have hdramq : (0 : ℚ) ≤ dramKb := by exact_mod_cast hdram
  by_contra hle
  have hleq : (dramKb : ℚ) ≤ dramTarget dramPercent (pmemKb + dramKb) := by
    exact_mod_cast not_lt.mp hle
  rcases le_total 0 (target : ℚ) with hpos | hneg
  · rw [abs_of_nonneg hpos] at htarget
    linarith
  · rw [abs_of_nonpos hneg] at htarget
    linarith

/-- A negative ratio of four and more asks for cold pages. -/
theorem needMoreColdPage_of_neg {promoteKb demoteKb : ℤ} (hpromote : promoteKb < 0)
    (hdemote : demoteKb ≤ 4 * promoteKb) : needMoreColdPage promoteKb demoteKb = true := by
  have hpq : (promoteKb : ℚ) ≤ -1 := by exact_mod_cast (by omega : promoteKb ≤ -1)
  have hdq : (demoteKb : ℚ) ≤ 4 * promoteKb := by exact_mod_cast hdemote
  have hpround := roundTo_bounds (p := 24) (q := (promoteKb : ℚ)) le_rfl
  have hdround := roundTo_bounds (p := 24) (q := (demoteKb : ℚ)) le_rfl
  rw [abs_of_neg (by linarith)] at hpround hdround
  have hneg : float32 promoteKb < 0 := by
    unfold float32
    linarith [hpround.2]
  have hratio : 2 ≤ float32 demoteKb / float32 promoteKb := by
    rw [le_div_iff_of_neg hneg]
    unfold float32
    linarith [hpround.1, hdround.2]
  have hround := (roundTo_bounds (p := 24) (q := float32 demoteKb / float32 promoteKb) le_rfl).1
  rw [abs_of_nonneg (by linarith)] at hround
  simp only [needMoreColdPage, needMoreColdPageBy, hpromote.ne, if_false, decide_eq_true_eq]
  show 1 < roundTo 24 (float32 demoteKb / float32 promoteKb)
  linarith

theorem splitLimit_nonpos (dramPercent pmemKb dramKb : ℤ) {limit : ℤ} (hlimit : limit < 0) :
    (splitLimit dramPercent pmemKb dramKb limit).1 ≤ 0 ∧
      (splitLimit dramPercent pmemKb dramKb limit).2 ≤ 0 := by
  unfold splitLimit
  simp only [tdiv_eq]
  split_ifs <;> omega

theorem splitLimit_ratio {dramPercent pmemKb dramKb limit : ℤ} (hlimit : limit < 0)
    (hpercent : dramPercent ≠ 0) (htarget : dramTarget dramPercent (pmemKb + dramKb) < dramKb)
    (hne : (splitLimit dramPercent pmemKb dramKb limit).1 ≠ 0) :
    (splitLimit dramPercent pmemKb dramKb limit).2 ≤
      4 * (splitLimit dramPercent pmemKb dramKb limit).1 := by
  unfold splitLimit at *
  rw [if_pos hpercent] at *
  simp only [tdiv_eq] at *
  split_ifs at * <;> omega

/-! ### Both limits -/

theorem globalTotalKb_nonneg (sysRefs : ProcIdlePageType → Histogram2d) (loc : ℕ) :
    0 ≤ globalTotalKb sysRefs loc := by
  simp only [globalTotalKb, plannedTypes, List.map_cons, List.map_nil, List.sum_cons, List.sum_nil]
  positivity

theorem tooManyAep_eq_false {option : LimitOptions} {pmemKb dramKb : ℤ}
    (hlimit : periodLimit option pmemKb dramKb < 0) :
    tooManyAep option.dramPercent pmemKb dramKb = false := by
  by_contra htrue
  have htrue := Bool.eq_true_of_not_eq_false htrue
  rw [periodLimit, if_pos htrue] at hlimit
  simp only [tooManyAep, decide_eq_true_eq] at htrue
  have heighth : 0 ≤ (pmemGap option.dramPercent pmemKb dramKb).tdiv 8 :=
    Int.tdiv_nonneg htrue.2.le (by decide)
  exact absurd hlimit (not_lt.mpr (heighth.trans (le_max_right _ _)))

/-- Without cold pages only the hot ones of an unbalanced stage become a limit. -/
theorem adjustLimits_nonneg_of_cold {unbalanced : Bool} {promoteKb demoteKb hot : ℤ}
    (hneed : unbalanced = true → hot ≠ 0 → needMoreColdPage promoteKb demoteKb = true) :
    0 ≤ (adjustLimits unbalanced promoteKb demoteKb hot 0).1 ∧
      0 ≤ (adjustLimits unbalanced promoteKb demoteKb hot 0).2 := by
  unfold adjustLimits adjustLimitsBy
  dsimp only
  rw [if_neg fun h => h.1 rfl]
  split
  · next hhot =>
    refine ⟨?_, le_rfl⟩
    split
    · next hbalance =>
      have hmore : needMoreColdPageBy float32 promoteKb demoteKb = true := hneed hbalance hhot
      rw [if_pos hmore]
    · exact le_rfl
  · rw [if_neg (not_not.mpr rfl)]
    exact ⟨le_rfl, le_rfl⟩

/-- Neither limit is negative. -/
theorem calcMigrateCount_nonneg (option : LimitOptions) (nrWalks : ℕ)
    (sysRefs : ProcIdlePageType → Histogram2d) :
    0 ≤ (calcMigrateCount option nrWalks sysRefs).1 ∧
      0 ≤ (calcMigrateCount option nrWalks sysRefs).2 := by
  have hpmem := globalTotalKb_nonneg sysRefs refLocPmem
  have hdram := globalTotalKb_nonneg sysRefs refLocDram
  unfold calcMigrateCount calcMigrateCountBy savedKb
  generalize globalTotalKb sysRefs refLocPmem = pmemKb at *
  generalize globalTotalKb sysRefs refLocDram = dramKb at *
  dsimp only
  rcases le_or_gt 0 (periodLimit option pmemKb dramKb) with hlimit | hlimit
  · obtain ⟨hpromote, hdemote⟩ :=
      splitLimit_nonneg option.dramPercent pmemKb dramKb hlimit
    have hstart : Available.Nonneg ⟨_, _, 0, 0⟩ := ⟨hpromote, hdemote, le_rfl, le_rfl⟩
    have havail : (countAvailable (tooManyAep option.dramPercent pmemKb dramKb) nrWalks sysRefs
        _).Nonneg := countAvailable_nonneg hstart
    exact adjustLimits_nonneg hpromote hdemote havail.hot havail.cold
  · have hfew := tooManyAep_eq_false hlimit
    obtain ⟨hpromote, hdemote⟩ :=
      splitLimit_nonpos option.dramPercent pmemKb dramKb hlimit
    have havail : (countAvailable false nrWalks sysRefs _).Negative _ := countAvailable_negative
      (Available.Negative.start
        (splitLimit option.dramPercent pmemKb dramKb (periodLimit option pmemKb dramKb)).1 hdemote)
    rw [hfew, havail.cold]
    refine adjustLimits_nonneg_of_cold fun hbalance hhot => ?_
    have hne : (splitLimit option.dramPercent pmemKb dramKb (periodLimit option pmemKb dramKb)).1 ≠
        0 := fun hzero => hhot (havail.hot hzero)
    have hgap : pmemGap option.dramPercent pmemKb dramKb ≤ 0 := by
      by_contra hpos
      simp [tooManyAep, hbalance, not_le.mp hpos] at hfew
    have hpercent : option.dramPercent ≠ 0 := by
      simp only [inUnbalancedStage, decide_eq_true_eq] at hbalance
      exact hbalance.1
    exact needMoreColdPage_of_neg (lt_of_le_of_ne hpromote hne)
      (splitLimit_ratio hlimit hpercent (dramTarget_lt hpmem hdram hbalance hgap) hne)

end GlobalScan

end MemoryOptimizer
