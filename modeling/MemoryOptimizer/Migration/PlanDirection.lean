import MemoryOptimizer.Migration.MigrationCap

/-!
# The direction of a plan

`calc_migrate_count` with the exact ratio: the larger limit is that of the direction in
which the DRAM share has to move.

* `splitLimit_direction` — the direction of the two parts.
* `adjustLimitsBy_le_promote`, `adjustLimitsBy_le_demote` — the ratio keeps it.
* `calcMigrateCountBy_direction` — the direction of the limits.
-/

namespace MemoryOptimizer

open ProcIdlePageType

namespace GlobalScan

/-! ### The two parts -/

/-- Too little DRAM gives the promotion the larger part, too much the demotion. The clamp
keeps the sign of the deficit, and halving keeps the two parts apart. -/
theorem splitLimit_direction {dramPercent : ℤ} (hpercent : dramPercent ≠ 0)
    (pmemKb dramKb : ℤ) {limit : ℤ} (hlimit : 8 ≤ limit) :
    (dramKb < dramTarget dramPercent (pmemKb + dramKb) →
      (splitLimit dramPercent pmemKb dramKb limit).2 <
        (splitLimit dramPercent pmemKb dramKb limit).1) ∧
    (dramTarget dramPercent (pmemKb + dramKb) < dramKb →
      (splitLimit dramPercent pmemKb dramKb limit).1 <
        (splitLimit dramPercent pmemKb dramKb limit).2) := by
  unfold splitLimit
  rw [if_pos hpercent]
  simp only [tdiv_eq]
  constructor
  · intro hless
    split_ifs <;> omega
  · intro hmore
    split_ifs <;> omega

/-- Nothing to promote leaves nothing available for it. -/
theorem countAvailable_hot_eq_zero {tooMany : Bool} {nrWalks : ℕ}
    {sysRefs : ProcIdlePageType → Histogram2d} {a : Available}
    (h : a.promoteKb = 0 ∧ a.availHotPageKb = 0) :
    (countAvailable tooMany nrWalks sysRefs a).availHotPageKb = 0 := by
  refine (countAvailable_keeps (P := fun a => a.promoteKb = 0 ∧ a.availHotPageKb = 0)
    (fun type hot a h => ?_) (fun type cold a h => ?_) h).2
  · have hbin : (0 : ℤ) ≤ (sysRefs type).bin refLocPmem hot.toNat * 2 ^ (type.shift - 10) := by
      positivity
    have hpage : min ((sysRefs type).bin refLocPmem hot.toNat * 2 ^ (type.shift - 10) : ℤ)
        a.promoteKb = 0 := by rw [h.1, min_eq_right hbin]
    unfold countHotPages
    simp only [hpage, add_zero, sub_zero]
    split_ifs <;> exact h
  · unfold countColdPages
    split_ifs <;> exact h

/-! ### The limits -/

section Limits

variable {unbalanced : Bool} {promoteKb demoteKb hot cold : ℤ}

/-- A ratio below 1 scales the hot pages down. -/
theorem adjustLimitsBy_le_promote (hdemote : 0 ≤ demoteKb) (hlt : demoteKb < promoteKb)
    (hhot : 0 ≤ hot) :
    (adjustLimitsBy id unbalanced promoteKb demoteKb hot cold).2 ≤
      (adjustLimitsBy id unbalanced promoteKb demoteKb hot cold).1 := by
  have hpos : (0 : ℚ) < promoteKb := by exact_mod_cast hdemote.trans_lt hlt
  have hratio : (demoteKb : ℚ) / promoteKb ≤ 1 := by
    rw [div_le_one hpos]
    exact_mod_cast hlt.le
  have hratio0 : 0 ≤ (demoteKb : ℚ) / promoteKb := div_nonneg (by exact_mod_cast hdemote) hpos.le
  have hhotq : (0 : ℚ) ≤ hot := by exact_mod_cast hhot
  have hneed : needMoreColdPageBy id promoteKb demoteKb = false := by
    rw [← Bool.not_eq_true, needMoreColdPageBy_id (by omega)]
    omega
  simp only [adjustLimitsBy, hneed, id_eq, Bool.false_eq_true, false_and, if_false]
  split
  · calc min cold (truncate (hot * ((demoteKb : ℚ) / promoteKb)))
        ≤ truncate (hot * ((demoteKb : ℚ) / promoteKb)) := min_le_right _ _
      _ ≤ hot := truncate_le_of_le (mul_nonneg hhotq hratio0)
          (mul_le_of_le_one_right hhotq hratio)
  · split
    · split
      · exact hhot
      · exact le_rfl
    · split <;> simp

/-- A ratio above 1 scales them up, and where the cold pages do not reach, down again from
these. -/
theorem adjustLimitsBy_le_demote (hpromote : 0 ≤ promoteKb) (hlt : promoteKb < demoteKb)
    (hhot : 0 ≤ hot) (hzero : promoteKb = 0 → hot = 0) (hcold : 0 ≤ cold) :
    (adjustLimitsBy id unbalanced promoteKb demoteKb hot cold).1 ≤
      (adjustLimitsBy id unbalanced promoteKb demoteKb hot cold).2 := by
  have hneed := (needMoreColdPageBy_id hpromote).mpr hlt
  simp only [adjustLimitsBy, hneed, id_eq, true_and, if_true]
  split
  · next havail =>
    have hpos : (0 : ℚ) < promoteKb := by
      have hne := mt hzero havail.2
      exact_mod_cast (by omega : 0 < promoteKb)
    have hratio : 1 ≤ (demoteKb : ℚ) / promoteKb := by
      rw [one_le_div hpos]
      exact_mod_cast hlt.le
    have hratio0 : 0 ≤ (demoteKb : ℚ) / promoteKb := zero_le_one.trans hratio
    have hhotq : (0 : ℚ) ≤ hot := by exact_mod_cast hhot
    have hcoldq : (0 : ℚ) ≤ cold := by exact_mod_cast hcold
    split
    · next hmore =>
      rw [min_eq_left hmore.le]
      exact truncate_le_of_le (div_nonneg hcoldq hratio0) (div_le_self hcoldq hratio)
    · next hless =>
      rw [min_eq_right (not_lt.mp hless)]
      exact le_truncate (le_mul_of_one_le_right hhotq hratio)
  · split
    · split <;> exact le_rfl
    · split
      · dsimp only
        split
        · exact hcold
        · exact le_rfl
      · exact le_rfl

end Limits

/-- **The plan moves the DRAM share towards its target**: with less DRAM than the target the
promotion limit is at least the demotion limit, with more it is the other way round. -/
theorem calcMigrateCountBy_direction {option : LimitOptions} (hpercent : option.dramPercent ≠ 0)
    (hsize : 8 ≤ option.onePeriodMigrationSize) (nrWalks : ℕ)
    (sysRefs : ProcIdlePageType → Histogram2d) (pmemKb dramKb : ℤ) :
    (dramKb < dramTarget option.dramPercent (pmemKb + dramKb) →
      (calcMigrateCountBy id option nrWalks sysRefs pmemKb dramKb).2 ≤
        (calcMigrateCountBy id option nrWalks sysRefs pmemKb dramKb).1) ∧
    (dramTarget option.dramPercent (pmemKb + dramKb) < dramKb →
      (calcMigrateCountBy id option nrWalks sysRefs pmemKb dramKb).1 ≤
        (calcMigrateCountBy id option nrWalks sysRefs pmemKb dramKb).2) := by
  have hlimit := hsize.trans (le_periodLimit option pmemKb dramKb)
  obtain ⟨hless, hmore⟩ := splitLimit_direction hpercent pmemKb dramKb hlimit
  obtain ⟨hpromote, hdemote⟩ := splitLimit_nonneg option.dramPercent pmemKb dramKb
    (le_trans (by decide) hlimit)
  unfold calcMigrateCountBy savedKb
  generalize splitLimit option.dramPercent pmemKb dramKb (periodLimit option pmemKb dramKb) =
    split at *
  obtain ⟨promoteKb, demoteKb⟩ := split
  have havail : (countAvailable (tooManyAep option.dramPercent pmemKb dramKb) nrWalks sysRefs
      ⟨promoteKb, demoteKb, 0, 0⟩).Nonneg :=
    countAvailable_nonneg ⟨hpromote, hdemote, le_rfl, le_rfl⟩
  refine ⟨fun h => adjustLimitsBy_le_promote hdemote (hless h) havail.hot,
    fun h => adjustLimitsBy_le_demote hpromote (hmore h) havail.hot (fun hzero => ?_)
      havail.cold⟩
  exact countAvailable_hot_eq_zero ⟨hzero, rfl⟩

theorem calcMigrateCountBy_direction_half :
    (40 < dramTarget 50 (60 + 40) →
      (calcMigrateCountBy id ⟨50, 8⟩ 1 (fun _ _ => [3, 2]) 60 40).2 ≤
        (calcMigrateCountBy id ⟨50, 8⟩ 1 (fun _ _ => [3, 2]) 60 40).1) ∧
    (dramTarget 50 (60 + 40) < 40 →
      (calcMigrateCountBy id ⟨50, 8⟩ 1 (fun _ _ => [3, 2]) 60 40).1 ≤
        (calcMigrateCountBy id ⟨50, 8⟩ 1 (fun _ _ => [3, 2]) 60 40).2) :=
  @calcMigrateCountBy_direction ⟨50, 8⟩ (by decide) (by decide) 1 _ 60 40

end GlobalScan

end MemoryOptimizer
