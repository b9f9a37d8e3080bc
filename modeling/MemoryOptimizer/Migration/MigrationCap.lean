import MemoryOptimizer.Migration.MigrateCount

/-!
# The cap of one period

`calc_migrate_count` splits the limit of the period into a part for promotion and a
part for demotion, and takes what is available out of them. Without too much
persistent memory it does not take the hot pages of the first type out of the part
before it counts those of the second.

* `countAvailable_hot`, `countAvailable_cold` — what the loop finds available.
* `calcMigrateCountBy_capped_iff` — when both limits stay within their parts.
-/

namespace MemoryOptimizer

open ProcIdlePageType

namespace GlobalScan

/-! ### What is available -/

/-- A bin in KB. -/
def binKb (sysRefs : ProcIdlePageType → Histogram2d) (loc : ℕ) (type : ProcIdlePageType)
    (i : ℕ) : ℤ :=
  (sysRefs type).bin loc i * 2 ^ (type.shift - 10)

section Loop

variable (tooMany : Bool) (nrWalks : ℕ) (sysRefs : ProcIdlePageType → Histogram2d)

theorem binKb_nonneg (loc : ℕ) (type : ProcIdlePageType) (i : ℕ) :
    0 ≤ binKb sysRefs loc type i := by
  unfold binKb
  positivity

/-- The bins of both types, in KB. -/
def binsKb (loc i : ℕ) : ℤ := binKb sysRefs loc pteAccessed i + binKb sysRefs loc pmdAccessed i

/-- The pages of ordinary memory below `nr_walks`, in KB. -/
def coldKb : ℤ := ((List.range nrWalks).map (binsKb sysRefs refLocDram)).sum

theorem sum_binsKb_nonneg (loc : ℕ) (is : List ℕ) : 0 ≤ (is.map (binsKb sysRefs loc)).sum := by
  refine List.sum_nonneg fun n hn => ?_
  obtain ⟨i, -, rfl⟩ := List.mem_map.mp hn
  exact add_nonneg (binKb_nonneg _ _ _ _) (binKb_nonneg _ _ _ _)

/-- The first half of the body leaves what the second half uses alone. -/
theorem countHotPages_demote (type : ProcIdlePageType) (hot : ℤ) (a : Available) :
    (countHotPages tooMany nrWalks sysRefs type hot a).demoteKb = a.demoteKb ∧
      (countHotPages tooMany nrWalks sysRefs type hot a).availColdPageKb = a.availColdPageKb := by
  unfold countHotPages
  dsimp only
  split_ifs <;> exact ⟨rfl, rfl⟩

/-- The second half of the body leaves what the first half uses alone. -/
theorem countColdPages_promote (type : ProcIdlePageType) (cold : ℕ) (a : Available) :
    (countColdPages nrWalks sysRefs type cold a).promoteKb = a.promoteKb ∧
      (countColdPages nrWalks sysRefs type cold a).availHotPageKb = a.availHotPageKb := by
  unfold countColdPages
  dsimp only
  split_ifs <;> exact ⟨rfl, rfl⟩

/-- Taking a bin out of what is left of a quota. -/
theorem countColdPages_eq (type : ProcIdlePageType) {cold : ℕ} (hcold : cold < nrWalks)
    {a : Available} (hdemote : 0 ≤ a.demoteKb) :
    (countColdPages nrWalks sysRefs type cold a).availColdPageKb =
        a.availColdPageKb + min (binKb sysRefs refLocDram type cold) a.demoteKb ∧
      (countColdPages nrWalks sysRefs type cold a).demoteKb =
        a.demoteKb - min (binKb sysRefs refLocDram type cold) a.demoteKb := by
  unfold countColdPages
  rw [if_neg (not_le.mpr hcold)]
  split
  · next hzero =>
    have hbin := binKb_nonneg sysRefs refLocDram type cold
    exact ⟨by omega, by omega⟩
  · exact ⟨rfl, rfl⟩

/-- The body for one type. -/
def countPages (i : ℕ) (a : Available) (type : ProcIdlePageType) : Available :=
  countColdPages nrWalks sysRefs type i
    (countHotPages tooMany nrWalks sysRefs type (nrWalks - i) a)

/-- The body of the outer loop. -/
def countBins (a : Available) (i : ℕ) : Available :=
  countPages tooMany nrWalks sysRefs i (countPages tooMany nrWalks sysRefs i a pteAccessed)
    pmdAccessed

theorem countAvailable_eq (a : Available) : countAvailable tooMany nrWalks sysRefs a =
    (List.range (nrWalks + 1)).foldl (countBins tooMany nrWalks sysRefs) a := rfl

theorem countPages_cold (type : ProcIdlePageType) {i : ℕ} (hi : i < nrWalks) {a : Available}
    (hdemote : 0 ≤ a.demoteKb) :
    (countPages tooMany nrWalks sysRefs i a type).availColdPageKb =
        a.availColdPageKb + min (binKb sysRefs refLocDram type i) a.demoteKb ∧
      (countPages tooMany nrWalks sysRefs i a type).demoteKb =
        a.demoteKb - min (binKb sysRefs refLocDram type i) a.demoteKb := by
  obtain ⟨hdem, hcold⟩ := countHotPages_demote tooMany nrWalks sysRefs type (nrWalks - i) a
  obtain ⟨hcold', hdem'⟩ := countColdPages_eq nrWalks sysRefs type hi (hdem ▸ hdemote)
  rw [hdem, hcold] at hcold'
  rw [hdem] at hdem'
  exact ⟨hcold', hdem'⟩

theorem countBins_cold {i : ℕ} (hi : i < nrWalks) {a : Available} (hdemote : 0 ≤ a.demoteKb) :
    (countBins tooMany nrWalks sysRefs a i).availColdPageKb =
        a.availColdPageKb + min (binsKb sysRefs refLocDram i) a.demoteKb ∧
      (countBins tooMany nrWalks sysRefs a i).demoteKb =
        a.demoteKb - min (binsKb sysRefs refLocDram i) a.demoteKb := by
  have hpte := binKb_nonneg sysRefs refLocDram pteAccessed i
  have hpmd := binKb_nonneg sysRefs refLocDram pmdAccessed i
  obtain ⟨hcold, hdem⟩ := countPages_cold tooMany nrWalks sysRefs pteAccessed hi hdemote
  obtain ⟨hcold', hdem'⟩ :=
    countPages_cold tooMany nrWalks sysRefs pmdAccessed hi
      (a := countPages tooMany nrWalks sysRefs i a pteAccessed) (by omega)
  unfold countBins binsKb
  omega

/-- Cold pages are taken out of the quota bin by bin: all of them, or the quota. -/
theorem foldl_countBins_cold {is : List ℕ} (his : ∀ i ∈ is, i < nrWalks) {a : Available}
    (hdemote : 0 ≤ a.demoteKb) :
    (is.foldl (countBins tooMany nrWalks sysRefs) a).availColdPageKb =
      a.availColdPageKb + min (is.map (binsKb sysRefs refLocDram)).sum a.demoteKb := by
  induction is generalizing a with
  | nil => simp [hdemote]
  | cons i is ih =>
      obtain ⟨hi, his⟩ := List.forall_mem_cons.mp his
      obtain ⟨hcold, hdem⟩ := countBins_cold tooMany nrWalks sysRefs hi hdemote
      have hbins : 0 ≤ binsKb sysRefs refLocDram i :=
        add_nonneg (binKb_nonneg _ _ _ _) (binKb_nonneg _ _ _ _)
      have hrest := sum_binsKb_nonneg sysRefs refLocDram is
      rw [List.foldl_cons, ih his (by omega), hcold, hdem, List.map_cons, List.sum_cons]
      omega

/-- The cold pages that the loop finds. -/
theorem countAvailable_cold {a : Available} (hdemote : 0 ≤ a.demoteKb) :
    (countAvailable tooMany nrWalks sysRefs a).availColdPageKb =
      a.availColdPageKb + min (coldKb nrWalks sysRefs) a.demoteKb := by
  have hlast : ∀ (b : Available) (type : ProcIdlePageType),
      (countPages tooMany nrWalks sysRefs nrWalks b type).availColdPageKb = b.availColdPageKb := by
    intro b type
    unfold countPages countColdPages
    rw [if_pos le_rfl]
    exact (countHotPages_demote tooMany nrWalks sysRefs type _ b).2
  rw [countAvailable_eq, List.range_succ, List.foldl_append, List.foldl_cons, List.foldl_nil,
    countBins, hlast, hlast]
  exact foldl_countBins_cold tooMany nrWalks sysRefs (fun i hi => List.mem_range.mp hi) hdemote

/-- The hot pages that the loop finds without too much persistent memory: those of the
last bins, each up to the whole quota. -/
theorem countAvailable_hot (a : Available) :
    (countAvailable false nrWalks sysRefs a).availHotPageKb = a.availHotPageKb +
      min (binKb sysRefs refLocPmem pteAccessed nrWalks) a.promoteKb +
      min (binKb sysRefs refLocPmem pmdAccessed nrWalks) a.promoteKb := by
  have hpages : ∀ (i : ℕ) (b : Available) (type : ProcIdlePageType),
      (countPages false nrWalks sysRefs i b type).promoteKb = b.promoteKb ∧
        (countPages false nrWalks sysRefs i b type).availHotPageKb = b.availHotPageKb +
          if i = 0 then min (binKb sysRefs refLocPmem type nrWalks) b.promoteKb else 0 := by
    intro i b type
    unfold countPages
    rw [(countColdPages_promote _ _ _ _ _).1, (countColdPages_promote _ _ _ _ _).2]
    unfold countHotPages
    simp only [Bool.not_false, if_true]
    by_cases hi : i = 0
    · subst hi
      simp only [Nat.cast_zero, sub_zero, ge_iff_le, le_refl, if_true, Int.toNat_natCast]
      exact ⟨trivial, rfl⟩
    · rw [if_neg (by omega), if_neg hi, add_zero]
      exact ⟨rfl, rfl⟩
  have hbins : ∀ (i : ℕ) (b : Available),
      (countBins false nrWalks sysRefs b i).promoteKb = b.promoteKb ∧
        (countBins false nrWalks sysRefs b i).availHotPageKb = b.availHotPageKb +
          if i = 0 then min (binKb sysRefs refLocPmem pteAccessed nrWalks) b.promoteKb +
            min (binKb sysRefs refLocPmem pmdAccessed nrWalks) b.promoteKb else 0 := by
    intro i b
    unfold countBins
    rw [(hpages i _ _).1, (hpages i _ _).2, (hpages i _ _).1, (hpages i _ _).2]
    split <;> exact ⟨rfl, by omega⟩
  -- the later rounds find no more
  have hlater : ∀ (is : List ℕ) (b : Available),
      ((is.map Nat.succ).foldl (countBins false nrWalks sysRefs) b).availHotPageKb =
        b.availHotPageKb := by
    intro is
    induction is with
    | nil => intro b; rfl
    | cons i is ih =>
        intro b
        rw [List.map_cons, List.foldl_cons, ih, (hbins _ _).2, if_neg (Nat.succ_ne_zero i),
          add_zero]
  rw [countAvailable_eq, List.range_succ_eq_map, List.foldl_cons, hlater, (hbins 0 a).2, if_pos rfl,
    add_assoc]

/-- With too much persistent memory they are taken out of the quota. -/
theorem countAvailable_hot_le {a : Available} (hpromote : 0 ≤ a.promoteKb) :
    (countAvailable true nrWalks sysRefs a).availHotPageKb ≤ a.availHotPageKb + a.promoteKb := by
  have hkeeps : 0 ≤ (countAvailable true nrWalks sysRefs a).promoteKb ∧
      (countAvailable true nrWalks sysRefs a).availHotPageKb +
        (countAvailable true nrWalks sysRefs a).promoteKb = a.availHotPageKb + a.promoteKb := by
    refine countAvailable_keeps (P := fun b => 0 ≤ b.promoteKb ∧
      b.availHotPageKb + b.promoteKb = a.availHotPageKb + a.promoteKb)
        (fun type hot b hb => ?_) (fun type cold b hb => ?_) ⟨hpromote, rfl⟩
    · unfold countHotPages
      simp only [Bool.not_true, Bool.false_eq_true, if_false]
      split_ifs
      · exact hb
      · exact hb
      · exact ⟨by dsimp only; omega, by dsimp only; omega⟩
    · rw [(countColdPages_promote _ _ _ _ _).1, (countColdPages_promote _ _ _ _ _).2]
      exact hb
  omega

end Loop

/-! ### The cap -/

section Saved

variable (option : LimitOptions) (pmemKb dramKb : ℤ)

theorem le_periodLimit :
    option.onePeriodMigrationSize ≤ periodLimit option pmemKb dramKb := by
  unfold periodLimit
  split
  · exact le_max_left _ _
  · exact le_rfl

theorem savedKb_nonneg (hsize : 0 ≤ option.onePeriodMigrationSize) :
    0 ≤ (savedKb option pmemKb dramKb).1 ∧ 0 ≤ (savedKb option pmemKb dramKb).2 :=
  splitLimit_nonneg _ _ _ (hsize.trans (le_periodLimit option pmemKb dramKb))

/-- The two parts make up the limit, up to rounding. -/
theorem savedKb_add (hsize : 0 ≤ option.onePeriodMigrationSize) :
    (savedKb option pmemKb dramKb).1 + (savedKb option pmemKb dramKb).2 ≤
        periodLimit option pmemKb dramKb ∧
      periodLimit option pmemKb dramKb ≤
        (savedKb option pmemKb dramKb).1 + (savedKb option pmemKb dramKb).2 + 1 := by
  have hlimit := hsize.trans (le_periodLimit option pmemKb dramKb)
  unfold savedKb splitLimit
  simp only [tdiv_eq]
  split_ifs <;> omega

end Saved

/-- The limits stay within the two parts. -/
structure Capped (saved limits : ℤ × ℤ) : Prop where
  promote_nonneg : 0 ≤ limits.1
  promote_le : limits.1 ≤ saved.1
  demote_nonneg : 0 ≤ limits.2
  demote_le : limits.2 ≤ saved.2

section Exact

variable {unbalanced : Bool} {promoteKb demoteKb hot cold : ℤ}

theorem needMoreColdPageBy_id (hpromote : 0 ≤ promoteKb) :
    needMoreColdPageBy id promoteKb demoteKb = true ↔ promoteKb < demoteKb := by
  unfold needMoreColdPageBy
  split
  · next hzero => simp [hzero]
  · next hne =>
    have hpos : (0 : ℚ) < promoteKb := by exact_mod_cast lt_of_le_of_ne hpromote (Ne.symm hne)
    rw [decide_eq_true_iff, id, id, id, one_lt_div hpos]
    exact_mod_cast Iff.rfl

/-- More hot pages than the quota ask for more cold pages than there are, where cold
pages are needed more. -/
theorem lt_pageKb (hpromote : 0 < promoteKb) (hmore : promoteKb < demoteKb)
    (hhot : promoteKb < hot) (hcold : cold ≤ demoteKb) :
    cold < truncate ((hot : ℚ) * ((demoteKb : ℚ) / promoteKb)) := by
  have hp : (0 : ℚ) < promoteKb := by exact_mod_cast hpromote
  have hd : (promoteKb : ℚ) < demoteKb := by exact_mod_cast hmore
  have hh : (promoteKb : ℚ) + 1 ≤ hot := by exact_mod_cast hhot
  have hratio : (1 : ℚ) < demoteKb / promoteKb := (one_lt_div hp).mpr hd
  have hle : ((demoteKb : ℚ) + 1) ≤ hot * (demoteKb / promoteKb) := by
    calc ((demoteKb : ℚ) + 1) ≤ promoteKb * (demoteKb / promoteKb) + demoteKb / promoteKb := by
          rw [mul_div_cancel₀ _ hp.ne']
          linarith
      _ = (promoteKb + 1) * (demoteKb / promoteKb) := by ring
      _ ≤ hot * (demoteKb / promoteKb) := by gcongr
  have hnonneg : (0 : ℚ) ≤ hot * (demoteKb / promoteKb) := by linarith
  rw [truncate, if_pos hnonneg]
  have hfloor : demoteKb + 1 ≤ ⌊(hot : ℚ) * (demoteKb / promoteKb)⌋ :=
    Int.le_floor.mpr (by exact_mod_cast hle)
  omega

/-- Part of the cold pages, and the hot pages that go with it. -/
theorem truncate_div_le (hpromote : 0 < promoteKb) (hdemote : 0 < demoteKb) (hzero : 0 ≤ cold)
    (hcold : cold ≤ demoteKb) :
    0 ≤ truncate ((cold : ℚ) / ((demoteKb : ℚ) / promoteKb)) ∧
      truncate ((cold : ℚ) / ((demoteKb : ℚ) / promoteKb)) ≤ promoteKb := by
  have hp : (0 : ℚ) < promoteKb := by exact_mod_cast hpromote
  have hd : (0 : ℚ) < demoteKb := by exact_mod_cast hdemote
  have hc : (cold : ℚ) ≤ demoteKb := by exact_mod_cast hcold
  have hz : (0 : ℚ) ≤ cold := by exact_mod_cast hzero
  have hnonneg : (0 : ℚ) ≤ cold / (demoteKb / promoteKb) := by positivity
  refine ⟨truncate_nonneg hnonneg, ?_⟩
  rw [truncate, if_pos hnonneg]
  have hle : (cold : ℚ) / (demoteKb / promoteKb) ≤ promoteKb := by
    rw [div_le_iff₀ (by positivity), mul_div_cancel₀ _ hp.ne']
    exact hc
  exact_mod_cast (Int.floor_le _).trans hle

theorem adjustLimitsBy_capped_iff (hpromote : 0 ≤ promoteKb) (hdemote : 0 ≤ demoteKb)
    (hhot : 0 ≤ hot) (hzero : promoteKb = 0 → hot = 0) (hcold : 0 ≤ cold)
    (hle : cold ≤ demoteKb) :
    Capped (promoteKb, demoteKb) (adjustLimitsBy id unbalanced promoteKb demoteKb hot cold) ↔
      hot ≤ promoteKb ∨ promoteKb < demoteKb ∨ (unbalanced = false ∧ cold = 0) := by
  have hmore : needMoreColdPageBy id promoteKb demoteKb = true ↔ promoteKb < demoteKb :=
    needMoreColdPageBy_id hpromote
  unfold adjustLimitsBy
  simp only [id]
  by_cases hboth : cold ≠ 0 ∧ hot ≠ 0
  · rw [if_pos hboth]
    have hpos : 0 < promoteKb := by
      rcases hpromote.eq_or_lt with h | h
      · exact absurd (hzero h.symm) hboth.2
      · exact h
    have hpage : 0 ≤ truncate ((hot : ℚ) * ((demoteKb : ℚ) / promoteKb)) := by
      refine truncate_nonneg (mul_nonneg (by exact_mod_cast hhot) (div_nonneg ?_ ?_))
      · exact_mod_cast hdemote
      · exact_mod_cast hpromote
    have hmin := le_min hcold hpage
    split
    · next hrescaled =>
      obtain ⟨hneed, hgt⟩ := hrescaled
      have hlt := hmore.mp hneed
      rw [min_eq_left hgt.le]
      obtain ⟨hnonneg, hquota⟩ := truncate_div_le hpos (hpos.trans hlt) hcold hle
      exact ⟨fun _ => .inr (.inl hlt), fun _ => ⟨hnonneg, hquota, hcold, hle⟩⟩
    · next hkept =>
      constructor
      · exact fun hcapped => .inl hcapped.promote_le
      · intro hcases
        have hquota : hot ≤ promoteKb := by
          rcases hcases with hquota | hlt | ⟨-, hnone⟩
          · exact hquota
          · by_contra hover
            exact hkept ⟨hmore.mpr hlt, lt_pageKb hpos hlt (not_le.mp hover) hle⟩
          · exact absurd hnone hboth.1
        exact ⟨hhot, hquota, hmin, (min_le_left _ _).trans hle⟩
  · rw [if_neg hboth]
    split
    · next hne =>
      obtain rfl : cold = 0 := by
        by_contra hcold
        exact hboth ⟨hcold, hne⟩
      cases unbalanced with
      | false =>
          exact ⟨fun _ => .inr (.inr ⟨rfl, rfl⟩), fun _ => ⟨le_rfl, hpromote, le_rfl, hdemote⟩⟩
      | true =>
          simp only [if_true]
          split
          · next hneed =>
            exact ⟨fun _ => .inr (.inl (hmore.mp hneed)),
              fun _ => ⟨le_rfl, hpromote, le_rfl, hdemote⟩⟩
          · next hneed =>
            refine ⟨fun hcapped => .inl hcapped.promote_le, fun hcases => ?_⟩
            rcases hcases with hquota | hlt | ⟨hfalse, -⟩
            · exact ⟨hhot, hquota, le_rfl, hdemote⟩
            · exact absurd (hmore.mpr hlt) hneed
            · cases hfalse
    · next hnone =>
      obtain rfl : hot = 0 := not_not.mp hnone
      refine ⟨fun _ => .inl hpromote, fun _ => ?_⟩
      split
      · refine ⟨le_rfl, hpromote, ?_, ?_⟩
        · dsimp only
          split_ifs <;> omega
        · dsimp only
          split_ifs <;> omega
      · exact ⟨le_rfl, hpromote, le_rfl, hdemote⟩

end Exact

/-- What keeps the hot pages of the two types within the part for promotion, or the
limit from being that of the hot pages. -/
def WithinQuota (option : LimitOptions) (nrWalks : ℕ) (sysRefs : ProcIdlePageType → Histogram2d)
    (pmemKb dramKb : ℤ) : Prop :=
  tooManyAep option.dramPercent pmemKb dramKb = true ∨
    binKb sysRefs refLocPmem pteAccessed nrWalks = 0 ∨
    binKb sysRefs refLocPmem pmdAccessed nrWalks = 0 ∨
    binsKb sysRefs refLocPmem nrWalks ≤ (savedKb option pmemKb dramKb).1 ∨
    (savedKb option pmemKb dramKb).1 < (savedKb option pmemKb dramKb).2 ∨
    (inUnbalancedStage option.dramPercent pmemKb dramKb = false ∧
      (coldKb nrWalks sysRefs = 0 ∨ (savedKb option pmemKb dramKb).2 = 0))

/-- Any histogram of the system, any number of walks, any DRAM share and any sizes of
the memories, with an exact ratio: both limits stay within their parts, and together
within the limit of the period, if and only if one of the conditions of
`WithinQuota` holds. -/
theorem calcMigrateCountBy_capped_iff (option : LimitOptions) (nrWalks : ℕ)
    (sysRefs : ProcIdlePageType → Histogram2d) (pmemKb dramKb : ℤ)
    (hsize : 8 ≤ option.onePeriodMigrationSize) :
    (Capped (savedKb option pmemKb dramKb)
        (calcMigrateCountBy id option nrWalks sysRefs pmemKb dramKb) ∧
      (calcMigrateCountBy id option nrWalks sysRefs pmemKb dramKb).1 +
        (calcMigrateCountBy id option nrWalks sysRefs pmemKb dramKb).2 ≤
          periodLimit option pmemKb dramKb) ↔
      WithinQuota option nrWalks sysRefs pmemKb dramKb := by
  obtain ⟨hpromote, hdemote⟩ :=
    savedKb_nonneg option pmemKb dramKb (by omega)
  obtain ⟨hlimit, hsum⟩ := savedKb_add option pmemKb dramKb (by omega)
  have hle := le_periodLimit option pmemKb dramKb
  have hcap : ∀ limits : ℤ × ℤ, (Capped (savedKb option pmemKb dramKb) limits ∧
      limits.1 + limits.2 ≤ periodLimit option pmemKb dramKb) ↔
        Capped (savedKb option pmemKb dramKb) limits := by
    intro limits
    refine ⟨fun h => h.1, fun h => ⟨h, ?_⟩⟩
    have hpromoted := h.promote_le
    have hdemoted := h.demote_le
    omega
  rw [hcap]
  unfold calcMigrateCountBy WithinQuota
  generalize savedKb option pmemKb dramKb = saved at *
  obtain ⟨promoteKb, demoteKb⟩ := saved
  dsimp only at *
  have hcold := countAvailable_cold (tooManyAep option.dramPercent pmemKb dramKb) nrWalks sysRefs
    (a := ⟨promoteKb, demoteKb, 0, 0⟩) hdemote
  have hkb : 0 ≤ coldKb nrWalks sysRefs := sum_binsKb_nonneg _ _ _
  have hpte := binKb_nonneg sysRefs refLocPmem pteAccessed nrWalks
  have hpmd := binKb_nonneg sysRefs refLocPmem pmdAccessed nrWalks
  cases htoo : tooManyAep option.dramPercent pmemKb dramKb with
  | true =>
      rw [htoo] at hcold
      have hhot := countAvailable_hot_le nrWalks sysRefs (a := ⟨promoteKb, demoteKb, 0, 0⟩) hpromote
      have hnonneg : 0 ≤ (countAvailable true nrWalks sysRefs
          ⟨promoteKb, demoteKb, 0, 0⟩).availHotPageKb :=
        (countAvailable_nonneg ⟨hpromote, hdemote, le_rfl, le_rfl⟩).hot
      dsimp only at hcold hhot
      rw [adjustLimitsBy_capped_iff hpromote hdemote hnonneg (by omega) (by omega) (by omega)]
      exact ⟨fun _ => .inl rfl, fun _ => .inl (by omega)⟩
  | false =>
      rw [htoo] at hcold
      have hhot := countAvailable_hot nrWalks sysRefs ⟨promoteKb, demoteKb, 0, 0⟩
      dsimp only at hcold hhot
      rw [adjustLimitsBy_capped_iff hpromote hdemote (by omega) (by omega) (by omega) (by omega),
        hcold, hhot]
      unfold binsKb
      generalize inUnbalancedStage option.dramPercent pmemKb dramKb = unbalanced
      constructor
      · rintro (hquota | hlt | ⟨hbalance, hnone⟩)
        · -- both parts are not 0 at once
          have hparts : promoteKb = 0 → 0 < demoteKb := by omega
          generalize hneed : (unbalanced = false ∧ _) = other
          omega
        · exact .inr (.inr (.inr (.inr (.inl hlt))))
        · exact .inr (.inr (.inr (.inr (.inr ⟨hbalance, by omega⟩))))
      · rintro (htrue | hzero | hzero | hquota | hlt | ⟨hbalance, hnone⟩)
        · cases htrue
        · exact .inl (by omega)
        · exact .inl (by omega)
        · exact .inl (by omega)
        · exact .inr (.inl hlt)
        · exact .inr (.inr ⟨hbalance, by omega⟩)

/-- One walk over ordinary pages of 4K, and over persistent memory with `ptes` hot pages
of 4K and `pmds` of 2M. -/
def oneWalk (ptes pmds : ℕ) (type : ProcIdlePageType) : Histogram2d := fun loc =>
  if loc = refLocPmem then [0, if type = pteAccessed then ptes else pmds]
  else if type = pteAccessed then [2, 0] else [0, 0]

theorem calcMigrateCountBy_capped_iff_oneType :
    Capped (savedKb ⟨0, 16⟩ 4096 4096) (calcMigrateCountBy id ⟨0, 16⟩ 1 (oneWalk 4 0) 4096 4096) ∧
      (calcMigrateCountBy id ⟨0, 16⟩ 1 (oneWalk 4 0) 4096 4096).1 +
        (calcMigrateCountBy id ⟨0, 16⟩ 1 (oneWalk 4 0) 4096 4096).2 ≤
          periodLimit ⟨0, 16⟩ 4096 4096 :=
  (calcMigrateCountBy_capped_iff ⟨0, 16⟩ 1 (oneWalk 4 0) 4096 4096 (by decide)).mpr
    (.inr (.inr (.inl (by decide))))

/-- With hot pages of both types 16 KB may be promoted out of a part of 8 KB, and with
the cold pages that is more than the limit of 16 KB. -/
theorem calcMigrateCountBy_not_capped :
    ¬(Capped (savedKb ⟨0, 16⟩ 4096 4096)
        (calcMigrateCountBy id ⟨0, 16⟩ 1 (oneWalk 4 1) 4096 4096) ∧
      (calcMigrateCountBy id ⟨0, 16⟩ 1 (oneWalk 4 1) 4096 4096).1 +
        (calcMigrateCountBy id ⟨0, 16⟩ 1 (oneWalk 4 1) 4096 4096).2 ≤
          periodLimit ⟨0, 16⟩ 4096 4096) := by
  have hlimits : calcMigrateCountBy id ⟨0, 16⟩ 1 (oneWalk 4 1) 4096 4096 = (16, 8) := by
    decide +kernel
  rw [hlimits]
  rintro ⟨-, hsum⟩
  revert hsum
  decide

end GlobalScan

end MemoryOptimizer
