import MemoryOptimizer.Migration.PlannerSteps

/-!
# What a plan promises

For one range and one page type, in terms of its histogram alone: every bin
above the hot threshold and every bin below the cold threshold is planned
completely, the bin of a threshold up to the remaining count.

`PromoteForm` and `DemoteForm` are these two statements about a finished
parameter; `HotInv` and `ColdInv` are the invariants of its two halves, which add
what is planned as long as the limits are not used up.  A parameter that
`anti_thrashing` altered is exempt.
-/

namespace MemoryOptimizer

open ProcIdlePageType EPTScan

namespace GlobalScan

/-- The PMEM pages in the bins from `t` on. -/
def hotter (h : Histogram2d) (t : ℕ) : ℕ := ((h refLocPmem).drop t).sum

/-- The DRAM pages in the bins before `t`. -/
def colder (h : Histogram2d) (t : ℕ) : ℕ := ((h refLocDram).take t).sum

theorem hotter_eq (h : Histogram2d) (t : ℕ) :
    hotter h t = h.bin refLocPmem t + hotter h (t + 1) := by
  unfold hotter Histogram2d.bin
  by_cases ht : t < (h refLocPmem).length
  · rw [List.drop_eq_getElem_cons ht, List.sum_cons, List.getElem?_eq_getElem ht]
    rfl
  · rw [List.drop_eq_nil_of_le (not_lt.mp ht), List.drop_eq_nil_of_le (by omega),
      List.getElem?_eq_none (not_lt.mp ht)]
    rfl

theorem hotter_of_rows {n : ℕ} {h : Histogram2d} (rows : Rows n h) : hotter h n = 0 := by
  rw [hotter, List.drop_eq_nil_of_le (rows refLocPmem).le]
  rfl

theorem colder_succ (h : Histogram2d) (t : ℕ) :
    colder h (t + 1) = colder h t + h.bin refLocDram t := by
  unfold colder Histogram2d.bin
  rw [List.take_add_one, List.sum_append]
  cases (h refLocDram)[t]? <;> simp

@[simp] theorem colder_zero (h : Histogram2d) : colder h 0 = 0 := by simp [colder]

/-- A hot threshold that was taken: all the bins behind it, and what remains of its own. -/
def PromoteTaken (nrWalks : ℕ) (h : Histogram2d) (p : MigrateParameter) : Prop :=
  ∃ t : ℕ, 1 ≤ t ∧ t ≤ nrWalks ∧ p.hotThreshold = t ∧ p.hotThresholdMax = nrWalks ∧
    h.bin refLocPmem t ≠ 0 ∧ 0 ≤ p.promoteRemain ∧
    p.promoteRemain ≤ h.bin refLocPmem t ∧ p.nrPromote = hotter h (t + 1) + p.promoteRemain

/-- A finished parameter, as far as promotion goes. -/
def PromoteForm (nrWalks : ℕ) (h : Histogram2d) (p : MigrateParameter) : Prop :=
  (p.hotThreshold = nrWalks + 1 ∧ p.hotThresholdMax = nrWalks + 1 ∧ p.nrPromote = 0 ∧
      p.promoteRemain = 0) ∨
    PromoteTaken nrWalks h p

/-- A finished parameter, as far as demotion goes. -/
def DemoteForm (nrWalks : ℕ) (h : Histogram2d) (p : MigrateParameter) : Prop :=
  (p.coldThreshold = -1 ∧ p.nrDemote = 0 ∧ p.demoteRemain = 0) ∨
    ∃ t : ℕ, t < nrWalks ∧ p.coldThreshold = t ∧ p.coldThresholdMin = 0 ∧
      h.bin refLocDram t ≠ 0 ∧ 0 ≤ p.demoteRemain ∧ p.demoteRemain ≤ h.bin refLocDram t ∧
      p.nrDemote = colder h t + p.demoteRemain

section Sweep

variable (cfg : PlanConfig) (h : Histogram2d)

/-- After `i` sweeps, with the counter at `c`: as long as the limit is not used up, all
the hot bins passed are planned. -/
def HotComplete (i : ℕ) (p : MigrateParameter) (c : ℤ) : Prop :=
  c < cfg.promoteLimitKb → p.nrPromote = hotter h (max (cfg.nrWalks + 1 - i) 1)

/-- The hot half of a parameter after `i` sweeps. -/
structure HotInv (i : ℕ) (p : MigrateParameter) (c : ℤ) : Prop where
  form : PromoteForm cfg.nrWalks h p
  complete : HotComplete cfg h i p c

/-- The cold half of a parameter after `i` sweeps. -/
structure ColdInv (i : ℕ) (p : MigrateParameter) (d : ℤ) : Prop where
  form : DemoteForm cfg.nrWalks h p
  complete : d < cfg.demoteLimitKb → p.nrDemote = colder h (min i cfg.nrWalks)
  enabled : p.nrDemote ≠ 0 → p.enabled = true

variable {cfg h} {shift i : ℕ} {p p' : MigrateParameter} {c c' d d' : ℤ}

/-- Taking pages out of what is left of a limit: all of them, unless that uses
the limit up. -/
theorem pages_of_kb (n shift : ℕ) {left : ℤ} (hleft : 0 < left) :
    0 ≤ min (n * 2 ^ shift : ℤ) left / 2 ^ shift ∧
      min (n * 2 ^ shift : ℤ) left / 2 ^ shift ≤ n ∧
      (min (n * 2 ^ shift : ℤ) left < left → min (n * 2 ^ shift : ℤ) left / 2 ^ shift = n) := by
  have hpow : (0 : ℤ) < 2 ^ shift := by positivity
  have hnonneg : (0 : ℤ) ≤ n * 2 ^ shift := by positivity
  refine ⟨Int.ediv_nonneg (le_min hnonneg hleft.le) hpow.le, ?_, fun hlt => ?_⟩
  · calc min (n * 2 ^ shift : ℤ) left / 2 ^ shift
        ≤ (n * 2 ^ shift : ℤ) / 2 ^ shift := Int.ediv_le_ediv hpow (min_le_left _ _)
      _ = n := Int.mul_ediv_cancel _ hpow.ne'
  · have hmin : min (n * 2 ^ shift : ℤ) left = n * 2 ^ shift := by
      rcases min_choice (n * 2 ^ shift : ℤ) left with h | h
      · exact h
      · omega
    rw [hmin, Int.mul_ediv_cancel _ hpow.ne']

theorem HotComplete.mono (complete : HotComplete cfg h i p c) (hc : c ≤ c') :
    HotComplete cfg h i p c' := fun hlt => complete (hc.trans_lt hlt)

/-- **Selecting hot pages.** The bins passed stay complete, and a parameter that changes
has taken the bin it was at. -/
theorem HotSelection.complete (hi : i ≤ cfg.nrWalks) (complete : HotComplete cfg h i p c)
    (hsel : HotSelection cfg h shift (cfg.nrWalks - i) p c p' c') :
    HotComplete cfg h (i + 1) p' c' ∧ (p' = p ∨ PromoteTaken cfg.nrWalks h p') := by
  have hpass : ∀ {n : ℕ}, (0 : ℤ) < cfg.nrWalks - i →
      readBin h refLocPmem (cfg.nrWalks - i) = some n →
        h.bin refLocPmem (cfg.nrWalks - i) = n ∧
          hotter h (max (cfg.nrWalks + 1 - (i + 1)) 1) =
            n + hotter h (max (cfg.nrWalks + 1 - i) 1) := by
    intro n hpos hread
    obtain ⟨-, -, hbin⟩ := readBin_eq_some hread
    have ht : (cfg.nrWalks - i : ℤ).toNat = cfg.nrWalks - i := by omega
    rw [ht] at hbin
    refine ⟨hbin, ?_⟩
    rw [show max (cfg.nrWalks + 1 - (i + 1)) 1 = cfg.nrWalks - i by omega,
      hotter_eq h (cfg.nrWalks - i), hbin,
      show max (cfg.nrWalks + 1 - i) 1 = cfg.nrWalks - i + 1 by omega]
  cases hsel with
  | full hfull => exact ⟨fun hlt => absurd hlt (not_lt.mpr hfull), .inl rfl⟩
  | low hlt hlow =>
      refine ⟨fun hc => ?_, .inl rfl⟩
      rw [show max (cfg.nrWalks + 1 - (i + 1)) 1 = max (cfg.nrWalks + 1 - i) 1 by omega]
      exact complete hc
  | empty hlt hpos hread =>
      refine ⟨fun hc => ?_, .inl rfl⟩
      rw [(hpass hpos hread).2, Nat.zero_add]
      exact complete hc
  | taken n hc hpos hread hn =>
      obtain ⟨hbin, hnext⟩ := hpass hpos hread
      obtain ⟨hnonneg, hle, hall⟩ := pages_of_kb n shift (show 0 < cfg.promoteLimitKb - c by omega)
      have hnr := complete hc
      have htop : max (cfg.nrWalks + 1 - i) 1 = cfg.nrWalks - i + 1 := by omega
      refine ⟨fun hleft => ?_,
        .inr ⟨cfg.nrWalks - i, by omega, by omega, ?_, rfl, ?_, hnonneg, ?_, ?_⟩⟩
      · simp only [MigrateParameter.enable]
        rw [hall (by omega), hnr, hnext]
        push_cast
        exact add_comm _ _
      · simp only [MigrateParameter.enable]
        omega
      · rw [hbin]
        exact hn
      · rw [hbin]
        exact hle
      · simp only [MigrateParameter.enable]
        rw [hnr, htop]

theorem HotSelection.hotInv (hi : i ≤ cfg.nrWalks)
    (hsel : HotSelection cfg h shift (cfg.nrWalks - i) p c p' c') (inv : HotInv cfg h i p c) :
    HotInv cfg h (i + 1) p' c' := by
  obtain ⟨complete, rfl | taken⟩ := hsel.complete hi inv.complete
  · exact ⟨inv.form, complete⟩
  · exact ⟨.inr taken, complete⟩

/-- **Selecting cold pages**, when `anti_thrashing` keeps out. -/
theorem ColdSelection.coldInv (hsel : ColdSelection cfg h shift i p d p' d' false)
    (inv : ColdInv cfg h i p d) : ColdInv cfg h (i + 1) p' d' := by
  have hpass : ∀ {n : ℕ}, (i : ℤ) < cfg.nrWalks → readBin h refLocDram i = some n →
      h.bin refLocDram i = n ∧
        colder h (min (i + 1) cfg.nrWalks) = colder h (min i cfg.nrWalks) + n := by
    intro n hlt hread
    have hbin : h.bin refLocDram i = n := (readBin_eq_some hread).2.2
    refine ⟨hbin, ?_⟩
    rw [show min (i + 1) cfg.nrWalks = i + 1 by omega, colder_succ, hbin,
      show min i cfg.nrWalks = i by omega]
  cases hsel with
  | full hfull => exact { inv with complete := fun hlt => absurd hlt (not_lt.mpr hfull) }
  | high hlt hhigh =>
      refine { inv with complete := fun hd => ?_ }
      rw [show min (i + 1) cfg.nrWalks = min i cfg.nrWalks by omega]
      exact inv.complete hd
  | empty hlt hcold hread =>
      refine { inv with complete := fun hd => ?_ }
      rw [(hpass hcold hread).2, Nat.add_zero]
      exact inv.complete hd
  | skipped n hlt hcold hread hoff hnr =>
      -- only `anti_thrashing` disables a parameter with planned demotions
      exact absurd (inv.enabled hnr) (by simp [hoff])
  | taken n _ _ hd hcold hread hn hanti =>
      obtain ⟨hbin, hnext⟩ := hpass hcold hread
      obtain ⟨hnonneg, hle, hall⟩ := pages_of_kb n shift (show 0 < cfg.demoteLimitKb - d by omega)
      have hnr := inv.complete hd
      have hbottom : min i cfg.nrWalks = i := by omega
      rw [hanti rfl]
      refine ⟨.inr ⟨i, by omega, rfl, rfl, ?_, hnonneg, ?_, ?_⟩, fun hleft => ?_, fun _ => rfl⟩
      · rw [hbin]
        exact hn
      · rw [hbin]
        exact hle
      · simp only [MigrateParameter.enable]
        rw [hnr, hbottom]
      · simp only [MigrateParameter.enable]
        rw [hall (by omega), hnr, hnext]
        push_cast
        rfl

/-! Each half leaves the other alone. -/

theorem HotSelection.coldInv {hot : ℤ} (hsel : HotSelection cfg h shift hot p c p' c')
    (inv : ColdInv cfg h i p d) : ColdInv cfg h i p' d := by
  cases hsel with
  | full => exact inv
  | low => exact inv
  | empty => exact inv
  | taken => exact ⟨inv.form, inv.complete, fun _ => rfl⟩

theorem ColdSelection.hotInv {cold : ℤ} (hsel : ColdSelection cfg h shift cold p d p' d' false)
    (inv : HotInv cfg h i p c) : HotInv cfg h i p' c := by
  cases hsel with
  | full => exact inv
  | high => exact inv
  | empty => exact inv
  | skipped => exact inv
  | taken _ _ _ _ _ _ _ hanti =>
      rw [hanti rfl]
      exact ⟨inv.form, inv.complete⟩

/-- The invariant of a parameter: altered by `anti_thrashing`, or both halves. -/
def KeyInv (cfg : PlanConfig) (h : Histogram2d) (i : ℕ) (noticed : Bool) (p : MigrateParameter)
    (c d : ℤ) : Prop :=
  noticed = false → HotInv cfg h i p c ∧ ColdInv cfg h i p d

theorem keyInv_kept (cfg : PlanConfig) (h : Histogram2d) (shift : ℕ) :
    KeptByVisits cfg h shift (KeyInv cfg h) where
  visit := by
    intro i hi p p₁ p₂ c c' d d' noticed altered inv hhot hcold hclear
    obtain ⟨rfl, rfl⟩ := Bool.or_eq_false_iff.mp hclear
    obtain ⟨hotInv, coldInv⟩ := inv rfl
    have hhot := selectHotPage_cases hhot
    have hcold := selectColdPage_cases hcold
    exact ⟨hcold.hotInv (hhot.hotInv hi hotInv), hcold.coldInv (hhot.coldInv coldInv)⟩
  counters := by
    intro i noticed p c c' d d' inv hc hd hclear
    obtain ⟨hotInv, coldInv⟩ := inv hclear
    exact ⟨{ hotInv with complete := hotInv.complete.mono hc },
      { coldInv with complete := fun hlt => coldInv.complete (hd.trans_lt hlt) }⟩

theorem hotComplete_init (rows : Rows (cfg.nrWalks + 1) h) :
    HotComplete cfg h 0 (initMigrationParameter cfg.nrWalks) 0 := by
  intro _
  rw [show max (cfg.nrWalks + 1 - 0) 1 = cfg.nrWalks + 1 by omega, hotter_of_rows rows]
  rfl

theorem keyInv_init (rows : Rows (cfg.nrWalks + 1) h) :
    KeyInv cfg h 0 false (initMigrationParameter cfg.nrWalks) 0 0 := by
  refine fun _ => ⟨⟨.inl ⟨rfl, rfl, rfl, rfl⟩, hotComplete_init rows⟩,
    ⟨.inl ⟨rfl, rfl, rfl⟩, fun _ => ?_, fun hne => absurd rfl hne⟩⟩
  simp [initMigrationParameter]

/-- What a finished plan says about a parameter it did not alter. -/
theorem plan_forms {ranges : List EPTMigrate} {r : ℕ} {type : ProcIdlePageType}
    {range : EPTMigrate} (hrange : ranges[r]? = some range)
    (htype : type ∈ plannedTypes) (hhist : (range.pagetypeRefs type).histogram2d = h)
    (rows : Rows (cfg.nrWalks + 1) h) {plan : Plan}
    (hplan : calcMigrateParameter cfg ranges = some plan) (hnotice : (r, type) ∉ plan.notices) :
    PromoteForm cfg.nrWalks h (plan.parameter r type) ∧
      DemoteForm cfg.nrWalks h (plan.parameter r type) := by
  obtain ⟨hotInv, coldInv⟩ := parameter_rule (keyInv_kept cfg h _) (keyInv_init rows) hrange htype
    hhist hplan (decide_eq_false hnotice)
  exact ⟨hotInv.form, coldInv.form⟩

end Sweep

end GlobalScan

end MemoryOptimizer
