import MemoryOptimizer.Migration.Budget

/-!
# Promotions that `anti_thrashing` altered

`plan_forms` says nothing about a parameter that `anti_thrashing` altered. Its hot half
can only have been raised, over bins that were planned, so what it selects was planned all
the same.

* `HotRaised` — what selecting cold pages does to the hot half.
* `HotForm` — a parameter selects no more hot pages than it plans.
-/

namespace MemoryOptimizer

open ProcIdlePageType EPTScan

namespace GlobalScan

variable {cfg : PlanConfig} {ranges : List EPTMigrate} {r : ℕ} {type : ProcIdlePageType}

/-! ### The hot half -/

/-- What selecting cold pages does to a parameter: it plans demotions, and leaves the hot
half alone, or `anti_thrashing` raises its threshold. -/
structure HotRaised (cfg : PlanConfig) (h : Histogram2d) (p p' : MigrateParameter) : Prop where
  nrDemote_le : p.nrDemote ≤ p'.nrDemote
  nrPromote : p'.nrPromote = p.nrPromote
  hotThresholdMax : p'.hotThresholdMax = p.hotThresholdMax
  raised : p'.hotThreshold = p.hotThreshold ∧ p'.promoteRemain = p.promoteRemain ∨
    ∃ t : ℕ, p'.hotThreshold = t ∧ p.hotThreshold < t ∧ t ≤ cfg.nrWalks ∧
      p'.promoteRemain = min (h.bin refLocPmem t : ℤ) p.nrPromote

section Hot

variable {h : Histogram2d} {p p' : MigrateParameter}

theorem HotRaised.refl (cfg : PlanConfig) (h : Histogram2d) (p : MigrateParameter) :
    HotRaised cfg h p p := ⟨le_rfl, rfl, rfl, .inl ⟨rfl, rfl⟩⟩

theorem adjustThreshold_raised (hset : p.hotThreshold ≤ cfg.nrWalks)
    (hclose : p.hotThreshold - p.coldThreshold < cfg.antiThrashThreshold)
    (hadjust : adjustThreshold cfg h p = some p') : HotRaised cfg h p p' := by
  unfold adjustThreshold at hadjust
  split at hadjust
  · obtain ⟨n, -, hadjust⟩ := Option.bind_eq_some_iff.mp hadjust
    cases hadjust
    exact ⟨le_rfl, rfl, rfl, .inl ⟨rfl, rfl⟩⟩
  · next hne =>
    obtain ⟨n, hread, hadjust⟩ := Option.bind_eq_some_iff.mp hadjust
    cases hadjust
    obtain ⟨hnonneg, -, hbin⟩ := readBin_eq_some hread
    refine ⟨le_rfl, rfl, rfl, .inr ⟨_, (Int.toNat_of_nonneg hnonneg).symm, ?_, ?_, ?_⟩⟩
    · rw [Int.toNat_of_nonneg hnonneg]
      omega
    · omega
    · rw [hbin]

theorem antiThrashing_raised {altered : Bool}
    (hanti : antiThrashing cfg h p = some (p', altered)) : HotRaised cfg h p p' := by
  unfold antiThrashing at hanti
  split at hanti
  · cases hanti
    exact .refl cfg h p
  · next hset =>
    split at hanti
    · cases hanti
      exact .refl cfg h p
    · next hclose =>
      obtain ⟨q, hq, hanti⟩ := Option.bind_eq_some_iff.mp hanti
      have hraised := adjustThreshold_raised (by omega) (not_le.mp hclose) hq
      -- the parameter that is disabled keeps its thresholds
      split at hanti
      · cases hanti
        exact ⟨hraised.nrDemote_le, hraised.nrPromote, hraised.hotThresholdMax, hraised.raised⟩
      · cases hanti
        exact hraised

theorem selectColdPage_raised {shift : ℕ} {cold d d' : ℤ} {altered : Bool}
    (hsel : selectColdPage cfg h shift cold p d = some (p', d', altered)) :
    HotRaised cfg h p p' := by
  unfold selectColdPage at hsel
  split at hsel
  · cases hsel
    exact .refl cfg h p
  · next hfull =>
    split at hsel
    · cases hsel
      exact .refl cfg h p
    · obtain ⟨n, -, hsel⟩ := Option.bind_eq_some_iff.mp hsel
      have htaken := (pages_of_kb n shift (sub_pos.mpr (not_le.mp hfull))).1
      split at hsel
      · cases hsel
        exact .refl cfg h p
      · split at hsel
        · cases hsel
          exact .refl cfg h p
        · dsimp only at hsel
          split at hsel
          · cases hsel
            exact ⟨le_add_of_nonneg_right htaken, rfl, rfl, .inl ⟨rfl, rfl⟩⟩
          · obtain ⟨⟨q, b⟩, hanti, hsel⟩ := Option.bind_eq_some_iff.mp hsel
            cases hsel
            have hraised := antiThrashing_raised hanti
            exact ⟨(le_add_of_nonneg_right htaken).trans hraised.nrDemote_le, hraised.nrPromote,
              hraised.hotThresholdMax, hraised.raised⟩

theorem hotter_antitone (h : Histogram2d) {t u : ℕ} (htu : t ≤ u) : hotter h u ≤ hotter h t := by
  induction u, htu using Nat.le_induction with
  | base => exact le_rfl
  | succ u _ ih =>
      have hstep := hotter_eq h u
      omega

/-- The hot half of a parameter, whether `anti_thrashing` altered it or not: no bin, or the
bins from one on, with what remains of the first. -/
def HotForm (nrWalks : ℕ) (h : Histogram2d) (p : MigrateParameter) : Prop :=
  (p.hotThreshold = nrWalks + 1 ∧ p.hotThresholdMax = nrWalks + 1 ∧ p.nrPromote = 0 ∧
      p.promoteRemain = 0) ∨
    ∃ t : ℕ, t ≤ nrWalks ∧ p.hotThreshold = t ∧ p.hotThresholdMax = nrWalks ∧
      0 ≤ p.promoteRemain ∧
      min p.promoteRemain (h.bin refLocPmem t) + hotter h (t + 1) ≤ p.nrPromote

theorem PromoteTaken.hotForm {nrWalks : ℕ} (taken : PromoteTaken nrWalks h p) :
    HotForm nrWalks h p := by
  obtain ⟨t, -, ht, hhot, hmax, -, hnonneg, hle, hnr⟩ := taken
  refine .inr ⟨t, ht, hhot, hmax, hnonneg, ?_⟩
  rw [min_eq_left hle, hnr, add_comm]

/-- A raised threshold leaves bins out. -/
theorem HotForm.raised (form : HotForm cfg.nrWalks h p) (hraised : HotRaised cfg h p p') :
    HotForm cfg.nrWalks h p' := by
  obtain ⟨-, hnr, hmax, hraised⟩ := hraised
  unfold HotForm
  rw [hnr, hmax]
  rcases hraised with ⟨hhot, hremain⟩ | ⟨u, hhot, hlt, hu, hremain⟩
  · rw [hhot, hremain]
    exact form
  · rcases form with ⟨hinit, -⟩ | ⟨t, -, ht, htmax, hnonneg, hsel⟩
    · omega
    · refine .inr ⟨u, hu, hhot, htmax, ?_, ?_⟩
      · rw [hremain]
        exact le_min (by omega) (by omega)
      · have hbins : hotter h u ≤ hotter h (t + 1) := hotter_antitone h (by omega)
        have hstep := hotter_eq h u
        omega

/-- The hot half after `i` sweeps, with the counter at `c`. -/
def HotBound (cfg : PlanConfig) (h : Histogram2d) (i : ℕ) (_noticed : Bool) (p : MigrateParameter)
    (c _d : ℤ) : Prop :=
  HotForm cfg.nrWalks h p ∧ HotComplete cfg h i p c

theorem hotBound_kept (cfg : PlanConfig) (h : Histogram2d) (shift : ℕ) :
    KeptByVisits cfg h shift (HotBound cfg h) where
  visit := by
    intro i hi p p₁ p₂ c c' d d' noticed altered ⟨form, complete⟩ hhot hcold
    have hraised := selectColdPage_raised hcold
    obtain ⟨complete', hsame⟩ := (selectHotPage_cases hhot).complete hi complete
    refine ⟨?_, fun hlt => hraised.nrPromote.trans (complete' hlt)⟩
    rcases hsame with rfl | taken
    · exact form.raised hraised
    · exact taken.hotForm.raised hraised
  counters := fun _ _ _ _ _ _ _ bound hc _ => ⟨bound.1, bound.2.mono hc⟩

/-- The hot half of every parameter of a plan. -/
theorem plan_hotForm {range : EPTMigrate} (hrange : ranges[r]? = some range)
    (htype : type ∈ plannedTypes) (hhist : (range.pagetypeRefs type).histogram2d = h)
    (rows : Rows (cfg.nrWalks + 1) h) {plan : Plan}
    (hplan : calcMigrateParameter cfg ranges = some plan) :
    HotForm cfg.nrWalks h (plan.parameter r type) :=
  (parameter_rule (hotBound_kept cfg h _) ⟨.inl ⟨rfl, rfl, rfl, rfl⟩, hotComplete_init rows⟩
    hrange htype hhist hplan).1

end Hot

/-- A parameter over rows without bins stays as it was initialised: a visit that reads a
bin has no outcome, and the others select nothing. -/
theorem plan_untouched {h : Histogram2d} {range : EPTMigrate} (hrange : ranges[r]? = some range)
    (htype : type ∈ plannedTypes) (hhist : (range.pagetypeRefs type).histogram2d = h)
    (rows : Rows 0 h) {plan : Plan} (hplan : calcMigrateParameter cfg ranges = some plan) :
    plan.parameter r type = initMigrationParameter cfg.nrWalks := by
  have hnone : ∀ {loc : ℕ} {i : ℤ} {n : ℕ}, readBin h loc i ≠ some n := by
    intro loc i n hread
    have hlt := (readBin_eq_some hread).2.1
    rw [rows loc] at hlt
    exact Nat.not_lt_zero _ hlt
  refine parameter_rule (I := fun _ _ p _ _ => p = initMigrationParameter cfg.nrWalks)
    ⟨?_, fun _ _ _ _ _ _ _ h _ _ => h⟩ rfl hrange htype hhist hplan
  intro i hi p p₁ p₂ c c' d d' noticed altered hp hhot hcold
  have hp₁ : p₁ = p := by
    cases selectHotPage_cases hhot with
    | full => rfl
    | low => rfl
    | empty _ _ hread => exact absurd hread hnone
    | taken _ _ _ hread => exact absurd hread hnone
  have hp₂ : p₂ = p₁ := by
    cases selectColdPage_cases hcold with
    | full => rfl
    | high => rfl
    | empty _ _ hread => exact absurd hread hnone
    | skipped _ _ _ hread => exact absurd hread hnone
    | taken _ _ _ _ _ hread => exact absurd hread hnone
  exact hp₂.trans (hp₁.trans hp)

theorem plan_nrDemote_nonneg {range : EPTMigrate} (hrange : ranges[r]? = some range)
    (htype : type ∈ plannedTypes) {plan : Plan}
    (hplan : calcMigrateParameter cfg ranges = some plan) :
    0 ≤ (plan.parameter r type).nrDemote := by
  refine parameter_rule (I := fun _ _ p _ _ => 0 ≤ p.nrDemote)
    ⟨?_, fun _ _ _ _ _ _ _ h _ _ => h⟩ le_rfl hrange htype rfl hplan
  intro i hi p p₁ p₂ c c' d d' noticed altered hp hhot hcold
  have hsame := (selectHotPage_cases hhot).counts.2.1
  exact (hp.trans_eq hsame.symm).trans (selectColdPage_raised hcold).nrDemote_le

end GlobalScan

end MemoryOptimizer
