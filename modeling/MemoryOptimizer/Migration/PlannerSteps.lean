import MemoryOptimizer.Migration.Planner
import Mathlib.Tactic.Linarith

/-!
# What one planning step can do

One inversion lemma for each half of the planner's loop body
(`selectHotPage_cases`, `selectColdPage_cases`) and one for the body
(`visit_cases`); everything later about the planner is derived from these.  The
other direction, that a step does not read outside a row, is `visit_total`.

A sweep visits each parameter once; `parameter_rule` is the invariant rule for one of
them, the visits of the others moving only the counters.
-/

namespace MemoryOptimizer

open ProcIdlePageType EPTScan

namespace GlobalScan

variable {cfg : PlanConfig}

theorem readBin_eq_some {h : Histogram2d} {loc : ℕ} {i : ℤ} {n : ℕ}
    (hread : readBin h loc i = some n) : 0 ≤ i ∧ i.toNat < (h loc).length ∧
      h.bin loc i.toNat = n := by
  unfold readBin at hread
  split at hread
  · rename_i hi
    refine ⟨hi, ?_, by simp [Histogram2d.bin, hread]⟩
    by_contra hlt
    rw [List.getElem?_eq_none (not_lt.mp hlt)] at hread
    cases hread
  · cases hread

theorem readBin_of_rows {n : ℕ} {h : Histogram2d} (rows : Rows (n + 1) h) (loc : ℕ) {i : ℤ}
    (h0 : 0 ≤ i) (hn : i ≤ n) : readBin h loc i = some (h.bin loc i.toNat) := by
  have hlt : i.toNat < (h loc).length := by
    rw [rows loc]
    omega
  simp [readBin, h0, Histogram2d.bin, hlt]

/-! ### Hot pages -/

/-- The outcomes of selecting hot pages. -/
inductive HotSelection (cfg : PlanConfig) (h : Histogram2d) (shift : ℕ) (hot : ℤ)
    (p : MigrateParameter) (c : ℤ) : MigrateParameter → ℤ → Prop
  | full (hc : cfg.promoteLimitKb ≤ c) : HotSelection cfg h shift hot p c p c
  | low (hc : c < cfg.promoteLimitKb) (hhot : hot ≤ 0) : HotSelection cfg h shift hot p c p c
  | empty (hc : c < cfg.promoteLimitKb) (hhot : 0 < hot)
      (hread : readBin h refLocPmem hot = some 0) : HotSelection cfg h shift hot p c p c
  | taken (n : ℕ) (hc : c < cfg.promoteLimitKb) (hhot : 0 < hot)
      (hread : readBin h refLocPmem hot = some n) (hn : n ≠ 0) :
      HotSelection cfg h shift hot p c
        { p with
          nrPromote := p.nrPromote + min (n * 2 ^ shift : ℤ) (cfg.promoteLimitKb - c) / 2 ^ shift
          promoteRemain := min (n * 2 ^ shift : ℤ) (cfg.promoteLimitKb - c) / 2 ^ shift
          hotThreshold := hot
          hotThresholdMax := cfg.nrWalks }.enable
        (c + min (n * 2 ^ shift : ℤ) (cfg.promoteLimitKb - c))

theorem selectHotPage_cases {h : Histogram2d} {shift : ℕ} {hot : ℤ} {p p' : MigrateParameter}
    {c c' : ℤ} (hsel : selectHotPage cfg h shift hot p c = some (p', c')) :
    HotSelection cfg h shift hot p c p' c' := by
  unfold selectHotPage at hsel
  split at hsel
  · rename_i hc
    cases hsel
    exact HotSelection.full hc
  · rename_i hc
    split at hsel
    · rename_i hhot
      cases hsel
      exact HotSelection.low (not_le.mp hc) hhot
    · rename_i hhot
      obtain ⟨n, hread, hsel⟩ := Option.bind_eq_some_iff.mp hsel
      split at hsel
      · rename_i hn
        cases hsel
        exact HotSelection.empty (not_le.mp hc) (not_le.mp hhot) (hn ▸ hread)
      · rename_i hn
        cases hsel
        exact HotSelection.taken n (not_le.mp hc) (not_le.mp hhot) hread hn

theorem selectHotPage_total {h : Histogram2d} (shift : ℕ) (hot : ℤ) (p : MigrateParameter)
    (c : ℤ) (hhot : hot ≤ cfg.nrWalks)
    (hok : Rows (cfg.nrWalks + 1) h ∨ cfg.promoteLimitKb ≤ c) :
    ∃ r, selectHotPage cfg h shift hot p c = some r := by
  unfold selectHotPage
  split
  · exact ⟨_, rfl⟩
  · rename_i hc
    rcases hok with rows | hok
    · split
      · exact ⟨_, rfl⟩
      · rename_i hpos
        rw [readBin_of_rows rows refLocPmem (by omega) hhot]
        dsimp only [bind, Option.bind]
        split <;> exact ⟨_, rfl⟩
    · exact absurd hok hc

/-! ### Cold pages -/

/-- The outcomes of selecting cold pages; after `taken`, `anti_thrashing` may
have its say. -/
inductive ColdSelection (cfg : PlanConfig) (h : Histogram2d) (shift : ℕ) (cold : ℤ)
    (p : MigrateParameter) (d : ℤ) : MigrateParameter → ℤ → Bool → Prop
  | full (hd : cfg.demoteLimitKb ≤ d) : ColdSelection cfg h shift cold p d p d false
  | high (hd : d < cfg.demoteLimitKb) (hcold : cfg.nrWalks ≤ cold) :
      ColdSelection cfg h shift cold p d p d false
  | empty (hd : d < cfg.demoteLimitKb) (hcold : cold < cfg.nrWalks)
      (hread : readBin h refLocDram cold = some 0) : ColdSelection cfg h shift cold p d p d false
  | skipped (n : ℕ) (hd : d < cfg.demoteLimitKb) (hcold : cold < cfg.nrWalks)
      (hread : readBin h refLocDram cold = some n) (hoff : p.enabled = false)
      (hnr : p.nrDemote ≠ 0) : ColdSelection cfg h shift cold p d p d false
  | taken (n : ℕ) (p' : MigrateParameter) (altered : Bool) (hd : d < cfg.demoteLimitKb)
      (hcold : cold < cfg.nrWalks) (hread : readBin h refLocDram cold = some n) (hn : n ≠ 0)
      (hanti : altered = false → p' =
        { p with
          nrDemote := p.nrDemote + min (n * 2 ^ shift : ℤ) (cfg.demoteLimitKb - d) / 2 ^ shift
          demoteRemain := min (n * 2 ^ shift : ℤ) (cfg.demoteLimitKb - d) / 2 ^ shift
          coldThreshold := cold
          coldThresholdMin := 0 }.enable)
      (hhot : 1 ≤ p.hotThreshold → 1 ≤ p'.hotThreshold) :
      ColdSelection cfg h shift cold p d p'
        (d + min (n * 2 ^ shift : ℤ) (cfg.demoteLimitKb - d)) altered

/-- `anti_thrashing` either leaves the parameter alone or says so, and moves a
hot threshold only up. -/
theorem antiThrashing_cases {h : Histogram2d} {p p' : MigrateParameter} {altered : Bool}
    (hanti : antiThrashing cfg h p = some (p', altered)) :
    (altered = false → p' = p) ∧
      (1 ≤ p.hotThreshold → p.coldThreshold < cfg.nrWalks → 1 ≤ p'.hotThreshold) := by
  unfold antiThrashing at hanti
  split at hanti
  · cases hanti
    exact ⟨fun _ => rfl, fun h _ => h⟩
  · rename_i hset
    split at hanti
    · cases hanti
      exact ⟨fun _ => rfl, fun h _ => h⟩
    · rename_i hclose
      obtain ⟨q, hq, hanti⟩ := Option.bind_eq_some_iff.mp hanti
      have hhot : 1 ≤ p.hotThreshold → p.coldThreshold < cfg.nrWalks → 1 ≤ q.hotThreshold := by
        intro h1 h2
        unfold adjustThreshold at hq
        split at hq
        · obtain ⟨n, -, hq⟩ := Option.bind_eq_some_iff.mp hq
          cases hq
          exact h1
        · obtain ⟨n, -, hq⟩ := Option.bind_eq_some_iff.mp hq
          cases hq
          simp only [le_min_iff]
          omega
      split at hanti
      · cases hanti
        exact ⟨fun h => absurd h (by decide), hhot⟩
      · cases hanti
        exact ⟨fun h => absurd h (by decide), hhot⟩

theorem selectColdPage_cases {h : Histogram2d} {shift : ℕ} {cold : ℤ} {p p' : MigrateParameter}
    {d d' : ℤ} {altered : Bool}
    (hsel : selectColdPage cfg h shift cold p d = some (p', d', altered)) :
    ColdSelection cfg h shift cold p d p' d' altered := by
  unfold selectColdPage at hsel
  split at hsel
  · rename_i hd
    cases hsel
    exact ColdSelection.full hd
  · rename_i hd
    split at hsel
    · rename_i hcold
      cases hsel
      exact ColdSelection.high (not_le.mp hd) hcold
    · rename_i hcold
      obtain ⟨n, hread, hsel⟩ := Option.bind_eq_some_iff.mp hsel
      split at hsel
      · rename_i hn
        cases hsel
        exact ColdSelection.empty (not_le.mp hd) (not_le.mp hcold) (hn ▸ hread)
      · rename_i hn
        split at hsel
        · rename_i hskip
          cases hsel
          simp only [Bool.and_eq_true, Bool.not_eq_true', decide_eq_true_eq] at hskip
          exact ColdSelection.skipped n (not_le.mp hd) (not_le.mp hcold) hread hskip.1 hskip.2
        · dsimp only at hsel
          split at hsel
          · cases hsel
            exact ColdSelection.taken n _ _ (not_le.mp hd) (not_le.mp hcold) hread hn
              (fun _ => rfl) (fun h => h)
          · obtain ⟨⟨q, b⟩, hanti, hsel⟩ := Option.bind_eq_some_iff.mp hsel
            cases hsel
            obtain ⟨hkeep, hhot⟩ := antiThrashing_cases hanti
            exact ColdSelection.taken n _ _ (not_le.mp hd) (not_le.mp hcold) hread hn hkeep
              fun h => hhot h (not_le.mp hcold)

/-- `anti_thrashing` reads inside the rows: it moves a threshold only between
the two it was given and their limits. -/
theorem antiThrashing_total {h : Histogram2d} (rows : Rows (cfg.nrWalks + 1) h)
    {p : MigrateParameter} (hhot : 1 ≤ p.hotThreshold) (hcold : p.coldThreshold < cfg.nrWalks) :
    ∃ r, antiThrashing cfg h p = some r := by
  unfold antiThrashing
  split
  · exact ⟨_, rfl⟩
  · rename_i hset
    split
    · exact ⟨_, rfl⟩
    · rename_i hclose
      obtain ⟨q, hq⟩ : ∃ q, adjustThreshold cfg h p = some q := by
        unfold adjustThreshold
        split
        · have hread := readBin_of_rows rows refLocDram
            (i := max (p.hotThreshold - cfg.antiThrashThreshold) 0) (le_max_right _ _) (by omega)
          simp only [hread]
          exact ⟨_, rfl⟩
        · have hread := readBin_of_rows rows refLocPmem
            (i := min (p.coldThreshold + cfg.antiThrashThreshold) cfg.nrWalks)
            (by omega) (min_le_right _ _)
          simp only [hread]
          exact ⟨_, rfl⟩
      rw [hq]
      dsimp only [bind, Option.bind]
      split <;> exact ⟨_, rfl⟩

theorem selectColdPage_total {h : Histogram2d} (shift : ℕ) (cold : ℤ) {p : MigrateParameter}
    (d : ℤ) (hcold : 0 ≤ cold) (hhot : 1 ≤ p.hotThreshold)
    (hok : Rows (cfg.nrWalks + 1) h ∨ cfg.demoteLimitKb ≤ d) :
    ∃ r, selectColdPage cfg h shift cold p d = some r := by
  unfold selectColdPage
  split
  · exact ⟨_, rfl⟩
  · rename_i hd
    rcases hok with rows | hok
    · split
      · exact ⟨_, rfl⟩
      · rename_i hlt
        rw [readBin_of_rows rows refLocDram hcold (by omega)]
        dsimp only [bind, Option.bind]
        split
        · exact ⟨_, rfl⟩
        · split
          · exact ⟨_, rfl⟩
          · split
            · exact ⟨_, rfl⟩
            · obtain ⟨r, hr⟩ := antiThrashing_total rows
                (p := { p with
                  nrDemote := p.nrDemote + min ((h.bin refLocDram cold.toNat) * 2 ^ shift : ℤ)
                    (cfg.demoteLimitKb - d) / 2 ^ shift
                  demoteRemain := min ((h.bin refLocDram cold.toNat) * 2 ^ shift : ℤ)
                    (cfg.demoteLimitKb - d) / 2 ^ shift
                  coldThreshold := cold
                  coldThresholdMin := 0 }.enable) hhot (not_le.mp hlt)
              rw [hr]
              exact ⟨_, rfl⟩
    · exact absurd hok hd

/-! ### The loop body -/

/-- The loop body, with its two halves as the code computes them. -/
theorem visit_selections {ranges : List EPTMigrate} {i r : ℕ} {plan plan' : Plan}
    {type : ProcIdlePageType} (hvisit : visit cfg ranges i r plan type = some plan') :
    ∃ range p₁ p₂ altered, ranges[r]? = some range ∧
      selectHotPage cfg (range.pagetypeRefs type).histogram2d (type.shift - 10) (cfg.nrWalks - i)
        (plan.parameter r type) plan.promoteCountKb = some (p₁, plan'.promoteCountKb) ∧
      selectColdPage cfg (range.pagetypeRefs type).histogram2d (type.shift - 10) i p₁
        plan.demoteCountKb = some (p₂, plan'.demoteCountKb, altered) ∧
      plan'.parameter =
        Function.update plan.parameter r (Function.update (plan.parameter r) type p₂) ∧
      plan'.notices = if altered then (r, type) :: plan.notices else plan.notices := by
  obtain ⟨range, hrange, hvisit⟩ := Option.bind_eq_some_iff.mp hvisit
  obtain ⟨⟨p₁, c⟩, hhot, hvisit⟩ := Option.bind_eq_some_iff.mp hvisit
  obtain ⟨⟨p₂, d, altered⟩, hcold, hvisit⟩ := Option.bind_eq_some_iff.mp hvisit
  cases hvisit
  exact ⟨range, p₁, p₂, altered, hrange, hhot, hcold, rfl, rfl⟩

/-- A step of the planner, put together from its two halves. -/
theorem visit_cases {ranges : List EPTMigrate} {i r : ℕ} {plan plan' : Plan}
    {type : ProcIdlePageType} (hvisit : visit cfg ranges i r plan type = some plan') :
    ∃ range p₁ p₂ altered, ranges[r]? = some range ∧
      HotSelection cfg (range.pagetypeRefs type).histogram2d (type.shift - 10) (cfg.nrWalks - i)
        (plan.parameter r type) plan.promoteCountKb p₁ plan'.promoteCountKb ∧
      ColdSelection cfg (range.pagetypeRefs type).histogram2d (type.shift - 10) i p₁
        plan.demoteCountKb p₂ plan'.demoteCountKb altered ∧
      plan'.parameter =
        Function.update plan.parameter r (Function.update (plan.parameter r) type p₂) ∧
      plan'.notices = if altered then (r, type) :: plan.notices else plan.notices := by
  obtain ⟨range, p₁, p₂, altered, hrange, hhot, hcold, hparam, hnotices⟩ := visit_selections hvisit
  exact ⟨range, p₁, p₂, altered, hrange, selectHotPage_cases hhot, selectColdPage_cases hcold,
    hparam, hnotices⟩

theorem visit_parameter_of_ne {ranges : List EPTMigrate} {i r : ℕ} {plan plan' : Plan}
    {type : ProcIdlePageType} (hvisit : visit cfg ranges i r plan type = some plan')
    {r' : ℕ} {type' : ProcIdlePageType} (hne : (r', type') ≠ (r, type)) :
    plan'.parameter r' type' = plan.parameter r' type' := by
  obtain ⟨_, _, _, _, _, _, _, hparam, _⟩ := visit_cases hvisit
  rw [hparam]
  by_cases hr : r' = r
  · subst hr
    have ht : type' ≠ type := fun h => hne (by rw [h])
    simp [ht]
  · simp [hr]

theorem HotSelection.mono {h : Histogram2d} {shift : ℕ} {hot : ℤ} {p p' : MigrateParameter}
    {c c' : ℤ} (hsel : HotSelection cfg h shift hot p c p' c') : c ≤ c' := by
  cases hsel with
  | full => exact le_rfl
  | low => exact le_rfl
  | empty => exact le_rfl
  | taken n hc =>
      have : (0 : ℤ) ≤ n * 2 ^ shift := by positivity
      omega

theorem ColdSelection.mono {h : Histogram2d} {shift : ℕ} {cold : ℤ} {p p' : MigrateParameter}
    {d d' : ℤ} {altered : Bool} (hsel : ColdSelection cfg h shift cold p d p' d' altered) :
    d ≤ d' := by
  cases hsel with
  | full => exact le_rfl
  | high => exact le_rfl
  | empty => exact le_rfl
  | skipped => exact le_rfl
  | taken n _ _ hd =>
      have : (0 : ℤ) ≤ n * 2 ^ shift := by positivity
      omega

/-- Every hot threshold is at least 1: what keeps `anti_thrashing` inside the rows. -/
def HotPositive (plan : Plan) : Prop := ∀ r type, 1 ≤ (plan.parameter r type).hotThreshold

/-- The plan before the first sweep. -/
def initPlan (nrWalks : ℕ) : Plan :=
  { parameter := fun _ _ => initMigrationParameter nrWalks
    promoteCountKb := 0
    demoteCountKb := 0
    notices := [] }

theorem hotPositive_init (nrWalks : ℕ) : HotPositive (initPlan nrWalks) := by
  intro r type
  simp only [initPlan, initMigrationParameter]
  omega

/-- A step reads inside the rows of a range with bins, and reads nothing at all
once both limits are used up. -/
theorem visit_total {ranges : List EPTMigrate} {i r : ℕ} {plan : Plan}
    (hpos : HotPositive plan) {range : EPTMigrate} (hrange : ranges[r]? = some range)
    (type : ProcIdlePageType)
    (hok : Rows (cfg.nrWalks + 1) (range.pagetypeRefs type).histogram2d ∨
      cfg.promoteLimitKb ≤ plan.promoteCountKb ∧ cfg.demoteLimitKb ≤ plan.demoteCountKb) :
    ∃ plan', visit cfg ranges i r plan type = some plan' ∧ HotPositive plan' ∧
      plan.promoteCountKb ≤ plan'.promoteCountKb ∧ plan.demoteCountKb ≤ plan'.demoteCountKb := by
  obtain ⟨⟨p₁, c⟩, hhot⟩ := selectHotPage_total (type.shift - 10) (cfg.nrWalks - i)
    (plan.parameter r type) plan.promoteCountKb (by omega) (hok.imp_right And.left)
  have hsel := selectHotPage_cases hhot
  have hp₁ : 1 ≤ p₁.hotThreshold := by
    cases hsel with
    | full => exact hpos r type
    | low => exact hpos r type
    | empty => exact hpos r type
    | taken _ _ hone => exact hone
  obtain ⟨⟨p₂, d, altered⟩, hcold⟩ := selectColdPage_total (type.shift - 10) i
    plan.demoteCountKb (by omega) hp₁ (hok.imp_right And.right)
  have hsel' := selectColdPage_cases hcold
  have hp₂ : 1 ≤ p₂.hotThreshold := by
    cases hsel' with
    | full => exact hp₁
    | high => exact hp₁
    | empty => exact hp₁
    | skipped => exact hp₁
    | taken _ _ _ _ _ _ _ _ hkeep => exact hkeep hp₁
  refine ⟨_, by
    unfold visit
    rw [hrange]
    dsimp only [bind, Option.bind]
    rw [hhot]
    dsimp only
    rw [hcold]
    rfl, ?_, hsel.mono, hsel'.mono⟩
  intro r' type'
  by_cases hr : r' = r
  · subst hr
    by_cases ht : type' = type
    · subst ht
      simpa using hp₂
    · simpa [ht] using hpos r' type'
  · simpa [hr] using hpos r' type'

/-! ### One parameter -/

section Rule

variable {ranges : List EPTMigrate} {r : ℕ} {type : ProcIdlePageType} {range : EPTMigrate}
  {h : Histogram2d} {I : ℕ → Bool → MigrateParameter → ℤ → ℤ → Prop}

/-- Something about a parameter, the sweeps it has been through, whether `anti_thrashing`
has altered it, and the two counters: its own visits keep it, and the visits of the others,
which may only move the counters on. -/
structure KeptByVisits (cfg : PlanConfig) (h : Histogram2d) (shift : ℕ)
    (I : ℕ → Bool → MigrateParameter → ℤ → ℤ → Prop) : Prop where
  visit : ∀ ⦃i : ℕ⦄, i ≤ cfg.nrWalks → ∀ ⦃p p₁ p₂ : MigrateParameter⦄ ⦃c c' d d' : ℤ⦄
    ⦃noticed altered : Bool⦄, I i noticed p c d →
      selectHotPage cfg h shift (cfg.nrWalks - i) p c = some (p₁, c') →
        selectColdPage cfg h shift i p₁ d = some (p₂, d', altered) →
          I (i + 1) (altered || noticed) p₂ c' d'
  counters : ∀ ⦃i : ℕ⦄ ⦃noticed : Bool⦄ ⦃p : MigrateParameter⦄ ⦃c c' d d' : ℤ⦄,
    I i noticed p c d → c ≤ c' → d ≤ d' → I i noticed p c' d'

/-- `I` of the parameter of a range and a type. -/
def Plan.Holds (I : ℕ → Bool → MigrateParameter → ℤ → ℤ → Prop) (r : ℕ)
    (type : ProcIdlePageType) (i : ℕ) (plan : Plan) : Prop :=
  I i (decide ((r, type) ∈ plan.notices)) (plan.parameter r type) plan.promoteCountKb
    plan.demoteCountKb

/-- The visit of the parameter itself. -/
theorem KeptByVisits.self (kept : KeptByVisits cfg h (type.shift - 10) I)
    (hrange : ranges[r]? = some range) (hhist : (range.pagetypeRefs type).histogram2d = h) {i : ℕ}
    (hi : i ≤ cfg.nrWalks) {plan plan' : Plan} (inv : plan.Holds I r type i)
    (hvisit : GlobalScan.visit cfg ranges i r plan type = some plan') :
    plan'.Holds I r type (i + 1) := by
  obtain ⟨range', p₁, p₂, altered, hrange', hhot, hcold, hparam, hnotices⟩ :=
    visit_selections hvisit
  obtain rfl : range = range' := Option.some_injective _ (hrange.symm.trans hrange')
  rw [hhist] at hhot hcold
  have hnoticed : decide ((r, type) ∈ plan'.notices) =
      (altered || decide ((r, type) ∈ plan.notices)) := by
    rw [hnotices]
    cases altered <;> simp
  unfold Plan.Holds
  rw [hnoticed, hparam, Function.update_self, Function.update_self]
  exact kept.visit hi inv hhot hcold

/-- The visit of another parameter. -/
theorem KeptByVisits.other {shift : ℕ} (kept : KeptByVisits cfg h shift I) {i j r' : ℕ}
    {type' : ProcIdlePageType} (hne : (r, type) ≠ (r', type')) {plan plan' : Plan}
    (inv : plan.Holds I r type i)
    (hvisit : GlobalScan.visit cfg ranges j r' plan type' = some plan') :
    plan'.Holds I r type i := by
  obtain ⟨_, _, _, altered, _, hhot, hcold, _, hnotices⟩ := visit_cases hvisit
  have hnoticed : decide ((r, type) ∈ plan'.notices) = decide ((r, type) ∈ plan.notices) := by
    rw [hnotices]
    cases altered <;> simp [hne]
  unfold Plan.Holds
  rw [hnoticed, visit_parameter_of_ne hvisit hne]
  exact kept.counters inv hhot.mono hcold.mono

/-- A sweep visits the parameter once. -/
theorem KeptByVisits.sweep (kept : KeptByVisits cfg h (type.shift - 10) I)
    (hrange : ranges[r]? = some range) (htype : type ∈ plannedTypes)
    (hhist : (range.pagetypeRefs type).histogram2d = h) {i : ℕ} (hi : i ≤ cfg.nrWalks)
    {plan plan' : Plan} (inv : plan.Holds I r type i)
    (hsweep : GlobalScan.sweep cfg ranges plan i = some plan') :
    plan'.Holds I r type (i + 1) := by
  have hr : r < ranges.length := (List.getElem?_eq_some_iff.mp hrange).1
  have hinv := foldlM_range_partial hsweep
    (P := fun m plan => plan.Holds I r type (if r < m then i + 1 else i)) (by simpa using inv) ?_
  · simpa [hr] using hinv
  intro m _ s s' hs hrun
  obtain ⟨s₁, hpte, hrun⟩ := Option.bind_eq_some_iff.mp hrun
  obtain ⟨s₂, hpmd, hrun⟩ := Option.bind_eq_some_iff.mp hrun
  cases hrun
  by_cases hm : r = m
  · subst hm
    simp only [lt_irrefl, if_false, Nat.lt_succ_self, if_true] at hs ⊢
    simp only [plannedTypes, List.mem_cons, List.not_mem_nil, or_false] at htype
    rcases htype with rfl | rfl
    · exact kept.other (by simp) (kept.self hrange hhist hi hs hpte) hpmd
    · exact kept.self hrange hhist hi (kept.other (by simp) hs hpte) hpmd
  · have hiff : (r < m + 1) ↔ r < m := by omega
    rw [if_congr hiff rfl rfl]
    exact kept.other (by simp [hm]) (kept.other (by simp [hm]) hs hpte) hpmd

/-- **The whole plan.** What the visits keep holds when the sweeps are through. -/
theorem parameter_rule (kept : KeptByVisits cfg h (type.shift - 10) I)
    (hinit : I 0 false (initMigrationParameter cfg.nrWalks) 0 0)
    (hrange : ranges[r]? = some range) (htype : type ∈ plannedTypes)
    (hhist : (range.pagetypeRefs type).histogram2d = h) {plan : Plan}
    (hplan : calcMigrateParameter cfg ranges = some plan) :
    plan.Holds I r type (cfg.nrWalks + 1) :=
  foldlM_range_partial hplan (P := fun i plan => plan.Holds I r type i) hinit
    fun _ hi _ _ hs hsweep => kept.sweep hrange htype hhist (Nat.le_of_lt_succ hi) hs hsweep

end Rule

end GlobalScan

end MemoryOptimizer
