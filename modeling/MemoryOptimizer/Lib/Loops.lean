import Mathlib.Data.List.Basic
import Mathlib.Algebra.Notation.Defs

/-!
# Loop rules

A `for (i = 0; i < n; ++i)` loop whose body can fail is a `foldlM` over
`List.range n` in `Option`.  The two rules carry an invariant indexed by the
number of iterations done: `foldlM_range_total` also shows that the loop does
not fail, `foldlM_range_partial` assumes it.

`loopUntilRet` is a `while` loop that a return value other than 0 ends; what holds
in each of its iterations holds in the first one and in those behind it
(`forall_iteration`).  `loopUntilRet_rule` is the invariant rule for where it ends,
`loopUntilRet_isSome` that it ends where a measure goes down.
-/

namespace MemoryOptimizer

section Loops

variable {σ : Type*} {f : σ → ℕ → Option σ} {P : ℕ → σ → Prop} {n : ℕ} {s : σ}

theorem foldlM_range_total (h0 : P 0 s)
    (step : ∀ i < n, ∀ s, P i s → ∃ s', f s i = some s' ∧ P (i + 1) s') :
    ∃ s', (List.range n).foldlM f s = some s' ∧ P n s' := by
  induction n with
  | zero => exact ⟨s, rfl, h0⟩
  | succ n ih =>
      obtain ⟨s₁, hs₁, hP₁⟩ := ih fun i hi => step i (Nat.lt_succ_of_lt hi)
      obtain ⟨s₂, hs₂, hP₂⟩ := step n (Nat.lt_succ_self n) s₁ hP₁
      refine ⟨s₂, ?_, hP₂⟩
      simp [List.range_succ, List.foldlM_append, hs₁, hs₂]

theorem foldlM_range_partial {s' : σ} (h : (List.range n).foldlM f s = some s') (h0 : P 0 s)
    (step : ∀ i < n, ∀ s s', P i s → f s i = some s' → P (i + 1) s') : P n s' := by
  induction n generalizing s' with
  | zero =>
      cases h
      exact h0
  | succ n ih =>
      rw [List.range_succ, List.foldlM_append] at h
      obtain ⟨s₁, hs₁, hs'⟩ := Option.bind_eq_some_iff.mp h
      have hP₁ := ih hs₁ fun i hi => step i (Nat.lt_succ_of_lt hi)
      exact step n (Nat.lt_succ_self n) s₁ s' hP₁ (by simpa using hs')

/-- Every iteration of a loop that does not fail starts in some state. -/
theorem foldlM_range_reaches {s' : σ} (h : (List.range n).foldlM f s = some s') {i : ℕ}
    (hi : i < n) :
    ∃ s₁ s₂, (List.range i).foldlM f s = some s₁ ∧ f s₁ i = some s₂ := by
  induction n generalizing s' with
  | zero => exact absurd hi (Nat.not_lt_zero i)
  | succ n ih =>
      rw [List.range_succ, List.foldlM_append] at h
      obtain ⟨s₁, hs₁, hs'⟩ := Option.bind_eq_some_iff.mp h
      rcases Nat.lt_succ_iff_lt_or_eq.mp hi with hlt | rfl
      · exact ih hs₁ hlt
      · exact ⟨s₁, s', hs₁, by simpa using hs'⟩

end Loops

/-- A loop over the elements of a list with their indices, each of which is replaced. -/
theorem mapM_zipIdx_total {α β : Type*} {f : α × ℕ → Option β} {P : ℕ → α → β → Prop} (l : List α)
    (start : ℕ) (h : ∀ a ∈ l, ∀ i, ∃ b, f (a, i) = some b ∧ P i a b) :
    ∃ l', (l.zipIdx start).mapM f = some l' ∧ l'.length = l.length ∧
      ∀ i a b, l[i]? = some a → l'[i]? = some b → P (start + i) a b := by
  induction l generalizing start with
  | nil => exact ⟨[], rfl, rfl, fun i a b ha => by simp at ha⟩
  | cons a l ih =>
      obtain ⟨b, hb, hP⟩ := h a (List.mem_cons_self ..) start
      obtain ⟨l', hl', hlength, hrest⟩ := ih (start + 1) fun a ha => h a (List.mem_cons_of_mem _ ha)
      refine ⟨b :: l', by simp [List.mapM_cons, hb, hl'], by simp [hlength],
        fun i a' b' ha hb' => ?_⟩
      cases i with
      | zero =>
          obtain rfl : a = a' := by simpa using ha
          obtain rfl : b = b' := by simpa using hb'
          exact hP
      | succ i =>
          have := hrest i a' b' (by simpa using ha) (by simpa using hb')
          rwa [Nat.add_right_comm] at this

/-! ### Loops that a return value ends -/

section Returns

variable {σ ρ : Type*} [Zero ρ] [DecidableEq ρ] (goes : σ → Prop) [DecidablePred goes]
variable (step : σ → σ × ρ)

/-- `while (goes(s)) { ret = step(s); if (ret) break; }` with a bound on its
iterations: the state, and `ret` where the loop has ended. -/
def loopUntilRet : ℕ → σ → σ × Option ρ
  | 0, s => (s, none)
  | fuel + 1, s =>
      if goes s then
        let r := step s
        if r.2 ≠ 0 then (r.1, some r.2) else loopUntilRet fuel r.1
      else (s, some 0)

/-- The loop comes to an iteration after `n` others. -/
def ComesTo (s : σ) (n : ℕ) : Prop :=
  (loopUntilRet goes step n s).2 = none ∧ goes (loopUntilRet goes step n s).1

variable {goes step} {s : σ}

/-- The iterations that follow: none behind one that ended the loop. -/
theorem forall_iteration (hgoes : goes s) (P : σ → Prop) :
    (∀ n, ComesTo goes step s n → P (loopUntilRet goes step n s).1) ↔
      P s ∧ ((step s).2 = 0 → ∀ n, ComesTo goes step (step s).1 n →
        P (loopUntilRet goes step n (step s).1).1) := by
  have hsucc : ∀ n, loopUntilRet goes step (n + 1) s =
      if (step s).2 ≠ 0 then ((step s).1, some (step s).2)
      else loopUntilRet goes step n (step s).1 := by
    intro n
    rw [loopUntilRet, if_pos hgoes]
  constructor
  · intro h
    refine ⟨h 0 ⟨rfl, hgoes⟩, fun hret n => ?_⟩
    have hn := h (n + 1)
    rw [ComesTo, hsucc, if_neg (not_not.mpr hret)] at hn
    exact hn
  · rintro ⟨hfirst, hrest⟩ n hrun
    cases n with
    | zero => exact hfirst
    | succ n =>
        rw [ComesTo, hsucc] at hrun
        rw [hsucc]
        by_cases hret : (step s).2 ≠ 0
        · rw [if_pos hret] at hrun
          exact absurd hrun.1 (Option.some_ne_none _)
        · rw [if_neg hret] at hrun ⊢
          exact hrest (not_not.mp hret) n hrun

theorem loopUntilRet_rule {I : σ → Prop} {Q : σ → ρ → Prop} (hstart : I s)
    (hstay : ∀ s, I s → ¬goes s → Q s 0)
    (hnext : ∀ s, I s → goes s → (step s).2 = 0 → I (step s).1)
    (hlast : ∀ s, I s → goes s → (step s).2 ≠ 0 → Q (step s).1 (step s).2) {fuel : ℕ} {ret : ρ}
    (hret : (loopUntilRet goes step fuel s).2 = some ret) :
    Q (loopUntilRet goes step fuel s).1 ret := by
  induction fuel generalizing s with
  | zero => cases hret
  | succ fuel ih =>
      rw [loopUntilRet] at hret ⊢
      by_cases hgoes : goes s
      · rw [if_pos hgoes] at hret ⊢
        dsimp only at hret ⊢
        by_cases hgo : (step s).2 = 0
        · rw [if_neg (not_not.mpr hgo)] at hret ⊢
          exact ih (hnext s hstart hgoes hgo) hret
        · rw [if_pos hgo] at hret ⊢
          obtain rfl := Option.some.inj hret
          exact hlast s hstart hgoes hgo
      · rw [if_neg hgoes] at hret ⊢
        obtain rfl := Option.some.inj hret
        exact hstay s hstart hgoes

/-- What an iteration cannot undo, and is not there at the end, has never been there. -/
theorem loopUntilRet_never {P : σ → Prop} (hsticky : ∀ s, P s → P (step s).1) {fuel : ℕ}
    {ret : ρ} (hret : (loopUntilRet goes step fuel s).2 = some ret)
    (hgood : ¬P (loopUntilRet goes step fuel s).1) (n : ℕ) :
    ¬P (loopUntilRet goes step n s).1 := by
  induction fuel generalizing s n with
  | zero => cases hret
  | succ fuel ih =>
      rw [loopUntilRet] at hret hgood
      by_cases hgoes : goes s
      · rw [if_pos hgoes] at hret hgood
        dsimp only at hret hgood
        by_cases hgo : (step s).2 = 0
        · rw [if_neg (not_not.mpr hgo)] at hret hgood
          cases n with
          | zero => exact fun h => ih hret hgood 0 (hsticky s h)
          | succ n =>
              rw [loopUntilRet, if_pos hgoes]
              dsimp only
              rw [if_neg (not_not.mpr hgo)]
              exact ih hret hgood n
        · rw [if_pos hgo] at hgood
          cases n with
          | zero => exact fun h => hgood (hsticky s h)
          | succ n =>
              rw [loopUntilRet, if_pos hgoes]
              dsimp only
              rw [if_pos hgo]
              exact hgood
      · rw [if_neg hgoes] at hgood
        cases n with
        | zero => exact hgood
        | succ n =>
            rw [loopUntilRet, if_neg hgoes]
            exact hgood

/-- The iterations that go on lower the measure, so that the loop ends. -/
theorem loopUntilRet_isSome {I : σ → Prop} (measure : σ → ℕ) (hstart : I s)
    (hnext : ∀ s, I s → goes s → (step s).2 = 0 →
      I (step s).1 ∧ measure (step s).1 < measure s) {fuel : ℕ} (hfuel : measure s < fuel) :
    ∃ ret, (loopUntilRet goes step fuel s).2 = some ret := by
  induction fuel generalizing s with
  | zero => exact absurd hfuel (Nat.not_lt_zero _)
  | succ fuel ih =>
      rw [loopUntilRet]
      by_cases hgoes : goes s
      · rw [if_pos hgoes]
        dsimp only
        by_cases hgo : (step s).2 = 0
        · rw [if_neg (not_not.mpr hgo)]
          obtain ⟨hkept, hlt⟩ := hnext s hstart hgoes hgo
          exact ih hkept (Nat.lt_of_lt_of_le hlt (Nat.le_of_lt_succ hfuel))
        · rw [if_pos hgo]
          exact ⟨_, rfl⟩
      · rw [if_neg hgoes]
        exact ⟨0, rfl⟩

end Returns

end MemoryOptimizer
