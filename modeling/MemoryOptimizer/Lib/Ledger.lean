import Mathlib.Algebra.GroupWithZero.Nat
import Mathlib.Algebra.Notation.Pi.Basic
import Mathlib.Data.List.Count
import Mathlib.Data.List.Forall2

/-!
# Ledgers

Keys have credit.  Credit is made by the surroundings, and a claim spends one unit of
the credit of a key that backs it.

* `Backed R start made now claims` — every claim is backed by a key of its own unit of
  credit: what a key has now and what was spent of it is not more than what it had at
  the start and what was made since.
* `Backed.trans`, `Backed.single`, `Backed.drop`, `Backed.fresh` — the steps of a run.
* `Backed.count_le` — claims that one key alone can back are made no more often than
  that key had credit.
-/

namespace MemoryOptimizer

variable {ρ κ : Type*} [DecidableEq κ]

/-- No unit of credit backs two claims. -/
def Backed (R : ρ → κ → Prop) (start made now : κ → ℕ) (claims : List ρ) : Prop :=
  ∃ spent : List κ, List.Forall₂ R claims spent ∧
    ∀ key, spent.count key + now key ≤ start key + made key

namespace Backed

variable {R S : ρ → κ → Prop} {start made now next : κ → ℕ} {claims more : List ρ}

theorem nil (R : ρ → κ → Prop) (start : κ → ℕ) : Backed R start 0 start [] :=
  ⟨[], .nil, fun key => by simp⟩

theorem map {ρ' : Type*} {S : ρ' → κ → Prop} (h : Backed R start made now claims) {f : ρ → ρ'}
    (hRS : ∀ claim key, R claim key → S (f claim) key) :
    Backed S start made now (claims.map f) := by
  obtain ⟨spent, hall, hcredit⟩ := h
  refine ⟨spent, ?_, hcredit⟩
  rw [List.forall₂_map_left_iff]
  exact hall.imp hRS

theorem imp (h : Backed R start made now claims) (hRS : ∀ claim key, R claim key → S claim key) :
    Backed S start made now claims := by
  obtain ⟨spent, hall, hcredit⟩ := h
  exact ⟨spent, hall.imp hRS, hcredit⟩

/-- Without more credit there is none that was not there. -/
theorem le (h : Backed R start 0 now claims) (key : κ) : now key ≤ start key := by
  obtain ⟨spent, -, hcredit⟩ := h
  exact Nat.le_trans (Nat.le_add_left _ _) (hcredit key)

/-- Credit may be dropped. -/
theorem drop (h : Backed R start made now claims) (hle : ∀ key, next key ≤ now key) :
    Backed R start made next claims := by
  obtain ⟨spent, hall, hcredit⟩ := h
  exact ⟨spent, hall, fun key => Nat.le_trans (Nat.add_le_add_left (hle key) _) (hcredit key)⟩

/-- The claims of a second run, from where the first one ended. -/
theorem trans (h : Backed R start made now claims) {fresh : κ → ℕ}
    (h' : Backed R now fresh next more) : Backed R start (made + fresh) next (claims ++ more) := by
  obtain ⟨spent, hall, hcredit⟩ := h
  obtain ⟨spent', hall', hcredit'⟩ := h'
  refine ⟨spent ++ spent', List.rel_append hall hall', fun key => ?_⟩
  have hfirst := hcredit key
  have hsecond := hcredit' key
  rw [List.count_append, Pi.add_apply]
  omega

theorem append (h : Backed R start made now claims) (h' : Backed R now 0 next more) :
    Backed R start made next (claims ++ more) := by
  have hboth := h.trans h'
  rwa [show made + 0 = made from funext fun key => Nat.add_zero (made key)] at hboth

/-- Some of the claims. -/
theorem sublist (h : Backed R start made now claims) (hsub : more.Sublist claims) :
    Backed R start made now more := by
  obtain ⟨spent, hall, hcredit⟩ := h
  have hpart : ∃ spent', List.Forall₂ R more spent' ∧ spent'.Sublist spent := by
    clear hcredit
    induction hsub generalizing spent with
    | slnil =>
        cases hall
        exact ⟨[], .nil, List.Sublist.slnil⟩
    | cons claim _ ih =>
        cases hall with
        | cons _ hall =>
            obtain ⟨spent', hall', hsub'⟩ := ih _ hall
            exact ⟨spent', hall', hsub'.cons _⟩
    | cons_cons claim _ ih =>
        cases hall with
        | cons hhead hall =>
            obtain ⟨spent', hall', hsub'⟩ := ih _ hall
            exact ⟨_ :: spent', .cons hhead hall', hsub'.cons_cons _⟩
  obtain ⟨spent', hall', hsub'⟩ := hpart
  refine ⟨spent', hall', fun key => ?_⟩
  have hcount := hsub'.count_le key
  have hkey := hcredit key
  omega

/-- One claim spends the credit of its key. -/
theorem single {claim : ρ} {key : κ} (hR : R claim key) (hkey : next key + 1 ≤ now key)
    (hle : ∀ other, other ≠ key → next other ≤ now other) : Backed R now 0 next [claim] := by
  refine ⟨[key], .cons hR .nil, fun other => ?_⟩
  rw [Pi.zero_apply, Nat.add_zero]
  by_cases h : other = key
  · subst h
    rw [List.count_singleton_self]
    omega
  · rw [List.count_singleton, beq_eq_false_iff_ne.mpr (Ne.symm h), if_neg Bool.false_ne_true,
      Nat.zero_add]
    exact hle other h

/-- The surroundings make credit, and nothing is claimed. -/
theorem fresh {more : κ → ℕ} (R : ρ → κ → Prop) (hle : ∀ key, next key ≤ now key + more key) :
    Backed R now more next [] := ⟨[], .nil, fun key => by simpa using hle key⟩

/-- Claims that one key alone can back. -/
theorem count_le (h : Backed R start made now claims) (p : ρ → Bool) (key : κ)
    (honly : ∀ claim other, p claim = true → R claim other → other = key) :
    claims.countP p + now key ≤ start key + made key := by
  obtain ⟨spent, hall, hcredit⟩ := h
  refine Nat.le_trans (Nat.add_le_add_right ?_ _) (hcredit key)
  clear hcredit
  induction hall with
  | nil => exact Nat.le_refl _
  | @cons head other claims spent hhead _ ih =>
      rw [List.countP_cons, List.count_cons]
      refine Nat.add_le_add ih ?_
      by_cases hp : p head = true
      · rw [honly head other hp hhead, if_pos hp]
        simp
      · simp [hp]

end Backed

end MemoryOptimizer
