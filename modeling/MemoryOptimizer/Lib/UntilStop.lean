import Mathlib.Data.List.Basic
import Mathlib.Order.Filter.Basic

/-!
# Loops that a step stops

`untilStop f l` is a loop over a list whose body can fail, and says whether the loop
stops there.  Such loops nest: the body of one may be another.

* `untilStop_rule` — a relation between the states before and after, and the flag,
  that holds of every pass holds of the loop, if it is reflexive and composes behind
  a pass that does not stop.
* `untilStop_visits` — what each pass brings about for its element, and no other pass
  undoes, holds for all of them behind a loop that nothing has stopped.
* `untilStop_eventually` — a loop does not fail for most values of a parameter, such as a
  bound on the loops inside, if none of its passes does.
* `Fed f l s t stop` — the whole list was fed to `f`, and no element behind one that
  stopped it.
-/

namespace MemoryOptimizer

variable {α σ : Type*}

/-- The loop over `l`, up to the first element at which `f` says so. -/
def untilStop (f : α → σ → Option (σ × Bool)) : List α → σ → Option (σ × Bool)
  | [], s => some (s, false)
  | a :: l, s => (f a s).bind fun r => if r.2 then some r else untilStop f l r.1

section UntilStop

variable {f : α → σ → Option (σ × Bool)} {l : List α} {s t : σ} {stop : Bool}

theorem untilStop_cons {a : α} (h : untilStop f (a :: l) s = some (t, stop)) :
    ∃ s' stop', f a s = some (s', stop') ∧
      (stop' = true ∧ t = s' ∧ stop = true ∨
        stop' = false ∧ untilStop f l s' = some (t, stop)) := by
  obtain ⟨⟨s', stop'⟩, hstep, hrest⟩ := Option.bind_eq_some_iff.mp h
  refine ⟨s', stop', hstep, ?_⟩
  cases stop' with
  | true =>
      cases hrest
      exact .inl ⟨rfl, rfl, rfl⟩
  | false => exact .inr ⟨rfl, hrest⟩

/-- A body with more results. -/
theorem untilStop_mono {g : α → σ → Option (σ × Bool)}
    (hle : ∀ a s r, f a s = some r → g a s = some r) (h : untilStop f l s = some (t, stop)) :
    untilStop g l s = some (t, stop) := by
  induction l generalizing s with
  | nil => exact h
  | cons a l ih =>
      obtain ⟨s', stop', hfirst, hrest⟩ := untilStop_cons h
      rw [untilStop, hle a s _ hfirst]
      rcases hrest with ⟨rfl, rfl, rfl⟩ | ⟨rfl, hrest⟩
      · rfl
      · exact ih hrest

theorem untilStop_rule {R : σ → σ → Bool → Prop} (refl : ∀ s, R s s false)
    (trans : ∀ {s t u stop}, R s t false → R t u stop → R s u stop)
    (hstep : ∀ a ∈ l, ∀ s t stop, f a s = some (t, stop) → R s t stop)
    (h : untilStop f l s = some (t, stop)) : R s t stop := by
  induction l generalizing s with
  | nil =>
      cases h
      exact refl t
  | cons a l ih =>
      obtain ⟨s', stop', hfirst, hrest⟩ := untilStop_cons h
      have hhead := hstep a List.mem_cons_self s s' stop' hfirst
      rcases hrest with ⟨rfl, rfl, rfl⟩ | ⟨rfl, hrest⟩
      · exact hhead
      · exact trans hhead (ih (fun b hb => hstep b (List.mem_cons_of_mem a hb)) hrest)

theorem untilStop_visits {Q : α → σ → Prop}
    (hvisit : ∀ a ∈ l, ∀ s t, f a s = some (t, false) → Q a t)
    (hkeep : ∀ a b s t, f b s = some (t, false) → Q a s → Q a t)
    (h : untilStop f l s = some (t, false)) : ∀ a ∈ l, Q a t := by
  induction l generalizing s with
  | nil => exact fun a ha => absurd ha List.not_mem_nil
  | cons b l ih =>
      obtain ⟨s', stop', hfirst, hrest⟩ := untilStop_cons h
      rcases hrest with ⟨-, -, hfalse⟩ | ⟨rfl, hrest⟩
      · cases hfalse
      · intro a ha
        rcases List.mem_cons.mp ha with rfl | ha
        · refine untilStop_rule (R := fun s t stop => stop = false → Q a s → Q a t)
            (fun _ _ h => h) (fun h h' hstop hQ => h' hstop (h rfl hQ)) ?_ hrest rfl
            (hvisit a List.mem_cons_self s s' hfirst)
          rintro c - s t stop hstep rfl hQ
          exact hkeep a c s t hstep hQ
        · exact ih (fun c hc => hvisit c (List.mem_cons_of_mem b hc)) hrest a ha

/-- `J` holds where no pass has stopped the loop. -/
theorem untilStop_eventually {ι : Type*} {F : Filter ι} {f : ι → α → σ → Option (σ × Bool)}
    {J : σ → Prop} (hstart : J s)
    (hstep : ∀ a ∈ l, ∀ s, J s →
      ∃ t stop, (∀ᶠ n in F, f n a s = some (t, stop)) ∧ (stop = false → J t)) :
    ∃ t stop, (∀ᶠ n in F, untilStop (f n) l s = some (t, stop)) ∧ (stop = false → J t) := by
  induction l generalizing s with
  | nil => exact ⟨s, false, .of_forall fun _ => rfl, fun _ => hstart⟩
  | cons a l ih =>
      obtain ⟨s', stop', hfirst, hJ⟩ := hstep a List.mem_cons_self s hstart
      cases stop' with
      | true =>
          refine ⟨s', true, hfirst.mono fun n hn => ?_, fun h => by cases h⟩
          rw [untilStop, hn]
          rfl
      | false =>
          obtain ⟨t, stop, hrest, hend⟩ :=
            ih (hJ rfl) fun b hb => hstep b (List.mem_cons_of_mem a hb)
          refine ⟨t, stop, (hfirst.and hrest).mono fun n hn => ?_, hend⟩
          rw [untilStop, hn.1]
          exact hn.2

end UntilStop

/-! ### Lists that are fed -/

/-- All of the list went to `f`; it stopped at none but the last element, and at
that one if `stop`. -/
inductive Fed (f : α → σ → Option (σ × Bool)) : List α → σ → σ → Bool → Prop
  | nil (s : σ) : Fed f [] s s false
  | last {a : α} {s t : σ} (h : f a s = some (t, true)) : Fed f [a] s t true
  | cons {a : α} {l : List α} {s t u : σ} {stop : Bool} (h : f a s = some (t, false))
      (rest : Fed f l t u stop) : Fed f (a :: l) s u stop

section Fed

variable {f : α → σ → Option (σ × Bool)} {l l' : List α} {s t u : σ} {stop : Bool}

theorem Fed.single {a : α} (h : f a s = some (t, stop)) : Fed f [a] s t stop := by
  cases stop with
  | true => exact .last h
  | false => exact .cons h (.nil t)

theorem Fed.append (h : Fed f l s t false) (h' : Fed f l' t u stop) :
    Fed f (l ++ l') s u stop := by
  generalize hflag : false = flag at h
  induction h with
  | nil s => exact h'
  | last _ => cases hflag
  | cons hstep _ ih => exact .cons hstep (ih h' hflag)

/-- A relation that holds of every element and composes. -/
theorem Fed.rule {R : List α → σ → σ → Bool → Prop} (h : Fed f l s t stop)
    (refl : ∀ s, R [] s s false)
    (trans : ∀ {l l' s t u stop}, R l s t false → R l' t u stop → R (l ++ l') s u stop)
    (hstep : ∀ a s t stop, f a s = some (t, stop) → R [a] s t stop) : R l s t stop := by
  induction h with
  | nil s => exact refl s
  | last h => exact hstep _ _ _ _ h
  | cons h _ ih => exact trans (hstep _ _ _ _ h) ih

/-- `J`, which may look at what is still to be fed, holds as long as nothing has stopped,
and `K` in any case. -/
theorem Fed.keeps {J : List α → σ → Prop} {K : σ → Prop} (h : Fed f l s t stop) (hstart : J l s)
    (hweak : ∀ s, J [] s → K s)
    (hstep : ∀ a l s t stop, J (a :: l) s → f a s = some (t, stop) →
      K t ∧ (stop = false → J l t)) :
    K t := by
  induction h with
  | nil s => exact hweak s hstart
  | last h => exact (hstep _ _ _ _ _ hstart h).1
  | cons h _ ih => exact ih ((hstep _ _ _ _ _ hstart h).2 rfl)

end Fed

end MemoryOptimizer
