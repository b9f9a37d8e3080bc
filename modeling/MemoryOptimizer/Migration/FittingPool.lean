import Mathlib.Data.List.Induction
import MemoryOptimizer.Migration.IntervalFitting

/-!
# The pool of the interval estimate

`add_pair` keeps its samples twice: a list of the intervals, oldest first, and a map from
an interval to its pair. It drops the front of a full list before it looks the new
interval up, takes the interval out of the list when the map still has it, and adds it at
the end.

* `lastAdded`, `latestY` — the history of an interval.
* `Consistent` — what the two containers hold after a history.
* `addPairs_consistent` — every history leaves them so.
-/

namespace MemoryOptimizer

namespace IntervalFitting

/-! ### The history of an interval -/

/-- The number of the latest call with `x`, from one on; 0 before any. -/
def lastAdded (history : List (ℚ × ℕ)) (x : ℚ) : ℕ :=
  history.length - history.reverse.findIdx fun pair => pair.1 = x

/-- The `y` of the latest call with `x`. -/
def latestY (history : List (ℚ × ℕ)) (x : ℚ) : Option ℕ :=
  (history.reverse.find? fun pair => pair.1 = x).map Prod.snd

section History

variable (history : List (ℚ × ℕ)) (pair : ℚ × ℕ) (x : ℚ)

theorem lastAdded_append : lastAdded (history ++ [pair]) x =
    if pair.1 = x then history.length + 1 else lastAdded history x := by
  unfold lastAdded
  rw [List.reverse_append, List.reverse_singleton, List.singleton_append, List.findIdx_cons,
    List.length_append, List.length_singleton]
  by_cases h : pair.1 = x <;> simp [h]

theorem latestY_append : latestY (history ++ [pair]) x =
    if pair.1 = x then some pair.2 else latestY history x := by
  unfold latestY
  rw [List.reverse_append, List.reverse_singleton, List.singleton_append, List.find?_cons]
  by_cases h : pair.1 = x <;> simp [h]

theorem lastAdded_le : lastAdded history x ≤ history.length := Nat.sub_le _ _

end History

/-! ### The two containers -/

/-- What the list and the map hold after a history of calls. -/
structure Consistent (maxSample : ℕ) (history : List (ℚ × ℕ)) (f : IntervalFitting) : Prop
    extends Keys f where
  length_le : f.dataPool.length ≤ maxSample
  /-- An entry is the pair of the latest call with its `x`. -/
  latest : ∀ e ∈ f.orderPool.entries, e.2.x = e.1 ∧ latestY history e.1 = some e.2.y
  newest : ∀ earlier x y, history = earlier ++ [(x, y)] → f.dataPool.getLast? = some x
  ordered : f.dataPool.Pairwise fun a b => lastAdded history a < lastAdded history b

/-- One call on a pool: only a full one loses a sample, and that is the one that was
added first of all. -/
structure Replaces (maxSample : ℕ) (history : List (ℚ × ℕ)) (x : ℚ) (f f' : IntervalFitting) :
    Prop where
  roomy : f.dataPool.length < maxSample → ∀ k, k ∈ f'.dataPool ↔ k = x ∨ k ∈ f.dataPool
  full : maxSample ≤ f.dataPool.length → ∃ oldest ∈ f.dataPool,
    (∀ k ∈ f.dataPool, k ≠ oldest → lastAdded history oldest < lastAdded history k) ∧
    ∀ k, k ∈ f'.dataPool ↔ k = x ∨ k ∈ f.dataPool ∧ k ≠ oldest

theorem consistent_new (maxSample : ℕ) : Consistent maxSample [] new where
  toKeys := keys_new
  length_le := Nat.zero_le _
  latest := by simp [new]
  newest := by simp
  ordered := List.Pairwise.nil

section Call

variable {maxSample : ℕ} {history : List (ℚ × ℕ)} {f f' : IntervalFitting} {x : ℚ} {y : ℕ}

theorem length_kept_lt (hmax : 0 < maxSample) (h : f.dataPool.length ≤ maxSample) :
    (f.kept maxSample).length < maxSample := by
  unfold kept
  split
  · rw [List.length_tail]
    omega
  · omega

/-- The samples that stay keep their order, and the new one is behind them. -/
theorem Consistent.ordered_erase (h : Consistent maxSample history f) (x : ℚ) (y : ℕ) :
    ((f.kept maxSample).erase x ++ [x]).Pairwise fun a b =>
      lastAdded (history ++ [(x, y)]) a < lastAdded (history ++ [(x, y)]) b := by
  have hnodup : (f.kept maxSample).Nodup := (kept_sublist maxSample f).nodup h.nodup
  have hold : ∀ a ∈ (f.kept maxSample).erase x,
      lastAdded (history ++ [(x, y)]) a = lastAdded history a := by
    intro a ha
    have hne : a ≠ x := (hnodup.mem_erase_iff.mp ha).1
    rw [lastAdded_append, if_neg hne.symm]
  refine List.pairwise_append.mpr ⟨?_, List.pairwise_singleton _ _, fun a ha b hb => ?_⟩
  · have hsub : ((f.kept maxSample).erase x).Sublist f.dataPool :=
      List.erase_sublist.trans (kept_sublist maxSample f)
    refine (h.ordered.sublist hsub).imp_of_mem fun ha hb hab => ?_
    rwa [hold _ ha, hold _ hb]
  · obtain rfl := List.mem_singleton.mp hb
    rw [hold a ha, lastAdded_append, if_pos rfl]
    exact Nat.lt_succ_of_le (lastAdded_le history a)

theorem Consistent.replaces (hmax : 0 < maxSample) (h : Consistent maxSample history f)
    (hdata : f'.dataPool = (f.kept maxSample).erase x ++ [x]) :
    Replaces maxSample history x f f' := by
  have hmem : ∀ k, k ∈ f'.dataPool ↔ k = x ∨ k ∈ f.kept maxSample := by
    intro k
    have hnodup : (f.kept maxSample).Nodup := (kept_sublist maxSample f).nodup h.nodup
    rw [hdata, List.mem_append, List.mem_singleton, hnodup.mem_erase_iff]
    constructor
    · rintro (⟨-, hk⟩ | rfl)
      · exact Or.inr hk
      · exact Or.inl rfl
    · rintro (rfl | hk)
      · exact Or.inr rfl
      · exact (eq_or_ne k x).symm.imp (fun hne => ⟨hne, hk⟩) id
  constructor
  · intro hroom k
    rw [hmem, kept, if_neg (not_le.mpr hroom)]
  · intro hfull
    cases hpool : f.dataPool with
    | nil =>
        rw [hpool, List.length_nil] at hfull
        omega
    | cons oldest rest =>
        have hnot := (List.nodup_cons.mp (hpool ▸ h.nodup)).1
        have hfirst := (List.pairwise_cons.mp (hpool ▸ h.ordered)).1
        refine ⟨oldest, List.mem_cons_self, fun k hk hne => ?_, fun k => ?_⟩
        · exact hfirst k ((List.mem_cons.mp hk).resolve_left hne)
        · rw [hmem, kept, if_pos hfull, hpool, List.tail_cons, List.mem_cons]
          refine or_congr_right ⟨fun hk => ⟨Or.inr hk, fun heq => hnot (heq ▸ hk)⟩, ?_⟩
          rintro ⟨hk, hne⟩
          exact hk.resolve_left hne

/-- **One call.** -/
theorem Consistent.addPair (hmax : 0 < maxSample) (h : Consistent maxSample history f) (x : ℚ)
    (y : ℕ) : ∃ f', f.addPair maxSample x y = some f' ∧
      Consistent maxSample (history ++ [(x, y)]) f' ∧ Replaces maxSample history x f f' := by
  obtain ⟨f', hadd, hkeys, hdata, hentries⟩ := h.toKeys.addPair hmax x y
  refine ⟨f', hadd, ⟨hkeys, ?_, fun e he => ?_, ?_, ?_⟩,
    h.replaces hmax hdata⟩
  · rw [hdata, List.length_append, List.length_singleton]
    have hle : ((f.kept maxSample).erase x).length ≤ (f.kept maxSample).length :=
      List.erase_sublist.length_le
    have hlt := length_kept_lt hmax h.length_le
    omega
  · rw [latestY_append]
    rcases (hentries e).mp he with rfl | ⟨he, -, hne⟩
    · exact ⟨rfl, if_pos rfl⟩
    · rw [if_neg fun heq => hne heq.symm]
      exact h.latest e he
  · intro earlier x' y' heq
    obtain ⟨-, hpair⟩ := List.append_inj' heq rfl
    obtain rfl : x = x' := congrArg Prod.fst (List.singleton_inj.mp hpair)
    rw [hdata, List.getLast?_concat]
  · rw [hdata]
    exact h.ordered_erase x y

end Call

theorem addPairs_append (maxSample : ℕ) (history : List (ℚ × ℕ)) (x : ℚ) (y : ℕ) :
    addPairs maxSample (history ++ [(x, y)]) =
      (addPairs maxSample history).bind fun f => f.addPair maxSample x y := by
  rw [addPairs, addPairs, List.foldlM_append]
  cases history.foldlM (fun f pair => f.addPair maxSample pair.1 pair.2) new <;> simp

/-- Every history of calls: none of them leaves a container through an invalid iterator,
the list and the map hold the same samples, at most `TMaxSample`, the latest pair of each,
in the order in which they were last added, and every call has dropped at most the sample
that was added first of all. -/
theorem addPairs_consistent {maxSample : ℕ} (hmax : 0 < maxSample) (history : List (ℚ × ℕ)) :
    ∃ f, addPairs maxSample history = some f ∧ Consistent maxSample history f ∧
      ∀ earlier x y, history = earlier ++ [(x, y)] →
        ∃ before, addPairs maxSample earlier = some before ∧
          Replaces maxSample earlier x before f := by
  induction history using List.reverseRecOn with
  | nil => exact ⟨new, rfl, consistent_new maxSample, by simp⟩
  | append_singleton earlier pair ih =>
      obtain ⟨before, hbefore, h, -⟩ := ih
      obtain ⟨f, hadd, hcons, hrep⟩ := h.addPair hmax pair.1 pair.2
      refine ⟨f, ?_, hcons, fun earlier' x y heq => ?_⟩
      · rw [addPairs_append, hbefore, Option.bind_some, hadd]
      · obtain ⟨rfl, hpair⟩ := List.append_inj' heq rfl
        obtain rfl := List.singleton_inj.mp hpair
        exact ⟨before, hbefore, hrep⟩

/-- A full pool of two: interval 1 is dropped, then 3 is added again, for which 2 goes. -/
theorem addPairs_consistent_two : ∃ f, addPairs 2 [(1, 10), (2, 20), (3, 30), (3, 31)] = some f ∧
    f.dataPool = [3] ∧ Consistent 2 [(1, 10), (2, 20), (3, 30), (3, 31)] f := by
  obtain ⟨f, hf, hcons, -⟩ :=
    addPairs_consistent (show 0 < 2 by decide) [(1, 10), (2, 20), (3, 30), (3, 31)]
  exact ⟨f, hf, by cases hf; rfl, hcons⟩

end IntervalFitting

end MemoryOptimizer
