import Mathlib.Algebra.Order.Ring.Nat
import Mathlib.Data.List.Basic
import MemoryOptimizer.Lib.Batches
import MemoryOptimizer.Migration.MovePages

/-!
# Moving hot and cold pages in turns

`do_interleave_move_pages` goes through the cold and the hot pages with one offset, a batch
of each at a time, cold pages first so that there is room for the hot ones.

* `interleave_calls` — the calls for one of the two arrays.
* `Ordered` — when a call may be made.
* `interleave_submits` — every page is submitted once, with its own nodes, in this order.
* `doInterleaveMovePages_toldAll` — the throttler is told all that is moved.
-/

namespace MemoryOptimizer

namespace EPTMigrate

open MovePages (Syscall Batch MoveStats saveMigrateStates)

/-! ### `do_interleave_move_pages` -/

/-- `COLD_MIGRATE` and `HOT_MIGRATE`. -/
inductive MigrateType where
  | cold | hot
  deriving DecidableEq, Repr

/-- The three arrays of a migrate type; `save_migrate_parameter` appends to all of them. -/
structure Candidates where
  addr : List ℕ
  fromNid : List ℤ
  targetNid : List ℤ
  length_fromNid : fromNid.length = addr.length
  length_targetNid : targetNid.length = addr.length

/-- A call of `MovePages::move_pages`, and the nodes that `save_migrate_states` gets with
its result. -/
structure MoveCall where
  type : MigrateType
  addrs : List ℕ
  targetNid : List ℤ
  fromNid : List ℤ
  deriving DecidableEq, Repr

/-- `page_migrator` and `page_migrate_stats` of a migrate type. -/
structure Migrator where
  statusAfterMove : List ℤ
  stats : MoveStats

/-- The two migrators, the calls so far and, with a throttler, the bytes that
`add_and_sleep` was told. -/
structure InterleaveState where
  migrator : MigrateType → Migrator
  calls : List MoveCall
  throttler : Option (List ℕ)

section Interleave

variable (batchSize pageShift : ℕ) (arrays : MigrateType → Candidates)
  (kernel : ℕ → Syscall × Syscall)

/-- `count` elements of an array from `&array[i]` on. -/
def elements {α : Type*} (array : List α) (i count : ℕ) : List α := (array.drop i).take count

/-- The call at offset `i`. -/
def callAt (type : MigrateType) (i : ℕ) : MoveCall :=
  let count := min batchSize ((arrays type).addr.length - i)
  { type := type
    addrs := elements (arrays type).addr i count
    targetNid := elements (arrays type).targetNid i count
    fromNid := elements (arrays type).fromNid i count }

/-- The body of the inner loop. The kernel answers the calls in turn. -/
def migrateStep (i : ℕ) (s : InterleaveState) (type : MigrateType) : InterleaveState :=
  let lastMoveKb := (s.migrator type).stats.moveKb
  let s :=
    if i < (arrays type).addr.length then
      let call := callAt batchSize arrays type i
      let pages := call.fromNid.zip call.targetNid
      let (move, query) := kernel s.calls.length
      let status := (MovePages.movePages (s.migrator type).statusAfterMove ⟨pages, move, query⟩).1
      { s with
        migrator := Function.update s.migrator type
          ⟨status, saveMigrateStates (s.migrator type).stats pageShift pages status⟩
        calls := s.calls ++ [call] }
    else s
  { s with
    throttler := s.throttler.map fun told =>
      told ++ [((s.migrator type).stats.moveKb - lastMoveKb) * 1024] }

/-- The body of the outer loop. -/
def interleaveStep (i : ℕ) (s : InterleaveState) : InterleaveState :=
  [MigrateType.cold, MigrateType.hot].foldl (migrateStep batchSize pageShift arrays kernel i) s

/-- `max_size`. -/
def maxSize : ℕ := max (arrays .cold).addr.length (arrays .hot).addr.length

/-- The outer loop from offset `i` on. -/
def interleaveLoop (hbatch : 0 < batchSize) (i : ℕ) (s : InterleaveState) : InterleaveState :=
  if i < maxSize arrays then
    interleaveLoop hbatch (i + batchSize)
      (interleaveStep batchSize pageShift arrays kernel i s)
  else s
termination_by maxSize arrays - i

/-- `do_interleave_move_pages`. -/
def doInterleaveMovePages (hbatch : 0 < batchSize) (s : InterleaveState) : InterleaveState :=
  if (arrays .cold).addr.length = 0 ∧ (arrays .hot).addr.length = 0 then s
  else interleaveLoop batchSize pageShift arrays kernel hbatch 0 s

end Interleave

/-! ### The calls of a type -/

/-- The calls for one of the two arrays. -/
def callsOf (type : MigrateType) (calls : List MoveCall) : List MoveCall :=
  calls.filter fun c => c.type = type

/-- The number of pages of a type that some calls have submitted. -/
def submitted (type : MigrateType) (calls : List MoveCall) : ℕ :=
  ((callsOf type calls).map fun c => c.addrs.length).sum

theorem callsOf_append (type : MigrateType) (calls calls' : List MoveCall) :
    callsOf type (calls ++ calls') = callsOf type calls ++ callsOf type calls' :=
  List.filter_append ..

theorem submitted_append (type : MigrateType) (calls calls' : List MoveCall) :
    submitted type (calls ++ calls') = submitted type calls + submitted type calls' := by
  simp only [submitted, callsOf_append, List.map_append, List.sum_append]

/-- Before a call that follows some other ones, no more hot pages than cold ones are
submitted, or all of the `cold` ones are. -/
def MayFollow (cold : ℕ) (before : List MoveCall) : Prop :=
  submitted .hot before ≤ submitted .cold before ∨ submitted .cold before = cold

/-- This holds before every call. -/
def Ordered (cold : ℕ) (calls : List MoveCall) : Prop :=
  ∀ before c after, calls = before ++ c :: after → MayFollow cold before

theorem Ordered.concat {cold : ℕ} {calls : List MoveCall} (h : Ordered cold calls)
    (hnext : MayFollow cold calls) (c : MoveCall) : Ordered cold (calls ++ [c]) := by
  intro before c' after heq
  rcases List.eq_nil_or_concat after with rfl | ⟨after, last, rfl⟩
  · obtain ⟨rfl, -⟩ := List.append_inj' heq rfl
    exact hnext
  · refine h before c' after ?_
    rw [List.concat_eq_append, ← List.cons_append, ← List.append_assoc] at heq
    exact (List.append_inj' heq rfl).1

theorem Ordered.concat_if {cold : ℕ} {calls : List MoveCall} (h : Ordered cold calls)
    (hnext : MayFollow cold calls) (p : Prop) [Decidable p] (c : MoveCall) :
    Ordered cold (calls ++ if p then [c] else []) := by
  split
  · exact h.concat hnext c
  · rwa [List.append_nil]

/-! ### The loop -/

section Loop

variable {batchSize pageShift : ℕ} {arrays : MigrateType → Candidates}
  {kernel : ℕ → Syscall × Syscall}

/-- The call for a type in an iteration of the outer loop, if it makes one. -/
def callsIn (batchSize : ℕ) (arrays : MigrateType → Candidates) (type : MigrateType) (k : ℕ) :
    List MoveCall :=
  if k * batchSize < (arrays type).addr.length then [callAt batchSize arrays type (k * batchSize)]
  else []

/-- The calls of the first iterations, each for the next batch of its arrays, in the order
that is wanted. -/
structure Progress (batchSize : ℕ) (arrays : MigrateType → Candidates) (k : ℕ)
    (calls : List MoveCall) : Prop where
  callsOf_eq : ∀ type, callsOf type calls = (List.range k).flatMap (callsIn batchSize arrays type)
  mem : ∀ c ∈ calls, ∃ type k, c ∈ callsIn batchSize arrays type k
  ordered : Ordered (arrays .cold).addr.length calls

theorem callsIn_flatMap {α : Type*} (f : MoveCall → List α) (array : List α)
    {type : MigrateType} (hlength : array.length = (arrays type).addr.length)
    (hf : ∀ i, f (callAt batchSize arrays type i) =
      elements array i (min batchSize ((arrays type).addr.length - i))) (k : ℕ) :
    ((List.range k).flatMap (callsIn batchSize arrays type)).flatMap f =
      (List.range k).flatMap (batchAt batchSize array) := by
  rw [List.flatMap_assoc]
  refine List.flatMap_congr fun j _ => ?_
  unfold callsIn
  split
  · rw [List.flatMap_singleton, hf, elements, take_min_drop _ _ _ _ hlength, batchAt]
  · next hge =>
    rw [List.flatMap_nil, batchAt_eq_nil (hlength ▸ not_lt.mp hge)]

theorem Progress.submitted_eq {k : ℕ} {calls : List MoveCall}
    (h : Progress batchSize arrays k calls) (type : MigrateType) :
    submitted type calls = min (k * batchSize) (arrays type).addr.length := by
  rw [submitted, h.callsOf_eq, ← List.length_flatMap,
    callsIn_flatMap _ _ rfl (fun _ => rfl), flatMap_batchAt, List.length_take]

theorem calls_migrateStep (i : ℕ) (s : InterleaveState) (type : MigrateType) :
    (migrateStep batchSize pageShift arrays kernel i s type).calls =
      s.calls ++
        if i < (arrays type).addr.length then [callAt batchSize arrays type i] else [] := by
  unfold migrateStep
  dsimp only
  split
  · rfl
  · rw [List.append_nil]

theorem callsOf_callsIn (type type' : MigrateType) (k : ℕ) :
    callsOf type (callsIn batchSize arrays type' k) =
      if type' = type then callsIn batchSize arrays type k else [] := by
  unfold callsIn callsOf
  split
  · split
    · next heq => subst heq; simp [callAt, *]
    · next hne => simp [callAt, hne]
  · split
    · next heq => subst heq; simp [*]
    · rfl

theorem submitted_callsIn (type type' : MigrateType) (k : ℕ) :
    submitted type (callsIn batchSize arrays type' k) =
      if type' = type then min batchSize ((arrays type).addr.length - k * batchSize) else 0 := by
  unfold submitted
  rw [callsOf_callsIn]
  split
  · unfold callsIn
    split
    · simp [callAt, elements]
    · next hge => simp; omega
  · rfl

/-- **One iteration.** -/
theorem Progress.step {k : ℕ} {s : InterleaveState} (h : Progress batchSize arrays k s.calls) :
    Progress batchSize arrays (k + 1)
      (interleaveStep batchSize pageShift arrays kernel (k * batchSize) s).calls := by
  have hcalls : (interleaveStep batchSize pageShift arrays kernel (k * batchSize) s).calls =
      s.calls ++ callsIn batchSize arrays .cold k ++ callsIn batchSize arrays .hot k := by
    unfold interleaveStep
    rw [List.foldl_cons, List.foldl_cons, List.foldl_nil, calls_migrateStep, calls_migrateStep]
    rfl
  have hcold := h.submitted_eq .cold
  have hhot := h.submitted_eq .hot
  rw [hcalls]
  refine ⟨fun type => ?_, fun c hc => ?_, ?_⟩
  · rw [callsOf_append, callsOf_append, h.callsOf_eq, List.range_succ, List.flatMap_append,
      List.flatMap_singleton, callsOf_callsIn, callsOf_callsIn, List.append_assoc]
    cases type <;> simp
  · rcases List.mem_append.mp hc with hc | hc
    · rcases List.mem_append.mp hc with hc | hc
      · exact h.mem c hc
      · exact ⟨_, _, hc⟩
    · exact ⟨_, _, hc⟩
  · have hfirst : MayFollow (arrays .cold).addr.length s.calls := by
      unfold MayFollow
      omega
    have hsecond : MayFollow (arrays .cold).addr.length
        (s.calls ++ callsIn batchSize arrays .cold k) := by
      unfold MayFollow
      rw [submitted_append, submitted_append, submitted_callsIn, submitted_callsIn, hcold, hhot]
      simp only [reduceCtorEq, if_true, if_false]
      omega
    exact (h.ordered.concat_if hfirst _ _).concat_if hsecond _ _

/-- **All iterations** from one on. -/
theorem Progress.loop (pageShift : ℕ) (kernel : ℕ → Syscall × Syscall) (hbatch : 0 < batchSize)
    {k : ℕ} {s : InterleaveState}
    (h : Progress batchSize arrays k s.calls) :
    ∃ n, maxSize arrays ≤ n * batchSize ∧ Progress batchSize arrays n
      (interleaveLoop batchSize pageShift arrays kernel hbatch (k * batchSize) s).calls := by
  induction hleft : maxSize arrays - k * batchSize using Nat.strong_induction_on generalizing k s
  next left ih =>
  rw [interleaveLoop]
  split
  · next hlt =>
    rw [← Nat.succ_mul]
    have hdec : maxSize arrays - (k + 1) * batchSize < left := by
      rw [Nat.succ_mul]
      omega
    exact ih _ hdec h.step rfl
  · next hge => exact ⟨k, not_lt.mp hge, h⟩

end Loop

/-- Every two groups of arrays of any lengths and every batch size, with every answer of
the kernel: the calls for an array together hold all its elements, once and in order, at
most `batch_size` in each and with the nodes at the same indices, and no call is made
while more hot than cold pages are submitted, unless all cold pages are. -/
theorem interleave_submits {batchSize : ℕ} (hbatch : 0 < batchSize) (pageShift : ℕ)
    (arrays : MigrateType → Candidates) (kernel : ℕ → Syscall × Syscall) (s : InterleaveState) :
    let calls := (doInterleaveMovePages batchSize pageShift arrays kernel hbatch
      { s with calls := [] }).calls
    (∀ type, (callsOf type calls).flatMap MoveCall.addrs = (arrays type).addr ∧
      (callsOf type calls).flatMap MoveCall.targetNid = (arrays type).targetNid ∧
      (callsOf type calls).flatMap MoveCall.fromNid = (arrays type).fromNid) ∧
    (∀ c ∈ calls, 0 < c.addrs.length ∧ c.addrs.length ≤ batchSize ∧
      c.targetNid.length = c.addrs.length ∧ c.fromNid.length = c.addrs.length) ∧
    Ordered (arrays .cold).addr.length calls := by
  intro calls
  have hstart : Progress batchSize arrays 0 ([] : List MoveCall) :=
    ⟨fun _ => rfl, by simp, fun before c after heq => by simp at heq⟩
  obtain ⟨n, hn, h⟩ : ∃ n, maxSize arrays ≤ n * batchSize ∧
      Progress batchSize arrays n calls := by
    unfold calls doInterleaveMovePages
    split
    · next hempty => exact ⟨0, by simp [maxSize, hempty.1, hempty.2], hstart⟩
    · have hloop := Progress.loop pageShift kernel hbatch (s := { s with calls := [] }) hstart
      rwa [Nat.zero_mul] at hloop
  have hmax : ∀ type, (arrays type).addr.length ≤ n * batchSize := by
    rintro (_ | _)
    · exact (le_max_left _ _).trans hn
    · exact (le_max_right _ _).trans hn
  refine ⟨fun type => ?_, fun c hc => ?_, h.ordered⟩
  · rw [h.callsOf_eq]
    have htarget := (arrays type).length_targetNid
    have hfrom := (arrays type).length_fromNid
    refine ⟨?_, ?_, ?_⟩
    · rw [callsIn_flatMap _ _ rfl (fun _ => rfl), flatMap_batchAt_of_le (hmax type)]
    · rw [callsIn_flatMap _ _ htarget (fun _ => rfl),
        flatMap_batchAt_of_le (htarget.trans_le (hmax type))]
    · rw [callsIn_flatMap _ _ hfrom (fun _ => rfl),
        flatMap_batchAt_of_le (hfrom.trans_le (hmax type))]
  · obtain ⟨type, k, hc⟩ := h.mem c hc
    unfold callsIn at hc
    split at hc
    · next hlt =>
      obtain rfl := List.mem_singleton.mp hc
      have htarget := (arrays type).length_targetNid
      have hfrom := (arrays type).length_fromNid
      simp only [callAt, elements, List.length_take, List.length_drop, htarget, hfrom, and_true]
      omega
    · cases hc

/-- Three cold pages and one hot page, two in a batch: all hot pages are submitted after
the first cold batch. -/
def threeCold : MigrateType → Candidates
  | .cold => ⟨[0x1000, 0x2000, 0x3000], [0, 0, 1], [2, 2, 3], rfl, rfl⟩
  | .hot => ⟨[0x8000], [2], [0], rfl, rfl⟩

/-- Nothing has been moved. -/
def InterleaveState.init : InterleaveState := ⟨fun _ => ⟨[], ⟨0, 0, 0, fun _ => 0⟩⟩, [], some []⟩

theorem interleave_submits_threeCold :
    Ordered 3 (doInterleaveMovePages 2 12 threeCold (fun _ => (⟨0, fun _ => some 0⟩,
      ⟨0, fun _ => none⟩)) (by decide) { InterleaveState.init with calls := [] }).calls :=
  (interleave_submits (by decide) 12 threeCold _ InterleaveState.init).2.2

/-! ### The throttler -/

/-- What both migrators have moved. -/
def InterleaveState.movedKb (s : InterleaveState) : ℕ :=
  (s.migrator .cold).stats.moveKb + (s.migrator .hot).stats.moveKb

/-- From one state to a later one, a throttler is told all that was moved. -/
def ToldAll (s s' : InterleaveState) : Prop :=
  ∀ told, s.throttler = some told → ∃ more, s'.throttler = some (told ++ more) ∧
    s'.movedKb * 1024 = s.movedKb * 1024 + more.sum

theorem ToldAll.refl (s : InterleaveState) : ToldAll s s := by
  intro told htold
  exact ⟨[], by rw [htold, List.append_nil], by rw [List.sum_nil, Nat.add_zero]⟩

theorem ToldAll.trans {s s₁ s₂ : InterleaveState} (h : ToldAll s s₁) (h' : ToldAll s₁ s₂) :
    ToldAll s s₂ := by
  intro told htold
  obtain ⟨more, htold₁, hmoved₁⟩ := h told htold
  obtain ⟨more', htold₂, hmoved₂⟩ := h' _ htold₁
  refine ⟨more ++ more', by rw [htold₂, List.append_assoc], ?_⟩
  rw [hmoved₂, hmoved₁, List.sum_append, Nat.add_assoc]

section Throttler

variable (batchSize pageShift : ℕ) (arrays : MigrateType → Candidates)
  (kernel : ℕ → Syscall × Syscall)

/-- The statistics of one migrate type grow by what the call moved, those of the other
stay. -/
theorem migrateStep_toldAll (i : ℕ) (s : InterleaveState) (type : MigrateType) :
    ToldAll s (migrateStep batchSize pageShift arrays kernel i s type) := by
  intro told htold
  unfold migrateStep
  dsimp only
  split
  · have hle : ∀ (stats : MoveStats) (pages : List (ℤ × ℤ)) (status : List ℤ),
        stats.moveKb ≤ (saveMigrateStates stats pageShift pages status).moveKb := by
      intro stats pages status
      have hkeep := (MovePages.totals_foldl (pages.zip status) pageShift stats).1
      unfold saveMigrateStates
      dsimp only at hkeep ⊢
      rw [hkeep]
      exact Nat.le_add_right _ _
    refine ⟨_, by rw [htold]; rfl, ?_⟩
    rw [List.sum_singleton]
    cases type with
    | cold =>
        simp only [InterleaveState.movedKb, Function.update_self, ne_eq, reduceCtorEq,
          not_false_eq_true, Function.update_of_ne]
        have := hle (s.migrator .cold).stats
        grind
    | hot =>
        simp only [InterleaveState.movedKb, Function.update_self, ne_eq, reduceCtorEq,
          not_false_eq_true, Function.update_of_ne]
        have := hle (s.migrator .hot).stats
        grind
  · refine ⟨_, by rw [htold]; rfl, ?_⟩
    simp [InterleaveState.movedKb]

theorem interleaveLoop_toldAll (hbatch : 0 < batchSize) (i : ℕ) (s : InterleaveState) :
    ToldAll s (interleaveLoop batchSize pageShift arrays kernel hbatch i s) := by
  induction i, s using interleaveLoop.induct batchSize pageShift arrays kernel hbatch with
  | case1 i s hlt ih =>
      rw [interleaveLoop, if_pos hlt]
      refine ToldAll.trans ?_ ih
      exact (migrateStep_toldAll batchSize pageShift arrays kernel i s .cold).trans
        (migrateStep_toldAll batchSize pageShift arrays kernel i _ .hot)
  | case2 i s hge =>
      rw [interleaveLoop, if_neg hge]
      exact .refl s

/-- The throttler is told all that the two migrators move, whatever the kernel answers. -/
theorem doInterleaveMovePages_toldAll (hbatch : 0 < batchSize) (s : InterleaveState) :
    ToldAll s (doInterleaveMovePages batchSize pageShift arrays kernel hbatch s) := by
  unfold doInterleaveMovePages
  split
  · exact .refl s
  · exact interleaveLoop_toldAll batchSize pageShift arrays kernel hbatch 0 s

end Throttler

end EPTMigrate

end MemoryOptimizer
