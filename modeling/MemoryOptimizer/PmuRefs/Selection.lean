import MemoryOptimizer.PmuRefs.MigrationState

/-!
# What a batch hands to the kernel

`__move_pages` asks for the current nodes of the pages, compacts its arrays twice and
hands what is left to the kernel with the same array of statuses.  In terms of the lists
that `move_pages` is called with:

* `selection` — the pages to move, each with its count and its target node.
* `Outcome` — what the second call leaves of a selection.
* `movePages_selects` — the arrays of the second call, and the result of both.
-/

namespace MemoryOptimizer

namespace PmuRefs

open AddressRangeFilter (RangeMap)

namespace MigrationState

/-! ### The selection and its outcome -/

/-- The arrays at the first query. -/
def queried (env : Env) (ms : MigrationState) : MigrationState :=
  { ms with
    migrateStatus := fun i =>
      if i < ms.len then (env.query.written i).getD (ms.migrateStatus i) else ms.migrateStatus i }

/-- The pages on a valid node of persistent memory that are hot enough for the promote
target of that node. -/
def selection (env : Env) (current : ℕ → ℤ) (hotPages : List ℕ) (sampleCounts : List ℤ) :
    List Slot :=
  (List.range hotPages.length).filterMap fun i => do
    let page ← hotPages[i]?
    let count ← sampleCounts[i]?
    let target ← (promoteTarget env.numa (current i)).join
    if isPageHotInTargetDramNode env.pmu env.dramCountMultiple count target then
      some ⟨page, count, target⟩
    else none

/-- The pages of a selection whose new status is their target are counted, the other ones
are recorded. -/
structure Outcome (selected : List Slot) (newStatus : ℕ → ℤ) (pid : Int32)
    (arfilter : RangeMap) (r : Moved) : Prop where
  moved_eq : r.moved = selected.zipIdx.countP fun a => newStatus a.2 = a.1.target
  recorded_eq : r.recorded =
    (selected.zipIdx.filter fun a => newStatus a.2 ≠ a.1.target).map fun a => a.1.page
  arfilter_eq : r.arfilter = recordPages arfilter pid r.recorded

/-- Every node of persistent memory has a promote target. -/
def HasTargets (numa : NumaNodeCollection) : Prop :=
  ∀ nid node, numa.getNode nid = some node → node.isPmem = true → node.promoteTarget ≠ none

section Batch

variable {env : Env} {ms : MigrationState} {arfilter : RangeMap} {pid : Int32}
  {hotPages : List ℕ} {sampleCounts : List ℤ}

theorem select_isSome (htargets : HasTargets env.numa) (ms : MigrationState) :
    ∃ ms', select env ms = some ms' := by
  have hnull : ∀ nid, promoteTarget env.numa nid ≠ some none := by
    intro nid heq
    obtain ⟨node, hnode, hif⟩ := Option.bind_eq_some_iff.mp heq
    split at hif
    · next hpmem => exact htargets nid node hnode hpmem (Option.some_inj.mp hif)
    · cases hif
  unfold select getTargetNodes
  rw [if_neg (by simp [hnull])]
  exact ⟨_, rfl⟩

/-- The two compactions leave the selection. -/
theorem slots_select (hlength : sampleCounts.length = hotPages.length) {current : ℕ → ℤ}
    (hload : ms.len = hotPages.length ∧ ms.migrateStatus = current ∧
      ∀ i, (hi : i < hotPages.length) → ms.hotPages i = hotPages[i] ∧
        ms.sampleCounts i = sampleCounts[i])
    {ms' : MigrationState} (h : select env ms = some ms') :
    ms'.slots = selection env current hotPages sampleCounts := by
  obtain ⟨hlen, rfl, hentries⟩ := hload
  rw [selected_eq h, hlen, selection, ← List.filterMap_eq_filter, List.filterMap_filterMap]
  refine List.filterMap_congr fun i hi => ?_
  have hlt : i < hotPages.length := List.mem_range.mp hi
  obtain ⟨hpage, hcount⟩ := hentries i hlt
  rw [List.getElem?_eq_getElem hlt, List.getElem?_eq_getElem (hlength ▸ hlt)]
  cases (promoteTarget env.numa (ms.migrateStatus i)).join with
  | none => rfl
  | some target => simp [Option.guard, slot, hpage, hcount]

theorem zipIdx_slots (ms : MigrationState) :
    ms.slots.zipIdx = (List.range ms.len).map fun i => (ms.slot i, i) := by
  refine List.ext_getElem (by simp [slots]) fun i h₁ h₂ => ?_
  simp [slots]

theorem nrMoved_eq (ms : MigrationState) :
    ms.nrMoved = ms.slots.zipIdx.countP fun a => ms.migrateStatus a.2 = a.1.target := by
  rw [zipIdx_slots, List.countP_map]
  rfl

theorem failedPages_eq (ms : MigrationState) : ms.failedPages =
    (ms.slots.zipIdx.filter fun a => ms.migrateStatus a.2 ≠ a.1.target).map fun a => a.1.page := by
  rw [zipIdx_slots, List.filter_map, List.map_map, ← List.filterMap_eq_map,
    ← List.filterMap_eq_filter, List.filterMap_filterMap, failedPages]
  refine List.filterMap_congr fun i _ => ?_
  by_cases h : ms.migrateStatus i = ms.targetNodes i <;> simp [slot, h, Option.guard]

/-- A call of `move_pages(2)` that succeeds. -/
theorem doMovePages_of_nonneg {reply : Reply} (hret : 0 ≤ reply.ret) (count : ℕ)
    (status : ℕ → ℤ) : doMovePages reply count status =
      some (0, fun i => if i < count then (reply.written i).getD (status i) else status i) := by
  unfold doMovePages
  rw [if_neg fun h => absurd h.1 (not_lt.mpr hret), if_neg (not_lt.mpr hret)]

theorem migrateStatus_select {ms' : MigrationState} (h : select env ms = some ms') :
    ms'.migrateStatus = ms.migrateStatus := by
  have hcompact : ∀ (s : MigrationState) (f : ℕ → Slot → Option Slot),
      (s.compact f).migrateStatus = s.migrateStatus := fun s f =>
    compact_keeps (P := fun s' : MigrationState => s'.migrateStatus = s.migrateStatus)
      (fun _ _ _ h => h) rfl
  obtain ⟨mid, hmid, rfl⟩ := Option.map_eq_some_iff.mp h
  unfold getTargetNodes at hmid
  split at hmid
  · cases hmid
  · cases hmid
    rw [filter, hcompact, hcompact]

/-- The last loop of `__move_pages`, on the statuses of the second call. -/
theorem outcome_moved (ms₁ : MigrationState) (newStatus : ℕ → ℤ) :
    let ms' := { ms₁ with migrateStatus := fun i =>
      if i < ms₁.len then newStatus i else ms₁.migrateStatus i }
    Outcome ms₁.slots newStatus pid arfilter
      ⟨ms', recordPages arfilter pid (failedPages ms'), failedPages ms', nrMoved ms'⟩ := by
  intro ms'
  have hslots : ms'.slots = ms₁.slots := rfl
  have hstatus : ∀ a ∈ ms₁.slots.zipIdx, ms'.migrateStatus a.2 = newStatus a.2 := by
    intro a ha
    have hlt : a.2 < ms₁.slots.length := (List.getElem?_eq_some_iff.mp
      (List.mk_mem_zipIdx_iff_getElem?.mp ha)).1
    rw [slots, List.length_map, List.length_range] at hlt
    exact if_pos hlt
  refine ⟨?_, ?_, rfl⟩
  · dsimp only
    rw [nrMoved_eq, hslots]
    refine List.countP_congr fun a ha => ?_
    rw [hstatus a ha]
  · dsimp only
    rw [failedPages_eq, hslots]
    refine congrArg _ (List.filter_congr fun a ha => ?_)
    rw [hstatus a ha]

/-- `__move_pages`, with both calls of the kernel succeeding. -/
theorem movePagesInner_outcome (hquery : 0 ≤ env.query.ret) (hmove : 0 ≤ env.move.ret)
    (hpid : ms.pid ≠ 0) {ms' : MigrationState} (h : select env (queried env ms) = some ms') :
    ∃ r, movePagesInner env ms arfilter = some r ∧
      Outcome ms'.slots (fun i => (env.move.written i).getD (ms'.migrateStatus i)) ms.pid
        arfilter r := by
  have hempty : ∀ ms₁ : MigrationState, ms'.len = 0 →
      Outcome ms'.slots (fun i => (env.move.written i).getD (ms'.migrateStatus i)) ms.pid
        arfilter ⟨ms₁, arfilter, [], 0⟩ := by
    intro ms₁ hlen
    have hslots : ms'.slots = [] := by rw [slots, hlen]; rfl
    constructor <;> simp [hslots, recordPages]
  unfold movePagesInner
  by_cases hlen : ms.len = 0
  · refine ⟨_, if_pos (Or.inr hlen), hempty _ ?_⟩
    have hslots : ms'.slots.length = 0 := by
      rw [selected_eq h]
      simp [queried, hlen]
    simpa [slots] using hslots
  · rw [if_neg (by simp [hpid, hlen]), doMovePages_of_nonneg hquery]
    show ∃ r, (do
      let ms ← select env (queried env ms)
      _) = some r ∧ _
    rw [h, Option.bind_eq_bind, Option.bind_some]
    by_cases hlen' : ms'.len = 0
    · exact ⟨_, if_pos hlen', hempty _ hlen'⟩
    · rw [if_neg hlen', doMovePages_of_nonneg hmove]
      refine ⟨_, rfl, ?_⟩
      have hpid' : ms'.pid = ms.pid := (pid_select h).trans rfl
      dsimp only
      rw [← hpid']
      exact outcome_moved ms' _

end Batch

/-- Every batch, with any statuses that the query writes, on a topology where every node
of persistent memory has a promote target: the arrays of the second call hold the pages on
a valid node of persistent memory that are hot enough for its promote target, in order,
each with its count and that target.  Where both calls succeed, the result is the number
of those whose new status is their target, and the other ones are recorded. -/
theorem movePages_selects (env : Env) (ms : MigrationState) (arfilter : RangeMap) (pid : Int32)
    {hotPages : List ℕ} {sampleCounts : List ℤ} (htargets : HasTargets env.numa)
    (hlength : sampleCounts.length = hotPages.length) :
    let loaded := queried env (ms.load pid hotPages sampleCounts)
    let selected := selection env loaded.migrateStatus hotPages sampleCounts
    (∃ ms', select env loaded = some ms' ∧ ms'.slots = selected) ∧
      (pid ≠ 0 → 0 ≤ env.query.ret → 0 ≤ env.move.ret →
        ∃ r, movePages env ms arfilter pid hotPages sampleCounts = some r ∧
          Outcome selected (fun i => (env.move.written i).getD (loaded.migrateStatus i)) pid
            arfilter r) := by
  intro loaded selected
  obtain ⟨ms', h⟩ := select_isSome htargets loaded
  have hslots : ms'.slots = selected := slots_select hlength
    ⟨rfl, rfl, fun i hi => ⟨by simp [loaded, queried, load, List.getElem?_eq_getElem hi],
      by simp [loaded, queried, load, List.getElem?_eq_getElem (hlength ▸ hi)]⟩⟩ h
  refine ⟨⟨ms', h, hslots⟩, fun hpid hquery hmove => ?_⟩
  have hinner : ∃ r, movePagesInner env (ms.load pid hotPages sampleCounts) arfilter = some r ∧
      Outcome ms'.slots (fun i => (env.move.written i).getD (ms'.migrateStatus i)) pid
        arfilter r := movePagesInner_outcome hquery hmove hpid h
  obtain ⟨r, hr, houtcome⟩ := hinner
  rw [hslots, migrateStatus_select h] at houtcome
  unfold movePages
  rw [hr]
  exact ⟨_, rfl, ⟨houtcome.moved_eq, houtcome.recorded_eq, houtcome.arfilter_eq⟩⟩

theorem hasTargets_of_nodeMap {numa : NumaNodeCollection}
    (h : ∀ entry ∈ numa.nodeMap, ∀ node ∈ entry, node.isPmem = true → node.promoteTarget ≠ none) :
    HasTargets numa := by
  intro nid node hnode
  unfold NumaNodeCollection.getNode at hnode
  split at hnode
  · exact h (some node) (List.mem_of_getElem? (Option.join_eq_some_iff.mp hnode)) node rfl
  · cases hnode

/-- Two pages of process 7 on node 1, the second one hot. The kernel moves it. -/
def oneHot : Env where
  numa := ⟨[some ⟨0, .dram, some 0, some 1⟩, some ⟨1, .pmem, some 0, some 1⟩]⟩
  pmu := ⟨1, fun _ => 10⟩
  dramCountMultiple := 1
  query := ⟨0, fun _ => some 1, false⟩
  move := ⟨0, fun _ => some 0, false⟩

theorem movePages_selects_oneHot :
    ∃ r, movePages oneHot ⟨0, 0, fun _ => 0, fun _ => 0, fun _ => 0, fun _ => 0, 0⟩ .empty 7
        [0x1000, 0x2000] [5, 20] = some r ∧ r.moved = 1 ∧ r.recorded = [] := by
  have htargets : HasTargets oneHot.numa := hasTargets_of_nodeMap (by decide)
  have hlength : ([5, 20] : List ℤ).length = ([0x1000, 0x2000] : List ℕ).length := rfl
  obtain ⟨r, hr, houtcome⟩ := (movePages_selects oneHot
    ⟨0, 0, fun _ => 0, fun _ => 0, fun _ => 0, fun _ => 0, 0⟩ .empty 7 htargets hlength).2
    (by decide) (by decide) (by decide)
  exact ⟨r, hr, houtcome.moved_eq.trans (by decide), houtcome.recorded_eq.trans (by decide)⟩

end MigrationState

end PmuRefs

end MemoryOptimizer
