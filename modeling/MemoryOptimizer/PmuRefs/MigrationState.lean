import MemoryOptimizer.Filter.RangeSet
import MemoryOptimizer.Lib.Compact
import MemoryOptimizer.Numa

/-!
# `MigrationState`

One batch of hot pages of a process: which of them are on a node of persistent
memory, which of those are hot enough for the node they would go to, and which
of those did not get there; the last ones go into the address filter. The model
has the four vectors of the class as functions of the index, and the two loops
that throw entries out of them as compactions in place. A call of `move_pages(2)`
is its result and what it writes. None stands for the end of the process: an
exception, or a null pointer that is followed.

* `selected_eq` — what is left of a batch when it is moved.
* `movePages_spec` — a batch records pages of its own only, and adds to the
  filter what it records.
-/

namespace MemoryOptimizer

namespace PmuRefs

open AddressRangeFilter (RangeMap insertRange)

/-- `PAGE_SHIFT`. -/
def pageShift : ℕ := 12

/-- `PAGE_SIZE`. -/
def pageSize : ℕ := 2 ^ pageShift

/-! ### The batch -/

/-- `class MigrationState`, without its pointers; of `stats_` its only field. -/
structure MigrationState where
  pid : Int32
  len : ℕ
  hotPages : ℕ → ℕ
  sampleCounts : ℕ → ℤ
  targetNodes : ℕ → ℤ
  migrateStatus : ℕ → ℤ
  nrMovedPage : ℕ

/-- An entry of the three vectors that are compacted. -/
structure Slot where
  page : ℕ
  count : ℤ
  target : ℤ
  deriving DecidableEq, Repr

namespace MigrationState

def slot (ms : MigrationState) (i : ℕ) : Slot :=
  ⟨ms.hotPages i, ms.sampleCounts i, ms.targetNodes i⟩

def setSlot (ms : MigrationState) (j : ℕ) (a : Slot) : MigrationState :=
  { ms with
    hotPages := Function.update ms.hotPages j a.page
    sampleCounts := Function.update ms.sampleCounts j a.count
    targetNodes := Function.update ms.targetNodes j a.target }

theorem slot_setSlot (ms : MigrationState) (j : ℕ) (a : Slot) :
    (ms.setSlot j a).slot = Function.update ms.slot j a := by
  funext i
  rcases eq_or_ne i j with rfl | hne
  · simp [slot, setSlot]
  · simp [slot, setSlot, hne]

/-- The entries of the batch. -/
def slots (ms : MigrationState) : List Slot := (List.range ms.len).map ms.slot

/-- A loop that throws entries out of the batch. -/
def compact (ms : MigrationState) (select : ℕ → Slot → Option Slot) : MigrationState :=
  let r := MemoryOptimizer.compact slot setSlot select ms.len ms
  { r.1 with len := r.2 }

theorem slots_compact (ms : MigrationState) (select : ℕ → Slot → Option Slot) :
    (ms.compact select).slots = (List.range ms.len).filterMap fun i => select i (ms.slot i) :=
  compact_eq slot_setSlot

/-! ### The kernel -/

/-- The kernel's answer to a call of `move_pages(2)`: its result, the statuses it
writes, and whether the `errno` of a failure is `ESRCH` or `EINVAL`. -/
structure Reply where
  ret : ℤ
  written : ℕ → Option ℤ
  gone : Bool

/-- `do_move_pages`, on `status`; none where `sys_err` throws. -/
def doMovePages (reply : Reply) (count : ℕ) (status : ℕ → ℤ) : Option (ℤ × (ℕ → ℤ)) :=
  if reply.ret < 0 ∧ reply.gone = false then none
  else
    some (if reply.ret < 0 then reply.ret else 0,
      fun i => if i < count then (reply.written i).getD (status i) else status i)

/-! ### The selection -/

/-- The promote target of the node with the id `nid`, null included; none where
the id is not valid or the node is no persistent memory. -/
def promoteTarget (numa : NumaNodeCollection) (nid : ℤ) : Option (Option ℕ) :=
  (numa.getNode nid).bind fun node => if node.isPmem then some node.promoteTarget else none

/-- `get_target_nodes`; none where a promote target is null. -/
def getTargetNodes (numa : NumaNodeCollection) (ms : MigrationState) : Option MigrationState :=
  if (List.range ms.len).any fun i => promoteTarget numa (ms.migrateStatus i) = some none then none
  else some <| ms.compact fun i a =>
    (promoteTarget numa (ms.migrateStatus i)).join.map fun target : ℕ =>
      { a with target := (target : ℤ) }

/-- What the selection reads of `PmuState`: `get_pmem_sample_period`, and of each
node `get_dram_count_avg`. -/
structure PmuState where
  pmemSamplePeriod : ℕ
  dramCountAvg : ℤ → ℕ

/-- `is_page_hot_in_target_dram_node`, in `unsigned long long`. -/
def isPageHotInTargetDramNode (pmu : PmuState) (dramCountMultiple sampleCount targetNode : ℤ) :
    Bool :=
  ulong (ulongOfSigned sampleCount * pmu.pmemSamplePeriod) ≥
    ulong (pmu.dramCountAvg targetNode * ulongOfSigned dramCountMultiple)

/-- `filter`. -/
def filter (pmu : PmuState) (dramCountMultiple : ℤ) (ms : MigrationState) : MigrationState :=
  ms.compact fun _ a =>
    if isPageHotInTargetDramNode pmu dramCountMultiple a.count a.target then some a else none

/-! ### Moving the batch -/

/-- The pages that are not on their target node after the move. -/
def failedPages (ms : MigrationState) : List ℕ :=
  (List.range ms.len).filterMap fun i =>
    if ms.migrateStatus i = ms.targetNodes i then none else some (ms.hotPages i)

/-- The number of those that are. -/
def nrMoved (ms : MigrationState) : ℕ :=
  (List.range ms.len).countP fun i => ms.migrateStatus i = ms.targetNodes i

/-- `insert_range` for every failed page of a process. -/
def recordPages (arfilter : RangeMap) (pid : Int32) (pages : List ℕ) : RangeMap :=
  pages.foldl (fun arfilter page => insertRange arfilter pid page pageSize) arfilter

/-- What a batch leaves: the two objects, the pages it recorded in the filter, and
the result. -/
structure Moved where
  state : MigrationState
  arfilter : RangeMap
  recorded : List ℕ
  moved : ℕ

/-- What surrounds one call of `MigrationState::move_pages`: the topology, the
counts of the interval, `dram_count_multiple`, and the kernel's answers to the
query for the current nodes and to the move. -/
structure Env where
  numa : NumaNodeCollection
  pmu : PmuState
  dramCountMultiple : ℤ
  query : Reply
  move : Reply

/-- `get_target_nodes` and `filter`, after the query for the current nodes. -/
def select (env : Env) (ms : MigrationState) : Option MigrationState :=
  (getTargetNodes env.numa ms).map (filter env.pmu env.dramCountMultiple)

/-- `__move_pages`. -/
def movePagesInner (env : Env) (ms : MigrationState) (arfilter : RangeMap) : Option Moved :=
  if ms.pid = 0 ∨ ms.len = 0 then some ⟨ms, arfilter, [], 0⟩
  else do
    let (ret, status) ← doMovePages env.query ms.len ms.migrateStatus
    let ms := { ms with migrateStatus := status }
    if ret < 0 then some ⟨ms, arfilter, [], 0⟩
    else
      let ms ← select env ms
      if ms.len = 0 then some ⟨ms, arfilter, [], 0⟩
      else
        let (ret, status) ← doMovePages env.move ms.len ms.migrateStatus
        let ms := { ms with migrateStatus := status }
        if ret < 0 then some ⟨ms, arfilter, [], 0⟩
        else some ⟨ms, recordPages arfilter ms.pid (failedPages ms), failedPages ms, nrMoved ms⟩

/-- The start of `move_pages`: the batch is copied over the entries of the last
one. -/
def load (ms : MigrationState) (pid : Int32) (hotPages : List ℕ) (sampleCounts : List ℤ) :
    MigrationState :=
  { ms with
    pid := pid
    len := hotPages.length
    hotPages := fun i => (hotPages[i]?).getD (ms.hotPages i)
    sampleCounts := fun i => (sampleCounts[i]?).getD (ms.sampleCounts i) }

/-- `move_pages`. -/
def movePages (env : Env) (ms : MigrationState) (arfilter : RangeMap) (pid : Int32)
    (hotPages : List ℕ) (sampleCounts : List ℤ) : Option Moved :=
  (movePagesInner env (ms.load pid hotPages sampleCounts) arfilter).map fun r =>
    { r with state := { r.state with nrMovedPage := uint (r.state.nrMovedPage + r.moved) } }

/-! ### What a batch leaves -/

theorem pid_compact (ms : MigrationState) (select : ℕ → Slot → Option Slot) :
    (ms.compact select).pid = ms.pid :=
  compact_keeps (P := fun s : MigrationState => s.pid = ms.pid) (fun _ _ _ h => h) rfl

theorem slots_filter (pmu : PmuState) (dramCountMultiple : ℤ) (ms : MigrationState) :
    (ms.filter pmu dramCountMultiple).slots = ms.slots.filter fun a =>
      isPageHotInTargetDramNode pmu dramCountMultiple a.count a.target := by
  rw [filter, slots_compact, slots, ← List.filterMap_eq_filter, List.filterMap_map]
  refine List.filterMap_congr fun i _ => ?_
  simp only [Function.comp_apply, Option.guard]

/-- The selection: the pages on a valid node of persistent memory that has a
promote target, and hot enough for it, in order, each with its count and that
target. -/
theorem selected_eq {env : Env} {ms ms' : MigrationState} (h : select env ms = some ms') :
    ms'.slots = ((List.range ms.len).filterMap fun i =>
      (promoteTarget env.numa (ms.migrateStatus i)).join.map fun target : ℕ =>
        { ms.slot i with target := (target : ℤ) }).filter fun a =>
          isPageHotInTargetDramNode env.pmu env.dramCountMultiple a.count a.target := by
  obtain ⟨mid, hmid, rfl⟩ := Option.map_eq_some_iff.mp h
  unfold getTargetNodes at hmid
  split at hmid
  · cases hmid
  · cases hmid
    rw [slots_filter, slots_compact]

theorem pid_select {env : Env} {ms ms' : MigrationState} (h : select env ms = some ms') :
    ms'.pid = ms.pid := by
  obtain ⟨mid, hmid, rfl⟩ := Option.map_eq_some_iff.mp h
  unfold getTargetNodes at hmid
  split at hmid
  · cases hmid
  · cases hmid
    rw [filter, pid_compact, pid_compact]

theorem page_mem_of_select {env : Env} {ms ms' : MigrationState} (h : select env ms = some ms')
    {a : Slot} (ha : a ∈ ms'.slots) : a.page ∈ (List.range ms.len).map ms.hotPages := by
  rw [selected_eq h] at ha
  obtain ⟨i, hi, hsome⟩ := List.mem_filterMap.mp (List.mem_filter.mp ha).1
  obtain ⟨target, -, rfl⟩ := Option.map_eq_some_iff.mp hsome
  exact List.mem_map_of_mem hi

theorem mem_failedPages {ms : MigrationState} {page : ℕ} (h : page ∈ ms.failedPages) :
    ∃ a ∈ ms.slots, a.page = page := by
  obtain ⟨i, hi, hsome⟩ := List.mem_filterMap.mp h
  split at hsome
  · cases hsome
  · exact ⟨ms.slot i, List.mem_map_of_mem hi, Option.some_inj.mp hsome⟩

/-- What a call of `movePagesInner` leaves of the filter: it has recorded some
pages of the batch. -/
theorem movePagesInner_spec {env : Env} {ms : MigrationState} {arfilter : RangeMap} {r : Moved}
    (h : movePagesInner env ms arfilter = some r) :
    r.arfilter = recordPages arfilter ms.pid r.recorded ∧
      ∀ page ∈ r.recorded, page ∈ (List.range ms.len).map ms.hotPages := by
  have hnone : ∀ ms₁ : MigrationState, some (⟨ms₁, arfilter, [], 0⟩ : Moved) = some r →
      r.arfilter = recordPages arfilter ms.pid r.recorded ∧
        ∀ page ∈ r.recorded, page ∈ (List.range ms.len).map ms.hotPages := by
    rintro ms₁ ⟨rfl⟩
    exact ⟨rfl, by simp⟩
  unfold movePagesInner at h
  split at h
  · exact hnone _ h
  obtain ⟨⟨ret, status⟩, -, h⟩ := Option.bind_eq_some_iff.mp h
  dsimp only at h
  split at h
  · exact hnone _ h
  obtain ⟨sel, hsel, h⟩ := Option.bind_eq_some_iff.mp h
  split at h
  · exact hnone _ h
  obtain ⟨⟨ret', status'⟩, -, h⟩ := Option.bind_eq_some_iff.mp h
  dsimp only at h
  split at h
  · exact hnone _ h
  cases h
  refine ⟨by dsimp only; rw [pid_select hsel], fun page hpage => ?_⟩
  obtain ⟨a, ha, rfl⟩ := mem_failedPages hpage
  exact page_mem_of_select hsel ha

/-- **One batch.** It records pages of its own only, and nothing else changes in
the filter. -/
theorem movePages_spec {env : Env} {ms : MigrationState} {arfilter : RangeMap} {pid : Int32}
    {hotPages : List ℕ} {sampleCounts : List ℤ} {r : Moved}
    (h : movePages env ms arfilter pid hotPages sampleCounts = some r) :
    r.arfilter = recordPages arfilter pid r.recorded ∧ ∀ page ∈ r.recorded, page ∈ hotPages := by
  obtain ⟨inner, hinner, rfl⟩ := Option.map_eq_some_iff.mp h
  obtain ⟨hfilter, hmem⟩ := movePagesInner_spec hinner
  refine ⟨hfilter, fun page hpage => ?_⟩
  obtain ⟨i, hi, rfl⟩ := List.mem_map.mp (hmem page hpage)
  have hlt : i < hotPages.length := List.mem_range.mp hi
  have hentry : (ms.load pid hotPages sampleCounts).hotPages i = hotPages[i] := by
    simp [load, List.getElem?_eq_getElem hlt]
  rw [hentry]
  exact List.getElem_mem hlt

end MigrationState

end PmuRefs

end MemoryOptimizer
