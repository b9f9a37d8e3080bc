import MemoryOptimizer.PmuRefs.Cmsk
import MemoryOptimizer.PmuRefs.MigrationState

/-!
# The measurement intervals

`migrate_pages` cuts the hot items of an interval into batches of one process
each, leaves out the pages that the address filter knows, and hands the batches
to `MigrationState`, which records in the filter the pages it could not move. The
model keeps the list of the batches handed over, each with the pages recorded
from it, and goes on until the process ends.

* `Inv` — what holds between two items: every page recorded so far is in the
  filter, and none of the batch that is being collected is.
* `run_notRetried` — no page is handed over again once it has been recorded for
  its process, as long as no inserted range reaches the end of the address space
  and no page of process 0 is left in the batch of another.
-/

namespace MemoryOptimizer

namespace PmuRefs

open AddressRangeFilter (RangeMap insertRange searchAddress Separated addresses separated_empty
  searchAddress_iff addresses_insertRange rangesOf_insertRange_of_ne mem_addresses_iff)

/-! ### One interval -/

/-- `struct addr_range`. -/
structure AddrRange where
  pid : Int32
  start : ℕ
  size : ℕ
  deriving DecidableEq, Repr

/-- What `migrate_pages` and `reset_arfilter` read of `hmd_config`. -/
structure HmdConfig where
  granularityOrder : ℕ
  movePagesMax : ℕ
  dramCountMultiple : ℤ
  arfilter : List AddrRange

namespace HmdConfig

variable (config : HmdConfig)

/-- `npg_shift`. -/
def npgShift : ℕ :=
  if config.granularityOrder > pageShift then config.granularityOrder - pageShift else 0

/-- The page `addr + j * PAGE_SIZE` of a hot item. -/
def pageAt (item : AchashItem) (j : ℕ) : ℕ :=
  ulong ((ulong (item.addr <<< config.granularityOrder) &&& (2 ^ 64 - pageSize)) + j * pageSize)

/-- The pages of a hot item. -/
def pages (item : AchashItem) : List ℕ :=
  (List.range (2 ^ config.npgShift)).map (config.pageAt item)

/-- `reset_arfilter`. -/
def resetArfilter (arfilter : RangeMap) : RangeMap :=
  config.arfilter.foldl (fun arfilter f => insertRange arfilter f.pid f.start f.size)
    (AddressRangeFilter.clear arfilter)

end HmdConfig

/-- A call of `MigrationState::move_pages`, and the pages it recorded. -/
structure Call where
  pid : Int32
  hotPages : List ℕ
  recorded : List ℕ
  deriving DecidableEq, Repr

/-- What `PMUMemoryOptimizer` keeps from one interval to the next, the calls so far,
and whether the process has ended. -/
structure Optimizer where
  arfilter : RangeMap
  migrationState : MigrationState
  hotPages : List ℕ
  sampleCounts : List ℤ
  calls : List Call
  ended : Bool

/-- What an interval finds: the items of the hash up to its `len`, sorted, and the
counts of the events. -/
structure Interval where
  items : List AchashItem
  pmu : MigrationState.PmuState

/-- The machine: its topology, and the kernel's two answers to every call. -/
structure Machine where
  numa : NumaNodeCollection
  replies : ℕ → MigrationState.Reply × MigrationState.Reply

section Interval

variable (config : HmdConfig) (machine : Machine) (pmu : MigrationState.PmuState)

/-- What surrounds the next call. -/
def env (s : Optimizer) : MigrationState.Env where
  numa := machine.numa
  pmu := pmu
  dramCountMultiple := config.dramCountMultiple
  query := (machine.replies s.calls.length).1
  move := (machine.replies s.calls.length).2

/-- The batch is handed to `migration_state_.move_pages` and cleared. -/
def handOver (pid : ℕ) (s : Optimizer) : Optimizer :=
  match s.migrationState.movePages (env config machine pmu s) s.arfilter (Int32.ofNat pid)
      s.hotPages s.sampleCounts with
  | none =>
      { s with
        hotPages := []
        sampleCounts := []
        calls := s.calls ++ [⟨Int32.ofNat pid, s.hotPages, []⟩]
        ended := true }
  | some r =>
      { arfilter := r.arfilter
        migrationState := r.state
        hotPages := []
        sampleCounts := []
        calls := s.calls ++ [⟨Int32.ofNat pid, s.hotPages, r.recorded⟩]
        ended := s.ended }

/-- The loop over the pages of a hot item: those the filter does not know are added
to the batch. -/
def addItem (item : AchashItem) (s : Optimizer) : Optimizer :=
  let pages := (config.pages item).filter fun page =>
    !searchAddress s.arfilter (Int32.ofNat item.pid) page
  { s with
    hotPages := s.hotPages ++ pages
    sampleCounts := s.sampleCounts ++ pages.map fun _ => (item.count : ℤ) }

/-- The flush on a change of pid. A batch of pid 0 is not handed over. -/
def flush (item : AchashItem) (r : Optimizer × ℕ) : Optimizer :=
  if item.pid ≠ r.2 ∧ r.2 ≠ 0 then handOver config machine pmu r.2 r.1 else r.1

/-- One hot item, with the local `pid`. -/
def step (r : Optimizer × ℕ) (item : AchashItem) : Optimizer × ℕ :=
  if r.1.ended then r
  else
    let s := flush config machine pmu item r
    (if s.ended then s else addItem config item s, item.pid)

/-- The hot items that `migrate_pages` looks at: `cmsk_hot_pages`, with
`move_pages_max` pages at most. -/
def hotItems (items : List AchashItem) : List AchashItem :=
  items.take (config.movePagesMax >>> config.npgShift)

/-- `migrate_pages`. -/
def migratePages (items : List AchashItem) (s : Optimizer) : Optimizer :=
  let items := hotItems config items
  if items = [] ∨ s.ended then s
  else
    let r := items.foldl (step config machine pmu)
      ({ s with hotPages := [], sampleCounts := [] }, 0)
    if r.1.ended then r.1 else handOver config machine pmu r.2 r.1

end Interval

/-! ### Runs -/

/-- The intervals one after the other. -/
def run (config : HmdConfig) (machine : Machine) (intervals : List Interval) (s : Optimizer) :
    Optimizer :=
  intervals.foldl (fun s interval => migratePages config machine interval.pmu interval.items s) s

/-- The state after `reset_arfilter`, with whatever `MigrationState` holds. -/
def afterReset (config : HmdConfig) (ms : MigrationState) : Optimizer where
  arfilter := config.resetArfilter SortedMap.empty
  migrationState := ms
  hotPages := []
  sampleCounts := []
  calls := []
  ended := false

/-- No page is handed over after it was recorded for the same process. -/
def NotRetried (calls : List Call) : Prop :=
  calls.Pairwise fun c d => c.pid = d.pid → ∀ page ∈ c.recorded, page ∉ d.hotPages

instance (calls : List Call) : Decidable (NotRetried calls) := by
  unfold NotRetried
  infer_instance

/-- The configured ranges end inside the address space. -/
def HmdConfig.Fits (config : HmdConfig) : Prop :=
  ∀ f ∈ config.arfilter, 0 < f.size ∧ f.start + f.size < 2 ^ 64

/-- No hot item covers the last page of the address space, and none of pid 0 stands
before one of another process. -/
structure Interval.Fits (config : HmdConfig) (interval : Interval) : Prop where
  page_lt : ∀ item ∈ hotItems config interval.items, ∀ page ∈ config.pages item,
    page + pageSize < 2 ^ 64
  zero_last : (hotItems config interval.items).Pairwise fun a b => a.pid = 0 → b.pid = 0

/-! ### The filter -/

open MigrationState (recordPages)

theorem insertRange_mono {arfilter : RangeMap} (sep : Separated arfilter) (pid other : Int32)
    {start size : ℕ} (hsize : 0 < size) (hwrap : start + size < 2 ^ 64) :
    addresses arfilter other ⊆ addresses (insertRange arfilter pid start size) other := by
  rcases eq_or_ne other pid with rfl | hne
  · rw [addresses_insertRange sep other hsize hwrap]
    exact Set.subset_union_left
  · intro addr haddr
    rw [mem_addresses_iff] at haddr ⊢
    rwa [rangesOf_insertRange_of_ne sep hsize hwrap hne]

/-- Recording pages keeps the filter separated, keeps what it holds for every
process, and adds the pages. -/
theorem recordPages_spec (pid : Int32) {pages : List ℕ} {arfilter : RangeMap}
    (sep : Separated arfilter) (hpages : ∀ page ∈ pages, page + pageSize < 2 ^ 64) :
    Separated (recordPages arfilter pid pages) ∧
      (∀ other, addresses arfilter other ⊆ addresses (recordPages arfilter pid pages) other) ∧
      ∀ page ∈ pages, page ∈ addresses (recordPages arfilter pid pages) pid := by
  induction pages generalizing arfilter with
  | nil => exact ⟨sep, fun _ => subset_rfl, by simp⟩
  | cons page pages ih =>
      have hpos : 0 < pageSize := by decide
      have hwrap : page + pageSize < 2 ^ 64 := hpages page (by simp)
      obtain ⟨hsep, hmono, hmem⟩ := ih (sep.insertRange pid hpos hwrap)
        fun p hp => hpages p (by simp [hp])
      refine ⟨hsep, fun other => (insertRange_mono sep pid other hpos hwrap).trans (hmono other),
        fun p hp => ?_⟩
      rcases List.mem_cons.mp hp with rfl | hp
      · refine hmono pid ?_
        rw [addresses_insertRange sep pid hpos hwrap]
        exact .inr ⟨le_rfl, Nat.lt_add_of_pos_right hpos⟩
      · exact hmem p hp

theorem resetArfilter_separated {config : HmdConfig} (hconfig : config.Fits) (arfilter : RangeMap) :
    Separated (config.resetArfilter arfilter) := by
  unfold HmdConfig.resetArfilter
  refine List.foldlRecOn config.arfilter _ separated_empty fun arfilter sep f hf => ?_
  exact sep.insertRange f.pid (hconfig f hf).1 (hconfig f hf).2

/-! ### The invariant -/

/-- Between two items, behind the first `k` calls: the filter is separated, no page was
handed over again, every page recorded is in the filter, and no page of the batch is. -/
structure Inv (k pid : ℕ) (s : Optimizer) : Prop where
  separated : Separated s.arfilter
  drop_le : k ≤ s.calls.length
  notRetried : NotRetried (s.calls.drop k)
  recorded : ∀ c ∈ s.calls.drop k, ∀ page ∈ c.recorded, page ∈ addresses s.arfilter c.pid
  batch : ∀ page ∈ s.hotPages,
    page ∉ addresses s.arfilter (Int32.ofNat pid) ∧ page + pageSize < 2 ^ 64

/-- An empty batch is one of any process. -/
theorem Inv.of_empty {k pid : ℕ} {s : Optimizer} (h : Inv k pid s) (hempty : s.hotPages = [])
    (other : ℕ) : Inv k other s :=
  { h with batch := by simp [hempty] }

/-- After a reset the calls so far have left nothing in the filter. -/
theorem Inv.reset {config : HmdConfig} (hconfig : config.Fits) {s : Optimizer}
    (hempty : s.hotPages = []) (pid : ℕ) :
    Inv s.calls.length pid { s with arfilter := config.resetArfilter s.arfilter } where
  separated := resetArfilter_separated hconfig _
  drop_le := le_rfl
  notRetried := by
    rw [List.drop_length]
    exact List.Pairwise.nil
  recorded := by simp
  batch := by simp [hempty]

section Interval

variable {config : HmdConfig} {machine : Machine} {pmu : MigrationState.PmuState} {k : ℕ}

theorem notRetried_append {calls : List Call} {arfilter : RangeMap} (h : NotRetried calls)
    (hrecorded : ∀ c ∈ calls, ∀ page ∈ c.recorded, page ∈ addresses arfilter c.pid) {d : Call}
    (hd : ∀ page ∈ d.hotPages, page ∉ addresses arfilter d.pid) : NotRetried (calls ++ [d]) := by
  refine List.pairwise_append.mpr ⟨h, by simp, fun c hc e he hpid page hpage hin => ?_⟩
  rw [List.mem_singleton.mp he] at hpid hin
  exact hd page hin (hpid ▸ hrecorded c hc page hpage)

/-- All that handing over a batch can do: the call is listed with the pages recorded
from it, which are its own, and the batch is empty. -/
theorem handOver_cases (config : HmdConfig) (machine : Machine) (pmu : MigrationState.PmuState)
    (pid : ℕ) (s : Optimizer) :
    ∃ recorded, (∀ page ∈ recorded, page ∈ s.hotPages) ∧
      (handOver config machine pmu pid s).calls =
        s.calls ++ [⟨Int32.ofNat pid, s.hotPages, recorded⟩] ∧
      (handOver config machine pmu pid s).arfilter =
        recordPages s.arfilter (Int32.ofNat pid) recorded ∧
      (handOver config machine pmu pid s).hotPages = [] := by
  unfold handOver
  split
  · exact ⟨[], fun _ h => absurd h List.not_mem_nil, rfl, rfl, rfl⟩
  · next r hmove =>
    obtain ⟨hfilter, hown⟩ := MigrationState.movePages_spec hmove
    exact ⟨r.recorded, hown, rfl, hfilter, rfl⟩

/-- Handing over a batch. -/
theorem handOver_inv (config : HmdConfig) (machine : Machine)
    (pmu : MigrationState.PmuState) {pid : ℕ} {s : Optimizer} (h : Inv k pid s) :
    Inv k pid (handOver config machine pmu pid s) ∧
      (handOver config machine pmu pid s).hotPages = [] ∧
      ∀ other, addresses s.arfilter other ⊆
        addresses (handOver config machine pmu pid s).arfilter other := by
  obtain ⟨recorded, hown, hcalls, hfilter, hempty⟩ := handOver_cases config machine pmu pid s
  obtain ⟨hsep, hmono, hmem⟩ := recordPages_spec (Int32.ofNat pid) h.separated
    fun page hp => (h.batch page (hown page hp)).2
  rw [← hfilter] at hsep hmono hmem
  have hdrop : (handOver config machine pmu pid s).calls.drop k =
      s.calls.drop k ++ [⟨Int32.ofNat pid, s.hotPages, recorded⟩] := by
    rw [hcalls, List.drop_append_of_le_length h.drop_le]
  refine ⟨⟨hsep, ?_, ?_, ?_, by simp [hempty]⟩, hempty, hmono⟩
  · rw [hcalls, List.length_append]
    exact Nat.le_add_right_of_le h.drop_le
  · rw [hdrop]
    exact notRetried_append h.notRetried h.recorded fun page hp => (h.batch page hp).1
  · rw [hdrop]
    intro c hc page hp
    rcases List.mem_append.mp hc with hc | hc
    · exact hmono c.pid (h.recorded c hc page hp)
    · obtain rfl := List.mem_singleton.mp hc
      exact hmem page hp

/-- The pages of an item of the same process. -/
theorem addItem_inv {item : AchashItem} {s : Optimizer} (h : Inv k item.pid s)
    (hitem : ∀ page ∈ config.pages item, page + pageSize < 2 ^ 64) :
    Inv k item.pid (addItem config item s) := by
  refine ⟨h.separated, h.drop_le, h.notRetried, h.recorded, fun page hp => ?_⟩
  rcases List.mem_append.mp hp with hp | hp
  · exact h.batch page hp
  · obtain ⟨hpage, hnot⟩ := List.mem_filter.mp hp
    refine ⟨fun haddr => ?_, hitem page hpage⟩
    rw [(searchAddress_iff h.separated _ _).mpr haddr] at hnot
    exact absurd hnot (by decide)

/-- The flush before an item, unless it is of another process and leaves a batch
of pid 0. -/
theorem flush_inv (config : HmdConfig) (machine : Machine) (pmu : MigrationState.PmuState)
    {item : AchashItem} {r : Optimizer × ℕ} (h : Inv k r.2 r.1)
    (hzero : r.2 = 0 → r.1.hotPages ≠ [] → item.pid = 0) :
    Inv k item.pid (flush config machine pmu item r) := by
  unfold flush
  split
  · obtain ⟨hinv, hempty, -⟩ := handOver_inv config machine pmu h
    exact hinv.of_empty hempty item.pid
  · next hkeep =>
    rcases eq_or_ne item.pid r.2 with heq | hne
    · rwa [heq]
    · have hpid : r.2 = 0 := not_not.mp fun h0 => hkeep ⟨hne, h0⟩
      refine h.of_empty ?_ item.pid
      by_contra hnonempty
      exact hne ((hzero hpid hnonempty).trans hpid.symm)

/-- One hot item. -/
theorem step_inv (machine : Machine) (pmu : MigrationState.PmuState) {item : AchashItem}
    {r : Optimizer × ℕ} (h : Inv k r.2 r.1)
    (hitem : ∀ page ∈ config.pages item, page + pageSize < 2 ^ 64)
    (hzero : r.2 = 0 → r.1.hotPages ≠ [] → item.pid = 0) :
    Inv k (step config machine pmu r item).2 (step config machine pmu r item).1 ∧
      (step config machine pmu r item = r ∨ (step config machine pmu r item).2 = item.pid) := by
  have hflush := flush_inv config machine pmu h hzero
  unfold step
  split
  · exact ⟨h, .inl rfl⟩
  · refine ⟨?_, .inr rfl⟩
    dsimp only
    split
    · exact hflush
    · exact addItem_inv hflush hitem

/-- The items of an interval, from any one of them on. -/
theorem foldl_step_inv (machine : Machine) (pmu : MigrationState.PmuState)
    {items : List AchashItem} {r : Optimizer × ℕ} (h : Inv k r.2 r.1)
    (hpages : ∀ item ∈ items, ∀ page ∈ config.pages item, page + pageSize < 2 ^ 64)
    (hlast : items.Pairwise fun a b => a.pid = 0 → b.pid = 0)
    (hzero : r.2 = 0 → r.1.hotPages ≠ [] → ∀ item ∈ items, item.pid = 0) :
    Inv k (items.foldl (step config machine pmu) r).2
      (items.foldl (step config machine pmu) r).1 := by
  induction items generalizing r with
  | nil => exact h
  | cons item items ih =>
      obtain ⟨hfirst, hlast⟩ := List.pairwise_cons.mp hlast
      obtain ⟨hinv, hnext⟩ := step_inv machine pmu h
        (hpages item List.mem_cons_self) fun hpid hne => hzero hpid hne item List.mem_cons_self
      refine ih hinv (fun i hi => hpages i (List.mem_cons_of_mem _ hi)) hlast ?_
      intro hpid hne i hi
      rcases hnext with hnext | hnext
      · rw [hnext] at hpid hne
        exact hzero hpid hne i (List.mem_cons_of_mem _ hi)
      · exact hfirst i hi (hnext ▸ hpid)

/-- One interval. -/
theorem migratePages_inv (machine : Machine) {interval : Interval}
    (hfits : interval.Fits config) {pid : ℕ}
    {s : Optimizer} (h : Inv k pid s) :
    ∃ pid', Inv k pid' (migratePages config machine interval.pmu interval.items s) := by
  unfold migratePages
  dsimp only
  split
  · exact ⟨pid, h⟩
  · have hstart : Inv k 0 { s with hotPages := [], sampleCounts := [] } :=
      { h with batch := by simp }
    have hitems := foldl_step_inv machine interval.pmu
      (r := ({ s with hotPages := [], sampleCounts := [] }, 0)) hstart hfits.page_lt
      hfits.zero_last fun _ hne => absurd rfl hne
    split
    · exact ⟨_, hitems⟩
    · exact ⟨_, (handOver_inv config machine interval.pmu hitems).1⟩

end Interval

/-! ### Runs of intervals -/

theorem run_inv {config : HmdConfig} (machine : Machine) {intervals : List Interval}
    (hfits : ∀ interval ∈ intervals, interval.Fits config) {k pid : ℕ} {s : Optimizer}
    (h : Inv k pid s) : ∃ pid', Inv k pid' (run config machine intervals s) := by
  induction intervals generalizing pid s with
  | nil => exact ⟨pid, h⟩
  | cons interval intervals ih =>
      obtain ⟨_, hnext⟩ := migratePages_inv machine
        (hfits interval List.mem_cons_self) h
      exact ih (fun i hi => hfits i (List.mem_cons_of_mem _ hi)) hnext

/-- Every run of intervals after a reset of the filter, with any hot items, any
topology and any answers of the kernel: once a page was recorded for a process it
is not handed over for it again, if the configured ranges end inside the address
space and every interval fits. -/
theorem run_notRetried (config : HmdConfig) (machine : Machine) (ms : MigrationState)
    (intervals : List Interval) (hconfig : config.Fits)
    (hfits : ∀ interval ∈ intervals, interval.Fits config) :
    NotRetried (run config machine intervals (afterReset config ms)).calls := by
  have hstart : Inv 0 0 (afterReset config ms) :=
    Inv.reset hconfig (s := { afterReset config ms with arfilter := SortedMap.empty }) rfl 0
  obtain ⟨_, hend⟩ := run_inv machine hfits hstart
  exact hend.notRetried

/-- A machine with one node of ordinary memory and one of persistent memory; all
pages are on the second, and none can be moved. -/
def busyMachine : Machine where
  numa := ⟨[some ⟨0, .dram, some 0, some 1⟩, some ⟨1, .pmem, some 0, some 1⟩]⟩
  replies := fun _ => (⟨0, fun _ => some 1, false⟩, ⟨0, fun _ => some (-16), false⟩)

/-- Two intervals with the same hot items. -/
def twice (items : List AchashItem) : List Interval :=
  [⟨items, ⟨0, fun _ => 0⟩⟩, ⟨items, ⟨0, fun _ => 0⟩⟩]

/-- Pages of 4K, with the given ranges in the filter. -/
def pageConfig (arfilter : List AddrRange) : HmdConfig where
  granularityOrder := 12
  movePagesMax := 1024
  dramCountMultiple := 10
  arfilter := arfilter

/-- An empty `MigrationState`. -/
def MigrationState.init : MigrationState :=
  ⟨0, 0, fun _ => 0, fun _ => 0, fun _ => 0, fun _ => 0, 0⟩

theorem run_notRetried_twice :
    (run (pageConfig [⟨7, 0x20000, 0x1000⟩]) busyMachine
        (twice [⟨0x1f, 7, 0, 20⟩, ⟨0x1f, 8, 0, 10⟩])
        (afterReset (pageConfig [⟨7, 0x20000, 0x1000⟩]) .init)).calls ≠ [] ∧
      NotRetried (run (pageConfig [⟨7, 0x20000, 0x1000⟩]) busyMachine
        (twice [⟨0x1f, 7, 0, 20⟩, ⟨0x1f, 8, 0, 10⟩])
        (afterReset (pageConfig [⟨7, 0x20000, 0x1000⟩]) .init)).calls :=
  ⟨by decide +kernel, run_notRetried _ _ _ _ (by unfold HmdConfig.Fits; decide) (by
    intro interval hinterval
    simp only [twice, List.mem_cons, List.not_mem_nil, or_false, or_self] at hinterval
    subst hinterval
    exact ⟨by decide +kernel, by decide +kernel⟩)⟩

/-- `--filter-addr-range 7/131072:-131072`, and the page below that range fails to
move: the merged range ends at 2 ^ 64, and the page is handed over again. Without
any range: so is the last page of the address space, and a page of process 7 that is
in the batch of pid 0. -/
theorem notRetried_wrappedRange :
    ¬NotRetried (run (pageConfig [⟨7, 0x20000, 2 ^ 64 - 0x20000⟩]) busyMachine
        (twice [⟨0x1f, 7, 0, 20⟩])
        (afterReset (pageConfig [⟨7, 0x20000, 2 ^ 64 - 0x20000⟩]) .init)).calls ∧
      ¬NotRetried (run (pageConfig []) busyMachine (twice [⟨2 ^ 52 - 1, 7, 0, 20⟩])
        (afterReset (pageConfig []) .init)).calls ∧
      ¬NotRetried (run (pageConfig []) busyMachine
        (twice [⟨0x1f, 0, 0, 20⟩, ⟨0x2f, 7, 0, 10⟩])
        (afterReset (pageConfig []) .init)).calls := by
  decide +kernel

end PmuRefs

end MemoryOptimizer
