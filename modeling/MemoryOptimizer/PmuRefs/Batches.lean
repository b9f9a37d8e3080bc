import MemoryOptimizer.PmuRefs.MigratePages

/-!
# What is handed over

The batches of `migrate_pages`, over any items of an interval that have a pid: what
holds of the pages of every item (`P`) holds of every batch for its process, no batch
has a page that the configuration keeps out, none is longer than the vectors it is
copied to, and none behind the first `k` has a page that a call behind them recorded.

* `Kept` — the invariant between two items, over `Inv`.
* `Kept.migratePages` — one interval.
-/

namespace MemoryOptimizer

namespace PmuRefs

open AddressRangeFilter (RangeMap insertRange searchAddress Separated addresses
  addresses_insertRange separated_empty)

/-- The addresses that the options keep out for a process. -/
def HmdConfig.configured (config : HmdConfig) (pid : Int32) : Set ℕ :=
  {addr | ∃ f ∈ config.arfilter, f.pid = pid ∧ f.start ≤ addr ∧ addr < f.start + f.size}

/-- A call that is allowed: its pages are of its process, the options keep none out, and
they fit into the vectors of `MigrationState`. -/
structure Allowed (config : HmdConfig) (P : ℕ → ℕ → Prop) (c : Call) : Prop where
  owned : ∃ pid, c.pid = Int32.ofNat pid ∧ ∀ page ∈ c.hotPages, P pid page
  unfiltered : ∀ page ∈ c.hotPages, page ∉ config.configured c.pid
  length_le : c.hotPages.length ≤ config.movePagesMax

/-- Between two items, after `n` of the interval: besides `Inv`, the filter holds what the
options keep out, the calls were allowed, and so is the batch. -/
structure Kept (config : HmdConfig) (P : ℕ → ℕ → Prop) (k n pid : ℕ) (s : Optimizer) : Prop
    extends Inv k pid s where
  configured : ∀ pid, config.configured pid ⊆ addresses s.arfilter pid
  allowed : ∀ c ∈ s.calls, Allowed config P c
  owned : ∀ page ∈ s.hotPages, P pid page
  length_le : s.hotPages.length ≤ n * 2 ^ config.npgShift
  none : pid = 0 → s.hotPages = []

section Batches

variable {config : HmdConfig} {machine : Machine} {pmu : MigrationState.PmuState}
variable {P : ℕ → ℕ → Prop} {k n pid : ℕ} {s : Optimizer}

theorem Allowed.mono {P' : ℕ → ℕ → Prop} {c : Call} (hle : ∀ pid page, P pid page → P' pid page)
    (h : Allowed config P c) : Allowed config P' c := by
  obtain ⟨pid, hpid, hpages⟩ := h.owned
  exact ⟨⟨pid, hpid, fun page hpage => hle pid page (hpages page hpage)⟩, h.unfiltered, h.length_le⟩

/-- An empty batch is one of any process, after any items. -/
theorem Kept.of_empty (h : Kept config P k n pid s) (hempty : s.hotPages = []) (n' other : ℕ) :
    Kept config P k n' other s :=
  { h with
    toInv := h.toInv.of_empty hempty other
    owned := by simp [hempty]
    length_le := by simp [hempty]
    none := fun _ => hempty }

theorem Kept.mono {n' : ℕ} (hle : n ≤ n') (h : Kept config P k n pid s) :
    Kept config P k n' pid s :=
  { h with length_le := h.length_le.trans (Nat.mul_le_mul_right _ hle) }

theorem Kept.imp {P' : ℕ → ℕ → Prop} (hle : ∀ pid page, P pid page → P' pid page)
    (h : Kept config P k n pid s) : Kept config P' k n pid s :=
  { h with
    allowed := fun c hc => (h.allowed c hc).mono hle
    owned := fun page hp => hle pid page (h.owned page hp) }

/-- The invariant reads the filter, the calls and the batch. -/
theorem Kept.congr {t : Optimizer} (h : Kept config P k n pid s)
    (hfilter : t.arfilter = s.arfilter) (hcalls : t.calls = s.calls)
    (hbatch : t.hotPages = s.hotPages) : Kept config P k n pid t where
  separated := hfilter ▸ h.separated
  configured := hfilter ▸ h.configured
  drop_le := hcalls ▸ h.drop_le
  recorded := hfilter ▸ hcalls ▸ h.recorded
  allowed := hcalls ▸ h.allowed
  notRetried := hcalls ▸ h.notRetried
  batch := hfilter ▸ hbatch ▸ h.batch
  owned := hbatch ▸ h.owned
  length_le := hbatch ▸ h.length_le
  none := hbatch ▸ h.none

/-- The hot items that an interval looks at have at most as many pages as there is
room for. -/
theorem mul_le_movePagesMax (hn : n ≤ config.movePagesMax >>> config.npgShift) :
    n * 2 ^ config.npgShift ≤ config.movePagesMax := by
  rw [Nat.shiftRight_eq_div_pow] at hn
  exact (Nat.mul_le_mul_right _ hn).trans (Nat.div_mul_le_self _ _)

/-- No page that may be handed over reaches the end of the address space. -/
def Fits (P : ℕ → ℕ → Prop) : Prop := ∀ pid page, P pid page → page + pageSize < 2 ^ 64

theorem Kept.handOver (machine : Machine) (pmu : MigrationState.PmuState)
    (h : Kept config P k n pid s) (hn : n ≤ config.movePagesMax >>> config.npgShift)
    (n' other : ℕ) :
    Kept config P k n' other (handOver config machine pmu pid s) ∧
      (PmuRefs.handOver config machine pmu pid s).hotPages = [] := by
  obtain ⟨recorded, -, hcalls, -, -⟩ := handOver_cases config machine pmu pid s
  obtain ⟨hinv, hempty, hmono⟩ := handOver_inv config machine pmu h.toInv
  have hbatch : Allowed config P ⟨Int32.ofNat pid, s.hotPages, recorded⟩ := by
    refine ⟨⟨pid, rfl, h.owned⟩, fun page hp hin => ?_, h.length_le.trans (mul_le_movePagesMax hn)⟩
    exact (h.batch page hp).1 (h.configured _ hin)
  refine ⟨⟨hinv.of_empty hempty other, fun pid => (h.configured pid).trans (hmono pid), ?_, ?_, ?_,
    fun _ => hempty⟩, hempty⟩
  · rw [hcalls]
    intro c hc
    rcases List.mem_append.mp hc with hc | hc
    · exact h.allowed c hc
    · obtain rfl := List.mem_singleton.mp hc
      exact hbatch
  · simp [hempty]
  · simp [hempty]

/-- The flush before an item of any process. -/
theorem Kept.flush (machine : Machine) (pmu : MigrationState.PmuState) {r : Optimizer × ℕ}
    (h : Kept config P k n r.2 r.1) (hn : n ≤ config.movePagesMax >>> config.npgShift)
    (item : AchashItem) : Kept config P k n item.pid (flush config machine pmu item r) := by
  unfold PmuRefs.flush
  split
  · exact (h.handOver machine pmu hn n item.pid).1
  · next hkeep =>
    rcases eq_or_ne item.pid r.2 with heq | hne
    · exact heq ▸ h
    · have hpid : r.2 = 0 := not_not.mp fun h0 => hkeep ⟨hne, h0⟩
      exact h.of_empty (h.none hpid) n item.pid

/-- The pages of an item of the same process. -/
theorem Kept.addItem (hP : Fits P) {item : AchashItem} (h : Kept config P k n item.pid s)
    (hpid : item.pid ≠ 0) (hitem : ∀ page ∈ config.pages item, P item.pid page) :
    Kept config P k (n + 1) item.pid (addItem config item s) := by
  have hinv := addItem_inv h.toInv fun page hp => hP item.pid page (hitem page hp)
  refine ⟨hinv, h.configured, h.allowed, fun page hp => ?_, ?_, fun h0 => absurd h0 hpid⟩
  · rcases List.mem_append.mp hp with hp | hp
    · exact h.owned page hp
    · exact hitem page (List.mem_filter.mp hp).1
  · have hfilter : ((config.pages item).filter fun page =>
        !searchAddress s.arfilter (Int32.ofNat item.pid) page).length ≤ 2 ^ config.npgShift := by
      refine (List.length_filter_le _ _).trans (le_of_eq ?_)
      rw [HmdConfig.pages, List.length_map, List.length_range]
    rw [Nat.succ_mul]
    unfold PmuRefs.addItem
    dsimp only
    rw [List.length_append]
    exact Nat.add_le_add h.length_le hfilter

/-! ### One interval -/

/-- What is asked of a hot item. -/
structure Owned (config : HmdConfig) (P : ℕ → ℕ → Prop) (item : AchashItem) : Prop where
  pid_ne : item.pid ≠ 0
  pages : ∀ page ∈ config.pages item, P item.pid page

theorem Kept.step (machine : Machine) (pmu : MigrationState.PmuState) (hP : Fits P)
    {r : Optimizer × ℕ} (h : Kept config P k n r.2 r.1)
    (hn : n ≤ config.movePagesMax >>> config.npgShift) {item : AchashItem}
    (hitem : Owned config P item) :
    Kept config P k (n + 1) (step config machine pmu r item).2
      (step config machine pmu r item).1 := by
  have hflush := h.flush machine pmu hn item
  unfold PmuRefs.step
  split
  · exact h.mono (Nat.le_succ n)
  · dsimp only
    split
    · exact hflush.mono (Nat.le_succ n)
    · exact hflush.addItem hP hitem.pid_ne hitem.pages

theorem Kept.foldl_step (machine : Machine) (pmu : MigrationState.PmuState) (hP : Fits P)
    {items : List AchashItem} {r : Optimizer × ℕ} (h : Kept config P k n r.2 r.1)
    (hn : n + items.length ≤ config.movePagesMax >>> config.npgShift)
    (hitems : ∀ item ∈ items, Owned config P item) :
    Kept config P k (n + items.length) (items.foldl (PmuRefs.step config machine pmu) r).2
      (items.foldl (PmuRefs.step config machine pmu) r).1 := by
  induction items generalizing n r with
  | nil => exact h
  | cons item items ih =>
      rw [List.length_cons] at hn
      have hstep := h.step machine pmu hP (by omega) (hitems item List.mem_cons_self)
      have hrest := ih hstep (by omega) fun i hi => hitems i (List.mem_cons_of_mem item hi)
      rw [List.length_cons, Nat.add_comm items.length, ← Nat.add_assoc]
      exact hrest

/-- One interval, from any state that the intervals before left: it clears the batch,
unless the process ends in it. -/
theorem Kept.migratePages (machine : Machine) (pmu : MigrationState.PmuState) (hP : Fits P)
    (h : Kept config P k n pid s) (hempty : s.ended = false → s.hotPages = [])
    {items : List AchashItem} (hitems : ∀ item ∈ items, Owned config P item) :
    ∃ n' pid', Kept config P k n' pid' (migratePages config machine pmu items s) ∧
      ((PmuRefs.migratePages config machine pmu items s).ended = false →
        (PmuRefs.migratePages config machine pmu items s).hotPages = []) := by
  unfold PmuRefs.migratePages
  dsimp only
  split
  · exact ⟨n, pid, h, hempty⟩
  · have hstart : Kept config P k 0 0 { s with hotPages := [], sampleCounts := [] } :=
      { h with
        batch := by simp
        owned := by simp
        length_le := by simp
        none := fun _ => rfl }
    have hroom : 0 + (hotItems config items).length ≤
        config.movePagesMax >>> config.npgShift := by
      rw [Nat.zero_add]
      exact List.length_take_le _ _
    have hend := hstart.foldl_step machine pmu hP
      (r := ({ s with hotPages := [], sampleCounts := [] }, 0)) hroom
      fun item hitem => hitems item (List.mem_of_mem_take hitem)
    split
    · next hended => exact ⟨_, _, hend, fun hfalse => absurd hended (by rw [hfalse]; decide)⟩
    · obtain ⟨hkept, hcleared⟩ := hend.handOver machine pmu hroom 0 0
      exact ⟨0, 0, hkept, fun _ => hcleared⟩

end Batches

/-! ### The filter after a reset -/

/-- A reset puts back what the options keep out. -/
theorem configured_resetArfilter {config : HmdConfig} (hconfig : config.Fits)
    (arfilter : RangeMap) (pid : Int32) :
    config.configured pid ⊆ addresses (config.resetArfilter arfilter) pid := by
  have hfold : ∀ (l : List AddrRange), (∀ f ∈ l, 0 < f.size ∧ f.start + f.size < 2 ^ 64) →
      ∀ rmap : RangeMap, Separated rmap →
        addresses rmap pid ⊆ addresses
          (l.foldl (fun rmap f => insertRange rmap f.pid f.start f.size) rmap) pid ∧
        ∀ f ∈ l, f.pid = pid → ∀ addr, f.start ≤ addr → addr < f.start + f.size →
          addr ∈ addresses (l.foldl (fun rmap f => insertRange rmap f.pid f.start f.size) rmap)
            pid := by
    intro l
    induction l with
    | nil => exact fun _ rmap _ => ⟨subset_rfl, fun _ hf => absurd hf List.not_mem_nil⟩
    | cons first l ih =>
        intro hl rmap sep
        obtain ⟨hsize, hwrap⟩ := hl first List.mem_cons_self
        obtain ⟨hmono, hmem⟩ := ih (fun f hf => hl f (List.mem_cons_of_mem first hf)) _
          (sep.insertRange first.pid hsize hwrap)
        refine ⟨(insertRange_mono sep first.pid pid hsize hwrap).trans hmono,
          fun f hf hpid addr hle hlt => ?_⟩
        rcases List.mem_cons.mp hf with rfl | hf
        · refine hmono ?_
          rw [← hpid, addresses_insertRange sep _ hsize hwrap]
          exact .inr ⟨hle, hlt⟩
        · exact hmem f hf hpid addr hle hlt
  rintro addr ⟨f, hf, hpid, hle, hlt⟩
  exact (hfold config.arfilter hconfig _ separated_empty).2 f hf hpid addr hle hlt

theorem Kept.reset {config : HmdConfig} {P : ℕ → ℕ → Prop} {s : Optimizer}
    (hconfig : config.Fits) (hallowed : ∀ c ∈ s.calls, Allowed config P c)
    (hempty : s.hotPages = []) :
    Kept config P s.calls.length 0 0 { s with arfilter := config.resetArfilter s.arfilter } where
  toInv := Inv.reset hconfig hempty 0
  configured := configured_resetArfilter hconfig _
  allowed := hallowed
  owned := by simp [hempty]
  length_le := by simp [hempty]
  none := fun _ => hempty

end PmuRefs

end MemoryOptimizer
