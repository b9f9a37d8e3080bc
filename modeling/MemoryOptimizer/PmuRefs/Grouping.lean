import MemoryOptimizer.Lib.Alignment
import MemoryOptimizer.PmuRefs.MigratePages

/-!
# The batches of an interval

`migrate_pages` collects the pages of the hot items in one pair of vectors and hands them
over when the next item is of another process, and once more behind the last item.

* `migrateCalls` — the calls of `MigrationState::move_pages`, with their vectors.
* `wanted` — the pages of the items that the filter does not know when their item is looked
  at.
* `migratePages_grouped` — the calls together hold the wanted pages, in order.
-/

namespace MemoryOptimizer

namespace PmuRefs

open AddressRangeFilter (RangeMap searchAddress)

/-! ### The calls -/

/-- What `move_pages` is called with: the local `pid` and the two vectors. -/
structure Handed where
  pid : ℕ
  hotPages : List ℕ
  sampleCounts : List ℤ
  deriving DecidableEq, Repr

/-- The pages of a call, each with the pid and its count. -/
def Handed.entries (c : Handed) : List (ℕ × ℕ × ℤ) :=
  (c.hotPages.zip c.sampleCounts).map fun e => (c.pid, e.1, e.2)

/-- The batch that is being collected. -/
def handed (r : Optimizer × ℕ) : Handed := ⟨r.2, r.1.hotPages, r.1.sampleCounts⟩

section Calls

variable (config : HmdConfig) (machine : Machine) (pmu : MigrationState.PmuState)

/-- The call that `flush` makes. -/
def flushCall (item : AchashItem) (r : Optimizer × ℕ) : List Handed :=
  if r.1.ended = false ∧ item.pid ≠ r.2 ∧ r.2 ≠ 0 then [handed r] else []

/-- The calls from some item on, with the one behind the last item. -/
def itemCalls : List AchashItem → Optimizer × ℕ → List Handed
  | [], r => if r.1.ended then [] else [handed r]
  | item :: items, r => flushCall item r ++ itemCalls items (step config machine pmu r item)

/-- What `migrate_pages` starts the loop with. -/
def loopStart (s : Optimizer) : Optimizer × ℕ := ({ s with hotPages := [], sampleCounts := [] }, 0)

/-- The calls of `migrate_pages`. -/
def migrateCalls (items : List AchashItem) (s : Optimizer) : List Handed :=
  if hotItems config items = [] ∨ s.ended then []
  else itemCalls config machine pmu (hotItems config items) (loopStart s)

/-! ### The wanted pages -/

/-- The check of `parse_options`, in `int`. A shift by 32 or more is undefined. -/
structure HmdConfig.Accepted : Prop where
  order_lt : config.granularityOrder < 32
  max_lt : config.movePagesMax < 2 ^ 31
  fits : intOfUlong (2 ^ config.granularityOrder) ≤ intOfUlong (config.movePagesMax * 2 ^ pageShift)

/-- The pages of the granule of an item. -/
def granule (item : AchashItem) : List ℕ :=
  (List.range (2 ^ (config.granularityOrder - pageShift))).map fun j =>
    ulong (item.addr * 2 ^ config.granularityOrder + j * pageSize)

/-- The pages of an item that a filter does not know, with the pid and the count of the
item. -/
def unfiltered (arfilter : RangeMap) (item : AchashItem) : List (ℕ × ℕ × ℤ) :=
  ((granule config item).filter fun page =>
    !searchAddress arfilter (Int32.ofNat item.pid) page).map fun page =>
      (item.pid, page, (item.count : ℤ))

/-- The same for all items from some state on, each with the filter that it is looked up
in: the calls before record in it the pages that could not be moved. -/
def wanted : List AchashItem → Optimizer × ℕ → List (ℕ × ℕ × ℤ)
  | [], _ => []
  | item :: items, r =>
      unfiltered config (flush config machine pmu item r).arfilter item ++
        wanted items (step config machine pmu r item)

end Calls

section Interval

variable {config : HmdConfig} {machine : Machine} {pmu : MigrationState.PmuState}

/-- The masks and shifts of `migrate_pages` give the pages of the granule. -/
theorem pages_eq (horder : pageShift ≤ config.granularityOrder) (item : AchashItem) :
    config.pages item = granule config item := by
  have hshift : config.npgShift = config.granularityOrder - pageShift := by
    unfold HmdConfig.npgShift
    split <;> omega
  have hmod : ulong (item.addr <<< config.granularityOrder) % 2 ^ pageShift = 0 := by
    unfold ulong
    rw [Nat.shiftLeft_eq, Nat.mod_mod_of_dvd _ (Nat.pow_dvd_pow 2 (by decide : pageShift ≤ 64))]
    exact Nat.mod_eq_zero_of_dvd ((Nat.pow_dvd_pow 2 horder).mul_left _)
  have hmask : ulong (item.addr <<< config.granularityOrder) &&& (2 ^ 64 - pageSize) =
      ulong (item.addr <<< config.granularityOrder) :=
    roundDown_of_mod_eq_zero (ulong_lt _) (by decide : pageShift ≤ 64) hmod
  unfold HmdConfig.pages granule
  rw [hshift]
  refine List.map_congr_left fun j _ => ?_
  rw [HmdConfig.pageAt, hmask, Nat.shiftLeft_eq, ulong, ulong, ulong, Nat.mod_add_mod]

/-! ### The batch between two items -/

/-- What the loop keeps: the two vectors have one length, and there is no page of pid 0. -/
structure Batch (r : Optimizer × ℕ) : Prop where
  length_eq : r.1.sampleCounts.length = r.1.hotPages.length
  nonempty : r.2 = 0 → r.1.hotPages = []

theorem handOver_empty (config : HmdConfig) (machine : Machine) (pmu : MigrationState.PmuState)
    (pid : ℕ) (s : Optimizer) : (handOver config machine pmu pid s).hotPages = [] ∧
      (handOver config machine pmu pid s).sampleCounts = [] := by
  unfold handOver
  split <;> exact ⟨rfl, rfl⟩

theorem entries_addItem (horder : pageShift ≤ config.granularityOrder) {item : AchashItem}
    {s : Optimizer} (hlength : s.sampleCounts.length = s.hotPages.length) :
    (handed (addItem config item s, item.pid)).entries =
      (handed (s, item.pid)).entries ++ unfiltered config s.arfilter item := by
  have hzip : ∀ pages : List ℕ, pages.zip (pages.map fun _ => (item.count : ℤ)) =
      pages.map fun page => (page, (item.count : ℤ)) := by
    intro pages
    induction pages with
    | nil => rfl
    | cons page pages ih => rw [List.map_cons, List.zip_cons_cons, ih, List.map_cons]
  unfold handed Handed.entries addItem
  dsimp only
  rw [List.zip_append hlength.symm, List.map_append, hzip, List.map_map, pages_eq horder]
  rfl

theorem length_addItem (config : HmdConfig) (item : AchashItem) {s : Optimizer}
    (hlength : s.sampleCounts.length = s.hotPages.length) :
    (addItem config item s).sampleCounts.length = (addItem config item s).hotPages.length ∧
      (addItem config item s).hotPages.length ≤ s.hotPages.length + 2 ^ config.npgShift := by
  unfold addItem
  dsimp only
  simp only [List.length_append, List.length_map, hlength, true_and]
  refine Nat.add_le_add_left ((List.length_filter_le _ _).trans ?_) _
  rw [HmdConfig.pages, List.length_map, List.length_range]

/-- **One item.** The pages behind the call that it makes are those collected before, if it
makes none, and the wanted ones of the item. -/
theorem step_batch (horder : pageShift ≤ config.granularityOrder) {item : AchashItem}
    (hpid : item.pid ≠ 0) {r : Optimizer × ℕ} (h : Batch r)
    (hend : (step config machine pmu r item).1.ended = false) :
    Batch (step config machine pmu r item) ∧
      (flushCall item r).flatMap Handed.entries ++
          (handed (step config machine pmu r item)).entries =
        (handed r).entries ++ unfiltered config (flush config machine pmu item r).arfilter item ∧
      (step config machine pmu r item).1.hotPages.length ≤
        r.1.hotPages.length + 2 ^ config.npgShift := by
  unfold step at hend ⊢
  split at hend
  · next hended => exact absurd hend (by simp [hended])
  next hended =>
  rw [if_neg hended]
  dsimp only at hend ⊢
  split at hend
  · next hflush => exact absurd hend (by simp [hflush])
  next hflush =>
  rw [if_neg hflush]
  simp only [Bool.not_eq_true] at hended
  unfold flush at hflush ⊢
  by_cases hcall : item.pid ≠ r.2 ∧ r.2 ≠ 0
  · -- the batch is handed over, and the next one starts
    obtain ⟨hpages, hcounts⟩ := handOver_empty config machine pmu r.2 r.1
    have hlength : (handOver config machine pmu r.2 r.1).sampleCounts.length =
        (handOver config machine pmu r.2 r.1).hotPages.length := by rw [hpages, hcounts]; rfl
    obtain ⟨hadd, hle⟩ := length_addItem config item hlength
    rw [if_pos hcall, flushCall, if_pos ⟨hended, hcall⟩]
    refine ⟨⟨hadd, fun h0 => absurd h0 hpid⟩, ?_, ?_⟩
    · rw [entries_addItem horder hlength, List.flatMap_singleton]
      simp [Handed.entries, handed, hpages]
    · rw [hpages, List.length_nil] at hle
      exact hle.trans (Nat.add_le_add_right (Nat.zero_le _) _)
  · -- the item is of the same process, or the first one
    obtain ⟨hadd, hle⟩ := length_addItem config item h.length_eq
    rw [if_neg hcall, flushCall, if_neg fun hc => hcall hc.2]
    refine ⟨⟨hadd, fun h0 => absurd h0 hpid⟩, ?_, hle⟩
    have hsame : (handed (r.1, item.pid)).entries = (handed r).entries := by
      by_cases heq : item.pid = r.2
      · rw [heq]
      · have hzero : r.2 = 0 := not_not.mp fun h0 => hcall ⟨heq, h0⟩
        simp [Handed.entries, handed, h.nonempty hzero]
    rw [entries_addItem horder h.length_eq, hsame]
    rfl

theorem itemCalls_of_ended (config : HmdConfig) (machine : Machine)
    (pmu : MigrationState.PmuState) {r : Optimizer × ℕ} (h : r.1.ended = true)
    (items : List AchashItem) : itemCalls config machine pmu items r = [] ∧
      (items.foldl (step config machine pmu) r).1.ended = true := by
  induction items with
  | nil => exact ⟨if_pos h, h⟩
  | cons item items ih =>
      have hstep : step config machine pmu r item = r := by rw [step, if_pos h]
      have hflush : flushCall item r = [] := if_neg (by simp [h])
      rw [itemCalls, List.foldl_cons, hstep, hflush]
      exact ih

theorem flushCall_cases (item : AchashItem) (r : Optimizer × ℕ) :
    flushCall item r = [] ∨ flushCall item r = [handed r] := by
  unfold flushCall
  split
  · exact Or.inr rfl
  · exact Or.inl rfl

/-! ### All items -/

/-- What a list of calls is to be: the wanted pages behind those of the batch, up to where
the process ended, in calls that fit into the arrays. -/
structure Grouped (limit : ℕ) (calls : List Handed) (pages : List (ℕ × ℕ × ℤ)) (ended : Bool) :
    Prop where
  isPrefix : calls.flatMap Handed.entries <+: pages
  complete : ended = false → calls.flatMap Handed.entries = pages
  length_eq : ∀ c ∈ calls, c.sampleCounts.length = c.hotPages.length
  length_le : ∀ c ∈ calls, c.hotPages.length ≤ limit

theorem grouped_flushCall (item : AchashItem) {r : Optimizer × ℕ} (h : Batch r) {limit : ℕ}
    (hmax : r.1.hotPages.length ≤ limit) (pages : List (ℕ × ℕ × ℤ)) :
    Grouped limit (flushCall item r) ((handed r).entries ++ pages) true := by
  rcases flushCall_cases item r with heq | heq
  · rw [heq]
    exact ⟨List.nil_prefix, nofun, by simp, by simp⟩
  · rw [heq]
    refine ⟨?_, nofun, ?_, ?_⟩
    · rw [List.flatMap_singleton]
      exact List.prefix_append _ _
    · simpa [handed] using h.length_eq
    · simpa [handed] using hmax

/-- **All items** from some state on. -/
theorem itemCalls_grouped (machine : Machine) (pmu : MigrationState.PmuState)
    (horder : pageShift ≤ config.granularityOrder) {limit : ℕ}
    {items : List AchashItem} (hpid : ∀ item ∈ items, item.pid ≠ 0) {r : Optimizer × ℕ}
    (h : Batch r) (hmax : r.1.hotPages.length + items.length * 2 ^ config.npgShift ≤ limit) :
    Grouped limit (itemCalls config machine pmu items r)
      ((handed r).entries ++ wanted config machine pmu items r)
      (items.foldl (step config machine pmu) r).1.ended := by
  cases hended : r.1.ended with
  | true =>
      obtain ⟨hcalls, hend⟩ := itemCalls_of_ended config machine pmu hended items
      rw [hcalls, hend]
      exact ⟨List.nil_prefix, nofun, by simp, by simp⟩
  | false =>
  induction items generalizing r with
  | nil =>
      have hcalls : itemCalls config machine pmu [] r = [handed r] := if_neg (by simp [hended])
      rw [hcalls, wanted, List.append_nil]
      have hone : [handed r].flatMap Handed.entries = (handed r).entries :=
        List.flatMap_singleton ..
      refine ⟨hone ▸ List.prefix_refl _, fun _ => hone, ?_, ?_⟩
      · simpa [handed] using h.length_eq
      · simpa [handed] using le_of_add_le_left hmax
  | cons item items ih =>
      have hroom : r.1.hotPages.length ≤ limit := le_of_add_le_left hmax
      have hflush := grouped_flushCall item h hroom
        (wanted config machine pmu (item :: items) r)
      rw [List.foldl_cons, itemCalls]
      cases hend : (step config machine pmu r item).1.ended with
      | true =>
          obtain ⟨hcalls, hlast⟩ := itemCalls_of_ended config machine pmu hend items
          rw [hcalls, hlast, List.append_nil]
          exact hflush
      | false =>
          obtain ⟨hbatch, hentries, hle⟩ :=
            step_batch horder (hpid item List.mem_cons_self) h hend
          have hrest := ih (fun i hi => hpid i (List.mem_cons_of_mem _ hi)) hbatch (by
            rw [List.length_cons, Nat.add_one_mul] at hmax
            omega) hend
          have hsplit : (handed r).entries ++ wanted config machine pmu (item :: items) r =
              (flushCall item r).flatMap Handed.entries ++
                ((handed (step config machine pmu r item)).entries ++
                  wanted config machine pmu items (step config machine pmu r item)) := by
            rw [wanted, ← List.append_assoc, ← hentries, List.append_assoc]
          refine ⟨?_, fun hrun => ?_, fun c hc => ?_, fun c hc => ?_⟩
          · rw [List.flatMap_append, hsplit]
            exact (List.prefix_append_right_inj _).mpr hrest.isPrefix
          · rw [List.flatMap_append, hsplit, hrest.complete hrun]
          · exact (List.mem_append.mp hc).elim (hflush.length_eq c) (hrest.length_eq c)
          · exact (List.mem_append.mp hc).elim (hflush.length_le c) (hrest.length_le c)

/-! ### The calls of the model -/

/-- A call as the model records it. -/
def Handed.args (c : Handed) : Int32 × List ℕ := (Int32.ofNat c.pid, c.hotPages)

def Call.args (c : Call) : Int32 × List ℕ := (c.pid, c.hotPages)

theorem calls_handOver (config : HmdConfig) (machine : Machine) (pmu : MigrationState.PmuState)
    (r : Optimizer × ℕ) : (handOver config machine pmu r.2 r.1).calls.map Call.args =
      r.1.calls.map Call.args ++ [(handed r).args] := by
  unfold handOver
  split <;> rw [List.map_append] <;> rfl

theorem calls_step (config : HmdConfig) (machine : Machine) (pmu : MigrationState.PmuState)
    (item : AchashItem) (r : Optimizer × ℕ) :
    (step config machine pmu r item).1.calls.map Call.args =
      r.1.calls.map Call.args ++ (flushCall item r).map Handed.args := by
  cases hended : r.1.ended with
  | true =>
      have hflush : flushCall item r = [] := if_neg (by simp [hended])
      rw [step, if_pos hended, hflush, List.map_nil, List.append_nil]
  | false =>
      have hcalls : (step config machine pmu r item).1.calls =
          (flush config machine pmu item r).calls := by
        rw [step, if_neg (by simp [hended])]
        dsimp only
        split <;> rfl
      rw [hcalls, flush, flushCall]
      by_cases hcall : item.pid ≠ r.2 ∧ r.2 ≠ 0
      · rw [if_pos hcall, if_pos ⟨hended, hcall⟩]
        exact calls_handOver config machine pmu r
      · rw [if_neg hcall, if_neg fun hc => hcall hc.2, List.map_nil, List.append_nil]

theorem calls_foldl (config : HmdConfig) (machine : Machine) (pmu : MigrationState.PmuState)
    (items : List AchashItem) (r : Optimizer × ℕ) :
    let r' := items.foldl (step config machine pmu) r
    (if r'.1.ended then r'.1 else handOver config machine pmu r'.2 r'.1).calls.map Call.args =
      r.1.calls.map Call.args ++ (itemCalls config machine pmu items r).map Handed.args := by
  induction items generalizing r with
  | nil =>
      dsimp only [List.foldl_nil]
      rw [itemCalls]
      split
      · rw [List.map_nil, List.append_nil]
      · exact calls_handOver config machine pmu r
  | cons item items ih =>
      have hrest := ih (step config machine pmu r item)
      rw [calls_step] at hrest
      rw [itemCalls, List.map_append, ← List.append_assoc]
      exact hrest

end Interval

/-- Every interval in every state of the optimizer and of the machine, for items of
processes other than 0 and every granularity and number of pages that `parse_options`
accepts: the calls of `migrate_pages` together hold exactly the pages of the items that the
filter does not know, in order, each with the pid and the count of its item (up to where the
process ends, if it does); a call fits into the arrays of `MigrationState`, and the number
of pages of an item into an `unsigned int`. -/
theorem migratePages_grouped (config : HmdConfig) (machine : Machine) (interval : Interval)
    (s : Optimizer) (horder : pageShift ≤ config.granularityOrder) (haccepted : config.Accepted)
    (hpid : ∀ item ∈ interval.items, item.pid ≠ 0) :
    let calls := migrateCalls config machine interval.pmu interval.items s
    let after := migratePages config machine interval.pmu interval.items s
    after.calls.map Call.args = s.calls.map Call.args ++ calls.map Handed.args ∧
      Grouped config.movePagesMax calls
        (wanted config machine interval.pmu (hotItems config interval.items) (loopStart s))
        after.ended ∧
      uint (1 <<< config.npgShift) = 2 ^ config.npgShift := by
  intro calls after
  have hitems : ∀ item ∈ hotItems config interval.items, item.pid ≠ 0 := fun item hi =>
    hpid item (List.mem_of_mem_take hi)
  have hlength : (hotItems config interval.items).length * 2 ^ config.npgShift ≤
      config.movePagesMax := by
    calc (hotItems config interval.items).length * 2 ^ config.npgShift
        ≤ config.movePagesMax >>> config.npgShift * 2 ^ config.npgShift :=
          Nat.mul_le_mul_right _ (List.length_take_le _ _)
      _ ≤ config.movePagesMax := by
          rw [Nat.shiftRight_eq_div_pow]
          exact Nat.div_mul_le_self _ _
  have hstart : (loopStart s).1.hotPages.length +
      (hotItems config interval.items).length * 2 ^ config.npgShift ≤ config.movePagesMax := by
    rw [loopStart, List.length_nil, Nat.zero_add]
    exact hlength
  have hgrouped := itemCalls_grouped machine interval.pmu horder hitems
    (r := loopStart s) ⟨rfl, fun _ => rfl⟩ hstart
  refine ⟨?_, ?_, ?_⟩
  · unfold after calls migratePages migrateCalls
    dsimp only
    split
    · rw [List.map_nil, List.append_nil]
    · exact calls_foldl config machine interval.pmu _ (loopStart s)
  · unfold after calls migratePages migrateCalls
    dsimp only
    split
    · next hnone =>
      refine ⟨List.nil_prefix, fun hrunning => ?_, by simp, by simp⟩
      rw [hnone.resolve_right (by simp [hrunning])]
      rfl
    · refine { hgrouped with complete := fun hend => hgrouped.complete ?_ }
      by_contra hended
      rw [Bool.not_eq_false, loopStart] at hended
      rw [if_pos hended, hended] at hend
      cases hend
  · have hshift : config.npgShift < 32 := by
      have := haccepted.order_lt
      unfold HmdConfig.npgShift
      split <;> omega
    rw [Nat.shiftLeft_eq, Nat.one_mul]
    exact Nat.mod_eq_of_lt (Nat.pow_lt_pow_right (by decide) hshift)

/-- Pages of processes 7, 8 and 7: three calls. -/
theorem migratePages_grouped_three :
    (migratePages (pageConfig []) busyMachine ⟨0, fun _ => 0⟩
        [⟨0x1f, 7, 0, 20⟩, ⟨0x1f, 8, 0, 10⟩, ⟨0x20, 7, 0, 5⟩]
        (afterReset (pageConfig []) .init)).calls.map Call.args =
      [(7, [0x1f000]), (8, [0x1f000]), (7, [0x20000])] := by
  have h := (migratePages_grouped (pageConfig []) busyMachine
    ⟨[⟨0x1f, 7, 0, 20⟩, ⟨0x1f, 8, 0, 10⟩, ⟨0x20, 7, 0, 5⟩], ⟨0, fun _ => 0⟩⟩
    (afterReset (pageConfig []) .init) (by decide)
    ⟨by decide, by decide, by unfold intOfUlong; decide⟩ (by decide)).1
  exact h.trans (by decide +kernel)

end PmuRefs

end MemoryOptimizer
