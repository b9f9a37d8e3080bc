import MemoryOptimizer.AddrSequence.Reference

/-!
# The hotness counters

`young_bytes` and `top_bytes` are kept up to date while a walk counts addresses.
At the end of a walk they are what a recount over the stored list gives.

* `Located` — what holds when the first walk is over, whatever locations the
  pages got.
* `Counting` — the counters in the middle of a later walk, and a bound on the
  counts: an address this walk has not reported was reported by earlier ones only.
* `counters_eq` — the counters after a later walk.
-/

namespace MemoryOptimizer.AddrSequence

/-- The location stored for an item. -/
def locationAt (s : AddrSequence) (x : Stored) : Location := (itemAt s.bufs x.slot).location

/-- The bytes of the stored pages at a location that have a property. -/
def bytesAt (s : AddrSequence) (l : Location) (p : Stored → Prop) [DecidablePred p] : ℕ :=
  s.pagesize * (allStored s).countP fun x => locationAt s x = l ∧ p x

/-! ### The append period -/

/-- A call that gives pages their locations. -/
inductive LocateCall where
  | prepareUpdate
  | updateNodeid (addr : ℕ) (nid : ℤ) (location : Location)

def applyLocate (s : AddrSequence) : LocateCall → AddrSequence
  | .prepareUpdate => s.prepareUpdate
  | .updateNodeid addr nid location => (s.updateNodeid addr nid location).1

/-- The first walk, then the locations of its pages. -/
def appendPeriod (s : AddrSequence) (shift : ℕ) (first : List (ℕ × ℕ))
    (locate : List LocateCall) : AddrSequence :=
  locate.foldl applyLocate ((s.clear.setPageshift shift).walk first)

/-- What the first walk leaves: every count is 0 or 1. -/
structure Located (s : AddrSequence) : Prop where
  layout : Layout s
  nrWalks_eq : s.nrWalks = 1
  payload_le : ∀ x ∈ allStored s, payloadAt s x ≤ 1

theorem Located.prepareUpdate {s : AddrSequence} (h : Located s) : Located s.prepareUpdate :=
  ⟨⟨⟨h.layout.used, h.layout.slots_nodup, h.layout.ascending, h.layout.addrSize_eq,
    h.layout.pagesize_eq, h.layout.bufUsedCount_le, h.layout.bufUsedCount_eq⟩, h.layout.size_pos⟩,
    h.nrWalks_eq, h.payload_le⟩

/-- Writing node and location changes neither addresses nor counts, wherever the
iterator stands. -/
theorem Located.doWalkUpdateNid {s : AddrSequence} (h : Located s) (iter : WalkIterator) (nid : ℤ)
    (location : Location) : Located (s.doWalkUpdateNid iter nid location) := by
  have hitem (slot : DeltaPtr) :
      (itemAt (s.doWalkUpdateNid iter nid location).bufs slot).delta = (itemAt s.bufs slot).delta ∧
        (itemAt (s.doWalkUpdateNid iter nid location).bufs slot).payload =
          (itemAt s.bufs slot).payload := by
    by_cases hslot : slot = ⟨iter.curDelta.buf, iter.curDelta.off + iter.deltaIndex⟩
    · rw [hslot]
      simp [AddrSequence.doWalkUpdateNid, updateAddrLocationCount, setItem, itemAt, item]
    · have hother : itemAt (s.doWalkUpdateNid iter nid location).bufs slot = itemAt s.bufs slot :=
        setItem_itemAt_of_ne s _ hslot
      rw [hother]
      exact ⟨rfl, rfl⟩
  have same : SameAddrs s (s.doWalkUpdateNid iter nid location) :=
    ⟨rfl, rfl, fun slot => (hitem slot).1⟩
  refine ⟨same.layout h.layout rfl rfl rfl rfl, h.nrWalks_eq, fun x hx => ?_⟩
  rw [same.allStored_eq] at hx
  exact (hitem x.slot).2.trans_le (h.payload_le x hx)

theorem Located.updateNodeid {s : AddrSequence} (h : Located s) (addr : ℕ) (nid : ℤ)
    (location : Location) : Located (s.updateNodeid addr nid location).1 := by
  unfold AddrSequence.updateNodeid
  split
  · exact h
  · refine findLoop_rule (fun s iter h => ?_) (fun s h => h.doWalkUpdateNid _ nid location) _ h
    exact ⟨⟨⟨h.layout.used, h.layout.slots_nodup, h.layout.ascending, h.layout.addrSize_eq,
      h.layout.pagesize_eq, h.layout.bufUsedCount_le, h.layout.bufUsedCount_eq⟩,
      h.layout.size_pos⟩, h.nrWalks_eq, h.payload_le⟩

theorem Located.foldl {s : AddrSequence} (h : Located s) (locate : List LocateCall) :
    Located (locate.foldl applyLocate s) := by
  induction locate generalizing s with
  | nil => exact h
  | cons call locate ih =>
      cases call with
      | prepareUpdate => exact ih h.prepareUpdate
      | updateNodeid addr nid location => exact ih (h.updateNodeid addr nid location)

theorem located_appendPeriod (s : AddrSequence) (shift : ℕ) {first : List (ℕ × ℕ)}
    (haddr : ∀ call ∈ first, call.1 < 2 ^ 64) (hn : ∀ call ∈ first, call.2 ≤ 1)
    (locate : List LocateCall) : Located (s.appendPeriod shift first locate) := by
  obtain ⟨lay, hwalks, hcont⟩ := walk_first s shift haddr hn
  refine Located.foldl ⟨lay, hwalks, fun x hx => ?_⟩ locate
  have hmem : (x.addr, payloadAt ((s.clear.setPageshift shift).walk first) x) ∈
      rising [] first := by
    rw [← hcont]
    exact List.mem_map_of_mem hx
  exact hn _ (rising_subset [] first hmem)

/-! ### A later walk -/

/-- Recounting when one entry of a list changes. -/
theorem countP_add_of_eq {α : Type*} [DecidableEq α] {l : List α} (hnodup : l.Nodup) {x : α}
    (hx : x ∈ l) {p q : α → Bool} (hother : ∀ y ∈ l, y ≠ x → q y = p y) :
    l.countP q + (if p x then 1 else 0) = l.countP p + if q x then 1 else 0 := by
  have hperm := List.perm_cons_erase hx
  have hrest : (l.erase x).countP q = (l.erase x).countP p := by
    refine List.countP_congr fun y hy => ?_
    obtain ⟨hne, hmem⟩ := hnodup.mem_erase_iff.mp hy
    rw [hother y hmem hne]
  rw [hperm.countP_eq, hperm.countP_eq, List.countP_cons, List.countP_cons, hrest]
  omega

/-- The state in the middle of walk `k`, after the calls `done` of it. -/
structure Counting (k : ℕ) (done : List (ℕ × ℕ)) (s : AddrSequence) : Prop where
  layout : Layout s
  nrWalks_eq : s.nrWalks = k
  payload_le : ∀ x ∈ allStored s, payloadAt s x + 1 ≤ k + if (x.addr, 1) ∈ done then 1 else 0
  youngBytes_eq : ∀ l, s.youngBytes l = bytesAt s l fun x => (x.addr, 1) ∈ done
  topBytes_eq : ∀ l, s.topBytes l = bytesAt s l fun x => k ≤ payloadAt s x

/-- A new walk starts with empty counters, which is what they should be. -/
theorem Counting.rewind {k : ℕ} {s : AddrSequence} (lay : Layout s) (hwalks : s.nrWalks = k)
    (hpayload : ∀ x ∈ allStored s, payloadAt s x ≤ k) : Counting (k + 1) [] s.rewind := by
  refine ⟨rewind_layout lay, congrArg (· + 1) hwalks, fun x hx => ?_, fun l => ?_, fun l => ?_⟩
  · have hle : payloadAt s.rewind x ≤ k := hpayload x hx
    simpa using hle
  · have hzero : ∀ x ∈ allStored s.rewind,
        ¬ decide (locationAt s.rewind x = l ∧ (x.addr, 1) ∈ ([] : List (ℕ × ℕ))) = true := by
      simp
    rw [bytesAt, List.countP_eq_zero.mpr hzero]
    rfl
  · have hzero : ∀ x ∈ allStored s.rewind,
        ¬ decide (locationAt s.rewind x = l ∧ k + 1 ≤ payloadAt s.rewind x) = true := by
      intro x hx
      have hle : payloadAt s.rewind x ≤ k := hpayload x hx
      simp only [decide_eq_true_eq, not_and, not_le]
      omega
    rw [bytesAt, List.countP_eq_zero.mpr hzero]
    rfl

theorem Counting.withFindIter {k : ℕ} {done : List (ℕ × ℕ)} {s : AddrSequence}
    (h : Counting k done s) {iter : WalkIterator} (lay : Layout { s with findIter := iter }) :
    Counting k done { s with findIter := iter } :=
  ⟨lay, h.nrWalks_eq, h.payload_le, h.youngBytes_eq, h.topBytes_eq⟩

/-- A call that reports no stored page as accessed. -/
theorem Counting.append {k : ℕ} {done : List (ℕ × ℕ)} {s : AddrSequence} (h : Counting k done s)
    {call : ℕ × ℕ} (hcall : ∀ x ∈ allStored s, call ≠ (x.addr, 1)) :
    Counting k (done ++ [call]) s := by
  have hmem : ∀ x ∈ allStored s, (x.addr, 1) ∈ done ++ [call] ↔ (x.addr, 1) ∈ done := by
    intro x hx
    rw [List.mem_append, List.mem_singleton]
    exact or_iff_left (hcall x hx).symm
  refine ⟨h.layout, h.nrWalks_eq, fun x hx => ?_, fun l => ?_, h.topBytes_eq⟩
  · simp only [hmem x hx]
    exact h.payload_le x hx
  · rw [h.youngBytes_eq, bytesAt, bytesAt]
    congr 1
    refine List.countP_congr fun x hx => ?_
    simp only [decide_eq_true_eq, hmem x hx]

theorem nodup_allStored {s : AddrSequence} (lay : Layout s) : (allStored s).Nodup :=
  lay.slots_nodup.of_map Stored.slot

/-- What one page adds to the bytes of its location. -/
theorem bytesAt_add {s s' : AddrSequence} (lay : Layout s) (hpagesize : s'.pagesize = s.pagesize)
    (hall : allStored s' = allStored s) (hloc : ∀ y, locationAt s' y = locationAt s y) {x : Stored}
    (hx : x ∈ allStored s) {p q : Stored → Prop} [DecidablePred p] [DecidablePred q]
    (hother : ∀ y ∈ allStored s, y ≠ x → (q y ↔ p y)) (hp : ¬ p x) (l : Location) :
    bytesAt s' l q = bytesAt s l p + if locationAt s x = l ∧ q x then s.pagesize else 0 := by
  have hcount := countP_add_of_eq (nodup_allStored lay) hx
    (p := fun y => decide (locationAt s y = l ∧ p y))
    (q := fun y => decide (locationAt s y = l ∧ q y)) fun y hy hne => by simp [hother y hy hne]
  simp only [hp, and_false, decide_false, Bool.false_eq_true, if_false, Nat.add_zero,
    decide_eq_true_eq] at hcount
  simp only [bytesAt, hall, hloc, hpagesize, hcount, Nat.mul_add]
  split <;> simp

/-- Adding to the counter of one location. -/
theorem update_add_eq (f : Location → ℕ) (loc : Location) (n : ℕ) {p : Prop} [Decidable p]
    (hp : p) (l : Location) :
    Function.update f loc (f loc + n) l = f l + if loc = l ∧ p then n else 0 := by
  by_cases hl : loc = l
  · rw [hl, Function.update_self, if_pos ⟨rfl, hp⟩]
  · rw [Function.update_of_ne (Ne.symm hl), if_neg fun h => hl h.1, Nat.add_zero]

/-- One call of walk `k`, for an address it has not reported before. -/
theorem Counting.updateAddr {k : ℕ} {done : List (ℕ × ℕ)} {s : AddrSequence} (h : Counting k done s)
    (hk : k < 256) {b addr n : ℕ} (cur : Cursor s b) (hb : b ≤ addr) (hn : n ≤ 1)
    (hnew : (addr, 1) ∉ done) :
    Counting k (done ++ [(addr, n)]) (s.updateAddr addr n true).1 := by
  obtain ⟨iter, lay', cur', hcase⟩ := findLoop_cursor h.layout cur hb
    (fun s => s.doWalkUpdatePayload s.findIter n true)
  unfold AddrSequence.updateAddr
  rcases hcase with ⟨x, rest, hrem, hx, rfl, hloop⟩ | ⟨hne, hloop⟩
  · rw [hloop]
    rcases Nat.eq_zero_or_pos n with rfl | hpos
    · refine (h.withFindIter lay').append fun y hy heq => ?_
      exact Nat.zero_ne_one (congrArg Prod.snd heq)
    · obtain rfl : n = 1 := le_antisymm hn hpos
      have hrem' : remaining { s with findIter := iter } iter = x :: rest := hrem
      obtain ⟨same, hlay, -⟩ := doWalkUpdatePayload_spec lay' cur'.ok 1 hrem' hx
      obtain ⟨-, hwalks, hpagesize⟩ :=
        doWalkUpdatePayload_findIter { s with findIter := iter } iter 1 true
      obtain ⟨hitem, hyoung, htop⟩ :=
        doWalkUpdatePayload_counted cur'.ok Nat.one_ne_zero hrem'
      have hall := same.allStored_eq
      have hle := h.payload_le x hx
      rw [if_neg hnew] at hle
      generalize AddrSequence.doWalkUpdatePayload { s with findIter := iter } iter 1 true = s' at *
      have hpayload : (counted (itemAt s.bufs x.slot)).payload = payloadAt s x + 1 :=
        Nat.mod_eq_of_lt (by change payloadAt s x + 1 < 2 ^ 8; omega)
      have hself : payloadAt s' x = payloadAt s x + 1 := by
        rw [← hpayload, payloadAt, hitem, if_pos rfl]
      have hother : ∀ y ∈ allStored s, y ≠ x → payloadAt s' y = payloadAt s y := by
        intro y hy hne
        have hslot : y.slot ≠ x.slot := fun heq =>
          hne (List.inj_on_of_nodup_map h.layout.slots_nodup hy hx heq)
        rw [payloadAt, hitem, if_neg hslot]
        rfl
      have hloc : ∀ y, locationAt s' y = locationAt s y := by
        intro y
        rw [locationAt, hitem]
        split
        · next heq => rw [locationAt, heq]; rfl
        · rfl
      have hdone : ∀ y ∈ allStored s, y ≠ x →
          ((y.addr, 1) ∈ done ++ [(x.addr, 1)] ↔ (y.addr, 1) ∈ done) := by
        intro y hy hne
        rw [List.mem_append, List.mem_singleton]
        refine or_iff_left fun heq => hne (h.layout.addr_inj hy hx ?_)
        exact congrArg Prod.fst heq
      have hmem : (x.addr, 1) ∈ done ++ [(x.addr, 1)] := List.mem_append_right _ (by simp)
      refine ⟨hlay, hwalks.trans h.nrWalks_eq, fun y hy => ?_, fun l => ?_, fun l => ?_⟩
      · rw [hall] at hy
        rcases eq_or_ne y x with rfl | hne
        · rw [hself, if_pos hmem]
          omega
        · rw [hother y hy hne]
          simp only [hdone y hy hne]
          exact h.payload_le y hy
      · have hsum := h.youngBytes_eq l
        rw [bytesAt_add h.layout hpagesize hall hloc hx hdone hnew, ← hsum, hyoung,
          if_pos (by rw [hpayload]; omega)]
        exact update_add_eq s.youngBytes (locationAt s x) s.pagesize hmem l
      · have hsum := h.topBytes_eq l
        rw [bytesAt_add h.layout hpagesize hall hloc hx (fun y hy hne => by rw [hother y hy hne])
          (by omega), ← hsum, htop, hpayload]
        have hreached : k ≤ payloadAt s' x ↔ payloadAt s x + 1 ≥ s.nrWalks := by
          rw [hself, h.nrWalks_eq]
        by_cases hge : payloadAt s x + 1 ≥ s.nrWalks
        · rw [if_pos hge]
          exact update_add_eq s.topBytes (locationAt s x) s.pagesize (hreached.mpr hge) l
        · rw [if_neg hge, if_neg fun hand => hge (hreached.mp hand.2)]
          rfl
  · rw [hloop]
    exact (h.withFindIter lay').append fun y hy heq => hne y hy (congrArg Prod.fst heq).symm

/-- The calls of walk `k`. -/
theorem Counting.foldl {k : ℕ} {done : List (ℕ × ℕ)} {s : AddrSequence} (h : Counting k done s)
    (hk : k < 256) (hlater : 2 ≤ k) {b : ℕ} (cur : Cursor s b) {calls : List (ℕ × ℕ)}
    (hb : ∀ call ∈ calls, b ≤ call.1) (hdone : ∀ call ∈ done, ∀ c ∈ calls, call.1 < c.1)
    (hn : ∀ call ∈ calls, call.2 ≤ 1) (hasc : calls.Pairwise fun c d => c.1 < d.1) :
    Counting k (done ++ calls)
      (calls.foldl (fun s call => (s.incPayload Alloc.ok call.1 call.2).1) s) := by
  induction calls generalizing s b done with
  | nil => rwa [List.append_nil]
  | cons call calls ih =>
      obtain ⟨hlt, hasc⟩ := List.pairwise_cons.mp hasc
      have hinc : s.incPayload Alloc.ok call.1 call.2 = s.updateAddr call.1 call.2 true := by
        simp [incPayload, inAppendPeriod, h.nrWalks_eq, Nat.not_lt.mpr hlater]
      have hnew : (call.1, 1) ∉ done := fun hmem =>
        lt_irrefl _ (hdone _ hmem call (List.mem_cons_self ..))
      have hstep := h.updateAddr hk cur (hb call (List.mem_cons_self ..))
        (hn call (List.mem_cons_self ..)) hnew
      obtain ⟨-, cur', -⟩ := updateAddr_spec h.layout cur (hb call (List.mem_cons_self ..)) call.2
      rw [List.foldl_cons, hinc, List.append_cons]
      refine ih hstep cur' (fun c hc => (hlt c hc).le) (fun d hd c hc => ?_)
        (fun c hc => hn c (List.mem_cons_of_mem _ hc)) hasc
      rcases List.mem_append.mp hd with hd | hd
      · exact hdone d hd c (List.mem_cons_of_mem _ hc)
      · rw [List.mem_singleton.mp hd]
        exact hlt c hc

/-- Walk `k + 1`, after `k` walks. -/
theorem Counting.walk {k : ℕ} {s : AddrSequence} (lay : Layout s) (hwalks : s.nrWalks = k)
    (hpayload : ∀ x ∈ allStored s, payloadAt s x ≤ k) (hpos : 1 ≤ k) (hk : k + 1 < 256)
    {calls : List (ℕ × ℕ)} (hn : ∀ call ∈ calls, call.2 ≤ 1)
    (hasc : calls.Pairwise fun c d => c.1 < d.1) : Counting (k + 1) calls (s.walk calls) := by
  have cur : Cursor s.rewind 0 := by
    obtain ⟨⟨h1, h2, h3, h4, h5⟩, hpassed⟩ := cursor_resetIterator lay.size_pos 0
    exact ⟨⟨h1, h2, h3, h4, h5⟩, hpassed⟩
  exact (Counting.rewind lay hwalks hpayload).foldl hk (Nat.succ_le_succ hpos) cur
    (fun _ _ => Nat.zero_le _) (fun _ hd => absurd hd List.not_mem_nil) hn hasc

/-- What a walk leaves for the next one. -/
theorem Counting.payload_le_walks {k : ℕ} {done : List (ℕ × ℕ)} {s : AddrSequence}
    (h : Counting k done s) {x : Stored} (hx : x ∈ allStored s) : payloadAt s x ≤ k := by
  have hle := h.payload_le x hx
  split at hle <;> omega

/-- After the first walk and the later ones, the counters are what a recount gives. -/
theorem counting_foldl_walk {s : AddrSequence} {k : ℕ} (lay : Layout s) (hwalks : s.nrWalks = k)
    (hpayload : ∀ x ∈ allStored s, payloadAt s x ≤ k) (hpos : 1 ≤ k)
    {later : List (List (ℕ × ℕ))} {last : List (ℕ × ℕ)} (hk : k + later.length + 1 < 256)
    (hn : ∀ calls ∈ later ++ [last], ∀ call ∈ calls, call.2 ≤ 1)
    (hasc : ∀ calls ∈ later ++ [last], calls.Pairwise fun c d => c.1 < d.1) :
    Counting (k + later.length + 1) last ((later ++ [last]).foldl AddrSequence.walk s) := by
  induction later generalizing s k with
  | nil =>
      exact Counting.walk lay hwalks hpayload hpos hk (hn last (by simp)) (hasc last (by simp))
  | cons calls later ih =>
      rw [List.length_cons] at hk ⊢
      have hstep := Counting.walk lay hwalks hpayload hpos (by omega)
        (hn calls (List.mem_cons_self ..)) (hasc calls (List.mem_cons_self ..))
      have hrest := ih hstep.layout hstep.nrWalks_eq (fun x hx => hstep.payload_le_walks hx)
        (by omega) (by omega) (fun c hc => hn c (List.mem_cons_of_mem _ hc))
        (fun c hc => hasc c (List.mem_cons_of_mem _ hc))
      rwa [show k + (later.length + 1) + 1 = k + 1 + later.length + 1 by omega]

/-- At the end of a later walk the counters are the bytes of the stored pages that this
walk reported as accessed, and of those that every walk did. -/
theorem counters_eq (s : AddrSequence) (shift : ℕ) (first : List (ℕ × ℕ))
    (locate : List LocateCall) (later : List (List (ℕ × ℕ))) (last : List (ℕ × ℕ))
    (hwalks : later.length + 2 < 256) (hcalls : Calls (first :: (later ++ [last])))
    {t : AddrSequence}
    (ht : (later ++ [last]).foldl walk (s.appendPeriod shift first locate) = t) (l : Location) :
    t.nrWalks = later.length + 2 ∧
      t.youngBytes l = bytesAt t l (fun x => (x.addr, 1) ∈ last) ∧
      t.topBytes l = bytesAt t l (fun x => later.length + 2 ≤ payloadAt t x) := by
  obtain ⟨lay, hwalks₁, hpayload⟩ := located_appendPeriod s shift
    (hcalls.addr_lt first (List.mem_cons_self ..)) (hcalls.n_le first (List.mem_cons_self ..))
    locate
  have hcount := counting_foldl_walk lay hwalks₁ hpayload le_rfl (by omega)
    (fun calls h => hcalls.n_le calls (List.mem_cons_of_mem _ h)) hcalls.ascending
  rw [ht, show 1 + later.length + 1 = later.length + 2 by omega] at hcount
  exact ⟨hcount.nrWalks_eq, hcount.youngBytes_eq l, hcount.topBytes_eq l⟩

/-- Two pages and three walks: the first page is reported by all of them, the second one,
in PMEM, by the last. -/
theorem counters_eq_twoPages :
    let t := [[(0x1000, 1)], [(0x1000, 1), (0x2000, 1)]].foldl walk
      (init.appendPeriod 12 [(0x1000, 1), (0x2000, 0)]
        [.prepareUpdate, .updateNodeid 0x2000 1 .pmem])
    t.topBytes .dram = 4096 ∧ t.topBytes .pmem = 0 ∧ t.youngBytes .pmem = 4096 := by
  have hcounters := counters_eq init 12 [(0x1000, 1), (0x2000, 0)]
    [.prepareUpdate, .updateNodeid 0x2000 1 .pmem] [[(0x1000, 1)]] [(0x1000, 1), (0x2000, 1)]
    (by decide) ⟨by decide, by decide, by decide⟩ rfl
  refine ⟨(hcounters .dram).2.2.trans ?_, (hcounters .pmem).2.2.trans ?_,
    (hcounters .pmem).2.1.trans ?_⟩
  · decide
  · decide
  · decide

end MemoryOptimizer.AddrSequence
