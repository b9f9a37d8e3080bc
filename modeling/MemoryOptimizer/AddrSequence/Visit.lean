import MemoryOptimizer.AddrSequence.Reference

/-!
# Rewriting while visiting

A caller of `get_next` may rewrite items of the sequence it is visiting: the addresses
stay, and the search for an address uses an iterator of its own, the find cursor.

* `InUse` — the sequences that `clear`, walks and rewriting lead to.
* `Rewritten` — one item is changed and nothing else.
* `Visit` — the state of a visit that has read some pages and has rewritten the first
  of them; `Visit.read` and `Visit.rewrite` are its two steps.
-/

namespace MemoryOptimizer.AddrSequence

/-- The stored addresses with their items. -/
def items (s : AddrSequence) : List (ℕ × DeltaPayload) :=
  (allStored s).map fun x => (x.addr, itemAt s.bufs x.slot)

/-! ### One item -/

/-- Only the item in a slot is changed, by a function that keeps its delta. -/
structure Rewritten (f : DeltaPayload → DeltaPayload) (slot : DeltaPtr) (s s' : AddrSequence) :
    Prop where
  item_eq : ∀ slot', itemAt s'.bufs slot' =
    if slot' = slot then f (itemAt s.bufs slot) else itemAt s.bufs slot'
  delta_eq : ∀ d, (f d).delta = d.delta
  addrClusters_eq : s'.addrClusters = s.addrClusters
  pageshift_eq : s'.pageshift = s.pageshift
  pagesize_eq : s'.pagesize = s.pagesize
  addrSize_eq : s'.addrSize = s.addrSize
  bufPool_eq : s'.bufPool = s.bufPool
  bufUsedCount_eq : s'.bufUsedCount = s.bufUsedCount
  nrWalks_eq : s'.nrWalks = s.nrWalks
  walkIter_eq : s'.walkIter = s.walkIter
  findIter_eq : s'.findIter = s.findIter

section Rewritten

variable {f : DeltaPayload → DeltaPayload} {slot : DeltaPtr} {s s' : AddrSequence}
  (h : Rewritten f slot s s')
include h

theorem Rewritten.sameAddrs : SameAddrs s s' := by
  refine ⟨h.addrClusters_eq, h.pageshift_eq, fun slot' => ?_⟩
  rw [h.item_eq]
  split
  · next heq => rw [h.delta_eq, heq]
  · rfl

theorem Rewritten.layout (lay : Layout s) : Layout s' :=
  h.sameAddrs.layout lay h.pagesize_eq h.addrSize_eq h.bufPool_eq h.bufUsedCount_eq

/-- Rewriting the item of a stored page, in the list of all. -/
theorem Rewritten.items_eq (lay : Layout s) {n : ℕ} {x : Stored}
    (hx : (allStored s)[n]? = some x) (hslot : slot = x.slot) :
    items s' = (items s).modify n fun p => (p.1, f p.2) := by
  refine List.ext_getElem? fun j => ?_
  rw [items, h.sameAddrs.allStored_eq, List.getElem?_map, List.getElem?_modify, items,
    List.getElem?_map]
  cases hy : (allStored s)[j]? with
  | none => rfl
  | some y =>
      obtain ⟨hj, hyget⟩ := List.getElem?_eq_some_iff.mp hy
      obtain ⟨hn, hxget⟩ := List.getElem?_eq_some_iff.mp hx
      simp only [Option.map_some, h.item_eq]
      by_cases heq : n = j
      · subst heq
        obtain rfl : x = y := Option.some_inj.mp (hx.symm.trans hy)
        simp [hslot]
      · -- two entries never share a slot
        have hne : y.slot ≠ slot := by
          intro hsame
          have hpos := List.nodup_iff_injective_getElem.mp lay.slots_nodup
          have := @hpos ⟨j, by simpa using hj⟩ ⟨n, by simpa using hn⟩
            (by simpa [hyget, hxget] using hsame.trans hslot)
          exact heq (congrArg Fin.val this).symm
        simp [hne, heq]

end Rewritten

/-- The common form of the two writes through an iterator. -/
theorem rewritten_setItem (s : AddrSequence) (iter : WalkIterator)
    {f : DeltaPayload → DeltaPayload} (hdelta : ∀ d, (f d).delta = d.delta) :
    Rewritten f ⟨iter.curDelta.buf, iter.curDelta.off + iter.deltaIndex⟩ s
      ((s.setItem iter.curDelta iter.deltaIndex
        (f (s.item iter.curDelta iter.deltaIndex))).updateAddrLocationCount iter) := by
  refine ⟨fun slot' => ?_, hdelta, rfl, rfl, rfl, rfl, rfl, rfl, rfl, rfl, rfl⟩
  split
  · next h =>
    subst h
    simp [updateAddrLocationCount, setItem, itemAt, item]
  · next h => exact setItem_itemAt_of_ne s _ h

/-- What `set_payload` does to an item. -/
def withPayload (payload : ℕ) (d : DeltaPayload) : DeltaPayload := { d with payload := payload }

/-- What `update_nodeid` does to an item. -/
def withNid (nid : ℤ) (location : Location) (d : DeltaPayload) : DeltaPayload :=
  { d with nid := nid, location := location }

/-- What `found` of a search does to the item the cursor stands on. -/
def Writes (found : AddrSequence → AddrSequence) (f : DeltaPayload → DeltaPayload) : Prop :=
  ∀ s, Rewritten f ⟨s.findIter.curDelta.buf, s.findIter.curDelta.off + s.findIter.deltaIndex⟩ s
    (found s)

theorem writes_setPayload (payload : ℕ) :
    Writes (fun s => s.doWalkUpdatePayload s.findIter payload false) (withPayload payload) :=
  fun s => rewritten_setItem s s.findIter fun _ => rfl

theorem writes_updateNid (nid : ℤ) (location : Location) :
    Writes (fun s => s.doWalkUpdateNid s.findIter nid location) (withNid nid location) :=
  fun s => rewritten_setItem s s.findIter fun _ => rfl

theorem writes_incPayload {n : ℕ} (hn : n ≠ 0) :
    Writes (fun s => s.doWalkUpdatePayload s.findIter n true) counted := by
  intro s
  have h := rewritten_setItem s s.findIter (f := counted) fun _ => rfl
  rwa [show (s.setItem s.findIter.curDelta s.findIter.deltaIndex
    (counted (s.item s.findIter.curDelta s.findIter.deltaIndex))).updateAddrLocationCount
      s.findIter = s.doWalkUpdatePayload s.findIter n true by
    simp only [doWalkUpdatePayload, if_true, if_neg hn, counted]] at h

/-! ### Sequences in use -/

/-- The sequences that `clear`, walks and the operations between them lead to. The
first walk appends, and so it is the one whose addresses are bounded. -/
inductive InUse : AddrSequence → Prop
  | clear (s : AddrSequence) (shift : ℕ) : InUse (s.clear.setPageshift shift)
  | firstWalk (s : AddrSequence) (shift : ℕ) (calls : List (ℕ × ℕ))
      (hcalls : ∀ call ∈ calls, call.1 < 2 ^ 64 ∧ call.2 ≤ 1) :
      InUse ((s.clear.setPageshift shift).walk calls)
  | walk {s : AddrSequence} (h : InUse s) (hwalks : 1 ≤ s.nrWalks) (calls : List (ℕ × ℕ)) :
      InUse (s.walk calls)
  | prepareUpdate {s : AddrSequence} (h : InUse s) : InUse s.prepareUpdate
  | getFirst {s : AddrSequence} (h : InUse s) : InUse s.getFirst.1
  | getNext {s : AddrSequence} (h : InUse s) : InUse s.getNext.1
  | updateNodeid {s : AddrSequence} (h : InUse s) (addr : ℕ) (nid : ℤ) (location : Location) :
      InUse (s.updateNodeid addr nid location).1
  | setPayload {s : AddrSequence} (h : InUse s) (addr n : ℕ) : InUse (s.setPayload addr n).1

/-- The invariant does not depend on the iterators. -/
theorem Layout.withIters {s : AddrSequence} (lay : Layout s) (walkIter findIter : WalkIterator)
    (lastClusterEnd : ℕ) :
    Layout { s with
      walkIter := walkIter, findIter := findIter, lastClusterEnd := lastClusterEnd } :=
  ⟨⟨lay.used, lay.slots_nodup, lay.ascending, lay.addrSize_eq, lay.pagesize_eq,
    lay.bufUsedCount_le, lay.bufUsedCount_eq⟩, lay.size_pos⟩

theorem layout_findLoop {found : AddrSequence → AddrSequence} {f : DeltaPayload → DeltaPayload}
    (hfound : Writes found f) (addr fuel : ℕ) {s : AddrSequence} (lay : Layout s) :
    Layout (findLoop addr found fuel s).1 ∧ (findLoop addr found fuel s).1.nrWalks = s.nrWalks :=
  findLoop_rule (P := fun s' => Layout s' ∧ s'.nrWalks = s.nrWalks)
    (fun _ _ h => ⟨h.1.withIters _ _ _, h.2⟩)
    (fun s' h => ⟨(hfound s').layout h.1, (hfound s').nrWalks_eq.trans h.2⟩) fuel ⟨lay, rfl⟩

/-- A call of a later walk keeps the invariant, wherever the cursor stands. -/
theorem layout_incPayload {s : AddrSequence} (lay : Layout s) (hwalks : 2 ≤ s.nrWalks)
    (addr n : ℕ) :
    Layout (s.incPayload Alloc.ok addr n).1 ∧
      (s.incPayload Alloc.ok addr n).1.nrWalks = s.nrWalks := by
  have hperiod : ¬s.inAppendPeriod = true := by
    simp only [inAppendPeriod, decide_eq_true_eq]
    omega
  rw [incPayload, if_neg hperiod, updateAddr]
  rcases Nat.eq_zero_or_pos n with rfl | hpos
  · exact findLoop_rule (P := fun s' => Layout s' ∧ s'.nrWalks = s.nrWalks)
      (fun _ _ h => ⟨h.1.withIters _ _ _, h.2⟩) (fun _ h => h) _ ⟨lay, rfl⟩
  · exact layout_findLoop (writes_incPayload hpos.ne') _ _ lay

theorem InUse.layout {s : AddrSequence} (h : InUse s) : Layout s := by
  induction h with
  | clear s shift => exact clear_layout s shift
  | firstWalk s shift calls hcalls =>
      exact (walk_first s shift (fun call hc => (hcalls call hc).1)
        fun call hc => (hcalls call hc).2).1
  | @walk s h hwalks calls ih =>
      have hrun : ∀ t : AddrSequence, Layout t → 2 ≤ t.nrWalks →
          Layout (calls.foldl (fun s call => (s.incPayload Alloc.ok call.1 call.2).1) t) := by
        induction calls with
        | nil => exact fun t lay _ => lay
        | cons call calls ihc =>
            intro t lay hnr
            obtain ⟨hlay, heq⟩ := layout_incPayload lay hnr call.1 call.2
            exact ihc _ hlay (heq ▸ hnr)
      exact hrun _ (rewind_layout ih) (Nat.succ_le_succ hwalks)
  | prepareUpdate h ih => exact ih.withIters _ _ _
  | getFirst h ih =>
      unfold AddrSequence.getFirst AddrSequence.getNext
      split
      · exact ih
      · split <;> exact ih.withIters _ _ _
  | getNext h ih =>
      unfold AddrSequence.getNext
      split
      · exact ih
      · exact ih.withIters _ _ _
  | updateNodeid h addr nid location ih =>
      unfold AddrSequence.updateNodeid
      split
      · exact ih
      · exact (layout_findLoop (writes_updateNid nid location) _ _ ih).1
  | setPayload h addr n ih =>
      unfold AddrSequence.setPayload
      split
      · exact ih
      · exact (layout_findLoop (writes_setPayload n) _ _ ih).1

/-! ### Visits -/

/-- A visit of `s₀` that has read `m` pages and has rewritten the first `n` of them,
page `j` by `g j`. -/
structure Visit (g : ℕ → DeltaPayload → DeltaPayload) (s₀ s : AddrSequence) (n m : ℕ) :
    Prop where
  layout : Layout s
  same : SameAddrs s₀ s
  nrWalks_eq : s.nrWalks = s₀.nrWalks
  addrSize_eq : s.addrSize = s₀.addrSize
  iterOk : IterOk s s.walkIter
  remaining_eq : remaining s s.walkIter = (allStored s₀).drop m
  cursor : ∃ b, Cursor s b ∧ ∀ x ∈ (allStored s₀).drop n, b ≤ x.addr
  items_eq : items s = (items s₀).mapIdx fun j p => if j < n then (p.1, g j p.2) else p

theorem items_getElem? (s : AddrSequence) {j : ℕ} {x : Stored} (hx : (allStored s)[j]? = some x) :
    (items s)[j]? = some (x.addr, itemAt s.bufs x.slot) := by
  rw [items, List.getElem?_map, hx, Option.map_some]

/-- `prepare_update`, then `prepare_get`. -/
theorem visit_start (g : ℕ → DeltaPayload → DeltaPayload) {s : AddrSequence} (lay : Layout s) :
    Visit g s
      { s.prepareUpdate with walkIter := s.prepareUpdate.resetIterator s.prepareUpdate.walkIter 0 }
      0 0 := by
  have hiter := iterOk_resetIterator lay.size_pos s.walkIter
  have hcur := cursor_resetIterator lay.size_pos 0
  refine ⟨lay.withIters _ _ _, ⟨rfl, rfl, fun _ => rfl⟩, rfl, rfl,
    ⟨hiter.1, hiter.2, hiter.3, hiter.4, hiter.5⟩, remaining_resetIterator s.walkIter,
    ⟨0, ⟨⟨hcur.ok.1, hcur.ok.2, hcur.ok.3, hcur.ok.4, hcur.ok.5⟩, hcur.passed⟩,
      fun _ _ => Nat.zero_le _⟩, ?_⟩
  refine List.ext_getElem? fun j => ?_
  rw [List.getElem?_mapIdx]
  simp only [Nat.not_lt_zero, if_false, Option.map_id']
  rfl

theorem addrClusters_of_nil {s : AddrSequence} (lay : Layout s) (hnil : allStored s = []) :
    s.addrClusters = [] := by
  by_contra hne
  obtain ⟨c, cs, hc⟩ := List.exists_cons_of_ne_nil hne
  obtain ⟨size, hsize⟩ := Nat.exists_eq_succ_of_ne_zero (lay.size_pos c (by simp [hc])).ne'
  rw [allStored, hc, storedOf, List.flatMap_cons, hsize, stored] at hnil
  cases hnil

/-- `get_first` of a sequence with no pages. -/
theorem getFirst_of_nil {s : AddrSequence} (lay : Layout s) (hnil : allStored s = []) :
    s.prepareUpdate.getFirst = (s.prepareUpdate, none) :=
  if_pos (addrClusters_of_nil lay hnil)

/-- `get_next`, by what is left of the walk: only the iterator moves. -/
theorem getNext_remaining {s : AddrSequence} (hsize : ∀ c ∈ s.addrClusters, 0 < c.size)
    (hiter : IterOk s s.walkIter) {l : List Stored} (hrem : remaining s s.walkIter = l) :
    ∃ iter, s.getNext = ({ s with walkIter := iter }, l.head?.map (view s)) ∧
      IterOk { s with walkIter := iter } iter ∧
      remaining { s with walkIter := iter } iter = l.tail := by
  have hread := doWalk_remaining hiter
  rw [hrem] at hread
  cases l with
  | nil =>
      exact ⟨s.walkIter, by simp only [getNext, hread, List.head?_nil, Option.map_none], hiter,
        hrem⟩
  | cons x l =>
      obtain ⟨⟨h1, h2, h3, h4, h5⟩, hnext⟩ := remaining_moveNext hsize hiter hrem
      exact ⟨s.doWalkMoveNext s.walkIter,
        by simp only [getNext, hread, List.head?_cons, Option.map_some],
        ⟨h1, h2, h3, h4, h5⟩, hnext⟩

section Visit

variable {g : ℕ → DeltaPayload → DeltaPayload} {s₀ s : AddrSequence} {n m : ℕ}
  (h : Visit g s₀ s n m)
include h

/-- `get_next` at the end. -/
theorem Visit.getNext_end (hm : (allStored s₀).length ≤ m) : s.getNext = (s, none) := by
  have hread := doWalk_remaining h.iterOk
  rw [h.remaining_eq, List.drop_eq_nil_of_le hm] at hread
  simp only [getNext, hread, List.head?_nil, Option.map_none]

/-- `get_next` reads the next page. -/
theorem Visit.read {x : Stored} (hx : (allStored s₀)[m]? = some x) :
    ∃ s', s.getNext = (s', some (view s x)) ∧ Visit g s₀ s' n (m + 1) := by
  obtain ⟨iter, hnext, hiter, hrest⟩ :=
    getNext_remaining h.layout.size_pos h.iterOk h.remaining_eq
  obtain ⟨b, ⟨⟨k1, k2, k3, k4, k5⟩, hpassed⟩, hb⟩ := h.cursor
  rw [List.head?_drop, hx] at hnext
  rw [List.tail_drop] at hrest
  exact ⟨_, hnext, h.layout.withIters _ _ _, ⟨h.same.1, h.same.2, h.same.3⟩, h.nrWalks_eq,
    h.addrSize_eq, hiter, hrest, ⟨b, ⟨⟨k1, k2, k3, k4, k5⟩, hpassed⟩, hb⟩, h.items_eq⟩

omit h in
/-- `get_first` of a sequence with pages. -/
theorem visit_getFirst (g : ℕ → DeltaPayload → DeltaPayload) (lay : Layout s) {x : Stored}
    (hx : (allStored s)[0]? = some x) :
    ∃ s', s.prepareUpdate.getFirst = (s', some (view s x)) ∧ Visit g s s' 0 1 := by
  have hclusters : s.prepareUpdate.addrClusters ≠ [] := by
    intro hnil
    have hnil' : s.addrClusters = [] := hnil
    rw [allStored, hnil'] at hx
    cases hx
  obtain ⟨s', hnext, hvisit⟩ := (visit_start g lay).read hx
  exact ⟨s', (if_neg hclusters).trans hnext, hvisit⟩

/-- A page that has not been rewritten is read as it was. -/
theorem Visit.item_eq {j : ℕ} {x : Stored} (hx : (allStored s₀)[j]? = some x) (hj : n ≤ j) :
    itemAt s.bufs x.slot = itemAt s₀.bufs x.slot := by
  have hx' : (allStored s)[j]? = some x := by rw [h.same.allStored_eq, hx]
  have hitem := items_getElem? s hx'
  rw [h.items_eq, List.getElem?_mapIdx, items_getElem? s₀ hx, Option.map_some,
    if_neg (not_lt.mpr hj)] at hitem
  exact (congrArg Prod.snd (Option.some_inj.mp hitem)).symm

/-- The search for the next page to rewrite, by an operation that does to its item what
`g n` does. -/
theorem Visit.rewrite {found : AddrSequence → AddrSequence} {f : DeltaPayload → DeltaPayload}
    (hfound : Writes found f) {x : Stored} (hx : (allStored s₀)[n]? = some x)
    (hf : f (itemAt s₀.bufs x.slot) = g n (itemAt s₀.bufs x.slot)) :
    Visit g s₀ (findLoop x.addr found (s.addrSize + 1) s).1 (n + 1) m := by
  obtain ⟨b, cur, hb⟩ := h.cursor
  have hx' : (allStored s)[n]? = some x := by rw [h.same.allStored_eq, hx]
  obtain ⟨hn, hget⟩ := List.getElem?_eq_some_iff.mp hx
  have hdrop : (allStored s₀).drop n = x :: (allStored s₀).drop (n + 1) := by
    rw [List.drop_eq_getElem_cons hn, hget]
  obtain ⟨iter, lay', cur', hcase⟩ := findLoop_cursor h.layout cur
    (hb x (hdrop ▸ List.mem_cons_self ..)) found
  rcases hcase with ⟨y, rest, hrem, hy, haddr, hloop⟩ | ⟨hmiss, -⟩
  · obtain rfl : y = x := h.layout.addr_inj hy (List.mem_of_getElem? hx') haddr
    have hrem' : remaining { s with findIter := iter } iter = y :: rest := hrem
    have hslot := slot_of_remaining cur'.ok hrem'
    have hwrite := hfound { s with findIter := iter }
    rw [hloop]
    generalize found { s with findIter := iter } = s' at *
    have hsame : SameAddrs s s' := ⟨hwrite.sameAddrs.1, hwrite.sameAddrs.2, hwrite.sameAddrs.3⟩
    obtain ⟨before, hall, hpassed⟩ := cur'.passed
    have hasc := h.layout.ascending
    rw [h.same.allStored_eq] at hasc
    have hasc := hasc.sublist (List.drop_sublist n (allStored s₀))
    rw [hdrop] at hasc
    refine ⟨hwrite.layout lay', ⟨hsame.1.trans h.same.1, hsame.2.trans h.same.2,
      fun slot => (hsame.3 slot).trans (h.same.3 slot)⟩, hwrite.nrWalks_eq.trans h.nrWalks_eq,
      hwrite.addrSize_eq.trans h.addrSize_eq, ?_, ?_, ⟨y.addr, ⟨?_, before, ?_, hpassed⟩, ?_⟩, ?_⟩
    · rw [hwrite.walkIter_eq]
      exact hsame.iterOk h.iterOk
    · rw [hwrite.walkIter_eq, hsame.remaining_eq]
      exact h.remaining_eq
    · rw [hwrite.findIter_eq]
      exact hwrite.sameAddrs.iterOk cur'.ok
    · rw [hwrite.findIter_eq, hsame.allStored_eq, hsame.remaining_eq]
      exact hall
    · exact fun z hz => ((List.pairwise_cons.mp hasc).1 z hz).le
    · have hitems := hwrite.items_eq lay' hx' hslot.symm
      change items s' = (items s).modify n _ at hitems
      rw [hitems, h.items_eq]
      refine List.ext_getElem? fun j => ?_
      rw [List.getElem?_modify, List.getElem?_mapIdx, List.getElem?_mapIdx]
      rcases lt_trichotomy j n with hlt | rfl | hgt
      · simp [hlt, hlt.ne', Nat.lt_succ_of_lt hlt]
      · simp [items_getElem? s₀ hx, hf]
      · simp [hgt.ne, not_lt.mpr hgt.le, not_lt.mpr (Nat.succ_le_of_lt hgt)]
  · exact absurd rfl (hmiss x (List.mem_of_getElem? hx'))

/-- A visit that has rewritten all pages. -/
theorem Visit.items_of_done (hn : (allStored s₀).length ≤ n) :
    items s = (items s₀).mapIdx fun j p => (p.1, g j p.2) := by
  rw [h.items_eq]
  refine List.ext_getElem? fun j => ?_
  rw [List.getElem?_mapIdx, List.getElem?_mapIdx]
  cases hj : (items s₀)[j]? with
  | none => rfl
  | some p =>
      have hlt := (List.getElem?_eq_some_iff.mp hj).1
      rw [items, List.length_map] at hlt
      simp only [Option.map_some, if_pos (hlt.trans_le hn)]

/-- Pages that are left as they are. -/
theorem Visit.skip {k : ℕ} (hk : n ≤ k) (hid : ∀ j, n ≤ j → j < k → ∀ d, g j d = d) :
    Visit g s₀ s k m := by
  obtain ⟨b, cur, hb⟩ := h.cursor
  refine { h with cursor := ⟨b, cur, fun x hx => hb x ?_⟩, items_eq := ?_ }
  · exact (List.drop_sublist_drop_left _ hk).subset hx
  · rw [h.items_eq]
    refine List.ext_getElem? fun j => ?_
    rw [List.getElem?_mapIdx, List.getElem?_mapIdx]
    rcases lt_or_ge j n with hlt | hge
    · simp [hlt, hlt.trans_le hk]
    · rcases lt_or_ge j k with hlt | hge'
      · simp [not_lt.mpr hge, hlt, hid j hge hlt]
      · simp [not_lt.mpr hge, not_lt.mpr hge']

end Visit

end MemoryOptimizer.AddrSequence
