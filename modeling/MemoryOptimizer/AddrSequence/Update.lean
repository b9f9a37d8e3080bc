import MemoryOptimizer.AddrSequence.Walks
import Mathlib.Data.List.TakeWhile

/-!
# Updating

A call of a later walk, as an operation on `contents`: the count of a stored
address goes up by one, and an address that is not stored changes nothing,
provided the find cursor has not passed it.

The cursor is the delicate part: `Cursor` says that what it has passed lies
strictly below everything still to be looked up, which is why the later walks
have to ascend.
-/

namespace MemoryOptimizer.AddrSequence

/-- What the find cursor has passed lies below `bound`. -/
structure Cursor (s : AddrSequence) (bound : ℕ) : Prop where
  ok : IterOk s s.findIter
  passed : ∃ before, allStored s = before ++ remaining s s.findIter ∧
    ∀ x ∈ before, x.addr < bound

theorem Cursor.mono {s : AddrSequence} {b b' : ℕ} (cur : Cursor s b) (h : b ≤ b') :
    Cursor s b' := by
  obtain ⟨before, hall, hlt⟩ := cur.passed
  exact ⟨cur.ok, before, hall, fun x hx => (hlt x hx).trans_le h⟩

theorem cursor_resetIterator {s : AddrSequence} (hpos : ∀ c ∈ s.addrClusters, 0 < c.size)
    (bound : ℕ) :
    Cursor { s with findIter := s.resetIterator s.findIter 0 } bound := by
  obtain ⟨h1, h2, h3, h4, h5⟩ := iterOk_resetIterator hpos s.findIter
  exact ⟨⟨h1, h2, h3, h4, h5⟩, [], (remaining_resetIterator s.findIter).symm, by simp⟩

/-- The search moves the cursor past everything below `addr`, and calls `found`
if it then stands on `addr`. -/
theorem findLoop_eq (addr : ℕ) (found : AddrSequence → AddrSequence) {fuel : ℕ}
    {s : AddrSequence} (hpos : ∀ c ∈ s.addrClusters, 0 < c.size) (ok : IterOk s s.findIter)
    (hfuel : (remaining s s.findIter).length < fuel) :
    ∃ iter, IterOk s iter ∧
      remaining s iter = (remaining s s.findIter).dropWhile (·.addr < addr) ∧
      findLoop addr found fuel s =
        if (remaining s iter).head?.map Stored.addr = some addr then
          (found { s with findIter := iter }, 0)
        else ({ s with findIter := iter }, addrNotFound) := by
  induction fuel generalizing s with
  | zero => exact absurd hfuel (Nat.not_lt_zero _)
  | succ fuel ih =>
      have hread := doWalk_remaining ok
      cases hrem : remaining s s.findIter with
      | nil => exact ⟨s.findIter, ok, by simp [hrem], by simp [findLoop, hread, hrem]⟩
      | cons x rest =>
          rw [hrem] at hread hfuel
          simp only [List.head?_cons, Option.map_some, view] at hread
          rcases lt_trichotomy x.addr addr with hlt | heq | hgt
          · obtain ⟨hok, htail⟩ := remaining_moveNext hpos ok hrem
            obtain ⟨h1, h2, h3, h4, h5⟩ := hok
            obtain ⟨iter, ⟨k1, k2, k3, k4, k5⟩, hdrop, hloop⟩ :=
              ih (s := { s with findIter := s.doWalkMoveNext s.findIter }) hpos
                ⟨h1, h2, h3, h4, h5⟩
                (by
                  show (remaining s (s.doWalkMoveNext s.findIter)).length < fuel
                  rw [htail]
                  exact Nat.lt_of_succ_lt_succ hfuel)
            change remaining s iter =
              (remaining s (s.doWalkMoveNext s.findIter)).dropWhile _ at hdrop
            rw [htail] at hdrop
            refine ⟨iter, ⟨k1, k2, k3, k4, k5⟩, by simp [hdrop, hlt], ?_⟩
            rw [findLoop, hread]
            simp only [if_neg hlt.ne, if_neg (not_lt.mpr hlt.le)]
            exact hloop
          · exact ⟨s.findIter, ok, by simp [hrem, heq], by simp [findLoop, hread, hrem, heq]⟩
          · refine ⟨s.findIter, ok, by simp [hrem, hgt.le], ?_⟩
            simp [findLoop, hread, hrem, hgt.ne', hgt]

/-- The two states store the same addresses: only counts and nodes differ. -/
structure SameAddrs (s s' : AddrSequence) : Prop where
  addrClusters_eq : s'.addrClusters = s.addrClusters
  pageshift_eq : s'.pageshift = s.pageshift
  delta_eq : ∀ slot, (itemAt s'.bufs slot).delta = (itemAt s.bufs slot).delta

section SameAddrs

variable {s s' : AddrSequence} (same : SameAddrs s s')
include same

theorem SameAddrs.allStored_eq : allStored s' = allStored s := by
  rw [allStored, allStored, same.addrClusters_eq, same.pageshift_eq]
  exact storedOf_congr s.pageshift s.addrClusters fun x _ => same.delta_eq x.slot

theorem SameAddrs.cluster_eq (i : ℕ) : s'.cluster i = s.cluster i := by
  rw [cluster, cluster, same.addrClusters_eq]

theorem SameAddrs.remaining_eq (iter : WalkIterator) : remaining s' iter = remaining s iter := by
  have hdrop := storedOf_congr s.pageshift (s.addrClusters.drop (iter.clusterIter + 1))
    fun x _ => same.delta_eq x.slot
  have hhead := stored_congr s.pageshift (s.cluster iter.clusterIter) iter.deltaSum
    iter.deltaIndex ((s.cluster iter.clusterIter).size - iter.deltaIndex)
    fun i _ _ => same.delta_eq (slotOf _ i)
  rw [remaining, remaining, same.addrClusters_eq, same.pageshift_eq, same.cluster_eq, hdrop,
    hhead]

theorem SameAddrs.iterOk {iter : WalkIterator} (ok : IterOk s iter) : IterOk s' iter := by
  obtain ⟨h1, h2, h3, h4, h5⟩ := ok
  exact ⟨by rw [same.addrClusters_eq]; exact h1, h2, h3,
    by rw [same.cluster_eq]; exact h4, by rw [same.cluster_eq]; exact h5⟩

theorem SameAddrs.layout (lay : Layout s) (hpagesize : s'.pagesize = s.pagesize)
    (hsize : s'.addrSize = s.addrSize) (hpool : s'.bufPool = s.bufPool)
    (hcount : s'.bufUsedCount = s.bufUsedCount) : Layout s' := by
  have hall := same.allStored_eq
  constructor
  · constructor
    · intro x hx
      rw [hall] at hx
      simpa only [Used, hpool, hcount] using lay.used x hx
    · rw [hall]; exact lay.slots_nodup
    · rw [hall]; exact lay.ascending
    · rw [hall, hsize]; exact lay.addrSize_eq
    · rw [hpagesize, same.pageshift_eq]; exact lay.pagesize_eq
    · rw [hcount]; exact lay.bufUsedCount_le
    · rw [hcount, hpool]; exact lay.bufUsedCount_eq
  · rw [same.addrClusters_eq]; exact lay.size_pos

end SameAddrs

/-- The slot an iterator stands on. -/
theorem slot_of_remaining {s : AddrSequence} {iter : WalkIterator} (ok : IterOk s iter)
    {x : Stored} {rest : List Stored} (hrem : remaining s iter = x :: rest) :
    x.slot = ⟨iter.curDelta.buf, iter.curDelta.off + iter.deltaIndex⟩ := by
  have h : iter.clusterIter < s.addrClusters.length := by
    by_contra h
    simp [remaining, h] at hrem
  obtain ⟨rest', hrest'⟩ := remaining_eq_cons ok h
  rw [hrem, List.cons.injEq] at hrest'
  rw [hrest'.1, ok.curDelta_eq (by rw [ok.end_eq]; exact h)]
  rfl

/-- `inc_payload` on one entry of the stored list. -/
def bump (addr n : ℕ) (p : ℕ × ℕ) : ℕ × ℕ :=
  if p.1 = addr ∧ n ≠ 0 then (p.1, uint8 (p.2 + 1)) else p

@[simp] theorem bump_fst (addr n : ℕ) (p : ℕ × ℕ) : (bump addr n p).1 = p.1 := by
  unfold bump
  split <;> rfl

/-- The item of a counted address. -/
def counted (d : DeltaPayload) : DeltaPayload := { d with payload := uint8 (d.payload + 1) }

/-- What counting the address the iterator stands on changes. -/
theorem doWalkUpdatePayload_counted {s : AddrSequence} {iter : WalkIterator} (ok : IterOk s iter)
    {n : ℕ} (hn : n ≠ 0) {x : Stored} {rest : List Stored} (hrem : remaining s iter = x :: rest) :
    (∀ slot, itemAt (s.doWalkUpdatePayload iter n true).bufs slot =
      if slot = x.slot then counted (itemAt s.bufs x.slot) else itemAt s.bufs slot) ∧
    (s.doWalkUpdatePayload iter n true).youngBytes =
      (if (counted (itemAt s.bufs x.slot)).payload ≥ 1 then
        Function.update s.youngBytes (itemAt s.bufs x.slot).location
          (s.youngBytes (itemAt s.bufs x.slot).location + s.pagesize)
      else s.youngBytes) ∧
    (s.doWalkUpdatePayload iter n true).topBytes =
      (if (counted (itemAt s.bufs x.slot)).payload ≥ s.nrWalks then
        Function.update s.topBytes (itemAt s.bufs x.slot).location
          (s.topBytes (itemAt s.bufs x.slot).location + s.pagesize)
      else s.topBytes) := by
  have hslot := slot_of_remaining ok hrem
  have hitem : s.item iter.curDelta iter.deltaIndex = itemAt s.bufs x.slot := by
    rw [hslot]
    rfl
  have heq : s.doWalkUpdatePayload iter n true =
      (s.setItem iter.curDelta iter.deltaIndex
        (counted (itemAt s.bufs x.slot))).updateAddrLocationCount iter := by
    simp only [doWalkUpdatePayload, if_true, if_neg hn, hitem]
    rfl
  have hnew : (s.setItem iter.curDelta iter.deltaIndex (counted (itemAt s.bufs x.slot))).item
      iter.curDelta iter.deltaIndex = counted (itemAt s.bufs x.slot) := by
    simp [setItem, item]
  rw [heq]
  refine ⟨fun slot => ?_, ?_, ?_⟩
  · split
    · next h =>
      rw [hslot] at hnew
      rw [h, hslot]
      exact hnew
    · next h => exact setItem_itemAt_of_ne s _ (hslot ▸ h)
  · simp only [updateAddrLocationCount, hnew]
    rfl
  · simp only [updateAddrLocationCount, hnew]
    rfl

/-- Counting the address the iterator stands on. -/
theorem doWalkUpdatePayload_spec {s : AddrSequence} (lay : Layout s) {iter : WalkIterator}
    (ok : IterOk s iter) (n : ℕ) {x : Stored} {rest : List Stored}
    (hrem : remaining s iter = x :: rest) (hx : x ∈ allStored s) :
    SameAddrs s (s.doWalkUpdatePayload iter n true) ∧
      Layout (s.doWalkUpdatePayload iter n true) ∧
      contents (s.doWalkUpdatePayload iter n true) = (contents s).map (bump x.addr n) := by
  by_cases hn : n = 0
  · have hid : bump x.addr n = id := by
      funext p
      simp [bump, hn]
    have heq : s.doWalkUpdatePayload iter n true = s := by
      simp only [doWalkUpdatePayload, if_pos hn, if_true]
    rw [heq, hid, List.map_id]
    exact ⟨⟨rfl, rfl, fun _ => rfl⟩, lay, rfl⟩
  · have hitem := (doWalkUpdatePayload_counted ok hn hrem).1
    have hkeep : (s.doWalkUpdatePayload iter n true).addrClusters = s.addrClusters ∧
        (s.doWalkUpdatePayload iter n true).pageshift = s.pageshift ∧
        (s.doWalkUpdatePayload iter n true).pagesize = s.pagesize ∧
        (s.doWalkUpdatePayload iter n true).addrSize = s.addrSize ∧
        (s.doWalkUpdatePayload iter n true).bufPool = s.bufPool ∧
        (s.doWalkUpdatePayload iter n true).bufUsedCount = s.bufUsedCount := by
      simp [doWalkUpdatePayload, hn, updateAddrLocationCount, setItem]
    obtain ⟨hclusters, hshift, hpagesize, hsize, hpool, hcount⟩ := hkeep
    have same : SameAddrs s (s.doWalkUpdatePayload iter n true) := by
      refine ⟨hclusters, hshift, fun slot => ?_⟩
      rw [hitem]
      split
      · next h => rw [h, counted]
      · rfl
    refine ⟨same, same.layout lay hpagesize hsize hpool hcount, ?_⟩
    rw [contents, same.allStored_eq, contents, List.map_map]
    refine List.map_congr_left fun y hy => ?_
    by_cases h : y = x
    · simp [bump, h, hn, payloadAt, hitem, counted]
    · -- the addresses, and so the slots, of two different entries differ
      have haddr : y.addr ≠ x.addr := fun h' => h (lay.addr_inj hy hx h')
      have hslot' : y.slot ≠ x.slot := fun h' =>
        h (List.inj_on_of_nodup_map lay.slots_nodup hy hx h')
      simp [bump, haddr, payloadAt, hitem, hslot']

/-- The search for an address the cursor has not passed: it ends on the address if that is
stored, and has passed only what lies below it. -/
theorem findLoop_cursor {s : AddrSequence} (lay : Layout s) {b addr : ℕ} (cur : Cursor s b)
    (hb : b ≤ addr) (found : AddrSequence → AddrSequence) :
    ∃ iter, Layout { s with findIter := iter } ∧ Cursor { s with findIter := iter } addr ∧
      ((∃ x rest, remaining s iter = x :: rest ∧ x ∈ allStored s ∧ x.addr = addr ∧
          findLoop addr found (s.addrSize + 1) s = (found { s with findIter := iter }, 0)) ∨
        (∀ x ∈ allStored s, x.addr ≠ addr) ∧
          findLoop addr found (s.addrSize + 1) s =
            ({ s with findIter := iter }, addrNotFound)) := by
  obtain ⟨before, hall, hbefore⟩ := cur.passed
  have hfuel : (remaining s s.findIter).length < s.addrSize + 1 := by
    rw [lay.addrSize_eq, hall, List.length_append]
    omega
  obtain ⟨iter, ok, hdrop, hloop⟩ := findLoop_eq addr found lay.size_pos cur.ok hfuel
  -- what the cursor passes on the way lies below `addr` too
  have hsplit : allStored s = (before ++ (remaining s s.findIter).takeWhile (·.addr < addr)) ++
      remaining s iter := by
    rw [hdrop, List.append_assoc, List.takeWhile_append_dropWhile, hall]
  have hpassed : ∀ x ∈ before ++ (remaining s s.findIter).takeWhile (·.addr < addr),
      x.addr < addr := by
    intro x hx
    rcases List.mem_append.mp hx with hx | hx
    · exact (hbefore x hx).trans_le hb
    · simpa using List.mem_takeWhile_imp hx
  refine ⟨iter, ⟨⟨lay.used, lay.slots_nodup, lay.ascending, lay.addrSize_eq, lay.pagesize_eq,
    lay.bufUsedCount_le, lay.bufUsedCount_eq⟩, lay.size_pos⟩,
    ⟨⟨ok.1, ok.2, ok.3, ok.4, ok.5⟩, _, hsplit, hpassed⟩, ?_⟩
  rw [hloop]
  split
  · rename_i hfound
    cases hrem : remaining s iter with
    | nil => simp [hrem] at hfound
    | cons x rest =>
        refine .inl ⟨x, rest, rfl, ?_, by simpa [hrem] using hfound, rfl⟩
        rw [hsplit, hrem]
        simp
  · rename_i hmiss
    refine .inr ⟨fun x hx h => ?_, rfl⟩
    -- `addr` is not stored: it lies between what was passed and what is ahead
    cases hrem : remaining s iter with
    | nil =>
        rw [hsplit, hrem, List.append_nil] at hx
        exact (hpassed x hx).ne h
    | cons y rest =>
        have hy : y.addr ≠ addr := by simpa [hrem] using hmiss
        have hge : addr ≤ y.addr := by
          have := List.head?_dropWhile_not (·.addr < addr) (remaining s s.findIter)
          rw [← hdrop, hrem] at this
          simpa using this
        have hasc := lay.ascending
        rw [hsplit, hrem] at hx hasc
        rcases List.mem_append.mp hx with hx | hx
        · exact (hpassed x hx).ne h
        · rcases List.mem_cons.mp hx with rfl | hx
          · exact hy h
          · have := (List.pairwise_cons.mp (List.pairwise_append.mp hasc).2.1).1 x hx
            omega

/-- Counting keeps the cursor. -/
theorem doWalkUpdatePayload_findIter (s : AddrSequence) (iter : WalkIterator) (n : ℕ)
    (isIncPayload : Bool) :
    (s.doWalkUpdatePayload iter n isIncPayload).findIter = s.findIter ∧
      (s.doWalkUpdatePayload iter n isIncPayload).nrWalks = s.nrWalks ∧
      (s.doWalkUpdatePayload iter n isIncPayload).pagesize = s.pagesize := by
  unfold doWalkUpdatePayload
  cases isIncPayload with
  | false => exact ⟨rfl, rfl, rfl⟩
  | true => by_cases hn : n = 0 <;> simp [hn, updateAddrLocationCount, setItem]

/-- One call of a later walk, for an address the cursor has not passed. -/
theorem updateAddr_spec {s : AddrSequence} (lay : Layout s) {b addr : ℕ} (cur : Cursor s b)
    (hb : b ≤ addr) (n : ℕ) :
    Layout (s.updateAddr addr n true).1 ∧ Cursor (s.updateAddr addr n true).1 addr ∧
      (s.updateAddr addr n true).1.pageshift = s.pageshift ∧
      (s.updateAddr addr n true).1.nrWalks = s.nrWalks ∧
      contents (s.updateAddr addr n true).1 = (contents s).map (bump addr n) := by
  obtain ⟨iter, lay', cur', hcase⟩ := findLoop_cursor lay cur hb
    (fun s => s.doWalkUpdatePayload s.findIter n true)
  unfold updateAddr
  rcases hcase with ⟨x, rest, hrem, hx, rfl, hloop⟩ | ⟨hne, hloop⟩
  · rw [hloop]
    have hrem' : remaining { s with findIter := iter } iter = x :: rest := hrem
    obtain ⟨same, hlay, hcont⟩ := doWalkUpdatePayload_spec lay' cur'.ok n hrem' hx
    obtain ⟨hfind, hwalks, -⟩ :=
      doWalkUpdatePayload_findIter { s with findIter := iter } iter n true
    obtain ⟨before, hall, hpassed⟩ := cur'.passed
    refine ⟨hlay, ⟨?_, before, ?_, hpassed⟩, same.pageshift_eq, hwalks, hcont⟩
    · rw [hfind]
      exact same.iterOk cur'.ok
    · rw [hfind, same.allStored_eq, same.remaining_eq]
      exact hall
  · rw [hloop]
    refine ⟨lay', cur', rfl, rfl, ?_⟩
    have hid : ∀ p ∈ contents s, bump addr n p = p := by
      intro p hp
      obtain ⟨x, hx, rfl⟩ := List.mem_map.mp hp
      simp [bump, hne x hx]
    exact (List.map_congr_left hid).trans (List.map_id _) |>.symm

end MemoryOptimizer.AddrSequence
