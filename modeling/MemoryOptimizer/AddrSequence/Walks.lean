import MemoryOptimizer.AddrSequence.Layout
import Mathlib.Data.List.Nodup

/-!
# Visiting and appending

The representation invariant of an `AddrSequence`, and the two operations that
only need the order of the stored list.

* `Layout` — no cluster is empty, no two items share a slot of the buffers, the
  addresses ascend;
* `Appending` — what holds besides during the first walk;
* `pages_eq` — the visit loop yields the stored list;
* `appendAddr_spec` — in the first walk an address above everything stored is
  added at the end, any other is ignored.
-/

namespace MemoryOptimizer.AddrSequence

/-- The slot is taken, as far as the allocator knows: it lies in a buffer before
the last one, or in the used part of the last one. -/
def Used (s : AddrSequence) (slot : DeltaPtr) : Prop :=
  slot.buf + 1 < s.bufPool ∨ slot.buf + 1 = s.bufPool ∧ slot.off < s.bufUsedCount

/-- The representation invariant, but for the cluster an append has just
opened: no two items share a slot and the addresses ascend. -/
structure Slots (s : AddrSequence) : Prop where
  used : ∀ x ∈ allStored s, Used s x.slot
  slots_nodup : ((allStored s).map Stored.slot).Nodup
  ascending : (allStored s).Pairwise fun x y => x.addr < y.addr
  addrSize_eq : s.addrSize = (allStored s).length
  pagesize_eq : s.pagesize = 2 ^ s.pageshift
  bufUsedCount_le : s.bufUsedCount ≤ maxItemCount
  bufUsedCount_eq : s.bufPool = 0 → s.bufUsedCount = maxItemCount

/-- The representation invariant. -/
structure Layout (s : AddrSequence) : Prop extends Slots s where
  size_pos : ∀ c ∈ s.addrClusters, 0 < c.size

theorem Slots.addr_inj {s : AddrSequence} (slots : Slots s) {x y : Stored}
    (hx : x ∈ allStored s) (hy : y ∈ allStored s) (h : x.addr = y.addr) : x = y := by
  have hnodup : ((allStored s).map Stored.addr).Nodup :=
    List.pairwise_map.mpr (slots.ascending.imp fun h => h.ne)
  exact List.inj_on_of_nodup_map hnodup hx hy h

/-- What the first walk keeps besides: the last cluster is the one that can
grow, and the last stored address is `last_cluster_end`. -/
structure Appending (s : AddrSequence) : Prop where
  addr_le : ∀ x ∈ allStored s, x.addr ≤ s.lastClusterEnd
  end_mem : s.addrClusters ≠ [] → ∃ x ∈ allStored s, x.addr = s.lastClusterEnd
  lastClusterEnd_lt : s.lastClusterEnd < 2 ^ 64
  tail : ∀ c, s.addrClusters.getLast? = some c →
    c.deltas.buf + 1 = s.bufPool ∧ c.deltas.off + c.size = s.bufUsedCount ∧
      c.start + (spanFrom s.bufs c 0 0 c.size <<< s.pageshift) = s.lastClusterEnd

/-! ### Visiting -/

@[simp] theorem view_walkIter (s : AddrSequence) (iter : WalkIterator) :
    view { s with walkIter := iter } = view s := rfl

theorem collectNext_eq (fuel : ℕ) {s : AddrSequence}
    (hpos : ∀ c ∈ s.addrClusters, 0 < c.size) (ok : IterOk s s.walkIter)
    (hfuel : (remaining s s.walkIter).length ≤ fuel) :
    collectNext fuel s = (remaining s s.walkIter).map (view s) := by
  induction fuel generalizing s with
  | zero => rw [List.length_eq_zero_iff.mp (Nat.le_zero.mp hfuel)]; rfl
  | succ fuel ih =>
      have hread := doWalk_remaining ok
      cases hrem : remaining s s.walkIter with
      | nil => simp [collectNext, getNext, hread, hrem]
      | cons x rest =>
          rw [hrem] at hread hfuel
          obtain ⟨hok, htail⟩ := remaining_moveNext hpos ok hrem
          have hnext := ih (s := { s with walkIter := s.doWalkMoveNext s.walkIter })
            hpos ⟨hok.1, hok.2, hok.3, hok.4, hok.5⟩
            (by
              show (remaining s (s.doWalkMoveNext s.walkIter)).length ≤ fuel
              rw [htail]
              simpa using hfuel)
          change _ = (remaining s (s.doWalkMoveNext s.walkIter)).map (view s) at hnext
          rw [htail] at hnext
          simp [collectNext, getNext, hread, hnext]

/-- The visit loop is that of `get_next` from the first item on. -/
theorem pages_of_ne_nil {s : AddrSequence} (h : s.addrClusters ≠ []) :
    s.pages =
      collectNext (s.addrSize + 1) { s with walkIter := s.resetIterator s.walkIter 0 } := by
  unfold pages getFirst
  rw [if_neg h]
  rfl

/-- The visit loop yields the stored list. -/
theorem pages_eq {s : AddrSequence} (lay : Layout s) :
    s.pages = (allStored s).map (view s) := by
  by_cases hnil : s.addrClusters = []
  · simp [pages, getFirst, hnil, allStored, storedOf]
  · have ok := iterOk_resetIterator lay.size_pos s.walkIter
    have hrem := remaining_resetIterator (s := s) s.walkIter
    have hcollect := collectNext_eq (s.addrSize + 1)
      (s := { s with walkIter := s.resetIterator s.walkIter 0 })
      lay.size_pos ⟨ok.1, ok.2, ok.3, ok.4, ok.5⟩
      (by
        show (remaining s (s.resetIterator s.walkIter 0)).length ≤ _
        rw [hrem, lay.addrSize_eq]
        exact Nat.le_succ _)
    change _ = (remaining s (s.resetIterator s.walkIter 0)).map (view s) at hcollect
    rw [pages_of_ne_nil hnil, hcollect, hrem]

/-! ### Appending -/

theorem stored_size (bufs : ℕ → ℕ → DeltaPayload) (shift : ℕ) (c : AddrCluster)
    (size sum index n : ℕ) :
    stored bufs shift { c with size := size } sum index n = stored bufs shift c sum index n := by
  induction n generalizing sum index with
  | zero => rfl
  | succ n ih => simp only [stored, ih]; rfl

theorem spanFrom_size (bufs : ℕ → ℕ → DeltaPayload) (c : AddrCluster)
    (size sum index n : ℕ) :
    spanFrom bufs { c with size := size } sum index n = spanFrom bufs c sum index n := by
  induction n generalizing sum index with
  | zero => rfl
  | succ n ih => simp only [spanFrom, ih]; rfl

/-- The last cluster takes one more item: a free slot, within the reach of an
8-bit delta from `last_cluster_end`. -/
structure CanSave (s : AddrSequence) (cs : List AddrCluster) (c : AddrCluster) (addr : ℕ) :
    Prop where
  slots : Slots s
  clusters : s.addrClusters = cs ++ [c]
  size_pos : ∀ c ∈ cs, 0 < c.size
  buf_eq : c.deltas.buf + 1 = s.bufPool
  off_eq : c.deltas.off + c.size = s.bufUsedCount
  room : s.bufUsedCount < maxItemCount
  end_eq : c.start + (spanFrom s.bufs c 0 0 c.size <<< s.pageshift) = s.lastClusterEnd
  reach : s.lastClusterEnd +
    (uint8 ((addr - s.lastClusterEnd) >>> s.pageshift) <<< s.pageshift) = addr
  addr_lt : addr < 2 ^ 64
  above : ∀ x ∈ allStored s, x.addr < addr

section Save

variable {s : AddrSequence} {cs : List AddrCluster} {c : AddrCluster} {addr : ℕ} (n : ℕ)
variable (can : CanSave s cs c addr)
include can

theorem CanSave.slot_free {x : Stored} (hx : x ∈ allStored s) : x.slot ≠ slotOf c c.size := by
  intro h
  have hbuf := can.buf_eq
  have hoff := can.off_eq
  rcases can.slots.used x hx with hlt | ⟨_, hlt⟩ <;> rw [h] at hlt <;>
    simp only [slotOf] at hlt <;> omega

theorem saveIntoCluster_itemAt {x : Stored} (hx : x ∈ allStored s) :
    itemAt (s.saveIntoCluster c addr n).bufs x.slot = itemAt s.bufs x.slot :=
  setItem_itemAt_of_ne s _ (can.slot_free hx)

/-- The deltas of the last cluster now span up to `addr`. -/
theorem saveIntoCluster_span :
    c.start + (spanFrom (s.saveIntoCluster c addr n).bufs c 0 0 (c.size + 1) <<< s.pageshift) =
      addr := by
  have hspan : spanFrom (s.saveIntoCluster c addr n).bufs c 0 0 c.size =
      spanFrom s.bufs c 0 0 c.size := by
    refine spanFrom_congr c 0 0 c.size fun i _ hi => ?_
    refine congrArg DeltaPayload.delta (setItem_itemAt_of_ne s _ ?_)
    intro h
    have := congrArg DeltaPtr.off h
    simp only [slotOf] at this
    omega
  have hnew : (itemAt (s.saveIntoCluster c addr n).bufs (slotOf c c.size)).delta =
      uint8 ((addr - s.lastClusterEnd) >>> s.pageshift) :=
    congrArg DeltaPayload.delta (setItem_itemAt_self s c c.size _)
  have hend := can.end_eq
  have hreach := can.reach
  rw [spanFrom_succ, hspan, Nat.zero_add, hnew]
  rw [Nat.shiftLeft_eq] at hend hreach ⊢
  rw [Nat.add_mul]
  omega

/-- The new item comes at the end. -/
theorem allStored_saveIntoCluster :
    allStored (s.saveIntoCluster c addr n) = allStored s ++ [⟨addr, slotOf c c.size⟩] := by
  have hold : storedOf (s.saveIntoCluster c addr n).bufs s.pageshift (cs ++ [c]) =
      allStored s := by
    rw [allStored, can.clusters]
    refine storedOf_congr s.pageshift (cs ++ [c]) fun x hx => ?_
    rw [saveIntoCluster_itemAt n can (by rw [allStored, can.clusters]; exact hx)]
  have haddr := saveIntoCluster_span n can
  have hsh : spanFrom (s.saveIntoCluster c addr n).bufs c 0 0 (c.size + 1) <<< s.pageshift <
      2 ^ 64 := by
    have := can.addr_lt
    omega
  have hclusters : (s.saveIntoCluster c addr n).addrClusters =
      cs ++ [{ c with size := c.size + 1 }] := by
    simp [saveIntoCluster, setItem, can.clusters]
  rw [← hold, storedOf_append, storedOf_singleton, List.append_assoc, allStored, hclusters,
    storedOf_append, storedOf_singleton, stored_size]
  show _ ++ stored _ s.pageshift c 0 0 (c.size + 1) = _
  rw [stored_succ, ulong_of_lt hsh, haddr, ulong_of_lt can.addr_lt, Nat.zero_add]
  rfl

theorem saveIntoCluster_slots : Slots (s.saveIntoCluster c addr n) := by
  have hall := allStored_saveIntoCluster n can
  have hpool : (s.saveIntoCluster c addr n).bufPool = s.bufPool := rfl
  have hcount : (s.saveIntoCluster c addr n).bufUsedCount = s.bufUsedCount + 1 := rfl
  constructor
  · intro x hx
    rw [hall, List.mem_append, List.mem_singleton] at hx
    rcases hx with hx | rfl
    · rcases can.slots.used x hx with h | ⟨h, hlt⟩
      · exact Or.inl h
      · exact Or.inr ⟨h, by rw [hcount]; omega⟩
    · refine Or.inr ⟨can.buf_eq, ?_⟩
      have := can.off_eq
      rw [hcount]
      simp only [slotOf]
      omega
  · rw [hall, List.map_append, List.nodup_append]
    refine ⟨can.slots.slots_nodup, by simp, ?_⟩
    intro a ha b hb
    obtain ⟨x, hx, rfl⟩ := List.mem_map.mp ha
    rw [List.map_singleton, List.mem_singleton] at hb
    subst hb
    exact can.slot_free hx
  · rw [hall, List.pairwise_append]
    refine ⟨can.slots.ascending, by simp, fun x hx y hy => ?_⟩
    rw [List.mem_singleton] at hy
    subst hy
    exact can.above x hx
  · rw [hall, List.length_append, List.length_singleton, ← can.slots.addrSize_eq]
    rfl
  · exact can.slots.pagesize_eq
  · exact can.room
  · intro h
    rw [hpool, ← can.buf_eq] at h
    exact absurd h (Nat.succ_ne_zero _)

theorem saveIntoCluster_layout : Layout (s.saveIntoCluster c addr n) := by
  refine ⟨saveIntoCluster_slots n can, fun d hd => ?_⟩
  simp only [saveIntoCluster, setItem, can.clusters, List.dropLast_concat, List.mem_append,
    List.mem_singleton] at hd
  rcases hd with hd | rfl
  · exact can.size_pos d hd
  · exact Nat.succ_pos _

theorem saveIntoCluster_appending : Appending (s.saveIntoCluster c addr n) := by
  have hall := allStored_saveIntoCluster n can
  have hend : (s.saveIntoCluster c addr n).lastClusterEnd = addr := rfl
  constructor
  · intro x hx
    rw [hall, List.mem_append, List.mem_singleton] at hx
    rcases hx with hx | rfl
    · exact (can.above x hx).le
    · exact le_rfl
  · intro _
    exact ⟨⟨addr, slotOf c c.size⟩, by simp [hall], rfl⟩
  · exact can.addr_lt
  · intro d hd
    have hd : { c with size := c.size + 1 } = d := by
      simpa [saveIntoCluster, setItem] using hd
    subst hd
    refine ⟨can.buf_eq, ?_, ?_⟩
    · have := can.off_eq
      simp only [saveIntoCluster, setItem]
      omega
    · have hspan := saveIntoCluster_span n can
      rw [spanFrom_size]
      exact hspan

theorem contents_saveIntoCluster :
    contents (s.saveIntoCluster c addr n) = contents s ++ [(addr, uint8 n)] := by
  rw [contents, allStored_saveIntoCluster n can, List.map_append, contents]
  refine congrArg₂ _ (List.map_congr_left fun x hx => ?_) ?_
  · rw [payloadAt, saveIntoCluster_itemAt n can hx, payloadAt]
  · have : itemAt (s.saveIntoCluster c addr n).bufs (slotOf c c.size) =
        ⟨uint8 ((addr - s.lastClusterEnd) >>> s.pageshift), uint8 n, -1, Location.dram⟩ :=
      setItem_itemAt_self s c c.size _
    simp [payloadAt, this]

end Save

/-- Opening a cluster leaves the stored list alone and makes room at its end. -/
theorem createCluster_eq {s : AddrSequence} (lay : Layout s) {addr : ℕ} (n : ℕ)
    (haddr : addr < 2 ^ 64) (habove : ∀ x ∈ allStored s, x.addr < addr) :
    ∃ s₁ cs c, s.createCluster Alloc.ok addr n = (s₁.saveIntoCluster c addr n, 0) ∧
      CanSave s₁ cs c addr ∧ contents s₁ = contents s ∧
      s₁.pageshift = s.pageshift ∧ s₁.nrWalks = s.nrWalks := by
  obtain ⟨pool, count, hfree, hpool, hcount, hused⟩ :
      ∃ pool count, s.getFreeBuffer Alloc.ok =
          ({ s with bufPool := pool, bufUsedCount := count }, 0, ⟨pool - 1, count⟩) ∧
        0 < pool ∧ count < maxItemCount ∧
        ∀ slot, Used s slot → Used { s with bufPool := pool, bufUsedCount := count } slot := by
    by_cases hfull : s.bufUsedCount = maxItemCount
    · refine ⟨s.bufPool + 1, 0, by simp [getFreeBuffer, isBufferFull, hfull, allocateBuf,
        Alloc.ok], Nat.succ_pos _, by decide, fun slot h => Or.inl ?_⟩
      simp only [Used] at h ⊢
      omega
    · have hpos : s.bufPool ≠ 0 := fun h => hfull (lay.bufUsedCount_eq h)
      exact ⟨s.bufPool, s.bufUsedCount, by simp [getFreeBuffer, isBufferFull, hfull],
        Nat.pos_of_ne_zero hpos, lt_of_le_of_ne lay.bufUsedCount_le hfull, fun _ h => h⟩
  let c : AddrCluster := ⟨addr, 0, ⟨pool - 1, count⟩⟩
  let s₁ : AddrSequence := { s with
    bufPool := pool
    bufUsedCount := count
    addrClusters := s.addrClusters ++ [c]
    lastClusterEnd := addr
    findIter := resetIterator { s with
        bufPool := pool, bufUsedCount := count, addrClusters := s.addrClusters ++ [c],
        lastClusterEnd := addr }
      s.findIter (s.addrClusters ++ [c]).length.pred }
  have hall : allStored s₁ = allStored s := by
    simp only [allStored, s₁, storedOf_append, storedOf_singleton, stored, c, List.append_nil]
  refine ⟨s₁, s.addrClusters, c, ?_, ?_, ?_, rfl, rfl⟩
  · unfold createCluster
    rw [hfree]
    simp [Alloc.ok, s₁, c]
  · refine ⟨⟨?_, ?_, ?_, ?_, lay.pagesize_eq, hcount.le, ?_⟩, rfl, lay.size_pos, ?_, rfl, hcount,
      ?_, ?_, haddr, ?_⟩
    · rw [hall]; exact fun x hx => hused _ (lay.used x hx)
    · rw [hall]; exact lay.slots_nodup
    · rw [hall]; exact lay.ascending
    · rw [hall]; exact lay.addrSize_eq
    · exact fun h => absurd h hpool.ne'
    · exact Nat.succ_pred_eq_of_pos hpool
    · simp [s₁, c, spanFrom]
    · simp [s₁, uint8]
    · rw [hall]; exact habove
  · rw [contents, contents, hall]
    rfl

/-- A merge is an append within the reach of the last cluster. -/
theorem canSave_of_canMerge {s : AddrSequence} (lay : Layout s) (app : Appending s) {addr : ℕ}
    (haddr : addr < 2 ^ 64) {c : AddrCluster} (hlast : s.addrClusters.getLast? = some c)
    (hlt : s.lastClusterEnd < addr) (hmerge : s.canMergeIntoCluster addr = true) :
    CanSave s s.addrClusters.dropLast c addr := by
  have hclusters : s.addrClusters = s.addrClusters.dropLast ++ [c] := by
    obtain ⟨cs, hcs⟩ := List.getLast?_eq_some_iff.mp hlast
    rw [hcs, List.dropLast_concat]
  obtain ⟨hbuf, hoff, hend⟩ := app.tail c hlast
  simp only [canMergeIntoCluster, isBufferFull, lay.pagesize_eq, Nat.and_two_pow_sub_one_eq_mod,
    Bool.not_eq_true', Bool.or_eq_false_iff, decide_eq_false_iff_not, not_lt, ne_eq,
    not_not] at hmerge
  obtain ⟨⟨hdist, hfull⟩, halign⟩ := hmerge
  refine ⟨lay.toSlots, hclusters, fun d hd => lay.size_pos d ?_, hbuf, hoff,
    lt_of_le_of_ne lay.bufUsedCount_le hfull, hend, ?_, haddr, fun x hx => ?_⟩
  · exact List.dropLast_subset _ hd
  · have hdelta : uint8 ((addr - s.lastClusterEnd) >>> s.pageshift) =
        (addr - s.lastClusterEnd) >>> s.pageshift :=
      Nat.mod_eq_of_lt (by unfold maxDeltaDist at hdist; omega)
    have hmul := Nat.div_mul_cancel (Nat.dvd_of_mod_eq_zero halign)
    rw [hdelta, Nat.shiftLeft_eq, Nat.shiftRight_eq_div_pow, hmul]
    omega
  · exact lt_of_le_of_lt (app.addr_le x hx) hlt

/-- One call of the first walk: an address above everything stored is added at
the end, any other one is ignored. -/
theorem appendAddr_spec {s : AddrSequence} (lay : Layout s) (app : Appending s) {addr : ℕ}
    (n : ℕ) (haddr : addr < 2 ^ 64) :
    Layout (s.appendAddr Alloc.ok addr n).1 ∧ Appending (s.appendAddr Alloc.ok addr n).1 ∧
      (s.appendAddr Alloc.ok addr n).1.pageshift = s.pageshift ∧
      (s.appendAddr Alloc.ok addr n).1.nrWalks = s.nrWalks ∧
      contents (s.appendAddr Alloc.ok addr n).1 =
        if ∀ p ∈ contents s, p.1 < addr then contents s ++ [(addr, uint8 n)]
        else contents s := by
  by_cases habove : ∀ p ∈ contents s, p.1 < addr
  · have habove' : ∀ x ∈ allStored s, x.addr < addr := fun x hx =>
      habove (x.addr, payloadAt s x) (List.mem_map_of_mem hx)
    obtain ⟨s₁, cs, c, heq, can, hcont, hshift, hwalks⟩ :
        ∃ s₁ cs c, s.appendAddr Alloc.ok addr n = (s₁.saveIntoCluster c addr n, 0) ∧
          CanSave s₁ cs c addr ∧ contents s₁ = contents s ∧
          s₁.pageshift = s.pageshift ∧ s₁.nrWalks = s.nrWalks := by
      unfold appendAddr
      cases hlast : s.addrClusters.getLast? with
      | none => exact createCluster_eq lay n haddr habove'
      | some c =>
          have hne : s.addrClusters ≠ [] := by
            intro h
            simp [h] at hlast
          obtain ⟨x, hx, hxend⟩ := app.end_mem hne
          have hlt : s.lastClusterEnd < addr := hxend ▸ habove' x hx
          simp only [if_neg (not_le.mpr hlt)]
          split
          · rename_i hmerge
            exact ⟨s, _, c, rfl, canSave_of_canMerge lay app haddr hlast hlt hmerge, rfl, rfl, rfl⟩
          · exact createCluster_eq lay n haddr habove'
    rw [if_pos habove, heq]
    exact ⟨saveIntoCluster_layout n can, saveIntoCluster_appending n can, hshift, hwalks,
      by rw [contents_saveIntoCluster n can, hcont]⟩
  · -- something stored is at or above `addr`, and so is `last_cluster_end`
    obtain ⟨p, hp, hle⟩ : ∃ p ∈ contents s, addr ≤ p.1 := by
      simpa only [not_forall, not_lt, exists_prop] using habove
    obtain ⟨x, hx, rfl⟩ := List.mem_map.mp hp
    have hignore : s.appendAddr Alloc.ok addr n = (s, ignoreDuplicatedAddr) := by
      unfold appendAddr
      cases hlast : s.addrClusters.getLast? with
      | none =>
          rw [List.getLast?_eq_none_iff] at hlast
          simp [allStored, storedOf, hlast] at hx
      | some c => simp only [if_pos (le_trans hle (app.addr_le x hx))]
    rw [if_neg habove, hignore]
    exact ⟨lay, app, rfl, rfl, rfl⟩

end MemoryOptimizer.AddrSequence
