import MemoryOptimizer.AddrSequence.Layout

/-!
# Appending without memory

An append can fail in three places: the buffer, `buf_pool`, `addr_clusters`.  The
last one comes when `allocate_buf` has already replaced a full buffer and reset
`buf_used_count`, while the last cluster is still in the old buffer.

* `Packed` — the last cluster ends where the last buffer is free.
* `AllocFails`, `LosesBuffer` — the appends that fail, and those that fail late.
* `incPayload_allocFailure` — every append of a run without late failures.
* `saveIntoCluster_pastEnd` — the append after a late failure.
-/

namespace MemoryOptimizer.AddrSequence

theorem maxItemCount_pos : 0 < maxItemCount := by decide

theorem enomem_ne_zero : enomem ≠ 0 := by decide

theorem ignoreDuplicatedAddr_ne_zero : ignoreDuplicatedAddr ≠ 0 := by decide

/-- What an append relies on: the last cluster can grow into the free part of the
last buffer. -/
structure Packed (s : AddrSequence) : Prop where
  tail : ∀ c, s.addrClusters.getLast? = some c →
    c.deltas.buf + 1 = s.bufPool ∧ c.deltas.off + c.size = s.bufUsedCount
  bufUsedCount_le : s.bufUsedCount ≤ maxItemCount
  bufUsedCount_eq : s.bufPool = 0 → s.bufUsedCount = maxItemCount

/-- Between the two states one item was saved: the last one of the last cluster, inside
the buffer of that cluster. -/
def SavedInside (s s' : AddrSequence) : Prop :=
  ∃ c, s'.addrClusters.getLast? = some c ∧ 0 < c.size ∧ c.deltas.buf < s'.bufPool ∧
    c.deltas.off + c.size ≤ maxItemCount ∧
    ∀ slot, slot ≠ slotOf c (c.size - 1) → itemAt s'.bufs slot = itemAt s.bufs slot

/-- The result of an append: an item saved inside its buffer, or the buffers as they were. -/
def WritesInside (s : AddrSequence) (r : AddrSequence × ℤ) : Prop :=
  r.2 = 0 ∧ SavedInside s r.1 ∨ r.2 ≠ 0 ∧ r.1.bufs = s.bufs

/-- The append of the address opens a cluster. -/
def Creates (s : AddrSequence) (addr : ℕ) : Prop :=
  s.addrClusters = [] ∨ s.lastClusterEnd < addr ∧ s.canMergeIntoCluster addr = false

/-- An allocation of the append fails. -/
def AllocFails (s : AddrSequence) (alloc : Alloc) (addr : ℕ) : Prop :=
  Creates s addr ∧
    (s.isBufferFull = true ∧ (alloc.buf = false ∨ alloc.pool = false) ∨ alloc.clusters = false)

/-! ### Opening a cluster -/

/-- The state after a buffer was allocated. -/
def withNewBuf (s : AddrSequence) : AddrSequence :=
  { s with bufPool := s.bufPool + 1, bufUsedCount := 0 }

/-- The state in which `create_cluster` looks for room, when no buffer is missing. -/
def withRoom (s : AddrSequence) : AddrSequence := if s.isBufferFull then s.withNewBuf else s

theorem getFreeBuffer_eq (s : AddrSequence) (alloc : Alloc) :
    s.getFreeBuffer alloc =
      if s.isBufferFull = true ∧ (alloc.buf = false ∨ alloc.pool = false) then
        (s, enomem, ⟨s.bufPool - 1, s.bufUsedCount⟩)
      else (s.withRoom, 0, ⟨s.withRoom.bufPool - 1, s.withRoom.bufUsedCount⟩) := by
  unfold getFreeBuffer allocateBuf withRoom
  cases hfull : s.isBufferFull with
  | false => simp
  | true =>
      cases hbuf : alloc.buf with
      | false => simp
      | true => cases hpool : alloc.pool <;> simp [withNewBuf]

/-- The cluster that is opened. -/
def freshCluster (s : AddrSequence) (addr : ℕ) : AddrCluster :=
  ⟨addr, 0, ⟨s.bufPool - 1, s.bufUsedCount⟩⟩

theorem withRoom_addrClusters (s : AddrSequence) : s.withRoom.addrClusters = s.addrClusters := by
  unfold withRoom
  split <;> rfl

theorem withRoom_bufs (s : AddrSequence) : s.withRoom.bufs = s.bufs := by
  unfold withRoom
  split <;> rfl

/-- `create_cluster` fails without a buffer, fails without room in `addr_clusters`, or
saves the address in a new cluster. -/
theorem createCluster_cases (s : AddrSequence) (alloc : Alloc) (addr n : ℕ) :
    (s.isBufferFull = true ∧ (alloc.buf = false ∨ alloc.pool = false)) ∧
        s.createCluster alloc addr n = (s, enomem) ∨
      ¬ (s.isBufferFull = true ∧ (alloc.buf = false ∨ alloc.pool = false)) ∧
        alloc.clusters = false ∧ s.createCluster alloc addr n = (s.withRoom, enomem) ∨
      ¬ (s.isBufferFull = true ∧ (alloc.buf = false ∨ alloc.pool = false)) ∧
        alloc.clusters = true ∧
        ∃ t : AddrSequence, s.createCluster alloc addr n =
            (t.saveIntoCluster (s.withRoom.freshCluster addr) addr n, 0) ∧
          t.addrClusters = s.addrClusters ++ [s.withRoom.freshCluster addr] ∧
          t.bufs = s.bufs ∧ t.bufPool = s.withRoom.bufPool ∧
          t.bufUsedCount = s.withRoom.bufUsedCount := by
  unfold createCluster
  rw [getFreeBuffer_eq]
  by_cases hbuf : s.isBufferFull = true ∧ (alloc.buf = false ∨ alloc.pool = false)
  · rw [if_pos hbuf]
    exact .inl ⟨hbuf, rfl⟩
  · rw [if_neg hbuf]
    cases halloc : alloc.clusters with
    | false => exact .inr (.inl ⟨hbuf, rfl, rfl⟩)
    | true =>
        refine .inr (.inr ⟨hbuf, rfl, _, rfl, ?_, s.withRoom_bufs, rfl, rfl⟩)
        show s.withRoom.addrClusters ++ _ = _
        rw [withRoom_addrClusters]
        rfl

/-! ### Saving -/

/-- Saving into the last cluster, when it ends where a buffer with room is free. -/
theorem saveIntoCluster_packed {s : AddrSequence} {c : AddrCluster} (addr n : ℕ)
    (hbuf : c.deltas.buf + 1 = s.bufPool) (hoff : c.deltas.off + c.size = s.bufUsedCount)
    (hroom : s.bufUsedCount < maxItemCount) :
    Packed (s.saveIntoCluster c addr n) ∧ SavedInside s (s.saveIntoCluster c addr n) := by
  have hlast : (s.saveIntoCluster c addr n).addrClusters.getLast? =
      some { c with size := c.size + 1 } := by
    simp [saveIntoCluster, setItem]
  have hpool : (s.saveIntoCluster c addr n).bufPool = s.bufPool := rfl
  have hused : (s.saveIntoCluster c addr n).bufUsedCount = s.bufUsedCount + 1 := rfl
  constructor
  · refine ⟨fun d hd => ?_, hused ▸ hroom, fun h => absurd (hbuf.trans h) (Nat.succ_ne_zero _)⟩
    rw [hlast] at hd
    cases hd
    exact ⟨hbuf, by rw [hused, ← hoff, Nat.add_assoc]⟩
  · refine ⟨_, hlast, Nat.succ_pos _, hpool ▸ hbuf ▸ Nat.lt_succ_self _, ?_, fun slot hne => ?_⟩
    · show c.deltas.off + (c.size + 1) ≤ maxItemCount
      omega
    · exact setItem_itemAt_of_ne s _ hne

theorem withRoom_spec {s : AddrSequence} (h : Packed s) :
    0 < s.withRoom.bufPool ∧ s.withRoom.bufUsedCount < maxItemCount := by
  unfold withRoom
  cases hfull : s.isBufferFull with
  | true => exact ⟨Nat.succ_pos _, maxItemCount_pos⟩
  | false =>
      have hne : s.bufUsedCount ≠ maxItemCount := of_decide_eq_false hfull
      exact ⟨Nat.pos_of_ne_zero fun h0 => hne (h.bufUsedCount_eq h0),
        lt_of_le_of_ne h.bufUsedCount_le hne⟩

/-- An append that takes a new buffer and then has no room in `addr_clusters`, while the last
cluster is in the buffer before. -/
def LosesBuffer (s : AddrSequence) (alloc : Alloc) (addr : ℕ) : Prop :=
  s.addrClusters ≠ [] ∧ s.lastClusterEnd < addr ∧ s.isBufferFull = true ∧
    alloc = ⟨true, true, false⟩

/-- A new buffer for nothing does no harm where there is no cluster yet. -/
theorem withRoom_packed {s : AddrSequence} (h : Packed s)
    (hkeep : s.isBufferFull = true → s.addrClusters = []) : Packed s.withRoom := by
  unfold withRoom
  cases hfull : s.isBufferFull with
  | false => exact h
  | true =>
      refine ⟨fun c hc => ?_, Nat.zero_le _, fun h0 => absurd h0 (Nat.succ_ne_zero _)⟩
      have hc : s.addrClusters.getLast? = some c := hc
      rw [hkeep hfull] at hc
      cases hc

theorem createCluster_spec {s : AddrSequence} (h : Packed s) {alloc : Alloc} {addr : ℕ} (n : ℕ)
    (hcreates : Creates s addr) :
    WritesInside s (s.createCluster alloc addr n) ∧
      (¬ LosesBuffer s alloc addr → Packed (s.createCluster alloc addr n).1) := by
  rcases createCluster_cases s alloc addr n with ⟨-, heq⟩ | ⟨hbuf, halloc, heq⟩ |
    ⟨-, -, t, heq, hclusters, hbufs, hpool, hused⟩
  · rw [heq]
    exact ⟨.inr ⟨enomem_ne_zero, rfl⟩, fun _ => h⟩
  · rw [heq]
    refine ⟨.inr ⟨enomem_ne_zero, s.withRoom_bufs⟩,
      fun hlost => withRoom_packed h fun hfull => ?_⟩
    rcases hcreates with hnil | ⟨hlt, -⟩
    · exact hnil
    · by_contra hne
      refine hlost ⟨hne, hlt, hfull, ?_⟩
      obtain ⟨buf, pool, clusters⟩ := alloc
      simp_all
  · obtain ⟨hpos, hroom⟩ := withRoom_spec h
    obtain ⟨hpacked, c, hlast, hsize, hbuf, hoff, hother⟩ :=
      saveIntoCluster_packed (s := t) (c := s.withRoom.freshCluster addr) addr n
        ((Nat.sub_add_cancel hpos).trans hpool.symm) hused.symm (hused ▸ hroom)
    rw [heq]
    exact ⟨.inl ⟨rfl, c, hlast, hsize, hbuf, hoff, fun slot hne => hbufs ▸ hother slot hne⟩,
      fun _ => hpacked⟩

theorem appendAddr_writes {s : AddrSequence} (h : Packed s) (alloc : Alloc) (addr n : ℕ) :
    WritesInside s (s.appendAddr alloc addr n) ∧
      (¬ LosesBuffer s alloc addr → Packed (s.appendAddr alloc addr n).1) := by
  unfold appendAddr
  cases hlast : s.addrClusters.getLast? with
  | none => exact createCluster_spec h n (.inl (List.getLast?_eq_none_iff.mp hlast))
  | some c =>
      simp only
      split
      · exact ⟨.inr ⟨ignoreDuplicatedAddr_ne_zero, rfl⟩, fun _ => h⟩
      · next habove =>
        split
        · next hmerge =>
          obtain ⟨hbuf, hoff⟩ := h.tail c hlast
          have hroom : s.bufUsedCount < maxItemCount := by
            refine lt_of_le_of_ne h.bufUsedCount_le fun hfull => ?_
            simp [canMergeIntoCluster, isBufferFull, hfull] at hmerge
          obtain ⟨hpacked, hsaved⟩ := saveIntoCluster_packed addr n hbuf hoff hroom
          exact ⟨.inl ⟨rfl, hsaved⟩, fun _ => hpacked⟩
        · next hmerge =>
          exact createCluster_spec h n (.inr ⟨not_le.mp habove, Bool.eq_false_iff.mpr hmerge⟩)

/-! ### Failing -/

/-- A visit does not look at the buffers' bookkeeping. -/
theorem getNext_withNewBuf (s : AddrSequence) :
    s.withNewBuf.getNext = (s.getNext.1.withNewBuf, s.getNext.2) := by
  have hread : s.withNewBuf.doWalk s.withNewBuf.walkIter = s.doWalk s.walkIter := rfl
  unfold getNext
  rw [hread]
  cases s.doWalk s.walkIter <;> rfl

theorem collectNext_withNewBuf (fuel : ℕ) (s : AddrSequence) :
    collectNext fuel s.withNewBuf = collectNext fuel s := by
  induction fuel generalizing s with
  | zero => rfl
  | succ fuel ih =>
      rw [collectNext, collectNext, getNext_withNewBuf]
      obtain ⟨t, r⟩ := s.getNext
      cases r with
      | none => rfl
      | some r => exact congrArg (r :: ·) (ih t)

theorem pages_withRoom (s : AddrSequence) : s.withRoom.pages = s.pages := by
  have hnew : s.withNewBuf.pages = s.pages := by
    have hfirst : s.withNewBuf.getFirst = (s.getFirst.1.withNewBuf, s.getFirst.2) := by
      unfold getFirst
      show (if s.addrClusters = [] then _ else _) = _
      split
      · rfl
      · exact getNext_withNewBuf { s with walkIter := s.resetIterator s.walkIter 0 }
    unfold pages
    rw [hfirst]
    obtain ⟨t, r⟩ := s.getFirst
    cases r with
    | none => rfl
    | some r => exact congrArg (r :: ·) (collectNext_withNewBuf s.addrSize t)
  unfold withRoom
  split
  · exact hnew
  · rfl

/-- A failing append says so and leaves the list as it was. -/
theorem appendAddr_fails {s : AddrSequence} {alloc : Alloc} {addr : ℕ} (n : ℕ)
    (h : AllocFails s alloc addr) :
    (s.appendAddr alloc addr n).2 = enomem ∧ (s.appendAddr alloc addr n).1.pages = s.pages := by
  have hcreate : (s.createCluster alloc addr n).2 = enomem ∧
      (s.createCluster alloc addr n).1.pages = s.pages := by
    rcases createCluster_cases s alloc addr n with ⟨-, heq⟩ | ⟨-, -, heq⟩ |
      ⟨hbuf, hclusters, -⟩
    · rw [heq]
      exact ⟨rfl, rfl⟩
    · rw [heq]
      exact ⟨rfl, pages_withRoom s⟩
    · rcases h.2 with hfails | hfails
      · exact absurd hfails hbuf
      · rw [hclusters] at hfails
        cases hfails
  unfold appendAddr
  cases hlast : s.addrClusters.getLast? with
  | none => exact hcreate
  | some c =>
      rcases h.1 with hnil | ⟨hlt, hmerge⟩
      · rw [hnil] at hlast
        cases hlast
      · simp only [if_neg (not_le.mpr hlt), hmerge]
        exact hcreate

/-! ### Runs -/

/-- A call of a run. -/
inductive AppendCall where
  | rewind
  | incPayload (alloc : Alloc) (addr n : ℕ)

def applyCall (s : AddrSequence) : AppendCall → AddrSequence
  | .rewind => s.rewind
  | .incPayload alloc addr n => (s.incPayload alloc addr n).1

/-- No append of the calls loses its buffer. -/
def KeepsBuffers (s : AddrSequence) : List AppendCall → Prop
  | [] => True
  | .rewind :: calls => KeepsBuffers s.rewind calls
  | .incPayload alloc addr n :: calls =>
      (s.inAppendPeriod = true → ¬ LosesBuffer s alloc addr) ∧
        KeepsBuffers (s.incPayload alloc addr n).1 calls

theorem packed_clear (s : AddrSequence) (shift : ℕ) : Packed (s.clear.setPageshift shift) :=
  ⟨fun _ hc => (List.getLast?_eq_some_iff.mp hc).elim fun _ h => by simp [setPageshift, clear] at h,
    le_rfl, fun _ => rfl⟩

theorem Packed.rewind {s : AddrSequence} (h : Packed s) : Packed s.rewind :=
  ⟨h.tail, h.bufUsedCount_le, h.bufUsedCount_eq⟩

theorem Packed.incPayload {s : AddrSequence} (h : Packed s) {alloc : Alloc} {addr : ℕ} (n : ℕ)
    (hkeeps : s.inAppendPeriod = true → ¬ LosesBuffer s alloc addr) :
    Packed (s.incPayload alloc addr n).1 := by
  unfold AddrSequence.incPayload
  split
  · next happend => exact (appendAddr_writes h alloc addr n).2 (hkeeps happend)
  · refine findLoop_rule (fun s iter h => ⟨h.tail, h.bufUsedCount_le, h.bufUsedCount_eq⟩)
      (fun s h => ?_) _ h
    unfold doWalkUpdatePayload
    simp only [if_true]
    split
    · exact h
    · exact ⟨h.tail, h.bufUsedCount_le, h.bufUsedCount_eq⟩

/-- What a run keeps. -/
theorem Packed.foldl {s : AddrSequence} (h : Packed s) {calls : List AppendCall}
    (hkeeps : KeepsBuffers s calls) : Packed (calls.foldl applyCall s) := by
  induction calls generalizing s with
  | nil => exact h
  | cons call calls ih =>
      cases call with
      | rewind => exact ih h.rewind hkeeps
      | incPayload alloc addr n => exact ih (h.incPayload n hkeeps.1) hkeeps.2

/-- In a run that loses no buffer, every append that fails says so and leaves the list as
it was, and every other one writes inside the buffer of its cluster. -/
theorem incPayload_allocFailure (s : AddrSequence) (shift : ℕ) (calls : List AppendCall)
    (hkeeps : KeepsBuffers (s.clear.setPageshift shift) calls) {t : AddrSequence}
    (ht : calls.foldl applyCall (s.clear.setPageshift shift) = t)
    (happend : t.inAppendPeriod = true) (alloc : Alloc) (addr n : ℕ) :
    (AllocFails t alloc addr →
      (t.incPayload alloc addr n).2 = enomem ∧ (t.incPayload alloc addr n).1.pages = t.pages) ∧
      WritesInside t (t.incPayload alloc addr n) := by
  have hpacked : Packed t := ht ▸ (packed_clear s shift).foldl hkeeps
  rw [incPayload, if_pos happend]
  exact ⟨appendAddr_fails n, (appendAddr_writes hpacked alloc addr n).1⟩

/-- A page far behind the first one, without room in `addr_clusters`. -/
theorem incPayload_allocFailure_secondCluster :
    let t := (init.clear.setPageshift 12).rewind.applyCall (.incPayload Alloc.ok 0x1000 1)
    (t.incPayload ⟨true, true, false⟩ 0x200000 1).2 = enomem ∧
      (t.incPayload ⟨true, true, false⟩ 0x200000 1).1.pages = [(0x1000, 1, -1)] := by
  have hfails := (incPayload_allocFailure init 12 [.rewind, .incPayload Alloc.ok 0x1000 1]
    ⟨fun _ hlost => hlost.1 rfl, trivial⟩ rfl (by decide) ⟨true, true, false⟩ 0x200000 1).1
    ⟨.inr ⟨by decide, by decide⟩, .inr rfl⟩
  exact ⟨hfails.1, hfails.2.trans (by decide)⟩

/-! ### A lost buffer -/

theorem appendAddr_losesBuffer {s : AddrSequence} {alloc : Alloc} {addr : ℕ}
    (h : LosesBuffer s alloc addr) (n : ℕ) :
    s.appendAddr alloc addr n = (s.withNewBuf, enomem) := by
  obtain ⟨hne, hlt, hfull, rfl⟩ := h
  have hmerge : s.canMergeIntoCluster addr = false := by simp [canMergeIntoCluster, hfull]
  have hcreate : s.createCluster ⟨true, true, false⟩ addr n = (s.withNewBuf, enomem) := by
    unfold createCluster
    rw [getFreeBuffer_eq]
    simp [withRoom, hfull]
  unfold appendAddr
  rw [List.getLast?_eq_some_getLast hne]
  simp only [if_neg (not_le.mpr hlt), hmerge]
  exact hcreate

/-- After a lost buffer the next page goes behind the end of the one before. -/
theorem not_writesInside_of_losesBuffer {s : AddrSequence} (h : Packed s)
    (hpagesize : s.pagesize = 2 ^ s.pageshift) {alloc : Alloc} {addr : ℕ}
    (hlost : LosesBuffer s alloc addr) (alloc' : Alloc) (m : ℕ) :
    ¬ WritesInside s.withNewBuf
      (s.withNewBuf.appendAddr alloc' (s.lastClusterEnd + s.pagesize) m) := by
  obtain ⟨hne, -, hfull, -⟩ := hlost
  obtain ⟨c, hlast⟩ : ∃ c, s.addrClusters.getLast? = some c :=
    ⟨_, List.getLast?_eq_some_getLast hne⟩
  have hcount : s.bufUsedCount = maxItemCount := of_decide_eq_true hfull
  have hpos : 0 < s.pagesize := hpagesize ▸ Nat.two_pow_pos _
  have hmerge : s.withNewBuf.canMergeIntoCluster (s.lastClusterEnd + s.pagesize) = true := by
    have hdist : (s.lastClusterEnd + s.pagesize - s.lastClusterEnd) >>> s.pageshift = 1 := by
      rw [Nat.add_sub_cancel_left, hpagesize, Nat.shiftRight_eq_div_pow,
        Nat.div_self (Nat.two_pow_pos _)]
    have halign : (s.lastClusterEnd + s.pagesize - s.lastClusterEnd) &&& (s.pagesize - 1) = 0 := by
      rw [Nat.add_sub_cancel_left, hpagesize, Nat.and_two_pow_sub_one_eq_mod, Nat.mod_self]
    have hempty : s.withNewBuf.isBufferFull = false := rfl
    simp only [canMergeIntoCluster, hempty]
    show (!(decide ((s.lastClusterEnd + s.pagesize - s.lastClusterEnd) >>> s.pageshift > _) ||
      false || decide ((s.lastClusterEnd + s.pagesize - s.lastClusterEnd) &&&
        (s.pagesize - 1) ≠ 0))) = true
    rw [hdist, halign]
    decide
  have hsave : s.withNewBuf.appendAddr alloc' (s.lastClusterEnd + s.pagesize) m =
      (s.withNewBuf.saveIntoCluster c (s.lastClusterEnd + s.pagesize) m, 0) := by
    unfold appendAddr
    have hlast' : s.withNewBuf.addrClusters.getLast? = some c := hlast
    rw [hlast']
    have hend : s.withNewBuf.lastClusterEnd = s.lastClusterEnd := rfl
    simp only [hend, if_neg (not_le.mpr (Nat.lt_add_of_pos_right hpos)), hmerge, if_true]
  rw [hsave]
  rintro (⟨-, d, hd, -, -, hle, -⟩ | ⟨hrc, -⟩)
  · have hd' : (s.withNewBuf.saveIntoCluster c (s.lastClusterEnd + s.pagesize)
        m).addrClusters.getLast? = some { c with size := c.size + 1 } := by
      simp [saveIntoCluster, setItem]
    rw [hd'] at hd
    cases hd
    have hoff := (h.tail c hlast).2
    change c.deltas.off + (c.size + 1) ≤ maxItemCount at hle
    omega
  · exact hrc rfl

/-- The first `k` 4 KB pages are stored, in one cluster. -/
structure FirstPages (k : ℕ) (s : AddrSequence) : Prop where
  addrClusters_eq : s.addrClusters = [⟨4096, k, ⟨0, 0⟩⟩]
  bufUsedCount_eq : s.bufUsedCount = k
  bufPool_eq : s.bufPool = 1
  lastClusterEnd_eq : s.lastClusterEnd = 4096 * k
  pageshift_eq : s.pageshift = 12
  pagesize_eq : s.pagesize = 4096
  nrWalks_eq : s.nrWalks = 1

theorem FirstPages.next {k : ℕ} {s : AddrSequence} (h : FirstPages k s) (hk : k < maxItemCount) :
    FirstPages (k + 1) (s.applyCall (.incPayload Alloc.ok (4096 * (k + 1)) 1)) := by
  have happend : s.inAppendPeriod = true := by simp [inAppendPeriod, h.nrWalks_eq]
  have hdelta : 4096 * (k + 1) - s.lastClusterEnd = 4096 := by
    rw [h.lastClusterEnd_eq]
    omega
  have hmerge : s.canMergeIntoCluster (4096 * (k + 1)) = true := by
    have hfull : s.isBufferFull = false := by
      rw [isBufferFull, h.bufUsedCount_eq]
      exact decide_eq_false hk.ne
    simp only [canMergeIntoCluster, hdelta, hfull, h.pageshift_eq, h.pagesize_eq]
    decide
  have hlast : s.addrClusters.getLast? = some ⟨4096, k, ⟨0, 0⟩⟩ := by rw [h.addrClusters_eq]; rfl
  have hlt : ¬ 4096 * (k + 1) ≤ s.lastClusterEnd := by
    rw [h.lastClusterEnd_eq]
    omega
  have hsave : s.applyCall (.incPayload Alloc.ok (4096 * (k + 1)) 1) =
      s.saveIntoCluster ⟨4096, k, ⟨0, 0⟩⟩ (4096 * (k + 1)) 1 := by
    rw [applyCall, incPayload, if_pos happend, appendAddr, hlast]
    simp only [if_neg hlt, hmerge, if_true]
  rw [hsave]
  refine ⟨?_, ?_, h.bufPool_eq, rfl, h.pageshift_eq, h.pagesize_eq, h.nrWalks_eq⟩
  · simp [saveIntoCluster, setItem, h.addrClusters_eq]
  · exact congrArg (· + 1) h.bufUsedCount_eq

/-- Appending the first `k` pages. -/
def firstPages (k : ℕ) : List AppendCall :=
  (List.range k).map fun i => .incPayload Alloc.ok (4096 * (i + 1)) 1

theorem foldl_firstPages {k : ℕ} (hk : k < maxItemCount) :
    FirstPages (k + 1) ((firstPages (k + 1)).foldl applyCall
      (init.clear.setPageshift 12).rewind) := by
  induction k with
  | zero => exact ⟨rfl, rfl, rfl, rfl, rfl, rfl, rfl⟩
  | succ k ih =>
      rw [firstPages, List.range_succ, List.map_append, List.foldl_append]
      exact (ih (by omega)).next hk

theorem FirstPages.packed {k : ℕ} {s : AddrSequence} (h : FirstPages k s) (hk : k ≤ maxItemCount) :
    Packed s := by
  refine ⟨fun c hc => ?_, h.bufUsedCount_eq ▸ hk, fun h0 => ?_⟩
  · rw [h.addrClusters_eq] at hc
    cases hc
    rw [h.bufPool_eq, h.bufUsedCount_eq]
    exact ⟨rfl, Nat.zero_add k⟩
  · rw [h.bufPool_eq] at h0
    cases h0

/-- With a full buffer the next page finds a new one and no room in `addr_clusters`; its
second attempt goes behind the end of the old one. -/
theorem FirstPages.behindBuffer {s : AddrSequence} (h : FirstPages maxItemCount s) :
    (s.applyCall (.incPayload ⟨true, true, false⟩ (4096 * 16385) 1)).inAppendPeriod = true ∧
      ¬ WritesInside (s.applyCall (.incPayload ⟨true, true, false⟩ (4096 * 16385) 1))
        ((s.applyCall (.incPayload ⟨true, true, false⟩ (4096 * 16385) 1)).incPayload Alloc.ok
          (4096 * 16385) 1) := by
  have happend : s.inAppendPeriod = true := by simp [inAppendPeriod, h.nrWalks_eq]
  have hnext : s.lastClusterEnd + s.pagesize = 4096 * 16385 := by
    rw [h.lastClusterEnd_eq, h.pagesize_eq]
    decide
  have hlost : LosesBuffer s ⟨true, true, false⟩ (4096 * 16385) := by
    refine ⟨by simp [h.addrClusters_eq], ?_, ?_, rfl⟩
    · rw [h.lastClusterEnd_eq]
      decide
    · exact decide_eq_true h.bufUsedCount_eq
  have hfails : s.applyCall (.incPayload ⟨true, true, false⟩ (4096 * 16385) 1) = s.withNewBuf := by
    rw [applyCall, incPayload, if_pos happend, appendAddr_losesBuffer hlost]
  have happend' : s.withNewBuf.inAppendPeriod = true := happend
  rw [hfails, incPayload, if_pos happend', ← hnext]
  refine ⟨happend', not_writesInside_of_losesBuffer (h.packed le_rfl) ?_ hlost _ _⟩
  rw [h.pagesize_eq, h.pageshift_eq]
  rfl

/-- The first 16384 pages fill a buffer. -/
theorem incPayload_behindBuffer :
    ∃ s t : AddrSequence,
      (.rewind :: firstPages maxItemCount).foldl applyCall (init.clear.setPageshift 12) = s ∧
      s.applyCall (.incPayload ⟨true, true, false⟩ (4096 * 16385) 1) = t ∧
      t.inAppendPeriod = true ∧ ¬ WritesInside t (t.incPayload Alloc.ok (4096 * 16385) 1) := by
  obtain ⟨k, hk⟩ : ∃ k, maxItemCount = k + 1 :=
    ⟨maxItemCount - 1, (Nat.sub_add_cancel maxItemCount_pos).symm⟩
  have hpages := foldl_firstPages (k := k) (by omega)
  rw [← hk] at hpages
  rw [List.foldl_cons, applyCall]
  exact ⟨_, _, rfl, rfl, hpages.behindBuffer⟩

end MemoryOptimizer.AddrSequence
