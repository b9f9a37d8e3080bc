import MemoryOptimizer.Lib.Words
import Mathlib.Logic.Function.Basic

/-!
# `AddrSequence`

The sparse array of page addresses behind every scan: addresses are cut into
clusters, a cluster stores one 8-bit page delta and one reference count per
address, and the clusters share 64 KB buffers.  This file translates
`AddrSequence.cc`.

* A buffer is a function from item index to `DeltaPayload`, and `buf_pool` is
  the number of buffers allocated so far; a `DeltaPayload*` is a buffer number
  and an index.
* A `walk_iterator` keeps the two cached pointers of the source, the current
  cluster and its items, next to the positions they were taken from.
* The three places where an append can run out of memory are outcomes of the
  environment (`Alloc`).
-/

namespace MemoryOptimizer

/-- `AddrSequence::LOC_*`: where the page resides. -/
inductive Location where
  | dram | pmem | unknow
  deriving DecidableEq, Repr

/-- `struct DeltaPayload`: one stored address. -/
structure DeltaPayload where
  delta : ℕ
  payload : ℕ
  nid : ℤ
  location : Location
  deriving DecidableEq, Repr

/-- A `DeltaPayload*`: a buffer of the pool and an index into it. -/
structure DeltaPtr where
  buf : ℕ
  off : ℕ
  deriving DecidableEq, Repr, Inhabited

/-- `struct AddrCluster`. -/
structure AddrCluster where
  start : ℕ
  size : ℕ
  deltas : DeltaPtr
  deriving DecidableEq, Repr, Inhabited

/-- `AddrSequence::walk_iterator`; `curCluster` and `curDelta` are the cached
`cur_cluster_ptr` (as an index into `addr_clusters`) and `cur_delta_ptr`. -/
structure WalkIterator where
  clusterIter : ℕ
  clusterIterEnd : ℕ
  deltaSum : ℕ
  deltaIndex : ℕ
  curCluster : ℕ
  curDelta : DeltaPtr
  deriving DecidableEq, Repr

/-- Which of the allocations of one append succeed: the buffer itself, the
growth of `buf_pool`, the growth of `addr_clusters`. -/
structure Alloc where
  buf : Bool
  pool : Bool
  clusters : Bool
  deriving DecidableEq, Repr

/-- No allocation fails. -/
def Alloc.ok : Alloc := ⟨true, true, true⟩

/-- `class AddrSequence`. -/
structure AddrSequence where
  nrWalks : ℕ
  pageshift : ℕ
  pagesize : ℕ
  addrSize : ℕ
  topBytes : Location → ℕ
  youngBytes : Location → ℕ
  addrClusters : List AddrCluster
  bufs : ℕ → ℕ → DeltaPayload
  bufPool : ℕ
  bufUsedCount : ℕ
  walkIter : WalkIterator
  findIter : WalkIterator
  lastClusterEnd : ℕ

namespace AddrSequence

def bufSize : ℕ := 0x10000
def itemSize : ℕ := 4
def maxItemCount : ℕ := bufSize / itemSize
def maxDeltaDist : ℕ := 255

/-! The error codes, and `-ENOMEM`. -/

def addrNotFound : ℤ := 101
def ignoreDuplicatedAddr : ℤ := 102
def endOfSequence : ℤ := 103
def enomem : ℤ := -12

variable (s : AddrSequence)

/-- Reading through a `DeltaPayload*`. -/
def item (p : DeltaPtr) (index : ℕ) : DeltaPayload := s.bufs p.buf (p.off + index)

/-- Reading through an `AddrCluster*`. -/
def cluster (index : ℕ) : AddrCluster := (s.addrClusters[index]?).getD default

/-- Writing through a `DeltaPayload*`. -/
def setItem (p : DeltaPtr) (index : ℕ) (d : DeltaPayload) : AddrSequence :=
  { s with
    bufs := Function.update s.bufs p.buf (Function.update (s.bufs p.buf) (p.off + index) d) }

/-! ### Iterators -/

/-- `do_walk_update_current_ptr`. -/
def doWalkUpdateCurrentPtr (iter : WalkIterator) : WalkIterator :=
  { iter with
    curCluster := iter.clusterIter
    curDelta := (s.cluster iter.clusterIter).deltas }

/-- `reset_iterator`. -/
def resetIterator (iter : WalkIterator) (newStart : ℕ) : WalkIterator :=
  let iter := { iter with
    clusterIter := newStart
    clusterIterEnd := s.addrClusters.length
    deltaSum := 0
    deltaIndex := 0 }
  if s.addrClusters = [] then iter else s.doWalkUpdateCurrentPtr iter

/-- `do_walk`: the address, count and node the iterator stands at; `none` is
`END_OF_SEQUENCE`. -/
def doWalk (iter : WalkIterator) : Option (ℕ × ℕ × ℤ) :=
  if iter.clusterIter = iter.clusterIterEnd then none else
    let d := s.item iter.curDelta iter.deltaIndex
    let deltaSum := iter.deltaSum + d.delta
    some (ulong ((s.cluster iter.curCluster).start + ulong (deltaSum <<< s.pageshift)),
      d.payload, d.nid)

/-- `do_walk_move_next`. -/
def doWalkMoveNext (iter : WalkIterator) : WalkIterator :=
  let d := s.item iter.curDelta iter.deltaIndex
  let iter := { iter with
    deltaSum := iter.deltaSum + d.delta, deltaIndex := iter.deltaIndex + 1 }
  if iter.deltaIndex ≥ (s.cluster iter.curCluster).size then
    let iter := { iter with
      deltaIndex := 0, deltaSum := 0, clusterIter := iter.clusterIter + 1 }
    if iter.clusterIter < iter.clusterIterEnd then s.doWalkUpdateCurrentPtr iter
    else iter
  else iter

/-- `update_addr_location_count`. -/
def updateAddrLocationCount (iter : WalkIterator) : AddrSequence :=
  let d := s.item iter.curDelta iter.deltaIndex
  { s with
    youngBytes :=
      if d.payload ≥ 1 then
        Function.update s.youngBytes d.location (s.youngBytes d.location + s.pagesize)
      else s.youngBytes
    topBytes :=
      if d.payload ≥ s.nrWalks then
        Function.update s.topBytes d.location (s.topBytes d.location + s.pagesize)
      else s.topBytes }

/-- `do_walk_update_payload`. -/
def doWalkUpdatePayload (iter : WalkIterator) (payload : ℕ) (isIncPayload : Bool) :
    AddrSequence :=
  let d := s.item iter.curDelta iter.deltaIndex
  if isIncPayload then
    if payload = 0 then s
    else
      (s.setItem iter.curDelta iter.deltaIndex
        { d with payload := uint8 (d.payload + 1) }).updateAddrLocationCount iter
  else
    (s.setItem iter.curDelta iter.deltaIndex
      { d with payload := payload }).updateAddrLocationCount iter

/-- `do_walk_update_nid`. -/
def doWalkUpdateNid (iter : WalkIterator) (nid : ℤ) (location : Location) : AddrSequence :=
  let d := s.item iter.curDelta iter.deltaIndex
  (s.setItem iter.curDelta iter.deltaIndex
    { d with nid := nid, location := location }).updateAddrLocationCount iter

/-! ### Appending -/

def inAppendPeriod : Bool := s.nrWalks < 2

/-- `is_buffer_full`. -/
def isBufferFull : Bool := s.bufUsedCount = maxItemCount

/-- `allocate_buf`. -/
def allocateBuf (alloc : Alloc) : AddrSequence × ℤ :=
  if alloc.buf && alloc.pool then
    ({ s with bufPool := s.bufPool + 1, bufUsedCount := 0 }, 0)
  else (s, enomem)

/-- `get_free_buffer`: the first free item of the last buffer. -/
def getFreeBuffer (alloc : Alloc) : AddrSequence × ℤ × DeltaPtr :=
  let (s, rc) := if s.isBufferFull then s.allocateBuf alloc else (s, 0)
  (s, rc, ⟨s.bufPool - 1, s.bufUsedCount⟩)

/-- `save_into_cluster`, for the last cluster. -/
def saveIntoCluster (cluster : AddrCluster) (addr n : ℕ) : AddrSequence :=
  let delta := (addr - s.lastClusterEnd) >>> s.pageshift
  let s := s.setItem cluster.deltas cluster.size
    ⟨uint8 delta, uint8 n, -1, Location.dram⟩
  { s with
    addrClusters := s.addrClusters.dropLast ++ [{ cluster with size := cluster.size + 1 }]
    bufUsedCount := s.bufUsedCount + 1
    addrSize := s.addrSize + 1
    lastClusterEnd := addr }

/-- `can_merge_into_cluster`. -/
def canMergeIntoCluster (addr : ℕ) : Bool :=
  let addrDelta := addr - s.lastClusterEnd
  let deltaDistance := addrDelta >>> s.pageshift
  let isNotAlign := addrDelta &&& (s.pagesize - 1)
  !(deltaDistance > maxDeltaDist || s.isBufferFull || isNotAlign ≠ 0)

/-- `create_cluster`, with `new_cluster`. -/
def createCluster (alloc : Alloc) (addr n : ℕ) : AddrSequence × ℤ :=
  let (s, rc, newBufPtr) := s.getFreeBuffer alloc
  if rc < 0 then (s, rc)
  else if !alloc.clusters then (s, enomem)
  else
    let cluster : AddrCluster := ⟨addr, 0, newBufPtr⟩
    let s := { s with
      addrClusters := s.addrClusters ++ [cluster], lastClusterEnd := addr }
    let s := { s with findIter := s.resetIterator s.findIter (s.addrClusters.length - 1) }
    (s.saveIntoCluster cluster addr n, 0)

/-- `append_addr`. -/
def appendAddr (alloc : Alloc) (addr n : ℕ) : AddrSequence × ℤ :=
  match s.addrClusters.getLast? with
  | none => s.createCluster alloc addr n
  | some cluster =>
      if addr ≤ s.lastClusterEnd then (s, ignoreDuplicatedAddr)
      else if s.canMergeIntoCluster addr then (s.saveIntoCluster cluster addr n, 0)
      else s.createCluster alloc addr n

/-! ### Updating -/

/-- The search loop shared by `update_addr` and `update_nodeid`: move `find_iter`
up to `addr` and apply `found` there.  The bound is on the iterations. -/
def findLoop (addr : ℕ) (found : AddrSequence → AddrSequence) :
    ℕ → AddrSequence → AddrSequence × ℤ
  | 0, s => (s, addrNotFound)
  | fuel + 1, s =>
      match s.doWalk s.findIter with
      | none => (s, addrNotFound)
      | some (nextAddr, _) =>
          if nextAddr = addr then (found s, 0)
          else if nextAddr > addr then (s, addrNotFound)
          else findLoop addr found fuel { s with findIter := s.doWalkMoveNext s.findIter }

/-- `update_addr`: every iteration passes one stored address. -/
def updateAddr (addr n : ℕ) (isIncPayload : Bool) : AddrSequence × ℤ :=
  findLoop addr (fun s => s.doWalkUpdatePayload s.findIter n isIncPayload)
    (s.addrSize + 1) s

/-- `update_nodeid`. -/
def updateNodeid (addr : ℕ) (nid : ℤ) (location : Location) : AddrSequence × ℤ :=
  if !s.inAppendPeriod then (s, -1)
  else
    findLoop addr (fun s => s.doWalkUpdateNid s.findIter nid location) (s.addrSize + 1) s

/-! ### The public operations -/

/-- `AddrSequence()`; the members it leaves uninitialised are zero here. -/
def init : AddrSequence :=
  { nrWalks := 0
    pageshift := 0
    pagesize := 0
    addrSize := 0
    topBytes := fun _ => 0
    youngBytes := fun _ => 0
    addrClusters := []
    bufs := fun _ _ => ⟨0, 0, 0, Location.dram⟩
    bufPool := 0
    bufUsedCount := maxItemCount
    walkIter := ⟨0, 0, 0, 0, 0, default⟩
    findIter := ⟨0, 0, 0, 0, 0, default⟩
    lastClusterEnd := 0 }

/-- `clear`, with `free_all_buf` and `clear_location_count`. -/
def clear : AddrSequence :=
  let s := { s with
    addrSize := 0
    nrWalks := 0
    addrClusters := []
    bufPool := 0
    bufUsedCount := maxItemCount }
  { s with
    findIter := s.resetIterator s.findIter 0
    topBytes := fun _ => 0
    youngBytes := fun _ => 0 }

/-- `set_pageshift`; the source computes `1 << shift` as an `int`, so for shifts up to 30. -/
def setPageshift (shift : ℕ) : AddrSequence :=
  { s with pageshift := shift, pagesize := 1 <<< shift }

/-- `rewind`: called before each walk. -/
def rewind : AddrSequence :=
  { s with
    findIter := s.resetIterator s.findIter 0
    nrWalks := s.nrWalks + 1
    lastClusterEnd := 0
    topBytes := fun _ => 0
    youngBytes := fun _ => 0 }

/-- `prepare_update`. -/
def prepareUpdate : AddrSequence :=
  { s with findIter := s.resetIterator s.findIter 0, lastClusterEnd := 0 }

/-- `inc_payload`. -/
def incPayload (alloc : Alloc) (addr n : ℕ) : AddrSequence × ℤ :=
  if s.inAppendPeriod then s.appendAddr alloc addr n else s.updateAddr addr n true

/-- `set_payload`. -/
def setPayload (addr n : ℕ) : AddrSequence × ℤ :=
  if s.inAppendPeriod then (s, -1) else s.updateAddr addr n false

/-- `size`. -/
def size : ℕ := s.addrSize

/-- `get_next`. -/
def getNext : AddrSequence × Option (ℕ × ℕ × ℤ) :=
  match s.doWalk s.walkIter with
  | none => (s, none)
  | some r => ({ s with walkIter := s.doWalkMoveNext s.walkIter }, some r)

/-- `get_first`, with `prepare_get`; `none` stands for every non-zero code. -/
def getFirst : AddrSequence × Option (ℕ × ℕ × ℤ) :=
  if s.addrClusters = [] then (s, none)
  else ({ s with walkIter := s.resetIterator s.walkIter 0 }).getNext

/-- Everything `get_next` still yields, with a bound on the calls. -/
def collectNext : ℕ → AddrSequence → List (ℕ × ℕ × ℤ)
  | 0, _ => []
  | fuel + 1, s =>
      match s.getNext with
      | (_, none) => []
      | (s, some r) => r :: collectNext fuel s

/-- The visit loop of every caller: `get_first`, then `get_next` until it
returns non-zero. -/
def pages : List (ℕ × ℕ × ℤ) :=
  match s.getFirst with
  | (_, none) => []
  | (s', some r) => r :: collectNext s.addrSize s'

end AddrSequence

end MemoryOptimizer
