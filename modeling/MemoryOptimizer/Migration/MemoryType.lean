import MemoryOptimizer.AddrSequence.Visit
import MemoryOptimizer.Lib.Loops
import MemoryOptimizer.Migration.Histogram

/-!
# The nodes of the pages

`EPTScan::get_memory_type` visits the pages of every type in the append period, asks
`move_pages` for their nodes in batches of 1024, and writes each batch back into the
sequence it is still visiting.

* `getMemoryTypeRange_visit` — one batch, from where the visit stands.
* `locateLoop_visit` — the loop, whatever the batches that fail.
* `getMemoryType_locates` — every page gets the node that was found for its address.
-/

namespace MemoryOptimizer

open AddrSequence

namespace EPTScan

/-- The answer of `move_pages` for a batch: its result, and `addr_locate`. -/
structure LocateAnswer where
  ret : ℤ
  addrLocate : ℕ → ℤ

section Locate

variable (numa : NumaNodeCollection)

/-- The location of a node id; `none` is the exception of `get_node`. -/
def nodeLocation (nid : ℤ) : Option Location :=
  if nid ≥ 0 then
    if nid.toNat < numa.nodeMap.length then
      match numa.getNode nid with
      | some node => some (if node.isPmem then .pmem else .dram)
      | none => some .unknow
    else none
  else some .unknow

/-- The body of the loop of `get_memory_type_range`; `none` is `exit` or an exception. -/
def locatePage (addr : ℕ) (nid : ℤ) (s : AddrSequence) : Option AddrSequence :=
  let nid := if nid < -128 then -128 else nid
  if nid > maxNid then none
  else do
    let location ← nodeLocation numa nid
    pure (s.updateNodeid addr (signedChar nid) location).1

/-- The loop of `get_memory_type_range`, from index `i` on. -/
def locatePages (addrLocate : ℕ → ℤ) : ℕ → List ℕ → AddrSequence → Option AddrSequence
  | _, [], s => some s
  | i, addr :: addrs, s => do
      let s ← locatePage numa addr (addrLocate i) s
      locatePages addrLocate (i + 1) addrs s

/-- `get_memory_type_range`. -/
def getMemoryTypeRange (answer : LocateAnswer) (addrs : List ℕ) (s : AddrSequence) :
    Option AddrSequence :=
  if answer.ret < 0 then some s else locatePages numa answer.addrLocate 0 addrs s

/-- The batch size. -/
def locateBatch : ℕ := 1024

variable (locator : ℕ → List ℕ → LocateAnswer)

/-- The loop of `get_memory_type`, for one page type, from the page that was read last:
`addr_set` holds the addresses of batch `k` so far. The first argument bounds the
iterations. -/
def locateLoop : ℕ → ℕ → List ℕ → AddrSequence → ℕ → Option AddrSequence
  | 0, _, _, _, _ => none
  | fuel + 1, k, addrSet, s, addr => do
      let addrSet := addrSet ++ [addr]
      let full := addrSet.length ≥ locateBatch
      let s ← if full then getMemoryTypeRange numa (locator k addrSet) addrSet s else some s
      let k := if full then k + 1 else k
      let addrSet := if full then [] else addrSet
      match s.getNext with
      | (s, some (addr, _)) => locateLoop fuel k addrSet s addr
      | (s, none) =>
          -- the rest of the last batch
          if addrSet.length ≠ 0 then getMemoryTypeRange numa (locator k addrSet) addrSet s
          else some s

/-- `get_memory_type`, for one page type. -/
def getMemoryTypeOne (s : AddrSequence) : Option AddrSequence :=
  match s.prepareUpdate.getFirst with
  | (s, none) => some s
  | (s, some (addr, _)) => locateLoop numa locator s.addrSize 0 [] s addr

end Locate

/-- `get_memory_type`; the locator answers for batch `k` of the `i`-th sequence. -/
def getMemoryType (numa : NumaNodeCollection) (locator : ℕ → ℕ → List ℕ → LocateAnswer)
    (pagetypeRefs : List AddrSequence) : Option (List AddrSequence) :=
  (pagetypeRefs.zipIdx).mapM fun each => getMemoryTypeOne numa (locator each.2) each.1

/-! ### What a page learns -/

/-- The location of a node. -/
def locationOf (numa : NumaNodeCollection) (nid : ℤ) : Location :=
  if numa.isPmemNid nid then .pmem else if numa.isDramNid nid then .dram else .unknow

/-- The `i`-th page of a batch after the answer. -/
def located (numa : NumaNodeCollection) (answer : LocateAnswer) (i : ℕ) (d : DeltaPayload) :
    DeltaPayload :=
  if answer.ret < 0 then d
  else withNid (max (answer.addrLocate i) (-128)) (locationOf numa (answer.addrLocate i)) d

/-- The answers for the pages of a batch of `n` have node ids that the topology can look
up, or the batch has failed. -/
def LocateAnswer.Known (numa : NumaNodeCollection) (n : ℕ) (answer : LocateAnswer) : Prop :=
  0 ≤ answer.ret → ∀ i < n, answer.addrLocate i ≤ maxNid ∧
    (0 ≤ answer.addrLocate i → (answer.addrLocate i).toNat < numa.nodeMap.length)

/-- The addresses of batch `k`. -/
def batch (s : AddrSequence) (k : ℕ) : List ℕ :=
  (((items s).map Prod.fst).drop (locateBatch * k)).take locateBatch

/-- What page `j` of the sequence learns. -/
def learns (numa : NumaNodeCollection) (locator : ℕ → List ℕ → LocateAnswer) (s : AddrSequence)
    (j : ℕ) : DeltaPayload → DeltaPayload :=
  located numa (locator (j / locateBatch) (batch s (j / locateBatch))) (j % locateBatch)

theorem nodeLocation_eq {numa : NumaNodeCollection} {nid : ℤ}
    (h : 0 ≤ nid → nid.toNat < numa.nodeMap.length) :
    nodeLocation numa nid = some (locationOf numa nid) := by
  unfold nodeLocation locationOf NumaNodeCollection.isPmemNid NumaNodeCollection.isDramNid
  by_cases hneg : 0 ≤ nid
  · rw [if_pos hneg, if_pos (h hneg)]
    cases numa.getNode nid with
    | none => rfl
    | some node => cases hp : node.isPmem <;> simp [hp]
  · have hnone : numa.getNode nid = none := if_neg hneg
    simp [hneg, hnone]

theorem locatePage_eq {numa : NumaNodeCollection} {nid : ℤ} (hle : nid ≤ maxNid)
    (h : 0 ≤ nid → nid.toNat < numa.nodeMap.length) (addr : ℕ) (s : AddrSequence) :
    locatePage numa addr nid s =
      some (s.updateNodeid addr (max nid (-128)) (locationOf numa nid)).1 := by
  have hmax : (maxNid : ℤ) = 31 := rfl
  have hclamp : (if nid < -128 then -128 else nid) = max nid (-128) := by omega
  have hlocation : locationOf numa (max nid (-128)) = locationOf numa nid := by
    rcases le_total (-128) nid with hge | hlow
    · rw [max_eq_left hge]
    · have hnone : ∀ n : ℤ, n < 0 → numa.getNode n = none := fun n hn => if_neg (not_le.mpr hn)
      simp [locationOf, NumaNodeCollection.isPmemNid, NumaNodeCollection.isDramNid,
        hnone nid (by omega), hnone (max nid (-128)) (by omega)]
  simp only [locatePage, hclamp]
  rw [if_neg (by omega), nodeLocation_eq (fun hpos => by
    rw [max_eq_left (by omega)] at hpos ⊢
    exact h hpos), hlocation, signedChar_of_bounds (le_max_right _ _) (by omega)]
  rfl

/-! ### The batches -/

section Visit

variable {numa : NumaNodeCollection} {g : ℕ → DeltaPayload → DeltaPayload}
  {s₀ : AddrSequence} (happend : s₀.inAppendPeriod = true)
include happend

/-- The pages of a batch, from index `i` on. -/
theorem locatePages_visit {answer : LocateAnswer} (hret : 0 ≤ answer.ret) {addrs : List ℕ} {i : ℕ}
    {s : AddrSequence} {n m : ℕ} (h : Visit g s₀ s n m)
    (haddrs : ∀ j < addrs.length, ∃ x, (allStored s₀)[n + j]? = some x ∧ addrs[j]? = some x.addr)
    (hknown : LocateAnswer.Known numa (i + addrs.length) answer)
    (hg : ∀ j < addrs.length, g (n + j) = located numa answer (i + j)) :
    ∃ s', locatePages numa answer.addrLocate i addrs s = some s' ∧
      Visit g s₀ s' (n + addrs.length) m := by
  induction addrs generalizing i s n with
  | nil => exact ⟨s, rfl, h⟩
  | cons addr addrs ih =>
      obtain ⟨x, hx, hfirst⟩ := haddrs 0 (Nat.succ_pos _)
      obtain rfl : addr = x.addr := Option.some_inj.mp hfirst
      obtain ⟨hle, hlookup⟩ := hknown hret i (by simp)
      have hwrite : withNid (max (answer.addrLocate i) (-128))
          (locationOf numa (answer.addrLocate i)) (itemAt s₀.bufs x.slot) =
            g n (itemAt s₀.bufs x.slot) := by
        have hgn := hg 0 (Nat.succ_pos _)
        rw [Nat.add_zero, Nat.add_zero] at hgn
        rw [hgn, located, if_neg (not_lt.mpr hret)]
      have hnext := h.rewrite (writes_updateNid (max (answer.addrLocate i) (-128))
        (locationOf numa (answer.addrLocate i))) hx hwrite
      have happend' : s.inAppendPeriod = true := by
        rw [inAppendPeriod, h.nrWalks_eq]
        exact happend
      rw [locatePages, locatePage_eq hle hlookup, updateNodeid]
      simp only [happend', Bool.not_true, Bool.false_eq_true, if_false, Option.bind_eq_bind,
        Option.bind_some]
      have hlen : n + (x.addr :: addrs).length = n + 1 + addrs.length := by
        rw [List.length_cons]
        omega
      rw [hlen]
      refine ih hnext (fun j hj => ?_) ?_ fun j hj => ?_
      · obtain ⟨y, hy, haddr⟩ := haddrs (j + 1) (by simpa using hj)
        exact ⟨y, by rw [← hy]; congr 1; omega, haddr⟩
      · rwa [show i + 1 + addrs.length = i + (x.addr :: addrs).length by
          rw [List.length_cons]; omega]
      · have := hg (j + 1) (by simpa using hj)
        rwa [show n + 1 + j = n + (j + 1) by omega, show i + 1 + j = i + (j + 1) by omega]

/-- A batch, answered or failed. -/
theorem getMemoryTypeRange_visit {answer : LocateAnswer} {addrs : List ℕ} {s : AddrSequence}
    {n m : ℕ} (h : Visit g s₀ s n m)
    (haddrs : ∀ j < addrs.length, ∃ x, (allStored s₀)[n + j]? = some x ∧ addrs[j]? = some x.addr)
    (hknown : LocateAnswer.Known numa addrs.length answer)
    (hg : ∀ j < addrs.length, g (n + j) = located numa answer j) :
    ∃ s', getMemoryTypeRange numa answer addrs s = some s' ∧
      Visit g s₀ s' (n + addrs.length) m := by
  rw [getMemoryTypeRange]
  split
  · next hfailed =>
    refine ⟨s, rfl, h.skip (Nat.le_add_right _ _) fun j hge hlt d => ?_⟩
    have := hg (j - n) (by omega)
    rw [Nat.add_sub_cancel' hge] at this
    rw [this, located, if_pos hfailed]
  · next hret =>
    refine locatePages_visit happend (not_lt.mp hret) h haddrs ?_ fun j hj => ?_
    · rwa [Nat.zero_add]
    · rw [hg j hj, Nat.zero_add]

end Visit

/-! ### The loop -/

theorem fst_items (s : AddrSequence) : (items s).map Prod.fst = (allStored s).map Stored.addr := by
  rw [items, List.map_map]
  rfl

section Loop

variable {numa : NumaNodeCollection} {locator : ℕ → List ℕ → LocateAnswer} {s₀ : AddrSequence}
  (happend : s₀.inAppendPeriod = true)
  (hknown : ∀ k addrs, LocateAnswer.Known numa addrs.length (locator k addrs))
include happend hknown

/-- The addresses collected for a batch are written back as one. -/
theorem flush_visit {s : AddrSequence} {k len m : ℕ}
    (h : Visit (learns numa locator s₀) s₀ s (locateBatch * k) m)
    (hle : locateBatch * k + len ≤ (allStored s₀).length)
    (hbatch : batch s₀ k = (((items s₀).map Prod.fst).drop (locateBatch * k)).take len) :
    ∃ s', getMemoryTypeRange numa (locator k (batch s₀ k)) (batch s₀ k) s = some s' ∧
      Visit (learns numa locator s₀) s₀ s' (locateBatch * k + len) m := by
  have hlength : (batch s₀ k).length = len := by
    rw [hbatch, fst_items, List.length_take, List.length_drop, List.length_map]
    omega
  have hmax : len ≤ locateBatch := by
    rw [← hlength, batch, List.length_take]
    exact min_le_left _ _
  rw [← hlength]
  refine getMemoryTypeRange_visit happend h (fun j hj => ?_) (hknown k _) fun j hj => ?_
  · rw [hlength] at hj
    have hlt : locateBatch * k + j < (allStored s₀).length := by omega
    refine ⟨(allStored s₀)[locateBatch * k + j], List.getElem?_eq_getElem hlt, ?_⟩
    rw [hbatch, fst_items, List.getElem?_take_of_lt hj, List.getElem?_drop, List.getElem?_map,
      List.getElem?_eq_getElem hlt, Option.map_some]
  · have hpos : 0 < locateBatch := Nat.succ_pos _
    have hlt : j < locateBatch := (hlength ▸ hj).trans_le hmax
    rw [learns, Nat.mul_add_div hpos, Nat.div_eq_of_lt hlt, Nat.add_zero, Nat.mul_add_mod,
      Nat.mod_eq_of_lt hlt]

/-- The loop, from any point of the visit on: the pages before batch `k` have learned
their nodes, and `addr_set` holds the addresses of batch `k` that were read. -/
theorem locateLoop_visit {fuel : ℕ} {s : AddrSequence} {k m : ℕ} {x : Stored}
    (hx : (allStored s₀)[locateBatch * k + m]? = some x) (hm : m < locateBatch)
    (h : Visit (learns numa locator s₀) s₀ s (locateBatch * k) (locateBatch * k + m + 1))
    (hfuel : (allStored s₀).length ≤ fuel + (locateBatch * k + m)) :
    ∃ t, locateLoop numa locator fuel k
        ((((items s₀).map Prod.fst).drop (locateBatch * k)).take m) s x.addr = some t ∧
      t.addrSize = s₀.addrSize ∧
      items t = (items s₀).mapIdx fun j p => (p.1, learns numa locator s₀ j p.2) := by
  induction fuel generalizing s k m x with
  | zero =>
      obtain ⟨hlt, -⟩ := List.getElem?_eq_some_iff.mp hx
      omega
  | succ fuel ih =>
      obtain ⟨hlt, hget⟩ := List.getElem?_eq_some_iff.mp hx
      have hset : (((items s₀).map Prod.fst).drop (locateBatch * k)).take m ++ [x.addr] =
          (((items s₀).map Prod.fst).drop (locateBatch * k)).take (m + 1) := by
        rw [List.take_add_one, fst_items, List.getElem?_drop, List.getElem?_map, hx]
        rfl
      have hlength : ((((items s₀).map Prod.fst).drop (locateBatch * k)).take (m + 1)).length =
          m + 1 := by
        rw [fst_items, List.length_take, List.length_drop, List.length_map]
        omega
      rw [locateLoop]
      simp only [hset, hlength]
      by_cases hfull : m + 1 = locateBatch
      · -- the batch is full: it is written back before the next page is read
        have hbatch : batch s₀ k =
            (((items s₀).map Prod.fst).drop (locateBatch * k)).take (m + 1) := by
          rw [batch, hfull]
        obtain ⟨s₁, hrange, hvisit⟩ := flush_visit happend hknown h (Nat.succ_le_of_lt hlt) hbatch
        have hnext : locateBatch * k + (m + 1) = locateBatch * (k + 1) := by
          rw [hfull, Nat.mul_succ]
        simp only [ge_iff_le, hfull.ge, if_true, ← hbatch, hrange, Option.bind_eq_bind,
          Option.bind_some]
        cases hy : (allStored s₀)[locateBatch * k + m + 1]? with
        | none =>
            have hend := List.getElem?_eq_none_iff.mp hy
            rw [hvisit.getNext_end hend]
            exact ⟨s₁, by simp, hvisit.addrSize_eq, hvisit.items_of_done hend⟩
        | some y =>
            obtain ⟨s₂, hread, hvisit₂⟩ := hvisit.read hy
            rw [hread]
            have hstart : locateBatch * k + m + 1 = locateBatch * (k + 1) + 0 := hnext
            rw [hnext, hstart] at hvisit₂
            rw [hstart] at hy
            exact ih hy (Nat.succ_pos _) hvisit₂ (by omega)
      · have hnot : ¬locateBatch ≤ m + 1 := by omega
        simp only [ge_iff_le, hnot, if_false, Option.bind_eq_bind, Option.bind_some]
        cases hy : (allStored s₀)[locateBatch * k + m + 1]? with
        | none =>
            -- the rest of the pages is the last batch
            have hend := List.getElem?_eq_none_iff.mp hy
            have hbatch : batch s₀ k =
                (((items s₀).map Prod.fst).drop (locateBatch * k)).take (m + 1) := by
              rw [batch, List.take_of_length_le, List.take_of_length_le] <;>
                rw [fst_items, List.length_drop, List.length_map] <;> omega
            obtain ⟨t, hrange, hvisit⟩ :=
              flush_visit happend hknown h (Nat.succ_le_of_lt hlt) hbatch
            have hne : (batch s₀ k).length ≠ 0 := by
              rw [hbatch, hlength]
              exact Nat.succ_ne_zero m
            rw [h.getNext_end hend, ← hbatch]
            simp only [if_pos hne]
            exact ⟨t, hrange, hvisit.addrSize_eq, hvisit.items_of_done hend⟩
        | some y =>
            obtain ⟨s₂, hread, hvisit₂⟩ := h.read hy
            rw [hread]
            exact ih hy (by omega) hvisit₂ (by omega)

/-- One page type. -/
theorem getMemoryTypeOne_spec (lay : Layout s₀) :
    ∃ t, getMemoryTypeOne numa locator s₀ = some t ∧ t.size = s₀.size ∧
      items t = (items s₀).mapIdx fun j p => (p.1, learns numa locator s₀ j p.2) := by
  rw [getMemoryTypeOne]
  cases hx : (allStored s₀)[0]? with
  | none =>
      have hnil : allStored s₀ = [] := by simpa using hx
      have hitems : items s₀ = [] := by rw [items, hnil, List.map_nil]
      rw [getFirst_of_nil lay hnil]
      refine ⟨_, rfl, rfl, ?_⟩
      rw [hitems]
      exact hitems
  | some x =>
      obtain ⟨s, hfirst, hvisit⟩ := visit_getFirst (learns numa locator s₀) lay hx
      rw [hfirst]
      refine locateLoop_visit happend hknown (m := 0) (k := 0) hx (Nat.succ_pos _) hvisit ?_
      rw [hvisit.addrSize_eq, lay.addrSize_eq]
      omega

end Loop

/-- The position of a page in its batch. -/
theorem batch_getElem? {s : AddrSequence} {j : ℕ} {p : ℕ × DeltaPayload}
    (hp : (items s)[j]? = some p) :
    (batch s (j / locateBatch))[j % locateBatch]? = some p.1 := by
  have hlt : j % locateBatch < locateBatch := Nat.mod_lt j (Nat.succ_pos _)
  rw [batch, List.getElem?_take_of_lt hlt, List.getElem?_drop, Nat.div_add_mod,
    List.getElem?_map, hp, Option.map_some]

/-- Every set of sequences in the append period, every topology and every answer that it
can look up: a page of a batch that did not fail gets the node that was found for its own
address and the location of that node, and nothing else changes. -/
theorem getMemoryType_locates (numa : NumaNodeCollection)
    (locator : ℕ → ℕ → List ℕ → LocateAnswer) {pagetypeRefs : List AddrSequence}
    (huse : ∀ s ∈ pagetypeRefs, InUse s ∧ s.inAppendPeriod = true)
    (hknown : ∀ i k addrs, LocateAnswer.Known numa addrs.length (locator i k addrs)) :
    ∃ refs, getMemoryType numa locator pagetypeRefs = some refs ∧
      refs.length = pagetypeRefs.length ∧
      ∀ i s t, pagetypeRefs[i]? = some s → refs[i]? = some t →
        t.size = s.size ∧ (items t).length = (items s).length ∧
          ∀ j addr d, (items s)[j]? = some (addr, d) →
            (batch s (j / locateBatch))[j % locateBatch]? = some addr ∧
              (items t)[j]? = some (addr, located numa
                (locator i (j / locateBatch) (batch s (j / locateBatch))) (j % locateBatch) d) := by
  obtain ⟨refs, hrefs, hlength, hspec⟩ := mapM_zipIdx_total
    (f := fun each => getMemoryTypeOne numa (locator each.2) each.1)
    (P := fun i s t => t.size = s.size ∧
      items t = (items s).mapIdx fun j p => (p.1, learns numa (locator i) s j p.2))
    pagetypeRefs 0 fun s hs i =>
      getMemoryTypeOne_spec (huse s hs).2 (hknown i) (huse s hs).1.layout
  refine ⟨refs, hrefs, hlength, fun i s t hs ht => ?_⟩
  obtain ⟨hsize, hitems⟩ := hspec i s t hs ht
  rw [Nat.zero_add] at hitems
  refine ⟨hsize, by rw [hitems, List.length_mapIdx], fun j addr d hp => ⟨batch_getElem? hp, ?_⟩⟩
  rw [hitems, List.getElem?_mapIdx, hp]
  rfl

/-- Two pages and one batch: the first page lies on node 1, the second is not mapped. -/
theorem getMemoryType_locates_two :
    let numa : NumaNodeCollection :=
      ⟨[some ⟨0, .dram, none, none⟩, some ⟨1, .pmem, none, none⟩]⟩
    let locator : ℕ → ℕ → List ℕ → LocateAnswer :=
      fun _ _ _ => ⟨0, fun i => if i = 0 then 1 else -14⟩
    let s := (init.clear.setPageshift 12).walk [(0x1000, 1), (0x2000, 0)]
    ∃ refs, getMemoryType numa locator [s] = some refs ∧ refs.length = 1 ∧
      ∀ i s' t, [s][i]? = some s' → refs[i]? = some t →
        t.size = s'.size ∧ (items t).length = (items s').length ∧
          ∀ j addr d, (items s')[j]? = some (addr, d) →
            (batch s' (j / locateBatch))[j % locateBatch]? = some addr ∧
              (items t)[j]? = some (addr, located numa
                (locator i (j / locateBatch) (batch s' (j / locateBatch))) (j % locateBatch)
                d) := by
  refine getMemoryType_locates _ _ (fun s hs => ?_) fun i k addrs _ j _ => ?_
  · rw [List.mem_singleton] at hs
    subst hs
    exact ⟨.firstWalk init 12 _ (by decide), by decide⟩
  · dsimp only
    split <;> decide

end EPTScan

end MemoryOptimizer
