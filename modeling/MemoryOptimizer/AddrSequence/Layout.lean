import MemoryOptimizer.AddrSequence.Basic
import Mathlib.Data.List.Pairwise
import Mathlib.Data.Nat.Bits
import Mathlib.Tactic.Ring

/-!
# The layout of an `AddrSequence`

Where the stored addresses live.  `stored` reads the items of one cluster from
its deltas, `allStored` lines up all clusters, and a `WalkIterator` denotes the
part of that line still ahead of it (`remaining`).

* `allStored`, `contents` — the sequence as a list;
* `setItem_itemAt_of_ne`, `storedOf_congr` — what a write leaves alone;
* `doWalk_remaining`, `remaining_moveNext` — an iterator reads the head of
  `remaining` and steps to its tail, so every loop over an iterator is a
  recursion over that list.
-/

namespace MemoryOptimizer.AddrSequence

/-- One stored address and the slot of the buffers that holds its item. -/
structure Stored where
  addr : ℕ
  slot : DeltaPtr
  deriving DecidableEq, Repr

/-- The slot of the `index`-th item of a cluster. -/
def slotOf (c : AddrCluster) (index : ℕ) : DeltaPtr := ⟨c.deltas.buf, c.deltas.off + index⟩

/-- The item in a slot. -/
def itemAt (bufs : ℕ → ℕ → DeltaPayload) (slot : DeltaPtr) : DeltaPayload :=
  bufs slot.buf slot.off

section Items

variable (bufs : ℕ → ℕ → DeltaPayload)

/-- `n` items of a cluster from `index` on, `sum` being the deltas before it. -/
def stored (shift : ℕ) (c : AddrCluster) : ℕ → ℕ → ℕ → List Stored
  | _, _, 0 => []
  | sum, index, n + 1 =>
      ⟨ulong (c.start + ulong ((sum + (itemAt bufs (slotOf c index)).delta) <<< shift)),
        slotOf c index⟩ ::
        stored shift c (sum + (itemAt bufs (slotOf c index)).delta) (index + 1) n

/-- The sum of the deltas after `n` more items. -/
def spanFrom (c : AddrCluster) : ℕ → ℕ → ℕ → ℕ
  | sum, _, 0 => sum
  | sum, index, n + 1 =>
      spanFrom c (sum + (itemAt bufs (slotOf c index)).delta) (index + 1) n

/-- The items of a list of clusters, in order. -/
def storedOf (shift : ℕ) (cs : List AddrCluster) : List Stored :=
  cs.flatMap fun c => stored bufs shift c 0 0 c.size

end Items

/-- Every stored address, in order. -/
def allStored (s : AddrSequence) : List Stored := storedOf s.bufs s.pageshift s.addrClusters

/-- The count stored for an item. -/
def payloadAt (s : AddrSequence) (x : Stored) : ℕ := (itemAt s.bufs x.slot).payload

/-- What a caller can learn of an item. -/
def view (s : AddrSequence) (x : Stored) : ℕ × ℕ × ℤ :=
  (x.addr, payloadAt s x, (itemAt s.bufs x.slot).nid)

/-- The sequence as a list of addresses with their counts. -/
def contents (s : AddrSequence) : List (ℕ × ℕ) :=
  (allStored s).map fun x => (x.addr, payloadAt s x)

/-! ### Items under writes -/

theorem setItem_itemAt_self (s : AddrSequence) (c : AddrCluster) (i : ℕ)
    (d : DeltaPayload) : itemAt (s.setItem c.deltas i d).bufs (slotOf c i) = d := by
  simp [setItem, itemAt, slotOf]

theorem setItem_itemAt_of_ne (s : AddrSequence) {p : DeltaPtr} {i : ℕ} (d : DeltaPayload)
    {slot : DeltaPtr} (hne : slot ≠ ⟨p.buf, p.off + i⟩) :
    itemAt (s.setItem p i d).bufs slot = itemAt s.bufs slot := by
  by_cases hb : slot.buf = p.buf
  · have ho : slot.off ≠ p.off + i := fun h => hne (by cases slot; simp_all)
    simp [setItem, itemAt, hb, Function.update_of_ne ho]
  · simp [setItem, itemAt, Function.update_of_ne hb]

theorem slots_stored (bufs : ℕ → ℕ → DeltaPayload) (shift : ℕ) (c : AddrCluster)
    (sum index n : ℕ) :
    (stored bufs shift c sum index n).map Stored.slot =
      (List.range' index n).map (slotOf c) := by
  induction n generalizing sum index with
  | zero => rfl
  | succ n ih => simp [stored, List.range'_succ, ih]

section Congr

variable {bufs bufs' : ℕ → ℕ → DeltaPayload}

/-- Items are determined by the deltas in their slots. -/
theorem stored_congr (shift : ℕ) (c : AddrCluster) (sum index n : ℕ)
    (hdelta : ∀ i, index ≤ i → i < index + n →
      (itemAt bufs' (slotOf c i)).delta = (itemAt bufs (slotOf c i)).delta) :
    stored bufs' shift c sum index n = stored bufs shift c sum index n := by
  induction n generalizing sum index with
  | zero => rfl
  | succ n ih =>
      have h0 := hdelta index le_rfl (by omega)
      simp only [stored, h0]
      rw [ih _ _ fun i h1 h2 => hdelta i (by omega) (by omega)]

theorem spanFrom_congr (c : AddrCluster) (sum index n : ℕ)
    (hdelta : ∀ i, index ≤ i → i < index + n →
      (itemAt bufs' (slotOf c i)).delta = (itemAt bufs (slotOf c i)).delta) :
    spanFrom bufs' c sum index n = spanFrom bufs c sum index n := by
  induction n generalizing sum index with
  | zero => rfl
  | succ n ih =>
      have h0 := hdelta index le_rfl (by omega)
      simp only [spanFrom, h0]
      exact ih _ _ fun i h1 h2 => hdelta i (by omega) (by omega)

/-- Two buffers with the same deltas in the slots of some clusters hold the
same addresses there. -/
theorem storedOf_congr (shift : ℕ) (cs : List AddrCluster)
    (hsame : ∀ x ∈ storedOf bufs shift cs,
      (itemAt bufs' x.slot).delta = (itemAt bufs x.slot).delta) :
    storedOf bufs' shift cs = storedOf bufs shift cs := by
  unfold storedOf
  rw [List.flatMap_def, List.flatMap_def]
  refine congrArg List.flatten (List.map_congr_left fun c hc => ?_)
  refine stored_congr shift c 0 0 c.size fun i _ hi => ?_
  have hslot : slotOf c i ∈ (stored bufs shift c 0 0 c.size).map Stored.slot := by
    rw [slots_stored]
    exact List.mem_map_of_mem (List.mem_range'_1.mpr ⟨Nat.zero_le _, hi⟩)
  obtain ⟨x, hx, hxs⟩ := List.mem_map.mp hslot
  have := hsame x (List.mem_flatMap.mpr ⟨c, hc, hx⟩)
  rwa [hxs] at this

end Congr

theorem spanFrom_succ (bufs : ℕ → ℕ → DeltaPayload) (c : AddrCluster) (sum index n : ℕ) :
    spanFrom bufs c sum index (n + 1) =
      spanFrom bufs c sum index n + (itemAt bufs (slotOf c (index + n))).delta := by
  induction n generalizing sum index with
  | zero => rfl
  | succ n ih =>
      rw [spanFrom, ih, spanFrom, show index + 1 + n = index + (n + 1) by omega]

/-- One more item at the end of a cluster. -/
theorem stored_succ (bufs : ℕ → ℕ → DeltaPayload) (shift : ℕ) (c : AddrCluster)
    (sum index n : ℕ) :
    stored bufs shift c sum index (n + 1) = stored bufs shift c sum index n ++
      [⟨ulong (c.start + ulong (spanFrom bufs c sum index (n + 1) <<< shift)),
        slotOf c (index + n)⟩] := by
  induction n generalizing sum index with
  | zero => rfl
  | succ n ih =>
      rw [stored, ih, stored, List.cons_append, show index + 1 + n = index + (n + 1) by omega]
      rfl

theorem storedOf_append (bufs : ℕ → ℕ → DeltaPayload) (shift : ℕ)
    (cs ds : List AddrCluster) :
    storedOf bufs shift (cs ++ ds) = storedOf bufs shift cs ++ storedOf bufs shift ds :=
  List.flatMap_append

@[simp] theorem storedOf_singleton (bufs : ℕ → ℕ → DeltaPayload) (shift : ℕ)
    (c : AddrCluster) : storedOf bufs shift [c] = stored bufs shift c 0 0 c.size := by
  simp [storedOf]

/-! ### Iterators -/

/-- The iterator belongs to the current clusters and its cached pointers are
up to date. -/
structure IterOk (s : AddrSequence) (iter : WalkIterator) : Prop where
  end_eq : iter.clusterIterEnd = s.addrClusters.length
  le_end : iter.clusterIter ≤ iter.clusterIterEnd
  curCluster_eq : iter.clusterIter < iter.clusterIterEnd → iter.curCluster = iter.clusterIter
  curDelta_eq : iter.clusterIter < iter.clusterIterEnd →
    iter.curDelta = (s.cluster iter.clusterIter).deltas
  index_lt : iter.clusterIter < iter.clusterIterEnd →
    iter.deltaIndex < (s.cluster iter.clusterIter).size

/-- The stored addresses from the iterator on. -/
def remaining (s : AddrSequence) (iter : WalkIterator) : List Stored :=
  if iter.clusterIter < s.addrClusters.length then
    stored s.bufs s.pageshift (s.cluster iter.clusterIter) iter.deltaSum iter.deltaIndex
        ((s.cluster iter.clusterIter).size - iter.deltaIndex) ++
      storedOf s.bufs s.pageshift (s.addrClusters.drop (iter.clusterIter + 1))
  else []

theorem drop_eq_cluster_cons {s : AddrSequence} {i : ℕ} (h : i < s.addrClusters.length) :
    s.addrClusters.drop i = s.cluster i :: s.addrClusters.drop (i + 1) := by
  rw [List.drop_eq_getElem_cons h]
  simp [cluster, h]

/-- An iterator just placed on a cluster has that cluster and the later ones ahead. -/
theorem remaining_of_start {s : AddrSequence} {iter : WalkIterator}
    (hindex : iter.deltaIndex = 0) (hsum : iter.deltaSum = 0) :
    remaining s iter =
      storedOf s.bufs s.pageshift (s.addrClusters.drop iter.clusterIter) := by
  unfold remaining
  split
  · rename_i h
    rw [drop_eq_cluster_cons h, hindex, hsum]
    simp [storedOf]
  · rename_i h
    rw [List.drop_eq_nil_of_le (not_lt.mp h)]
    rfl

section Iterators

variable {s : AddrSequence} (hpos : ∀ c ∈ s.addrClusters, 0 < c.size)

theorem cluster_mem {i : ℕ} (h : i < s.addrClusters.length) :
    s.cluster i ∈ s.addrClusters := by
  simp [cluster, h]

include hpos

theorem iterOk_resetIterator (iter : WalkIterator) : IterOk s (s.resetIterator iter 0) := by
  by_cases hnil : s.addrClusters = []
  · refine ⟨?_, ?_, ?_, ?_, ?_⟩ <;> simp [resetIterator, hnil]
  · have hlen : 0 < s.addrClusters.length := List.length_pos_iff.mpr hnil
    simp only [resetIterator, if_neg hnil, doWalkUpdateCurrentPtr]
    exact ⟨rfl, Nat.zero_le _, fun _ => rfl, fun _ => rfl,
      fun h => hpos _ (cluster_mem h)⟩

omit hpos in
theorem remaining_resetIterator (iter : WalkIterator) :
    remaining s (s.resetIterator iter 0) = allStored s := by
  rw [remaining_of_start]
  · unfold resetIterator
    split <;> simp [doWalkUpdateCurrentPtr, allStored]
  · unfold resetIterator
    split <;> rfl
  · unfold resetIterator
    split <;> rfl

omit hpos in
theorem remaining_eq_cons {iter : WalkIterator} (ok : IterOk s iter)
    (h : iter.clusterIter < s.addrClusters.length) :
    ∃ rest, remaining s iter =
      ⟨ulong ((s.cluster iter.clusterIter).start +
          ulong ((iter.deltaSum +
            (itemAt s.bufs (slotOf (s.cluster iter.clusterIter) iter.deltaIndex)).delta)
              <<< s.pageshift)),
        slotOf (s.cluster iter.clusterIter) iter.deltaIndex⟩ :: rest := by
  have hlt := ok.index_lt (by rw [ok.end_eq]; exact h)
  obtain ⟨n, hn⟩ : ∃ n, (s.cluster iter.clusterIter).size - iter.deltaIndex = n + 1 :=
    ⟨_, (Nat.succ_pred_eq_of_pos (Nat.sub_pos_of_lt hlt)).symm⟩
  rw [remaining, if_pos h, hn, stored]
  exact ⟨_, rfl⟩

omit hpos in
/-- An iterator reads the head of what remains. -/
theorem doWalk_remaining {iter : WalkIterator} (ok : IterOk s iter) :
    s.doWalk iter = (remaining s iter).head?.map (view s) := by
  by_cases h : iter.clusterIter < s.addrClusters.length
  · obtain ⟨rest, hrest⟩ := remaining_eq_cons ok h
    have hend : iter.clusterIter < iter.clusterIterEnd := by rw [ok.end_eq]; exact h
    rw [hrest, doWalk, if_neg hend.ne, ok.curCluster_eq hend, ok.curDelta_eq hend]
    rfl
  · have hend : iter.clusterIter = iter.clusterIterEnd := by
      have := ok.le_end
      have := ok.end_eq
      omega
    simp [doWalk, remaining, h, if_pos hend]

/-- An iterator steps to the tail of what remains. -/
theorem remaining_moveNext {iter : WalkIterator} (ok : IterOk s iter) {x : Stored}
    {rest : List Stored} (hrem : remaining s iter = x :: rest) :
    IterOk s (s.doWalkMoveNext iter) ∧ remaining s (s.doWalkMoveNext iter) = rest := by
  have h : iter.clusterIter < s.addrClusters.length := by
    by_contra h
    simp [remaining, h] at hrem
  have hend : iter.clusterIter < iter.clusterIterEnd := by rw [ok.end_eq]; exact h
  have hlt := ok.index_lt hend
  obtain ⟨n, hn⟩ : ∃ n, (s.cluster iter.clusterIter).size - iter.deltaIndex = n + 1 :=
    ⟨_, (Nat.succ_pred_eq_of_pos (Nat.sub_pos_of_lt hlt)).symm⟩
  rw [remaining, if_pos h, hn, stored, List.cons_append, List.cons.injEq] at hrem
  have hrest := hrem.2
  unfold doWalkMoveNext
  dsimp only
  rw [ok.curCluster_eq hend]
  split
  · -- the cluster is exhausted: on to the next one
    rename_i hge
    have hn0 : n = 0 := by omega
    subst hn0
    rw [stored, List.nil_append] at hrest
    split
    · rename_i hmore
      have hmore' : iter.clusterIter + 1 < s.addrClusters.length := by
        rw [← ok.end_eq]; exact hmore
      refine ⟨⟨ok.end_eq, ?_, fun _ => rfl, fun _ => rfl, fun _ => hpos _ (cluster_mem hmore')⟩, ?_⟩
      · exact hmore.le
      · rw [remaining_of_start rfl rfl]
        exact hrest
    · rename_i hlast
      refine ⟨⟨ok.end_eq, by simp only; omega, fun hc => absurd hc hlast,
        fun hc => absurd hc hlast, fun hc => absurd hc hlast⟩, ?_⟩
      rw [remaining_of_start rfl rfl]
      exact hrest
  · rename_i hin
    refine ⟨⟨ok.end_eq, ok.le_end, fun _ => rfl, fun _ => ok.curDelta_eq hend,
      fun _ => not_le.mp hin⟩, ?_⟩
    have hn' : (s.cluster iter.clusterIter).size - (iter.deltaIndex + 1) = n := by omega
    rw [remaining, if_pos h]
    simp only [hn']
    rw [ok.curDelta_eq hend]
    exact hrest

end Iterators

/-- The search keeps what moving the cursor and `found` keep. -/
theorem findLoop_rule {P : AddrSequence → Prop} {addr : ℕ} {found : AddrSequence → AddrSequence}
    (hmove : ∀ s iter, P s → P { s with findIter := iter }) (hfound : ∀ s, P s → P (found s))
    (fuel : ℕ) {s : AddrSequence} (h : P s) : P (findLoop addr found fuel s).1 := by
  induction fuel generalizing s with
  | zero => exact h
  | succ fuel ih =>
      rw [findLoop]
      split
      · exact h
      · split
        · exact hfound s h
        · split
          · exact h
          · exact ih (hmove s _ h)

end MemoryOptimizer.AddrSequence
