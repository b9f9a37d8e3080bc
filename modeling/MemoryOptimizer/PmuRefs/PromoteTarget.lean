import MemoryOptimizer.Numa.Peers
import MemoryOptimizer.PmuRefs.MigrationState

/-!
# The promote targets

`collect_by_config` sets the promote target of a node of persistent memory where
`pmem_dram_map` has a pair for it, and nowhere else; `get_target_nodes` follows
it for every node that the kernel reports.

* `setPeers_eq_foldlM` — the loop over the text, as one over its pairs.
* `getTargetNodes_isSome_iff` — which configurations leave no null target.
-/

namespace MemoryOptimizer

namespace NumaCollect

/-! ### The pairs of the map -/

/-- The pairs of a `pmem_dram_map`: at its start and behind every comma. -/
def mapPairs (text : List Char) : List (ℤ × ℤ) :=
  match scanPair text with
  | none => []
  | some pair =>
      pair :: match _h : text.dropWhile (· ≠ ',') with
        | [] => []
        | _ :: rest => mapPairs rest
termination_by text.length
decreasing_by
  have hle := (List.dropWhile_suffix (l := text) (· ≠ ',')).length_le
  rw [_h] at hle
  simp only [List.length_cons] at hle
  omega

theorem mapPairs_last {text : List Char} {pair : ℤ × ℤ} (hpair : scanPair text = some pair)
    (hrest : text.dropWhile (· ≠ ',') = []) : mapPairs text = [pair] := by
  rw [mapPairs, hpair]
  dsimp only
  split
  · rfl
  · next heq =>
    rw [hrest] at heq
    cases heq

theorem mapPairs_comma {text rest : List Char} {head : Char} {pair : ℤ × ℤ}
    (hpair : scanPair text = some pair) (hrest : text.dropWhile (· ≠ ',') = head :: rest) :
    mapPairs text = pair :: mapPairs rest := by
  rw [mapPairs, hpair]
  dsimp only
  split
  · next heq =>
    rw [hrest] at heq
    cases heq
  · next heq =>
    rw [hrest] at heq
    cases heq
    rfl

/-- Where the text is accepted, the loop sets the peers of its pairs. -/
theorem setPeers_eq_foldlM {machine : Machine} {c c' : Collection} {text : List Char}
    (h : setPeers machine c text = some c') :
    (mapPairs text).foldlM (fun c pair => setPeer c pair.1 pair.2) c = some c' := by
  fun_induction setPeers machine c text with
  | case1 c text ih =>
      obtain ⟨⟨source, target⟩, hpair, h⟩ := Option.bind_eq_some_iff.mp h
      dsimp only at h
      split at h
      · cases h
      · obtain ⟨c₁, hpeer, h⟩ := Option.bind_eq_some_iff.mp h
        split at h
        · next hrest =>
          cases h
          rw [mapPairs_last hpair hrest, List.foldlM_cons, hpeer]
          rfl
        · next head rest hrest =>
          rw [mapPairs_comma hpair hrest, List.foldlM_cons, hpeer]
          exact ih c₁ head rest hrest h

/-! ### The nodes of the two lists -/

/-- What `collect_by_config` hands to the loop over the map. -/
def configCollection (machine : Machine) (dramMask pmemMask : ℕ → Bool) : Collection :=
  setDefaultTargetNode ((List.range machine.nrPossibleNode).foldl
    (fun c i => (createNode c i (maskType dramMask pmemMask i)).1)
    (Collection.empty.resize machine.nrPossibleNode))

section Config

variable (machine : Machine) (dramMask pmemMask : ℕ → Bool)

theorem configCollection_recorded :
    Recorded machine.nrPossibleNode (configCollection machine dramMask pmemMask) :=
  ((recorded_empty _).resize.createNodes _ _).congr (setDefaultTargetNode_sameNodes _)

theorem configCollection_noPeer : NoPeer (configCollection machine dramMask pmemMask) := by
  have hcreate : ∀ (ids : List ℕ) (c : Collection), NoPeer c →
      NoPeer (ids.foldl (fun c i => (createNode c i (maskType dramMask pmemMask i)).1) c) := by
    intro ids
    induction ids with
    | nil => exact fun c hc => hc
    | cons i ids ih => exact fun c hc => ih _ (hc.createNode i _)
  exact (hcreate _ _ (noPeer_empty _)).setDefaultTargetNode
    ((recorded_empty _).resize.createNodes _ _)

theorem configCollection_keys : (configCollection machine dramMask pmemMask).keys =
    ((List.range machine.nrPossibleNode).filter fun i => maskType dramMask pmemMask i ≠ .last).map
      fun i => (i, maskType dramMask pmemMask i) := by
  have hlength : (Collection.empty.resize machine.nrPossibleNode).nodeMap.length =
      machine.nrPossibleNode := resize_length (Nat.zero_le _)
  rw [configCollection, (setDefaultTargetNode_sameNodes _).keys_eq,
    createNodes_keys _ _ _ (by simp [hlength])]
  rfl

variable {machine dramMask pmemMask}

/-- The nodes of the two masks have an object, and no other ones. -/
theorem configCollection_owned_iff {c : Collection}
    (hsame : SameNodes (configCollection machine dramMask pmemMask) c) (i : ℕ)
    (type : NumaNodeType) : (∃ o, c.owned i = some o ∧ o.type = type) ↔
      i < machine.nrPossibleNode ∧ maskType dramMask pmemMask i = type ∧ type ≠ .last := by
  have h := (configCollection_recorded machine dramMask pmemMask).congr hsame
  have hkeys := hsame.keys_eq.trans (configCollection_keys machine dramMask pmemMask)
  have hmem : ∀ key : ℕ × NumaNodeType, key ∈ c.keys ↔
      key.1 < machine.nrPossibleNode ∧ maskType dramMask pmemMask key.1 = key.2 ∧
        key.2 ≠ .last := by
    rintro ⟨id, t⟩
    rw [hkeys, List.mem_map]
    simp only [List.mem_filter, List.mem_range, decide_eq_true_eq, Prod.mk.injEq]
    constructor
    · rintro ⟨j, ⟨hj, hne⟩, rfl, rfl⟩
      exact ⟨hj, rfl, hne⟩
    · rintro ⟨hid, rfl, hne⟩
      exact ⟨id, ⟨hid, hne⟩, rfl, rfl⟩
  constructor
  · rintro ⟨o, howned, rfl⟩
    exact (hmem (i, o.type)).mp (h.key_mem_of_owned howned)
  · intro hi
    have hid : i ∈ c.keys.map Prod.fst := List.mem_map.mpr ⟨(i, type), (hmem _).mpr hi, rfl⟩
    obtain ⟨o, howned⟩ := Option.isSome_iff_exists.mp ((h.owned_isSome_iff i).mpr hid)
    have htype := ((hmem (i, o.type)).mp (h.key_mem_of_owned howned)).2.1
    exact ⟨o, howned, htype.symm.trans hi.2.1⟩

/-- The pointers to the nodes of the two masks are not null. -/
theorem configCollection_pointer_iff {c : Collection}
    (hsame : SameNodes (configCollection machine dramMask pmemMask) c) (i : ℕ) :
    (c.pointer i).isSome = true ↔
      i < machine.nrPossibleNode ∧ maskType dramMask pmemMask i ≠ .last := by
  have h := (configCollection_recorded machine dramMask pmemMask).congr hsame
  rw [h.pointer_isSome_iff, ← h.owned_isSome_iff, Option.isSome_iff_exists]
  constructor
  · rintro ⟨o, howned⟩
    obtain ⟨hi, htype, hlast⟩ := (configCollection_owned_iff hsame i o.type).mp ⟨o, howned, rfl⟩
    exact ⟨hi, htype ▸ hlast⟩
  · rintro ⟨hi, hlast⟩
    obtain ⟨o, howned, -⟩ := (configCollection_owned_iff hsame i _).mpr ⟨hi, rfl, hlast⟩
    exact ⟨o, howned⟩

end Config

/-! ### The collection as its users see it -/

/-- The id behind a pointer. -/
def Collection.idOf (c : Collection) (p : Ptr) : ℕ := ((c.objects[p]?).map NumaObject.id).getD 0

/-- An object with the ids of its targets for the pointers. -/
def Collection.view (c : Collection) (o : NumaObject) : NumaNode :=
  ⟨o.id, o.type, o.promoteTarget.map c.idOf, o.demoteTarget.map c.idOf⟩

/-- The collection with ids for pointers. -/
def Collection.toNuma (c : Collection) : NumaNodeCollection :=
  ⟨c.nodeMap.map fun p => (p.bind fun p => c.objects[p]?).map c.view⟩

theorem getNode_toNuma (c : Collection) (i : ℕ) :
    c.toNuma.getNode i = (c.owned i).map c.view := by
  unfold NumaNodeCollection.getNode Collection.toNuma Collection.owned
  rw [if_pos (Int.natCast_nonneg i), Int.toNat_natCast, List.getElem?_map]
  cases c.nodeMap[i]? <;> rfl

open PmuRefs.MigrationState (promoteTarget getTargetNodes) in
/-- `get_target_nodes` follows no null pointer, whatever the statuses, exactly when
every node of persistent memory has a target. -/
theorem getTargetNodes_isSome (c : Collection) :
    (∀ ms, (getTargetNodes c.toNuma ms).isSome = true) ↔
      ∀ i o, c.owned i = some o → o.type = .pmem → o.promoteTarget ≠ none := by
  have hnull : ∀ nid, promoteTarget c.toNuma nid = some none ↔
      ∃ (i : ℕ) (o : NumaObject), nid = i ∧ c.owned i = some o ∧ o.type = .pmem ∧
        o.promoteTarget = none := by
    intro nid
    unfold promoteTarget
    constructor
    · intro h
      obtain ⟨node, hnode, hif⟩ := Option.bind_eq_some_iff.mp h
      have hnonneg : 0 ≤ nid := by
        by_contra hneg
        rw [NumaNodeCollection.getNode, if_neg hneg] at hnode
        cases hnode
      obtain ⟨i, rfl⟩ := Int.eq_ofNat_of_zero_le hnonneg
      rw [getNode_toNuma] at hnode
      obtain ⟨o, howned, rfl⟩ := Option.map_eq_some_iff.mp hnode
      split at hif
      · next hpmem =>
        exact ⟨i, o, rfl, howned, of_decide_eq_true hpmem,
          Option.map_eq_none_iff.mp (Option.some_inj.mp hif)⟩
      · cases hif
    · rintro ⟨i, o, rfl, howned, hpmem, hnone⟩
      rw [getNode_toNuma, howned]
      simp [NumaNode.isPmem, Collection.view, hpmem, hnone]
  have hsome : ∀ ms : PmuRefs.MigrationState, (getTargetNodes c.toNuma ms).isSome = true ↔
      ∀ i < ms.len, promoteTarget c.toNuma (ms.migrateStatus i) ≠ some none := by
    intro ms
    unfold getTargetNodes
    split
    · next hany => simpa using hany
    · next hany => simpa using hany
  constructor
  · intro h i o howned hpmem hnone
    -- one page, on the node
    have hpage := (hsome ⟨1, 1, fun _ => 0, fun _ => 0, fun _ => 0, fun _ => i, 0⟩).mp (h _)
    exact hpage 0 Nat.one_pos ((hnull i).mpr ⟨i, o, rfl, howned, hpmem, hnone⟩)
  · intro h ms
    refine (hsome ms).mpr fun j hj heq => ?_
    obtain ⟨i, o, -, howned, hpmem, hnone⟩ := (hnull _).mp heq
    exact h i o howned hpmem hnone

/-- Accepted pairs have possible targets. -/
theorem target_possible {n : ℕ} {pairs : List (ℤ × ℤ)} {c c' : Collection} (h : Recorded n c)
    (hrun : pairs.foldlM (fun c pair => setPeer c pair.1 pair.2) c = some c') {pair : ℤ × ℤ}
    (hpair : pair ∈ pairs) : ∃ target : ℕ, pair.2 = target ∧ target < n := by
  induction pairs generalizing c with
  | nil => cases hpair
  | cons first pairs ih =>
      obtain ⟨c₁, hpeer, hrest⟩ := Option.bind_eq_some_iff.mp hrun
      cases hpair with
      | tail _ hpair => exact ih (h.congr (setPeer_sameNodes hpeer)) hrest hpair
      | head =>
          unfold setPeer at hpeer
          simp only [Option.bind_eq_bind, Option.bind_eq_some_iff] at hpeer
          obtain ⟨_, -, _, -, _, htarget, -⟩ := hpeer
          unfold getNode at htarget
          split at htarget
          · next hnonneg =>
            have hlt := (List.getElem?_eq_some_iff.mp htarget).1
            have hle := h.length_le
            exact ⟨pair.2.toNat, (Int.toNat_of_nonneg hnonneg).symm, by omega⟩
          · cases htarget

open PmuRefs.MigrationState (getTargetNodes) in
/-- Any machine and any lists and map that are accepted: `get_target_nodes` follows no
null promote target, whatever statuses the kernel reports, if and only if the map has
a pair for every node of persistent memory, and the last one for it leads to a node
of one of the lists. -/
theorem getTargetNodes_isSome_iff {machine : Machine} {config : NumaHWConfig}
    {dramMask pmemMask : ℕ → Bool} {c : Collection}
    (hdram : machine.parseNodestring config.numaDramList = some dramMask)
    (hpmem : machine.parseNodestring config.numaPmemList = some pmemMask)
    (hcollect : collectByConfig machine config .empty = some c) :
    (∀ ms, (getTargetNodes c.toNuma ms).isSome = true) ↔
      ∀ i < machine.nrPossibleNode, maskType dramMask pmemMask i = .pmem →
        ∃ target : ℕ, lastTarget (mapPairs config.pmemDramMap.toList) i = some (target : ℤ) ∧
          maskType dramMask pmemMask target ≠ .last := by
  have hpeers : setPeers machine (configCollection machine dramMask pmemMask)
      config.pmemDramMap.toList = some c := by
    unfold configCollection
    simpa only [collectByConfig, hdram, hpmem, Option.bind_eq_bind, Option.bind_some] using hcollect
  have hrun := setPeers_eq_foldlM hpeers
  have hrecorded := configCollection_recorded machine dramMask pmemMask
  have hsame₀ := SameNodes.refl (configCollection machine dramMask pmemMask)
  have hsame := setPeers_sameNodes machine hpeers
  -- the target of a node of persistent memory at the end
  have htarget : ∀ i o, (configCollection machine dramMask pmemMask).owned i = some o →
      o.type = .pmem → ∃ o', c.owned i = some o' ∧ o'.type = .pmem ∧
        o'.promoteTarget = (lastTarget (mapPairs config.pmemDramMap.toList) i).bind
          (configCollection machine dramMask pmemMask).pointer := by
    intro i o howned htype
    obtain ⟨p, -, ho⟩ := Option.bind_eq_some_iff.mp howned
    obtain ⟨o', howned', hkey, hpeer⟩ :=
      owned_foldlM hrecorded hrun howned (by rw [htype]; decide)
    have htype' : o'.type = .pmem := (congrArg Prod.snd hkey).trans htype
    refine ⟨o', howned', htype', ?_⟩
    rw [configCollection_noPeer machine dramMask pmemMask p o ho] at hpeer
    rw [NumaObject.peer, htype'] at hpeer
    dsimp only at hpeer
    rw [hpeer]
    cases lastTarget (mapPairs config.pmemDramMap.toList) i <;> rfl
  rw [getTargetNodes_isSome]
  constructor
  · intro h i hi htype
    obtain ⟨o, howned, hotype⟩ :=
      (configCollection_owned_iff hsame₀ i .pmem).mpr ⟨hi, htype, by decide⟩
    obtain ⟨o', howned', htype', hpromote⟩ := htarget i o howned hotype
    obtain ⟨p, hp⟩ := Option.ne_none_iff_exists'.mp (h i o' howned' htype')
    obtain ⟨target, hlast, hpointer⟩ := Option.bind_eq_some_iff.mp (hpromote.symm.trans hp)
    obtain ⟨n, hn, -⟩ := target_possible hrecorded hrun (mem_of_lastTarget hlast)
    obtain rfl : target = n := hn
    refine ⟨n, hlast, ?_⟩
    exact ((configCollection_pointer_iff hsame₀ n).mp (by rw [hpointer]; rfl)).2
  · intro h i o howned htype
    obtain ⟨hi, hmask, -⟩ := (configCollection_owned_iff hsame i .pmem).mp ⟨o, howned, htype⟩
    obtain ⟨target, hlast, hmaskTarget⟩ := h i hi hmask
    obtain ⟨o₀, howned₀, htype₀⟩ :=
      (configCollection_owned_iff hsame₀ i .pmem).mpr ⟨hi, hmask, by decide⟩
    obtain ⟨n, hn, hlt⟩ := target_possible hrecorded hrun (mem_of_lastTarget hlast)
    obtain rfl : target = n := Int.ofNat_inj.mp hn
    have hpointer := (configCollection_pointer_iff hsame₀ target).mpr ⟨hlt, hmaskTarget⟩
    obtain ⟨o', howned', -, hpromote⟩ := htarget i o₀ howned₀ htype₀
    obtain rfl := Option.some_inj.mp (howned.symm.trans howned')
    intro hnone
    rw [hnone, hlast, Option.bind_some] at hpromote
    rw [← hpromote] at hpointer
    cases hpointer

/-- The nodes of a list of single digits. -/
def digitMask (list : String) (i : ℕ) : Bool := list.toList.contains (Nat.digitChar i)

/-- Three possible nodes; a list of nodes names each by its digit. -/
def threeNodes : Machine := ⟨3, fun list => some (digitMask list), fun _ => none⟩

theorem collectByConfig_threeNodes (dramList pmemList pmemDramMap : String) :
    collectByConfig threeNodes ⟨dramList, pmemList, pmemDramMap⟩ .empty =
      setPeers threeNodes (configCollection threeNodes (digitMask dramList) (digitMask pmemList))
        pmemDramMap.toList := rfl

theorem getTargetNodes_isSome_threeNodes :
    ∃ c, collectByConfig threeNodes ⟨"0", "2", "2->0"⟩ .empty = some c ∧
      ∀ ms, (PmuRefs.MigrationState.getTargetNodes c.toNuma ms).isSome = true := by
  obtain ⟨c, hc⟩ : ∃ c, collectByConfig threeNodes ⟨"0", "2", "2->0"⟩ .empty = some c := by
    rw [collectByConfig_threeNodes, setPeers]
    exact ⟨_, rfl⟩
  refine ⟨c, hc, (getTargetNodes_isSome_iff rfl rfl hc).mpr fun i hi hpmem => ⟨0, ?_⟩⟩
  obtain rfl : i = 2 := by
    revert hpmem
    revert i
    decide
  rw [mapPairs]
  decide

/-- The map names one of the two nodes of persistent memory. -/
theorem getTargetNodes_null :
    ∃ c ms, collectByConfig threeNodes ⟨"0", "1,2", "1->0"⟩ .empty = some c ∧
      PmuRefs.MigrationState.getTargetNodes c.toNuma ms = none := by
  obtain ⟨c, hc⟩ : ∃ c, collectByConfig threeNodes ⟨"0", "1,2", "1->0"⟩ .empty = some c := by
    rw [collectByConfig_threeNodes, setPeers]
    exact ⟨_, rfl⟩
  refine ⟨c, ⟨1, 1, fun _ => 0x1000, fun _ => 1, fun _ => 0, fun _ => 2, 0⟩, hc, ?_⟩
  rw [collectByConfig_threeNodes, setPeers] at hc
  cases hc
  rfl

end NumaCollect

end MemoryOptimizer
