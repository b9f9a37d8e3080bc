import Mathlib.Data.List.Nodup
import Mathlib.Data.List.Range
import MemoryOptimizer.Config.Options
import MemoryOptimizer.Numa

/-!
# Collecting the NUMA nodes

`NumaNodeCollection::collect` runs at the start and at every reload of the
configuration, on the same collection. Its three lists hold plain pointers into
what `node_map_` owns, so the model gives every object that was ever created an
address of its own, the position of its creation; an object that `node_map_` has
replaced keeps its address, and nothing gets it again.

* `Consistent` — the lists hold the owned objects, each once, by type.
* `collectAll_consistent_iff` — after any number of collections the lists are
  consistent if and only if no node id was created twice.
-/

namespace MemoryOptimizer

namespace NumaCollect

/-! ### The collection -/

/-- The address of a `NumaNode`. -/
abbrev Ptr := ℕ

/-- `class NumaNode` behind its address. -/
structure NumaObject where
  id : ℕ
  type : NumaNodeType
  promoteTarget : Option Ptr
  demoteTarget : Option Ptr
deriving DecidableEq

/-- `class NumaNodeCollection`, with the objects created so far by address. -/
structure Collection where
  objects : List NumaObject
  nodeMap : List (Option Ptr)
  nodes : List Ptr
  dramNodes : List Ptr
  pmemNodes : List Ptr
deriving DecidableEq

/-- Before the first collection. -/
def Collection.empty : Collection := ⟨[], [], [], [], []⟩

/-- `node_map_.resize`. -/
def Collection.resize (c : Collection) (n : ℕ) : Collection :=
  { c with nodeMap := c.nodeMap.take n ++ List.replicate (n - c.nodeMap.length) none }

/-- `create_node`: the new object replaces the one that `node_map_` had. -/
def createNode (c : Collection) (nodeId : ℕ) (type : NumaNodeType) : Collection × ℤ :=
  if type = .last then (c, -2)
  else if c.nodeMap.length ≤ nodeId then (c, -3)
  else
    let newNode := c.objects.length
    ({ objects := c.objects ++ [⟨nodeId, type, none, none⟩]
       nodeMap := c.nodeMap.set nodeId (some newNode)
       nodes := c.nodes ++ [newNode]
       dramNodes := if type = .dram then c.dramNodes ++ [newNode] else c.dramNodes
       pmemNodes := if type = .pmem then c.pmemNodes ++ [newNode] else c.pmemNodes }, 0)

/-- `set_peer_node`. -/
def setPeerNode (c : Collection) (node : Ptr) (peer : Option Ptr) : Collection :=
  { c with
    objects := c.objects.modify node fun o =>
      match o.type with
      | .dram => { o with demoteTarget := peer }
      | .pmem => { o with promoteTarget := peer }
      | .last => o }

/-- `set_default_target_node`. It goes through every pointer of the lists, also
one to a replaced object. -/
def setDefaultTargetNode (c : Collection) : Collection :=
  let objects := c.dramNodes.foldl
    (fun objects node => objects.modify node fun o => { o with promoteTarget := some node })
    c.objects
  { c with
    objects := c.pmemNodes.foldl
      (fun objects node => objects.modify node fun o => { o with demoteTarget := some node })
      objects }

/-- `get_node`: `at` throws outside the map (outer none); the pointer of a node
that does not exist is null (inner none). -/
def getNode (c : Collection) (nid : ℤ) : Option (Option Ptr) :=
  if 0 ≤ nid then c.nodeMap[nid.toNat]? else none

/-- `get_node(from)->set_peer_node(get_node(to))`; none where it throws or goes
through a null pointer. -/
def setPeer (c : Collection) (source target : ℤ) : Option Collection := do
  let node ← (← getNode c source)
  let peer ← getNode c target
  some (setPeerNode c node peer)

/-! ### The three sources of the topology -/

/-- The machine, as libnuma and sysfs show it. `numa_max_node` does not change
while a process runs. The files of a node are its `type` and its `peer_node`,
without the newline; none where one of them cannot be opened. -/
structure Machine where
  nrPossibleNode : ℕ
  parseNodestring : String → Option (ℕ → Bool)
  nodeFiles : ℕ → Option (String × String)

/-- `numa_sysfs_type_map`. -/
def sysfsType (s : String) : NumaNodeType :=
  if s = "ram" ∨ s = "dram" then .dram else if s = "pmem" then .pmem else .last

/-- `numa_hwconfig_type_map`. -/
def hwconfigType (s : String) : NumaNodeType :=
  if s = "DRAM" then .dram else if s = "PMEM" then .pmem else .last

/-- `sscanf(p, "%d->%d", &from, &to)`. -/
def scanPair (text : List Char) : Option (ℤ × ℤ) := do
  let (source, text) ← scanInt text
  match text with
  | '-' :: '>' :: text => do
      let (target, _) ← scanInt text
      some (source, target)
  | _ => none

/-- The loop over `pmem_dram_map`: one pair, then on behind the next comma. None
where it exits or throws. -/
def setPeers (machine : Machine) (c : Collection) (text : List Char) : Option Collection := do
  let (source, target) ← scanPair text
  if machine.nrPossibleNode ≤ source ∨ machine.nrPossibleNode ≤ target then none
  else
    let c ← setPeer c source target
    match _h : text.dropWhile (· ≠ ',') with
    | [] => some c
    | _ :: rest => setPeers machine c rest
termination_by text.length
decreasing_by
  have hle := (List.dropWhile_suffix (l := text) (· ≠ ',')).length_le
  rw [_h] at hle
  simp only [List.length_cons] at hle
  omega

/-- The type that the two masks give a node. -/
def maskType (dramMask pmemMask : ℕ → Bool) (i : ℕ) : NumaNodeType :=
  if dramMask i then .dram else if pmemMask i then .pmem else .last

/-- `collect_by_config` of a `NumaHWConfig`: the result of `create_node` is
ignored. -/
def collectByConfig (machine : Machine) (config : NumaHWConfig) (c : Collection) :
    Option Collection := do
  let dramMask ← machine.parseNodestring config.numaDramList
  let pmemMask ← machine.parseNodestring config.numaPmemList
  let c := c.resize machine.nrPossibleNode
  let c := (List.range machine.nrPossibleNode).foldl
    (fun c i => (createNode c i (maskType dramMask pmemMask i)).1) c
  setPeers machine (setDefaultTargetNode c) config.pmemDramMap.toList

/-- `set_target_node`, one way: it leaves the collection alone when an id is
outside the possible nodes. -/
def setTargetNode (machine : Machine) (c : Collection) (nodeId targetNodeId : ℤ) :
    Option Collection :=
  if machine.nrPossibleNode ≤ nodeId ∨ machine.nrPossibleNode ≤ targetNodeId ∨ targetNodeId < 0
  then some c
  else setPeer c nodeId targetNodeId

/-- `get_node_id`. -/
def getNodeId (entry : NumaHWConfigEntry) : ℤ := ((findMap entry "id").map atoi).getD (-1)

/-- `get_node_linkto`: `demote_to`, else `promote_to`. -/
def getNodeLinkto (entry : NumaHWConfigEntry) : ℤ :=
  match findMap entry "demote_to" with
  | some linkto => atoi linkto
  | none => ((findMap entry "promote_to").map atoi).getD (-1)

/-- `get_hwconfig_node_type`. -/
def getHwconfigNodeType (entry : NumaHWConfigEntry) : NumaNodeType :=
  ((findMap entry "type").map hwconfigType).getD .last

/-- `create_node_objects`: the nodes in order, up to the first that
`create_node` refuses. -/
def createNodeObjects (c : Collection) : List (ℕ × NumaNodeType) → Collection × ℤ
  | [] => (c, 0)
  | (nodeId, type) :: nodes =>
      let (c, err) := createNode c nodeId type
      if err < 0 then (c, err) else createNodeObjects c nodes

/-- The entries of a `NumaHWConfigV2` that reach `create_node`. -/
def configNodes (config : NumaHWConfigV2) : List (ℕ × NumaNodeType) :=
  config.filterMap fun entry =>
    if getNodeId entry < 0 then none
    else if getHwconfigNodeType entry = .last then none
    else some ((getNodeId entry).toNat, getHwconfigNodeType entry)

/-- `setup_node_relationship` of a `NumaHWConfigV2`. -/
def setupConfigRelationship (machine : Machine) (config : NumaHWConfigV2) (c : Collection) :
    Option Collection :=
  config.foldlM (fun c entry =>
    if getNodeId entry < 0 ∨ getNodeLinkto entry < 0 then some c
    else setTargetNode machine c (getNodeId entry) (getNodeLinkto entry)) c

/-- `collect_by_config` of a `NumaHWConfigV2`. -/
def collectByConfigV2 (machine : Machine) (config : NumaHWConfigV2) (c : Collection) :
    Option Collection :=
  let (c, err) := createNodeObjects (c.resize machine.nrPossibleNode) (configNodes config)
  if err < 0 then some c else setupConfigRelationship machine config (setDefaultTargetNode c)

/-- `numa_info[i][field]` after `load_numa_info`: empty where a file is missing. -/
def nodeField (machine : Machine) (i : ℕ) (field : String × String → String) : String :=
  ((machine.nodeFiles i).map field).getD ""

/-- The nodes that `load_numa_info` finds. -/
def sysfsNodes (machine : Machine) : List (ℕ × NumaNodeType) :=
  (List.range machine.nrPossibleNode).map fun i => (i, sysfsType (nodeField machine i Prod.fst))

/-- `collect_by_sysfs`. -/
def collectBySysfs (machine : Machine) (c : Collection) : Option Collection :=
  let (c, err) := createNodeObjects (c.resize machine.nrPossibleNode) (sysfsNodes machine)
  if err < 0 then some c
  else
    (List.range machine.nrPossibleNode).foldlM
      (fun c (i : ℕ) => setTargetNode machine c i (atoi (nodeField machine i Prod.snd)))
      (setDefaultTargetNode c)

/-- `collect`, with what `apply_option` hands it; none where the process ends. -/
def collect (machine : Machine) (config : NumaHWConfig) (configV2 : NumaHWConfigV2)
    (c : Collection) : Option Collection :=
  if config.isValid then collectByConfig machine config c
  else if configV2 ≠ [] then collectByConfigV2 machine configV2 c
  else collectBySysfs machine c

/-- The collection at the start and one at each reload. -/
def collectAll (machine : Machine) (c : Collection) :
    List (NumaHWConfig × NumaHWConfigV2) → Option Collection
  | [] => some c
  | (config, configV2) :: configs =>
      (collect machine config configV2 c).bind fun c => collectAll machine c configs

/-! ### Consistency -/

/-- The three lists describe what `node_map_` owns. -/
structure Consistent (c : Collection) : Prop where
  /-- Every pointer is the object owned at its id, so none was replaced. -/
  owned : ∀ p ∈ c.nodes ++ c.dramNodes ++ c.pmemNodes,
    ∃ o, c.objects[p]? = some o ∧ c.nodeMap[o.id]? = some (some p)
  /-- Every owned object is listed. -/
  listed : ∀ (id : ℕ) (p : Ptr), c.nodeMap[id]? = some (some p) → p ∈ c.nodes
  nodes_nodup : c.nodes.Nodup
  dramNodes_nodup : c.dramNodes.Nodup
  pmemNodes_nodup : c.pmemNodes.Nodup
  mem_dramNodes : ∀ p, p ∈ c.dramNodes ↔
    p ∈ c.nodes ∧ ∃ o, c.objects[p]? = some o ∧ o.type = .dram
  mem_pmemNodes : ∀ p, p ∈ c.pmemNodes ↔
    p ∈ c.nodes ∧ ∃ o, c.objects[p]? = some o ∧ o.type = .pmem

/-- What never changes of an object. -/
def NumaObject.key (o : NumaObject) : ℕ × NumaNodeType := (o.id, o.type)

/-- What never changes of the objects, by address. -/
def Collection.keys (c : Collection) : List (ℕ × NumaNodeType) := c.objects.map NumaObject.key

/-- The addresses of the objects of one type. -/
def addressesOf (keys : List (ℕ × NumaNodeType)) (type : NumaNodeType) : List Ptr :=
  (List.range keys.length).filter fun p => (keys[p]?).map Prod.snd = some type

/-- What holds after every sequence of creations: the lists grow by the addresses
in order, and `node_map_` owns the last object of each id. -/
structure Recorded (n : ℕ) (c : Collection) : Prop where
  length_le : c.nodeMap.length ≤ n
  nodes_eq : c.nodes = List.range c.keys.length
  dramNodes_eq : c.dramNodes = addressesOf c.keys .dram
  pmemNodes_eq : c.pmemNodes = addressesOf c.keys .pmem
  last_of_owned : ∀ (id : ℕ) (p : Ptr), c.nodeMap[id]? = some (some p) →
    (c.keys[p]?).map Prod.fst = some id ∧
      ∀ q, p < q → (c.keys[q]?).map Prod.fst ≠ some id
  owned_of_id : ∀ (p : Ptr) (id : ℕ), (c.keys[p]?).map Prod.fst = some id →
    ∃ q, c.nodeMap[id]? = some (some q)

theorem keys_getElem? (c : Collection) (p : Ptr) :
    c.keys[p]? = (c.objects[p]?).map NumaObject.key := List.getElem?_map

/-- Where every listed object is owned no id was given to two objects. -/
theorem Recorded.nodup_ids {n : ℕ} {c : Collection} (h : Recorded n c)
    (howned : ∀ p ∈ c.nodes, ∃ o, c.objects[p]? = some o ∧ c.nodeMap[o.id]? = some (some p)) :
    (c.keys.map Prod.fst).Nodup := by
  rw [List.nodup_iff_getElem?_ne_getElem?]
  intro p q hpq hq heq
  rw [List.length_map] at hq
  rw [List.getElem?_map, List.getElem?_map] at heq
  obtain ⟨o, ho, hown⟩ := howned p (by
    rw [h.nodes_eq]
    exact List.mem_range.mpr (by omega))
  have hkey : (c.keys[p]?).map Prod.fst = some o.id := by
    rw [keys_getElem?, ho]
    rfl
  exact (h.last_of_owned _ _ hown).2 q hpq (heq ▸ hkey)

/-- The lists are consistent exactly when no id was given to two objects. -/
theorem Recorded.consistent_iff {n : ℕ} {c : Collection} (h : Recorded n c) :
    Consistent c ↔ (c.keys.map Prod.fst).Nodup := by
  constructor
  · intro hc
    exact h.nodup_ids fun p hp =>
      hc.owned p (List.mem_append_left _ (List.mem_append_left _ hp))
  · intro hnodup
    have hunique : ∀ {p q : Ptr} {id : ℕ}, (c.keys[p]?).map Prod.fst = some id →
        (c.keys[q]?).map Prod.fst = some id → p = q := by
      intro p q id hp hq
      rw [← List.getElem?_map] at hp hq
      have hlt := (List.getElem?_eq_some_iff.mp hp).1
      exact (List.getElem?_inj hlt hnodup).mp (hp.trans hq.symm)
    have hrange : ∀ {p}, p < c.keys.length →
        ∃ o, c.objects[p]? = some o ∧ c.nodeMap[o.id]? = some (some p) := by
      intro p hp
      obtain ⟨o, ho⟩ : ∃ o, c.objects[p]? = some o :=
        ⟨_, List.getElem?_eq_getElem (by simpa [Collection.keys] using hp)⟩
      have hid : (c.keys[p]?).map Prod.fst = some o.id := by
        rw [keys_getElem?, ho]
        rfl
      obtain ⟨q, hq⟩ := h.owned_of_id p o.id hid
      exact ⟨o, ho, by rw [hunique hid (h.last_of_owned _ _ hq).1]; exact hq⟩
    have htype : ∀ type p, p ∈ addressesOf c.keys type ↔
        p ∈ c.nodes ∧ ∃ o, c.objects[p]? = some o ∧ o.type = type := by
      intro type p
      rw [addressesOf, List.mem_filter, h.nodes_eq]
      refine and_congr_right fun _ => ?_
      rw [keys_getElem?, decide_eq_true_iff, Option.map_map, Option.map_eq_some_iff]
      rfl
    have hsub : ∀ type p, p ∈ addressesOf c.keys type → p < c.keys.length :=
      fun type p hp => List.mem_range.mp (List.mem_filter.mp hp).1
    refine ⟨?_, ?_, ?_, ?_, ?_, ?_, ?_⟩
    · intro p hp
      rw [h.nodes_eq, h.dramNodes_eq, h.pmemNodes_eq] at hp
      simp only [List.mem_append, List.mem_range] at hp
      rcases hp with (hp | hp) | hp
      · exact hrange hp
      · exact hrange (hsub _ _ hp)
      · exact hrange (hsub _ _ hp)
    · intro id p hp
      rw [h.nodes_eq, List.mem_range]
      by_contra hge
      have := (h.last_of_owned id p hp).1
      rw [List.getElem?_eq_none (by omega)] at this
      cases this
    · rw [h.nodes_eq]
      exact List.nodup_range
    · rw [h.dramNodes_eq]
      exact List.nodup_range.filter _
    · rw [h.pmemNodes_eq]
      exact List.nodup_range.filter _
    · rw [h.dramNodes_eq]
      exact htype _
    · rw [h.pmemNodes_eq]
      exact htype _

/-! ### What the operations keep -/

/-- The two collections differ in the targets of their objects only. -/
structure SameNodes (c c' : Collection) : Prop where
  keys_eq : c'.keys = c.keys
  nodeMap_eq : c'.nodeMap = c.nodeMap
  nodes_eq : c'.nodes = c.nodes
  dramNodes_eq : c'.dramNodes = c.dramNodes
  pmemNodes_eq : c'.pmemNodes = c.pmemNodes

theorem SameNodes.refl (c : Collection) : SameNodes c c := ⟨rfl, rfl, rfl, rfl, rfl⟩

theorem SameNodes.trans {c c' c'' : Collection} (h : SameNodes c c') (h' : SameNodes c' c'') :
    SameNodes c c'' :=
  ⟨h'.1.trans h.1, h'.2.trans h.2, h'.3.trans h.3, h'.4.trans h.4, h'.5.trans h.5⟩

theorem Recorded.congr {n : ℕ} {c c' : Collection} (h : Recorded n c) (hsame : SameNodes c c') :
    Recorded n c' := by
  obtain ⟨hkeys, hmap, hnodes, hdram, hpmem⟩ := hsame
  obtain ⟨h1, h2, h3, h4, h5, h6⟩ := h
  constructor <;> simp only [hkeys, hmap, hnodes, hdram, hpmem] <;> assumption

theorem map_modify_of_eq {α β : Type*} (f : α → α) (g : α → β) (h : ∀ a, g (f a) = g a)
    (l : List α) (i : ℕ) : (l.modify i f).map g = l.map g := by
  refine List.ext_getElem? fun j => ?_
  rw [List.getElem?_map, List.getElem?_map, List.getElem?_modify]
  cases l[j]? with
  | none => rfl
  | some a =>
      by_cases hij : i = j
      · simp [hij, h]
      · simp [hij]

theorem setPeerNode_sameNodes (c : Collection) (node : Ptr) (peer : Option Ptr) :
    SameNodes c (setPeerNode c node peer) := by
  refine ⟨map_modify_of_eq _ _ (fun o => ?_) _ _, rfl, rfl, rfl, rfl⟩
  cases h : o.type <;> simp [NumaObject.key, h]

theorem map_foldl_modify {α β : Type*} (f : Ptr → α → α) (g : α → β) (h : ∀ p a, g (f p a) = g a)
    (ps : List Ptr) (l : List α) :
    (ps.foldl (fun l p => l.modify p (f p)) l).map g = l.map g := by
  induction ps generalizing l with
  | nil => rfl
  | cons p ps ih => rw [List.foldl_cons, ih, map_modify_of_eq _ _ (h p)]

theorem setDefaultTargetNode_sameNodes (c : Collection) :
    SameNodes c (setDefaultTargetNode c) := by
  refine ⟨?_, rfl, rfl, rfl, rfl⟩
  exact (map_foldl_modify (fun p (o : NumaObject) => { o with demoteTarget := some p })
    NumaObject.key (fun _ _ => rfl) _ _).trans
      (map_foldl_modify (fun p (o : NumaObject) => { o with promoteTarget := some p })
        NumaObject.key (fun _ _ => rfl) _ _)

theorem setPeer_sameNodes {c c' : Collection} {source target : ℤ}
    (h : setPeer c source target = some c') : SameNodes c c' := by
  unfold setPeer at h
  simp only [Option.bind_eq_bind, Option.bind_eq_some_iff] at h
  obtain ⟨_, _, node, _, peer, _, h⟩ := h
  cases h
  exact setPeerNode_sameNodes c node peer

theorem setPeers_sameNodes (machine : Machine) {c c' : Collection} {text : List Char}
    (h : setPeers machine c text = some c') : SameNodes c c' := by
  fun_induction setPeers machine c text with
  | case1 c text ih =>
      obtain ⟨⟨source, target⟩, -, h⟩ := Option.bind_eq_some_iff.mp h
      dsimp only at h
      split at h
      · cases h
      · obtain ⟨c₁, hpeer, h⟩ := Option.bind_eq_some_iff.mp h
        split at h
        · cases h
          exact setPeer_sameNodes hpeer
        · next head rest hrest =>
          exact (setPeer_sameNodes hpeer).trans (ih c₁ head rest hrest h)

theorem setTargetNode_sameNodes (machine : Machine) {c c' : Collection} {nodeId target : ℤ}
    (h : setTargetNode machine c nodeId target = some c') : SameNodes c c' := by
  unfold setTargetNode at h
  split at h
  · cases h
    exact .refl _
  · exact setPeer_sameNodes h

theorem foldlM_sameNodes {α : Type*} {f : Collection → α → Option Collection}
    (hf : ∀ c a c', f c a = some c' → SameNodes c c') {as : List α} {c c' : Collection}
    (h : as.foldlM f c = some c') : SameNodes c c' := by
  induction as generalizing c with
  | nil => cases h; exact .refl _
  | cons a as ih =>
      obtain ⟨c₁, hstep, hrest⟩ := Option.bind_eq_some_iff.mp h
      exact (hf _ _ _ hstep).trans (ih hrest)

/-! ### Creating nodes -/

theorem getElem?_concat_map_eq_some {keys : List (ℕ × NumaNodeType)} {x : ℕ × NumaNodeType}
    {q id : ℕ} : ((keys ++ [x])[q]?).map Prod.fst = some id ↔
      (q < keys.length ∧ (keys[q]?).map Prod.fst = some id) ∨ (q = keys.length ∧ x.1 = id) := by
  rcases lt_trichotomy q keys.length with hq | hq | hq
  · rw [List.getElem?_append_left hq]
    simp [hq, hq.ne]
  · subst hq
    simp
  · rw [List.getElem?_eq_none (by simp; omega)]
    simp [hq.ne', hq.not_gt]

theorem addressesOf_concat (keys : List (ℕ × NumaNodeType)) (x : ℕ × NumaNodeType)
    (type : NumaNodeType) :
    addressesOf (keys ++ [x]) type =
      addressesOf keys type ++ if x.2 = type then [keys.length] else [] := by
  unfold addressesOf
  rw [List.length_append, List.length_singleton, List.range_succ, List.filter_append]
  congr 1
  · refine List.filter_congr fun p hp => ?_
    rw [List.getElem?_append_left (List.mem_range.mp hp)]
  · by_cases h : x.2 = type <;> simp [h]

/-- A node is created, with the next address, or nothing happens and the result
is negative. -/
theorem createNode_cases (c : Collection) (nodeId : ℕ) (type : NumaNodeType) :
    (nodeId < c.nodeMap.length ∧ type ≠ .last ∧ (createNode c nodeId type).2 = 0 ∧
      (createNode c nodeId type).1.keys = c.keys ++ [(nodeId, type)] ∧
      (createNode c nodeId type).1.nodeMap = c.nodeMap.set nodeId (some c.keys.length) ∧
      (createNode c nodeId type).1.nodes = c.nodes ++ [c.keys.length] ∧
      (createNode c nodeId type).1.dramNodes =
        c.dramNodes ++ (if type = .dram then [c.keys.length] else []) ∧
      (createNode c nodeId type).1.pmemNodes =
        c.pmemNodes ++ (if type = .pmem then [c.keys.length] else [])) ∨
    (¬(nodeId < c.nodeMap.length ∧ type ≠ .last) ∧ (createNode c nodeId type).1 = c ∧
      (createNode c nodeId type).2 < 0) := by
  unfold createNode
  split
  · next hlast => exact .inr ⟨fun h => h.2 hlast, rfl, by simp⟩
  · next hlast =>
    split
    · next hid => exact .inr ⟨fun h => absurd h.1 (by omega), rfl, by simp⟩
    · next hid =>
      refine .inl ⟨by omega, hlast, rfl, ?_, ?_, ?_, ?_, ?_⟩
      · simp [Collection.keys, NumaObject.key]
      · simp [Collection.keys]
      · simp [Collection.keys]
      · cases type <;> simp [Collection.keys]
      · cases type <;> simp [Collection.keys]

theorem createNode_length (c : Collection) (nodeId : ℕ) (type : NumaNodeType) :
    (createNode c nodeId type).1.nodeMap.length = c.nodeMap.length := by
  rcases createNode_cases c nodeId type with ⟨-, -, -, -, hmap, -⟩ | ⟨-, hsame, -⟩
  · rw [hmap, List.length_set]
  · rw [hsame]

theorem Recorded.createNode {n : ℕ} {c : Collection} (h : Recorded n c) (nodeId : ℕ)
    (type : NumaNodeType) : Recorded n (createNode c nodeId type).1 := by
  rcases createNode_cases c nodeId type with
    ⟨hid, -, -, hkeys, hmap, hnodes, hdram, hpmem⟩ | ⟨-, hsame, -⟩
  · have hold : ∀ {id : ℕ} {p : Ptr}, c.nodeMap[id]? = some (some p) → p < c.keys.length := by
      intro id p hp
      by_contra hge
      have := (h.last_of_owned id p hp).1
      rw [List.getElem?_eq_none (not_lt.mp hge)] at this
      cases this
    constructor
    · rw [hmap, List.length_set]
      exact h.length_le
    · rw [hnodes, hkeys, h.nodes_eq, List.length_append, List.length_singleton, List.range_succ]
    · rw [hdram, hkeys, h.dramNodes_eq, addressesOf_concat]
    · rw [hpmem, hkeys, h.pmemNodes_eq, addressesOf_concat]
    · intro id p hp
      rw [hmap, List.getElem?_set] at hp
      simp only [hkeys, ne_eq, getElem?_concat_map_eq_some]
      split at hp
      · next heq =>
        obtain rfl : c.keys.length = p := by simpa using hp
        refine ⟨.inr ⟨rfl, heq⟩, fun q hq hkey => ?_⟩
        rcases hkey with ⟨hlt, -⟩ | ⟨heq, -⟩
        · exact lt_asymm hlt hq
        · exact hq.ne' heq
      · next hne =>
        obtain ⟨hp₁, hp₂⟩ := h.last_of_owned id p hp
        refine ⟨.inl ⟨hold hp, hp₁⟩, fun q hq hkey => ?_⟩
        rcases hkey with ⟨-, hkey⟩ | ⟨-, hkey⟩
        · exact hp₂ q hq hkey
        · exact hne hkey
    · intro p id hp
      simp only [hmap, List.getElem?_set, if_pos hid]
      rw [hkeys, getElem?_concat_map_eq_some] at hp
      by_cases heq : nodeId = id
      · exact ⟨_, if_pos heq⟩
      · rcases hp with ⟨-, hp⟩ | ⟨-, hp⟩
        · simpa only [if_neg heq] using h.owned_of_id p id hp
        · exact absurd hp heq
  · rw [hsame]
    exact h

/-- `create_node_objects` creates the nodes up to the first that is refused. -/
theorem createNodeObjects_keys (nodes : List (ℕ × NumaNodeType)) (c : Collection) :
    (createNodeObjects c nodes).1.keys = c.keys ++
      nodes.takeWhile fun x => x.1 < c.nodeMap.length ∧ x.2 ≠ .last := by
  induction nodes generalizing c with
  | nil => simp [createNodeObjects]
  | cons node nodes ih =>
      obtain ⟨nodeId, type⟩ := node
      simp only [createNodeObjects]
      have hlength := createNode_length c nodeId type
      rcases createNode_cases c nodeId type with
        ⟨hid, htype, hret, hkeys, -⟩ | ⟨hrefused, hsame, hret⟩
      · rw [if_neg (by omega), ih, hkeys, hlength,
          List.takeWhile_cons_of_pos (by simp [hid, htype])]
        simp
      · rw [if_pos hret, hsame, List.takeWhile_cons_of_neg (by simpa using hrefused)]
        simp

theorem Recorded.createNodeObjects {n : ℕ} {c : Collection} (h : Recorded n c)
    (nodes : List (ℕ × NumaNodeType)) : Recorded n (createNodeObjects c nodes).1 := by
  induction nodes generalizing c with
  | nil => exact h
  | cons node nodes ih =>
      simp only [NumaCollect.createNodeObjects]
      split
      · exact h.createNode _ _
      · exact ih (h.createNode _ _)

theorem createNodes_keys (type : ℕ → NumaNodeType) (ids : List ℕ) (c : Collection)
    (hids : ∀ i ∈ ids, i < c.nodeMap.length) :
    (ids.foldl (fun c i => (createNode c i (type i)).1) c).keys =
      c.keys ++ (ids.filter fun i => type i ≠ .last).map fun i => (i, type i) := by
  induction ids generalizing c with
  | nil => simp
  | cons i ids ih =>
      have hi := hids i List.mem_cons_self
      rw [List.foldl_cons, ih _ (fun j hj => by
        rw [createNode_length]
        exact hids j (List.mem_cons_of_mem _ hj))]
      rcases createNode_cases c i (type i) with ⟨-, htype, -, hkeys, -⟩ | ⟨hrefused, hsame, -⟩
      · rw [hkeys, List.filter_cons_of_pos (by simpa using htype)]
        simp
      · have htype : type i = .last := by
          by_contra hne
          exact hrefused ⟨hi, hne⟩
        rw [hsame, List.filter_cons_of_neg (by simpa using htype)]

theorem Recorded.createNodes {n : ℕ} (type : ℕ → NumaNodeType) (ids : List ℕ) {c : Collection}
    (h : Recorded n c) :
    Recorded n (ids.foldl (fun c i => (NumaCollect.createNode c i (type i)).1) c) := by
  induction ids generalizing c with
  | nil => exact h
  | cons i ids ih => exact ih (h.createNode i (type i))

theorem resize_length {n : ℕ} {c : Collection} (h : c.nodeMap.length ≤ n) :
    (c.resize n).nodeMap.length = n := by
  simp only [Collection.resize, List.length_append, List.length_take, List.length_replicate]
  omega

theorem Recorded.resize {n : ℕ} {c : Collection} (h : Recorded n c) : Recorded n (c.resize n) := by
  have hmap : ∀ (id : ℕ) (p : Ptr), (c.resize n).nodeMap[id]? = some (some p) ↔
      c.nodeMap[id]? = some (some p) := by
    intro id p
    rw [Collection.resize, List.take_of_length_le h.length_le, List.getElem?_append]
    split
    · rfl
    · next hge =>
      rw [List.getElem?_replicate, List.getElem?_eq_none (by omega)]
      split <;> simp
  obtain ⟨h1, h2, h3, h4, h5, h6⟩ := h
  refine ⟨(resize_length h1).le, h2, h3, h4, fun id p hp => h5 id p ((hmap id p).mp hp), ?_⟩
  intro p id hp
  obtain ⟨q, hq⟩ := h6 p id hp
  exact ⟨q, (hmap id q).mpr hq⟩

theorem recorded_empty (n : ℕ) : Recorded n .empty := by
  constructor <;> simp [Collection.empty, Collection.keys, addressesOf]

/-! ### Collections -/

/-- The nodes that one collection creates, from what it is given: those of the
masks, the entries of the `NumaHWConfigV2`, or the nodes in sysfs, the last two
up to the first that is impossible. -/
def configured (machine : Machine) (config : NumaHWConfig) (configV2 : NumaHWConfigV2) :
    List ℕ :=
  if config.isValid then
    match machine.parseNodestring config.numaDramList,
        machine.parseNodestring config.numaPmemList with
    | some dramMask, some pmemMask =>
        (List.range machine.nrPossibleNode).filter fun i => dramMask i ∨ pmemMask i
    | _, _ => []
  else
    ((if configV2 ≠ [] then configNodes configV2 else sysfsNodes machine).takeWhile
      fun x => x.1 < machine.nrPossibleNode ∧ x.2 ≠ .last).map Prod.fst

/-- **One collection.** The objects grow by the configured nodes, and the lists
with them. -/
theorem collect_recorded {machine : Machine} {config : NumaHWConfig} {configV2 : NumaHWConfigV2}
    {c c' : Collection} (h : Recorded machine.nrPossibleNode c)
    (hcollect : collect machine config configV2 c = some c') :
    Recorded machine.nrPossibleNode c' ∧
      c'.keys.map Prod.fst = c.keys.map Prod.fst ++ configured machine config configV2 := by
  have hlength := resize_length h.length_le
  have hlist : ∀ (nodes : List (ℕ × NumaNodeType)) (c₁ c₂ : Collection),
      c₁ = (createNodeObjects (c.resize machine.nrPossibleNode) nodes).1 → SameNodes c₁ c₂ →
        Recorded machine.nrPossibleNode c₂ ∧
          c₂.keys.map Prod.fst = c.keys.map Prod.fst ++
            (nodes.takeWhile fun x => x.1 < machine.nrPossibleNode ∧ x.2 ≠ .last).map Prod.fst := by
    intro nodes c₁ c₂ hc₁ hsame
    subst hc₁
    refine ⟨(h.resize.createNodeObjects nodes).congr hsame, ?_⟩
    rw [hsame.keys_eq, createNodeObjects_keys, hlength, List.map_append]
    rfl
  unfold collect at hcollect
  unfold configured
  split at hcollect
  · next hvalid =>
    rw [if_pos hvalid]
    unfold collectByConfig at hcollect
    simp only [Option.bind_eq_bind, Option.bind_eq_some_iff] at hcollect
    obtain ⟨dramMask, hdram, pmemMask, hpmem, hpeers⟩ := hcollect
    have hsame := (setDefaultTargetNode_sameNodes _).trans (setPeers_sameNodes machine hpeers)
    refine ⟨(h.resize.createNodes _ _).congr hsame, ?_⟩
    rw [hsame.keys_eq, createNodes_keys _ _ _ (by simp [hlength]), hdram, hpmem, List.map_append,
      List.map_map]
    refine congrArg (_ ++ ·) ?_
    have hid : (Prod.fst ∘ fun i => (i, maskType dramMask pmemMask i)) = id := rfl
    rw [hid, List.map_id]
    refine List.filter_congr fun i _ => ?_
    unfold maskType
    cases dramMask i <;> cases pmemMask i <;> simp
  · next hvalid =>
    rw [if_neg hvalid]
    split at hcollect
    · next hv2 =>
      rw [if_pos hv2]
      unfold collectByConfigV2 at hcollect
      dsimp only at hcollect
      split at hcollect
      · cases hcollect
        exact hlist _ _ _ rfl (.refl _)
      · refine hlist _ _ _ rfl ((setDefaultTargetNode_sameNodes _).trans ?_)
        refine foldlM_sameNodes (fun c₁ entry c₂ hstep => ?_) hcollect
        split at hstep
        · cases hstep
          exact .refl _
        · exact setTargetNode_sameNodes machine hstep
    · next hv2 =>
      rw [if_neg hv2]
      unfold collectBySysfs at hcollect
      dsimp only at hcollect
      split at hcollect
      · cases hcollect
        exact hlist _ _ _ rfl (.refl _)
      · refine hlist _ _ _ rfl ((setDefaultTargetNode_sameNodes _).trans ?_)
        exact foldlM_sameNodes (fun c₁ i c₂ hstep => setTargetNode_sameNodes machine hstep) hcollect

theorem collectAll_recorded {machine : Machine} (configs : List (NumaHWConfig × NumaHWConfigV2))
    {c c' : Collection} (h : Recorded machine.nrPossibleNode c)
    (hcollect : collectAll machine c configs = some c') :
    Recorded machine.nrPossibleNode c' ∧
      c'.keys.map Prod.fst = c.keys.map Prod.fst ++
        configs.flatMap fun config => configured machine config.1 config.2 := by
  induction configs generalizing c with
  | nil =>
      cases hcollect
      exact ⟨h, by simp⟩
  | cons config configs ih =>
      obtain ⟨c₁, hfirst, hrest⟩ := Option.bind_eq_some_iff.mp hcollect
      obtain ⟨h₁, hkeys₁⟩ := collect_recorded h hfirst
      obtain ⟨h', hkeys'⟩ := ih h₁ hrest
      exact ⟨h', by rw [hkeys', hkeys₁, List.flatMap_cons, List.append_assoc]⟩

/-- Any number of collections with any configurations that are accepted, on any
machine: the lists of nodes are consistent with `node_map_` if and only if all
these configurations together name no node twice. -/
theorem collectAll_consistent_iff {machine : Machine}
    {configs : List (NumaHWConfig × NumaHWConfigV2)} {c : Collection}
    (hcollect : collectAll machine .empty configs = some c) :
    Consistent c ↔
      (configs.flatMap fun config => configured machine config.1 config.2).Nodup := by
  obtain ⟨h, hkeys⟩ := collectAll_recorded configs (recorded_empty _) hcollect
  rw [h.consistent_iff, hkeys]
  rfl

/-- A configuration file with a node of each type. -/
def pairConfig (dram pmem : String) : NumaHWConfig × NumaHWConfigV2 :=
  (⟨"", "", ""⟩, [[("id", dram), ("type", "DRAM"), ("demote_to", pmem)],
    [("id", pmem), ("type", "PMEM"), ("promote_to", dram)]])

def fourNodes : Machine := ⟨4, fun _ => none, fun _ => none⟩

/-- Two reloads: the first file names the other two nodes, and the second one a node that
the machine does not have, behind which nothing is created. -/
theorem collectAll_consistent_reloads :
    ∃ c, collectAll fourNodes .empty
        [pairConfig "0" "1", pairConfig "3" "2", pairConfig "9" "0"] = some c ∧
      c.nodeMap = [some 0, some 1, some 3, some 2] ∧ Consistent c :=
  ⟨_, rfl, rfl, (collectAll_consistent_iff (show collectAll fourNodes .empty
    [pairConfig "0" "1", pairConfig "3" "2", pairConfig "9" "0"] = some _ from rfl)).mpr
      (by decide)⟩

/-- A machine with a node of each type, described in the configuration file. -/
def twoNodes : Machine := ⟨2, fun _ => none, fun _ => none⟩

def twoNodesConfig : NumaHWConfig × NumaHWConfigV2 := pairConfig "0" "1"

/-- One reload of the same file: the lists still hold the objects that it
replaced. -/
theorem collectAll_reload :
    ∃ c, collectAll twoNodes .empty [twoNodesConfig, twoNodesConfig] = some c ∧
      c.nodes = [0, 1, 2, 3] ∧ c.nodeMap = [some 2, some 3] ∧ ¬Consistent c :=
  ⟨_, rfl, rfl, rfl, fun h => by
    obtain ⟨o, ho, hown⟩ := h.owned 0 (by decide)
    cases ho
    exact absurd hown (by decide)⟩

end NumaCollect

end MemoryOptimizer
