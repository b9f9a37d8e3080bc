import MemoryOptimizer.Numa.Peers

/-!
# The topology of a configuration file

`collect_by_config` of a `NumaHWConfigV2` goes over the entries twice: the first pass
creates a node where an entry has a known type, the second one links the nodes and
looks neither at the types nor at what the first pass created. In between,
`set_default_target_node` goes through every pointer of the lists, also that of an
object which a later entry with the same id has replaced.

* `Built` — the topology that the entries describe.
* `collectChecked_built_iff` — the configurations for which it is built.
-/

namespace MemoryOptimizer

namespace NumaCollect

/-- The object at an address is not deleted. -/
def Collection.live (c : Collection) (p : Ptr) : Bool := c.nodeMap.contains (some p)

/-- `collect_by_config` of a `NumaHWConfigV2`, without a result also where
`set_default_target_node` and `init_cpu_map` go through a pointer to a deleted object. -/
def collectChecked (machine : Machine) (config : NumaHWConfigV2) (c : Collection) :
    Option Collection :=
  let (c, err) := createNodeObjects (c.resize machine.nrPossibleNode) (configNodes config)
  if err < 0 then some c
  else if (c.nodes ++ c.dramNodes ++ c.pmemNodes).all c.live then
    setupConfigRelationship machine config (setDefaultTargetNode c)
  else none

/-- The check only takes results away. -/
theorem collectByConfigV2_of_checked {machine : Machine} {config : NumaHWConfigV2}
    {c c' : Collection} (h : collectChecked machine config c = some c') :
    collectByConfigV2 machine config c = some c' := by
  unfold collectChecked at h
  unfold collectByConfigV2
  dsimp only at h ⊢
  split at h
  · next herr =>
    rw [if_pos herr]
    exact h
  · next herr =>
    rw [if_neg herr]
    split at h
    · exact h
    · cases h

/-! ### What the entries describe -/

/-- The links of the entries that `set_target_node` does not reject. -/
def configLinks (n : ℕ) (config : NumaHWConfigV2) : List (ℤ × ℤ) :=
  config.filterMap fun entry =>
    if 0 ≤ getNodeId entry ∧ getNodeId entry < n ∧ 0 ≤ getNodeLinkto entry ∧
        getNodeLinkto entry < n then
      some (getNodeId entry, getNodeLinkto entry)
    else none

/-- The ids that get a node: those of the entries with a known type, up to the first
that is too large. -/
def createdIds (n : ℕ) (config : NumaHWConfigV2) : List ℕ :=
  ((configNodes config).takeWhile fun node => node.1 < n).map Prod.fst

/-- `create_node` refuses an entry, and `collect_by_config` goes no further. -/
def Refused (n : ℕ) (config : NumaHWConfigV2) : Prop := ∃ node ∈ configNodes config, n ≤ node.1

/-- The topology that the entries describe: its nodes, and for each of them no peer by
default, else the node that the last link from it names, which may be absent. -/
structure Built (n : ℕ) (config : NumaHWConfigV2) (c : Collection) : Prop where
  created : ∀ i, (c.owned i).isSome = true ↔ i ∈ createdIds n config
  peer : ∀ i o, c.owned i = some o →
    match lastTarget (configLinks n config) i with
    | none => o.peer = none
    | some target => o.peer = c.pointer target

/-- The configurations for which this is built. Where an entry is refused no node gets
a peer; else no id has two nodes, and every link starts from a node. -/
def Linkable (n : ℕ) (config : NumaHWConfigV2) : Prop :=
  (Refused n config ∧ ∀ i ∈ createdIds n config, ∀ target,
      lastTarget (configLinks n config) i = some target → target.toNat ∉ createdIds n config) ∨
    (¬ Refused n config ∧ (createdIds n config).Nodup ∧
      ∀ link ∈ configLinks n config, link.1.toNat ∈ createdIds n config)

/-! ### The first pass -/

theorem createNodeObjects_length (nodes : List (ℕ × NumaNodeType)) (c : Collection) :
    (createNodeObjects c nodes).1.nodeMap.length = c.nodeMap.length := by
  induction nodes generalizing c with
  | nil => rfl
  | cons node nodes ih =>
      simp only [createNodeObjects]
      split
      · exact createNode_length c _ _
      · rw [ih, createNode_length]

theorem createNodeObjects_err (nodes : List (ℕ × NumaNodeType)) (c : Collection) :
    (createNodeObjects c nodes).2 < 0 ↔
      ∃ node ∈ nodes, ¬(node.1 < c.nodeMap.length ∧ node.2 ≠ .last) := by
  induction nodes generalizing c with
  | nil => simp [createNodeObjects]
  | cons node nodes ih =>
      simp only [createNodeObjects, List.mem_cons, exists_eq_or_imp]
      rcases createNode_cases c node.1 node.2 with ⟨hid, htype, hret, -⟩ | ⟨hrefused, -, hret⟩
      · rw [if_neg (by omega), ih, createNode_length]
        exact (or_iff_right fun h => h ⟨hid, htype⟩).symm
      · rw [if_pos hret]
        exact iff_of_true hret (.inl hrefused)

theorem NoPeer.createNodeObjects {c : Collection} (h : NoPeer c)
    (nodes : List (ℕ × NumaNodeType)) : NoPeer (createNodeObjects c nodes).1 := by
  induction nodes generalizing c with
  | nil => exact h
  | cons node nodes ih =>
      simp only [NumaCollect.createNodeObjects]
      split
      · exact h.createNode _ _
      · exact ih (h.createNode _ _)

theorem type_of_mem_configNodes {config : NumaHWConfigV2} {node : ℕ × NumaNodeType}
    (h : node ∈ configNodes config) : node.2 ≠ .last := by
  obtain ⟨entry, -, hentry⟩ := List.mem_filterMap.mp h
  split at hentry
  · cases hentry
  · split at hentry
    · cases hentry
    · next hlast =>
      cases hentry
      exact hlast

theorem takeWhile_eq_of_forall {α : Type*} {p q : α → Bool} {l : List α}
    (h : ∀ a ∈ l, p a = q a) : l.takeWhile p = l.takeWhile q := by
  induction l with
  | nil => rfl
  | cons a l ih =>
      rw [List.takeWhile_cons, List.takeWhile_cons, h a List.mem_cons_self,
        ih fun b hb => h b (List.mem_cons_of_mem _ hb)]

section FirstPass

variable (n : ℕ) (config : NumaHWConfigV2)

/-- What the first pass leaves. -/
def created : Collection := (createNodeObjects (Collection.empty.resize n) (configNodes config)).1

theorem created_recorded : Recorded n (created n config) :=
  (recorded_empty n).resize.createNodeObjects _

theorem created_noPeer : NoPeer (created n config) := (noPeer_empty n).createNodeObjects _

theorem created_length : (created n config).nodeMap.length = n :=
  (createNodeObjects_length _ _).trans (resize_length (Nat.zero_le n))

theorem created_err : (createNodeObjects (Collection.empty.resize n) (configNodes config)).2 < 0 ↔
    Refused n config := by
  rw [createNodeObjects_err, resize_length (Nat.zero_le n)]
  refine exists_congr fun node => and_congr_right fun hnode => ?_
  rw [not_and_or, not_lt]
  exact or_iff_left (not_not.mpr (type_of_mem_configNodes hnode))

theorem created_keys : (created n config).keys =
    (configNodes config).takeWhile fun node => node.1 < n := by
  rw [created, createNodeObjects_keys, resize_length (Nat.zero_le n)]
  refine takeWhile_eq_of_forall fun node hnode => ?_
  simp [type_of_mem_configNodes hnode]

theorem created_ids : (created n config).keys.map Prod.fst = createdIds n config := by
  rw [created_keys, createdIds]

end FirstPass

/-! ### The nodes of a collection -/

section Nodes

variable {n : ℕ} {config : NumaHWConfigV2} {c : Collection}

/-- The lists hold no deleted object exactly when no id has two objects. -/
theorem Recorded.all_live_iff (h : Recorded n c) :
    (c.nodes ++ c.dramNodes ++ c.pmemNodes).all c.live = true ↔
      (c.keys.map Prod.fst).Nodup := by
  rw [List.all_eq_true]
  constructor
  · intro hlive
    refine h.nodup_ids fun p hp => ?_
    have hmem := hlive p (List.mem_append_left _ (List.mem_append_left _ hp))
    obtain ⟨id, hid⟩ := List.mem_iff_getElem?.mp (List.contains_iff_mem.mp hmem)
    obtain ⟨o, ho, rfl⟩ := h.objects_of_owned hid
    exact ⟨o, ho, hid⟩
  · intro hnodup p hp
    obtain ⟨o, -, howned⟩ := (h.consistent_iff.mpr hnodup).owned p hp
    exact List.contains_iff_mem.mpr (List.mem_of_getElem? howned)

end Nodes

/-! ### The second pass -/

section SecondPass

variable {n : ℕ} {config : NumaHWConfigV2} {c : Collection}

/-- The second pass follows the links that are not rejected. -/
theorem setupConfigRelationship_eq (machine : Machine) (config : NumaHWConfigV2)
    (c : Collection) : setupConfigRelationship machine config c =
      (configLinks machine.nrPossibleNode config).foldlM
        (fun c link => setPeer c link.1 link.2) c := by
  rw [configLinks, List.foldlM_filterMap, setupConfigRelationship]
  refine congrArg (List.foldlM · c config) ?_
  funext c entry
  unfold setTargetNode
  split_ifs with h₁ h₂ h₃ h₄
  all_goals first | rfl | omega

theorem configLinks_bounds {link : ℤ × ℤ} (h : link ∈ configLinks n config) :
    (0 ≤ link.1 ∧ link.1 < n) ∧ 0 ≤ link.2 ∧ link.2 < n := by
  obtain ⟨entry, -, hentry⟩ := List.mem_filterMap.mp h
  split at hentry
  · next hbounds =>
    cases hentry
    exact ⟨⟨hbounds.1, hbounds.2.1⟩, hbounds.2.2⟩
  · cases hentry

theorem getNode_eq (hlength : c.nodeMap.length = n) {nid : ℤ} (h : 0 ≤ nid ∧ nid < n) :
    getNode c nid = some (c.pointer nid) := by
  have hlt : nid.toNat < c.nodeMap.length := by omega
  rw [getNode, if_pos h.1, Collection.pointer, List.getElem?_eq_getElem hlt]
  rfl

/-- A link between possible nodes is followed where the first one exists. -/
theorem setPeer_isSome_iff (hlength : c.nodeMap.length = n) {source target : ℤ}
    (hsource : 0 ≤ source ∧ source < n) (htarget : 0 ≤ target ∧ target < n) :
    (setPeer c source target).isSome = true ↔ (c.pointer source).isSome = true := by
  rw [setPeer, getNode_eq hlength hsource, getNode_eq hlength htarget]
  cases c.pointer source with
  | none => rfl
  | some node => exact Iff.rfl

/-- All links are followed where every one starts from a node. -/
theorem foldlM_setPeer_isSome_iff (hlength : c.nodeMap.length = n) {links : List (ℤ × ℤ)}
    (hlinks : ∀ link ∈ links, (0 ≤ link.1 ∧ link.1 < n) ∧ 0 ≤ link.2 ∧ link.2 < n) :
    (links.foldlM (fun c link => setPeer c link.1 link.2) c).isSome = true ↔
      ∀ link ∈ links, (c.pointer link.1).isSome = true := by
  induction links generalizing c with
  | nil => simp
  | cons link links ih =>
      obtain ⟨hsource, htarget⟩ := hlinks link List.mem_cons_self
      have hfirst := setPeer_isSome_iff hlength hsource htarget
      rw [List.foldlM_cons, List.forall_mem_cons, ← hfirst]
      cases hpeer : setPeer c link.1 link.2 with
      | none => simp
      | some c₁ =>
          have hsame := setPeer_sameNodes hpeer
          have hrest := ih (hsame.nodeMap_eq ▸ hlength) fun l hl =>
            hlinks l (List.mem_cons_of_mem _ hl)
          rw [hsame.pointer_eq] at hrest
          exact hrest.trans (and_iff_right rfl).symm

end SecondPass

/-! ### The topology -/

section Build

variable {n : ℕ} {config : NumaHWConfigV2} {c : Collection}

theorem lastTarget_bounds {i : ℕ} {target : ℤ}
    (h : lastTarget (configLinks n config) i = some target) : 0 ≤ target ∧ target < n :=
  (configLinks_bounds (mem_of_lastTarget h)).2

theorem created_pointer_isSome_iff (i : ℕ) :
    ((created n config).pointer i).isSome = true ↔ i ∈ createdIds n config := by
  rw [(created_recorded n config).pointer_isSome_iff, created_ids]

theorem created_owned_isSome_iff (i : ℕ) :
    ((created n config).owned i).isSome = true ↔ i ∈ createdIds n config := by
  rw [(created_recorded n config).owned_isSome_iff, created_ids]

/-- Where an entry is refused, no node has a peer. -/
theorem created_built_iff : Built n config (created n config) ↔
    ∀ i ∈ createdIds n config, ∀ target,
      lastTarget (configLinks n config) i = some target → target.toNat ∉ createdIds n config := by
  have hnone : ∀ i o, (created n config).owned i = some o → o.peer = none := by
    intro i o howned
    obtain ⟨p, -, ho⟩ := Option.bind_eq_some_iff.mp howned
    exact created_noPeer n config p o ho
  constructor
  · intro h i hi target hlast hmem
    obtain ⟨o, howned⟩ := Option.isSome_iff_exists.mp ((created_owned_isSome_iff i).mpr hi)
    have hpeer := h.peer i o howned
    rw [hlast] at hpeer
    rw [← created_pointer_isSome_iff, Int.toNat_of_nonneg (lastTarget_bounds hlast).1] at hmem
    rw [← hpeer, hnone i o howned] at hmem
    cases hmem
  · intro h
    refine ⟨created_owned_isSome_iff, fun i o howned => ?_⟩
    split
    · exact hnone i o howned
    · next target hlast =>
      have hcreated : ((created n config).owned i).isSome = true := howned ▸ rfl
      have hi := (created_owned_isSome_iff i).mp hcreated
      have habsent := h i hi target hlast
      rw [← created_pointer_isSome_iff, Int.toNat_of_nonneg (lastTarget_bounds hlast).1,
        Option.not_isSome_iff_eq_none] at habsent
      rw [hnone i o howned, habsent]

/-- Where all links are followed, the topology is built. -/
theorem built_of_foldlM {c' : Collection} (hsame : SameNodes (created n config) c)
    (hpeer : NoPeer c)
    (h : (configLinks n config).foldlM (fun c link => setPeer c link.1 link.2) c = some c') :
    Built n config c' := by
  have hrecorded := (created_recorded n config).congr hsame
  have hlinked : SameNodes c c' := foldlM_sameNodes (fun _ _ _ => setPeer_sameNodes) h
  have howned_iff : ∀ {c₁}, SameNodes (created n config) c₁ → ∀ i,
      (c₁.owned i).isSome = true ↔ i ∈ createdIds n config := by
    intro c₁ hsame₁ i
    rw [((created_recorded n config).congr hsame₁).owned_isSome_iff, hsame₁.keys_eq, created_ids]
  refine ⟨howned_iff (hsame.trans hlinked), fun i o' howned' => ?_⟩
  have hi := (howned_iff (hsame.trans hlinked) i).mp (howned' ▸ rfl)
  obtain ⟨o, howned⟩ := Option.isSome_iff_exists.mp ((howned_iff hsame i).mpr hi)
  obtain ⟨p, -, ho⟩ := Option.bind_eq_some_iff.mp howned
  have htype : o.type ≠ .last := by
    have hkey := hrecorded.key_mem_of_owned howned
    rw [hsame.keys_eq, created_keys] at hkey
    exact type_of_mem_configNodes (List.takeWhile_subset _ hkey)
  obtain ⟨o₁, howned₁, -, hpeer₁⟩ := owned_foldlM hrecorded h howned htype
  obtain rfl := Option.some_inj.mp (howned'.symm.trans howned₁)
  rw [hpeer p o ho] at hpeer₁
  rw [hpeer₁, hlinked.pointer_eq]
  cases lastTarget (configLinks n config) i <;> rfl

end Build

/-- Any machine and any entries: `collect_by_config` goes through no null pointer and
no pointer to a deleted object, and builds the topology that the entries describe, if
and only if they are linkable. -/
theorem collectChecked_built_iff (machine : Machine) (config : NumaHWConfigV2) :
    (∃ c, collectChecked machine config .empty = some c ∧
        Built machine.nrPossibleNode config c) ↔
      Linkable machine.nrPossibleNode config := by
  generalize hn : machine.nrPossibleNode = n
  have hcollect : collectChecked machine config .empty =
      if (createNodeObjects (Collection.empty.resize n) (configNodes config)).2 < 0 then
        some (created n config)
      else if ((created n config).nodes ++ (created n config).dramNodes ++
          (created n config).pmemNodes).all (created n config).live then
        setupConfigRelationship machine config (setDefaultTargetNode (created n config))
      else none := by
    rw [← hn]
    rfl
  rw [hcollect]
  by_cases hrefused : Refused n config
  · rw [if_pos ((created_err n config).mpr hrefused)]
    constructor
    · rintro ⟨c, hc, hbuilt⟩
      obtain rfl := Option.some_inj.mp hc
      exact .inl ⟨hrefused, created_built_iff.mp hbuilt⟩
    · rintro (⟨-, h⟩ | ⟨hnot, -⟩)
      · exact ⟨_, rfl, created_built_iff.mpr h⟩
      · exact absurd hrefused hnot
  · rw [if_neg fun herr => hrefused ((created_err n config).mp herr),
      setupConfigRelationship_eq, hn]
    have hrecorded := created_recorded n config
    have hsame := setDefaultTargetNode_sameNodes (created n config)
    have hpeer := (created_noPeer n config).setDefaultTargetNode hrecorded
    have hlive := hrecorded.all_live_iff
    rw [created_ids] at hlive
    have hlinks := foldlM_setPeer_isSome_iff
      ((congrArg List.length hsame.nodeMap_eq).trans (created_length n config))
      fun link (hlink : link ∈ configLinks n config) => configLinks_bounds hlink
    have hsources : (∀ link ∈ configLinks n config,
        ((setDefaultTargetNode (created n config)).pointer link.1).isSome = true) ↔
          ∀ link ∈ configLinks n config, link.1.toNat ∈ createdIds n config := by
      refine forall₂_congr fun link hlink => ?_
      rw [hsame.pointer_eq, ← created_pointer_isSome_iff,
        Int.toNat_of_nonneg (configLinks_bounds hlink).1.1]
    constructor
    · rintro ⟨c, hc, -⟩
      split at hc
      · next hall =>
        exact .inr ⟨hrefused, hlive.mp hall, hsources.mp (hlinks.mp (hc ▸ rfl))⟩
      · cases hc
    · rintro (⟨href, -⟩ | ⟨-, hnodup, h⟩)
      · exact absurd href hrefused
      · rw [if_pos (hlive.mpr hnodup)]
        obtain ⟨c, hc⟩ := Option.isSome_iff_exists.mp (hlinks.mpr (hsources.mpr h))
        exact ⟨c, hc, built_of_foldlM hsame hpeer hc⟩

/-- An entry without a type, for a possible node, with a link. -/
def untyped : NumaHWConfigV2 :=
  [[("id", "0"), ("type", "DRAM"), ("demote_to", "1")], [("id", "1"), ("promote_to", "0")]]

/-- The second pass goes through the null pointer of the node that the first pass did
not create. -/
theorem collectByConfigV2_untyped :
    collectByConfigV2 twoNodes untyped .empty = none ∧
      ¬ ∃ c, collectChecked twoNodes untyped .empty = some c ∧ Built 2 untyped c := by
  have hnone : collectChecked twoNodes untyped .empty = none := by decide +kernel
  refine ⟨by decide +kernel, ?_⟩
  rintro ⟨c, hc, -⟩
  rw [hnone] at hc
  cases hc

end NumaCollect

end MemoryOptimizer
