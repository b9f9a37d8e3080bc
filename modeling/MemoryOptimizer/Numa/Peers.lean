import MemoryOptimizer.Numa.Collect

/-!
# The peers of the nodes

A topology links its nodes in pairs of ids, one after the other. A new node has no
peer, `set_default_target_node` gives it none, and a pair replaces the peer of the
node that it starts from.

* `NoPeer` — no node has a peer yet.
* `owned_foldlM` — the last pair of a node decides its peer.
-/

namespace MemoryOptimizer

namespace NumaCollect

/-- `get_peer_node`. -/
def NumaObject.peer (o : NumaObject) : Option Ptr :=
  match o.type with
  | .dram => o.demoteTarget
  | .pmem => o.promoteTarget
  | .last => none

/-- The object that `node_map_` owns for a node. -/
def Collection.owned (c : Collection) (i : ℕ) : Option NumaObject :=
  (c.nodeMap[i]?).join.bind fun p => c.objects[p]?

/-- The pointer to the node with an id. -/
def Collection.pointer (c : Collection) (id : ℤ) : Option Ptr := (c.nodeMap[id.toNat]?).join

/-! ### The nodes -/

/-- An address and the id that owns it. -/
theorem Recorded.objects_of_owned {n : ℕ} {c : Collection} (h : Recorded n c) {id : ℕ} {p : Ptr}
    (hp : c.nodeMap[id]? = some (some p)) : ∃ o, c.objects[p]? = some o ∧ o.id = id := by
  obtain ⟨key, hkey, hid⟩ := Option.map_eq_some_iff.mp (h.last_of_owned id p hp).1
  rw [keys_getElem?] at hkey
  obtain ⟨o, ho, rfl⟩ := Option.map_eq_some_iff.mp hkey
  exact ⟨o, ho, hid⟩

/-- The ids that were given to an object have one. -/
theorem Recorded.pointer_isSome_iff {n : ℕ} {c : Collection} (h : Recorded n c) (i : ℕ) :
    (c.pointer i).isSome = true ↔ i ∈ c.keys.map Prod.fst := by
  rw [Option.isSome_iff_exists, List.mem_iff_getElem?]
  simp only [Collection.pointer, Int.toNat_natCast, Option.join_eq_some_iff, List.getElem?_map]
  constructor
  · rintro ⟨p, hp⟩
    exact ⟨p, (h.last_of_owned i p hp).1⟩
  · rintro ⟨p, hp⟩
    exact h.owned_of_id p i hp

theorem Recorded.owned_isSome_iff {n : ℕ} {c : Collection} (h : Recorded n c) (i : ℕ) :
    (c.owned i).isSome = true ↔ i ∈ c.keys.map Prod.fst := by
  rw [← h.pointer_isSome_iff, Option.isSome_iff_exists, Option.isSome_iff_exists]
  constructor
  · rintro ⟨o, ho⟩
    obtain ⟨p, hp, -⟩ := Option.bind_eq_some_iff.mp ho
    exact ⟨p, hp⟩
  · rintro ⟨p, hp⟩
    obtain ⟨o, ho, -⟩ := h.objects_of_owned (Option.join_eq_some_iff.mp hp)
    exact ⟨o, Option.bind_eq_some_iff.mpr ⟨p, hp, ho⟩⟩

/-- What never changes of the object of a node. -/
theorem Recorded.key_mem_of_owned {n : ℕ} {c : Collection} (h : Recorded n c) {i : ℕ}
    {o : NumaObject} (howned : c.owned i = some o) : (i, o.type) ∈ c.keys := by
  obtain ⟨p, hp, ho⟩ := Option.bind_eq_some_iff.mp howned
  obtain ⟨o', ho', rfl⟩ := h.objects_of_owned (Option.join_eq_some_iff.mp hp)
  obtain rfl := Option.some_inj.mp (ho'.symm.trans ho)
  exact List.mem_map.mpr ⟨o', List.mem_of_getElem? ho, rfl⟩

theorem SameNodes.pointer_eq {c c' : Collection} (h : SameNodes c c') : c'.pointer = c.pointer := by
  funext id
  rw [Collection.pointer, Collection.pointer, h.nodeMap_eq]

/-! ### The pairs -/

/-- The target of the last pair from a node. -/
def lastTarget (pairs : List (ℤ × ℤ)) (source : ℤ) : Option ℤ :=
  ((pairs.filter fun pair => pair.1 = source).getLast?).map Prod.snd

theorem lastTarget_cons (pair : ℤ × ℤ) (pairs : List (ℤ × ℤ)) (source : ℤ) :
    lastTarget (pair :: pairs) source =
      (lastTarget pairs source).or (if pair.1 = source then some pair.2 else none) := by
  unfold lastTarget
  by_cases h : pair.1 = source
  · rw [List.filter_cons_of_pos (by simpa using h), List.getLast?_cons, if_pos h]
    cases (pairs.filter fun pair => pair.1 = source).getLast? <;> rfl
  · rw [List.filter_cons_of_neg (by simpa using h), if_neg h, Option.or_none]

theorem mem_of_lastTarget {pairs : List (ℤ × ℤ)} {source target : ℤ}
    (h : lastTarget pairs source = some target) : (source, target) ∈ pairs := by
  obtain ⟨pair, hlast, rfl⟩ := Option.map_eq_some_iff.mp h
  obtain ⟨hmem, hsource⟩ := List.mem_filter.mp (List.mem_of_getLast? hlast)
  obtain rfl := of_decide_eq_true hsource
  exact hmem

/-- **One pair** sets the peer of the node that it starts from. -/
theorem owned_setPeer {n : ℕ} {c c' : Collection} (h : Recorded n c) {source target : ℤ}
    (hpeer : setPeer c source target = some c') {i : ℕ} {o : NumaObject}
    (howned : c.owned i = some o) (htype : o.type ≠ .last) :
    ∃ o', c'.owned i = some o' ∧ o'.key = o.key ∧
      o'.peer = if source = i then c.pointer target else o.peer := by
  unfold setPeer at hpeer
  simp only [Option.bind_eq_bind, Option.bind_eq_some_iff] at hpeer
  obtain ⟨_, hsource, node, rfl, peer, htarget, hset⟩ := hpeer
  cases hset
  obtain ⟨p, hp, ho⟩ := Option.bind_eq_some_iff.mp howned
  rw [Option.join_eq_some_iff] at hp
  unfold getNode at hsource htarget
  split at hsource
  · next hnonneg =>
    split at htarget
    · have hpointer : c.pointer target = peer := by rw [Collection.pointer, htarget]; rfl
      -- two nodes have two objects
      have hsame : node = p ↔ source = i := by
        constructor
        · rintro rfl
          have h₁ := (h.last_of_owned _ _ hsource).1
          have h₂ := (h.last_of_owned _ _ hp).1
          have := Option.some_inj.mp (h₁.symm.trans h₂)
          omega
        · rintro rfl
          rw [Int.toNat_natCast, hp] at hsource
          exact (Option.some_inj.mp (Option.some_inj.mp hsource)).symm
      simp only [Collection.owned, setPeerNode, hp, hpointer, Option.join_some, Option.bind_some,
        List.getElem?_modify, ho, Option.map_eq_map, Option.map_some]
      by_cases hi : source = i
      · rw [if_pos (hsame.mpr hi), if_pos hi]
        refine ⟨_, rfl, ?_⟩
        cases hcase : o.type with
        | dram => simp [NumaObject.key, NumaObject.peer, hcase]
        | pmem => simp [NumaObject.key, NumaObject.peer, hcase]
        | last => exact absurd hcase htype
      · rw [if_neg fun heq => hi (hsame.mp heq), if_neg hi]
        exact ⟨o, rfl, rfl, rfl⟩
    · cases htarget
  · cases hsource

/-- All pairs: the last one of a node decides its peer. -/
theorem owned_foldlM {n : ℕ} {pairs : List (ℤ × ℤ)} {c c' : Collection} (h : Recorded n c)
    (hrun : pairs.foldlM (fun c pair => setPeer c pair.1 pair.2) c = some c') {i : ℕ}
    {o : NumaObject} (howned : c.owned i = some o) (htype : o.type ≠ .last) :
    ∃ o', c'.owned i = some o' ∧ o'.key = o.key ∧
      o'.peer = (lastTarget pairs i).elim o.peer c.pointer := by
  induction pairs generalizing c o with
  | nil => cases hrun; exact ⟨o, howned, rfl, rfl⟩
  | cons pair pairs ih =>
      obtain ⟨c₁, hpeer, hrest⟩ := Option.bind_eq_some_iff.mp hrun
      have hsame := setPeer_sameNodes hpeer
      obtain ⟨o₁, howned₁, hkey₁, hpeer₁⟩ := owned_setPeer h hpeer howned htype
      have htype₁ : o₁.type ≠ .last := (congrArg Prod.snd hkey₁).trans_ne htype
      obtain ⟨o', howned', hkey', hpeer'⟩ := ih (h.congr hsame) hrest howned₁ htype₁
      refine ⟨o', howned', hkey'.trans hkey₁, ?_⟩
      rw [hpeer', hpeer₁, hsame.pointer_eq, lastTarget_cons]
      cases lastTarget pairs i with
      | some target => rfl
      | none =>
          by_cases hi : pair.1 = i
          · simp [hi]
          · simp [hi]

/-! ### Before the pairs -/

/-- No node has a peer. -/
def NoPeer (c : Collection) : Prop :=
  ∀ (p : Ptr) (o : NumaObject), c.objects[p]? = some o → o.peer = none

theorem noPeer_empty (n : ℕ) : NoPeer (Collection.empty.resize n) := by
  intro p o ho
  cases ho

theorem NoPeer.createNode {c : Collection} (h : NoPeer c) (nodeId : ℕ) (type : NumaNodeType) :
    NoPeer (createNode c nodeId type).1 := by
  unfold NumaCollect.createNode
  split
  · exact h
  · split
    · exact h
    · intro p o ho
      rw [List.getElem?_append] at ho
      split at ho
      · exact h p o ho
      · rw [List.getElem?_singleton] at ho
        split at ho
        · cases ho
          cases type <;> rfl
        · cases ho

/-- A change of the objects of one type that leaves `g` alone. -/
theorem map_foldl_modify_of_type {β : Type*} (f : Ptr → NumaObject → NumaObject)
    (g : NumaObject → β) {type : NumaNodeType} (hkey : ∀ p o, (f p o).key = o.key)
    (hg : ∀ p o, o.type = type → g (f p o) = g o) {ps : List Ptr} {objects : List NumaObject}
    (hps : ∀ p ∈ ps, ∀ o, objects[p]? = some o → o.type = type) :
    (ps.foldl (fun objects p => objects.modify p (f p)) objects).map g = objects.map g := by
  induction ps generalizing objects with
  | nil => rfl
  | cons p ps ih =>
      rw [List.foldl_cons, ih]
      · refine List.ext_getElem? fun q => ?_
        rw [List.getElem?_map, List.getElem?_map, List.getElem?_modify]
        cases ho : objects[q]? with
        | none => rfl
        | some o =>
            by_cases hq : p = q
            · subst hq
              simp [hg p o (hps p List.mem_cons_self o ho)]
            · simp [hq]
      · intro q hq o ho
        have hkeys := congrArg (·[q]?) (map_modify_of_eq (f p) NumaObject.key (hkey p) objects p)
        rw [List.getElem?_map, List.getElem?_map, ho] at hkeys
        obtain ⟨o₀, ho₀, heq⟩ := Option.map_eq_some_iff.mp hkeys.symm
        exact (congrArg Prod.snd heq).symm.trans (hps q (List.mem_cons_of_mem _ hq) o₀ ho₀)

theorem type_of_mem_addressesOf {c : Collection} {type : NumaNodeType} {p : Ptr}
    (hp : p ∈ addressesOf c.keys type) {o : NumaObject} (ho : c.objects[p]? = some o) :
    o.type = type := by
  rw [addressesOf, List.mem_filter, keys_getElem?, ho, decide_eq_true_iff] at hp
  exact Option.some_inj.mp hp.2

/-- A default target is the one that is not the peer. -/
theorem NoPeer.setDefaultTargetNode {n : ℕ} {c : Collection} (h : NoPeer c)
    (hc : Recorded n c) : NoPeer (setDefaultTargetNode c) := by
  let c₁ : Collection := { c with
    objects := c.dramNodes.foldl
      (fun objects node => objects.modify node fun o => { o with promoteTarget := some node })
      c.objects }
  have hdram : c₁.objects.map NumaObject.peer = c.objects.map NumaObject.peer := by
    refine map_foldl_modify_of_type
      (fun node (o : NumaObject) => { o with promoteTarget := some node }) NumaObject.peer
      (fun _ _ => rfl) (fun p o (htype : o.type = .dram) => by simp [NumaObject.peer, htype])
      fun p hp o ho => ?_
    rw [hc.dramNodes_eq] at hp
    exact type_of_mem_addressesOf hp ho
  have hkeys : c₁.keys = c.keys := map_foldl_modify
    (fun node (o : NumaObject) => { o with promoteTarget := some node }) NumaObject.key
    (fun _ _ => rfl) c.dramNodes c.objects
  have hpmem : (NumaCollect.setDefaultTargetNode c).objects.map NumaObject.peer =
      c₁.objects.map NumaObject.peer := by
    refine map_foldl_modify_of_type
      (fun node (o : NumaObject) => { o with demoteTarget := some node }) NumaObject.peer
      (fun _ _ => rfl) (fun p o (htype : o.type = .pmem) => by simp [NumaObject.peer, htype])
      fun p hp o ho => ?_
    rw [hc.pmemNodes_eq, ← hkeys] at hp
    exact type_of_mem_addressesOf hp ho
  intro p o ho
  have hpeer := congrArg (·[p]?) (hpmem.trans hdram)
  rw [List.getElem?_map, List.getElem?_map, ho] at hpeer
  obtain ⟨o₀, ho₀, heq⟩ := Option.map_eq_some_iff.mp hpeer.symm
  exact heq.symm.trans (h p o₀ ho₀)

end NumaCollect

end MemoryOptimizer
