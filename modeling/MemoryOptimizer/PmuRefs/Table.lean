import MemoryOptimizer.Lib.Chain
import MemoryOptimizer.PmuRefs.Cmsk
import Mathlib.Data.List.Nodup
import Mathlib.Data.List.Range
import Mathlib.Data.Nat.Bitwise

/-!
# The table is an association list

`Table` is the representation invariant of an `achash`: the chain of every
bucket runs, in order of insertion, through the items whose key belongs there.
Under it `achash_update` finds a key exactly when the table holds it, so the
table behaves as the list of its entries in order of insertion (`record`):
`achashUpdate_spec`, and for the updates of an interval `cmskUpdates_spec`.
-/

namespace MemoryOptimizer.PmuRefs

/-- The key of an item. -/
def AchashItem.key (item : AchashItem) : ℕ × ℕ := (item.addr, item.pid)

/-- What a user of the table sees of an item: its key and its count. -/
def AchashItem.entry (item : AchashItem) : (ℕ × ℕ) × ℕ := (item.key, item.count)

/-- The items of the current interval, in order of insertion. -/
def Achash.current (a : Achash) : List AchashItem := a.items.take a.len

/-- The table as a list of entries, in order of insertion. -/
def Achash.entries (a : Achash) : List ((ℕ × ℕ) × ℕ) := a.current.map AchashItem.entry

/-- The item at an index. -/
def itemAt (a : Achash) (i : ℕ) : AchashItem := a.items.getD i default

/-- The items of a bucket, in order of insertion. -/
def bucketItems (a : Achash) (bucketOf : ℕ × ℕ → ℕ) (b : ℕ) : List ℕ :=
  (List.range a.len).filter fun i => bucketOf (itemAt a i).key = b

/-- The arrays have the sizes `achash_init` gave them. -/
structure Sized (a : Achash) : Prop where
  length_items : a.items.length = a.size
  length_buckets : a.buckets.length = a.mask + 1
  size_pos : 0 < a.size
  size_le : a.size ≤ 2 ^ achashSizeOrderMax

/-- The representation invariant of the table. -/
structure Table (bucketOf : ℕ × ℕ → ℕ) (a : Achash) : Prop extends Sized a where
  len_le : a.len ≤ a.size
  keys_nodup : (a.entries.map Prod.fst).Nodup
  chain : ∀ b ≤ a.mask,
    IsChain (fun i => (itemAt a i).next) (a.buckets.getD b 0) (bucketItems a bucketOf b)

/-- One more sample for a key: its count goes up by one, a new key comes last. -/
def record (initial : ℕ) (key : ℕ × ℕ) (l : List ((ℕ × ℕ) × ℕ)) : List ((ℕ × ℕ) × ℕ) :=
  if key ∈ l.map Prod.fst then l.map fun e => if e.1 = key then (e.1, e.2 + 1) else e
  else l ++ [(key, initial)]

/-- The same with the counts as the items keep them. -/
def record16 (initial : ℕ) (key : ℕ × ℕ) (l : List ((ℕ × ℕ) × ℕ)) : List ((ℕ × ℕ) × ℕ) :=
  if key ∈ l.map Prod.fst then
    l.map fun e => if e.1 = key then (e.1, count16 (e.2 + 1)) else e
  else l ++ [(key, count16 initial)]

theorem record16_eq {initial : ℕ} {key : ℕ × ℕ} {l : List ((ℕ × ℕ) × ℕ)}
    (hfit : ∀ e ∈ record initial key l, e.2 < 2 ^ 16) :
    record16 initial key l = record initial key l := by
  unfold record16
  unfold record at hfit ⊢
  split
  · next hkey =>
    rw [if_pos hkey] at hfit
    refine List.map_congr_left fun e he => ?_
    have hlt := hfit _ (List.mem_map_of_mem he)
    split at hlt
    · next h =>
      rw [if_pos h, if_pos h]
      exact Prod.ext rfl (Nat.mod_eq_of_lt hlt)
    · next h => rw [if_neg h, if_neg h]
  · next hkey =>
    rw [if_neg hkey] at hfit
    have hlt := hfit (key, initial) (List.mem_append_right _ (List.mem_singleton_self _))
    rw [show count16 initial = initial from Nat.mod_eq_of_lt hlt]

/-- The parts of a table that its updates leave alone. -/
structure SameConfig (a a' : Achash) : Prop where
  hashMode_eq : a'.hashMode = a.hashMode
  threshold_eq : a'.threshold = a.threshold
  size_eq : a'.size = a.size
  mask_eq : a'.mask = a.mask

theorem SameConfig.trans {a b c : Achash} (h : SameConfig a b) (h' : SameConfig b c) :
    SameConfig a c :=
  ⟨h'.1.trans h.1, h'.2.trans h.2, h'.3.trans h.3, h'.4.trans h.4⟩

theorem SameConfig.initialCount_eq {a a' : Achash} (same : SameConfig a a') :
    initialCount a' = initialCount a := by
  unfold initialCount
  rw [same.hashMode_eq, same.threshold_eq]

section Table

variable {bucketOf : ℕ × ℕ → ℕ} {a : Achash}

theorem achashClear_table (sized : Sized a) : Table bucketOf (achashClear a) := by
  refine ⟨⟨sized.1, ?_, sized.3, sized.4⟩, Nat.zero_le _, by simp [Achash.entries,
    Achash.current, achashClear], fun b _ => ?_⟩
  · simp [achashClear, sized.length_buckets]
  · have hzero : (achashClear a).buckets.getD b 0 = 0 := by
      simp only [achashClear, List.getD_eq_getElem?_getD, List.getElem?_map]
      cases a.buckets[b]? <;> rfl
    rw [hzero]
    simp [bucketItems, achashClear, IsChain]

/-- What `cmsk_init` makes: an empty sketch, and a table that is cleared. -/
structure Fresh (agingHalf hashMode : Bool) (widthOrder depth threshold histMax : ℕ) (s : Cmsk) :
    Prop where
  agingHalf_eq : s.agingHalf = agingHalf
  hashMode_eq : s.achash.hashMode = hashMode
  threshold_eq : s.achash.threshold = threshold
  cms_eq : s.cms = cmsInit widthOrder depth
  sized : Sized s.achash
  cleared : achashClear s.achash = s.achash
  items_eq : ∀ item ∈ s.achash.items, item = default
  length_hist : s.achash.hist.length = histMax
  histMax_eq : s.achash.histMax = histMax
  histOverrun_eq : s.achash.histOverrun = false

theorem cmskInit_fresh {agingHalf hashMode : Bool}
    {widthOrder depth threshold sizeOrder histMax : ℕ} {s : Cmsk}
    (h : cmskInit agingHalf hashMode widthOrder depth threshold sizeOrder histMax = some s) :
    Fresh agingHalf hashMode widthOrder depth threshold histMax s := by
  unfold cmskInit achashInit at h
  split at h
  · cases h
  · next hsize =>
    cases h
    have hpos := Nat.two_pow_pos sizeOrder
    have hlength : (List.replicate (2 ^ sizeOrder) 0).length = 2 ^ sizeOrder - 1 + 1 := by
      rw [List.length_replicate]
      omega
    refine ⟨rfl, rfl, rfl, rfl, ⟨List.length_replicate, hlength, hpos,
      Nat.pow_le_pow_right (by norm_num) (not_lt.mp hsize)⟩, ?_,
      fun _ hitem => List.eq_of_mem_replicate hitem, List.length_replicate, rfl, rfl⟩
    unfold achashClear
    simp only [List.map_replicate]

theorem Fresh.table {agingHalf hashMode : Bool} {widthOrder depth threshold histMax : ℕ} {s : Cmsk}
    (h : Fresh agingHalf hashMode widthOrder depth threshold histMax s) :
    Table bucketOf s.achash :=
  h.cleared ▸ achashClear_table h.sized

theorem Fresh.room {agingHalf hashMode : Bool} {widthOrder depth threshold histMax : ℕ} {s : Cmsk}
    (h : Fresh agingHalf hashMode widthOrder depth threshold histMax s) :
    s.achash.len < s.achash.size := by
  rw [← h.cleared]
  exact h.sized.size_pos

theorem current_eq_map (hlen : a.len ≤ a.items.length) :
    a.current = (List.range a.len).map (itemAt a) := by
  refine List.ext_getElem (by simp [Achash.current, hlen]) fun i h1 h2 => ?_
  have hi : i < a.items.length := by
    simp [Achash.current] at h1
    omega
  simp [Achash.current, itemAt, hi]

theorem entries_eq_map (hlen : a.len ≤ a.items.length) :
    a.entries = (List.range a.len).map fun i => (itemAt a i).entry := by
  rw [Achash.entries, current_eq_map hlen, List.map_map]
  rfl

theorem Table.len_le_length (tab : Table bucketOf a) : a.len ≤ a.items.length := by
  rw [tab.length_items]
  exact tab.len_le

theorem Table.length_entries (tab : Table bucketOf a) : a.entries.length = a.len := by
  rw [entries_eq_map tab.len_le_length, List.length_map, List.length_range]

/-- Following a chain finds the first item with the key, or the last item. -/
theorem walkChain_eq {addr pid : ℕ} {fuel num last : ℕ} {l : List ℕ}
    (chain : IsChain (fun i => (itemAt a i).next) num l) (hfuel : l.length < fuel) :
    walkChain a addr pid fuel num last =
      some (match l.find? fun i => (itemAt a i).key = (addr, pid) with
        | some i => ChainEnd.found (i + 1)
        | none => ChainEnd.last ((l.getLast?.map (· + 1)).getD last)) := by
  induction fuel generalizing num last l with
  | zero => exact absurd hfuel (Nat.not_lt_zero _)
  | succ fuel ih =>
      cases l with
      | nil =>
          have hnum : num = 0 := chain
          simp [walkChain, hnum]
      | cons i l =>
          obtain ⟨rfl, htail⟩ := chain
          have hitem : achashItem a (i + 1) = itemAt a i := rfl
          rw [walkChain, if_neg (Nat.succ_ne_zero i)]
          simp only [hitem]
          by_cases hkey : (itemAt a i).key = (addr, pid)
          · have hboth : (itemAt a i).addr = addr ∧ (itemAt a i).pid = pid := by
              simpa [AchashItem.key] using hkey
            rw [if_pos hboth, List.find?_cons_of_pos (by simpa using hkey)]
          · have hboth : ¬((itemAt a i).addr = addr ∧ (itemAt a i).pid = pid) := by
              simpa [AchashItem.key] using hkey
            rw [if_neg hboth, ih htail (Nat.lt_of_succ_lt_succ hfuel),
              List.find?_cons_of_neg (by simpa using hkey)]
            cases l with
            | nil => rfl
            | cons j l =>
                rw [List.getLast?_cons_cons]
                cases hlast : (j :: l).getLast? with
                | none => simp at hlast
                | some k => rfl

/-- The walk from the head of a bucket goes through its items. -/
theorem walkChain_bucket (tab : Table bucketOf a) {addr pid b : ℕ} (hb : b ≤ a.mask) :
    walkChain a addr pid (a.len + 1) (a.buckets.getD b 0) 0 =
      some (match (bucketItems a bucketOf b).find? fun i => (itemAt a i).key = (addr, pid) with
        | some i => ChainEnd.found (i + 1)
        | none =>
            ChainEnd.last (((bucketItems a bucketOf b).getLast?.map (· + 1)).getD 0)) := by
  refine walkChain_eq (tab.chain b hb) (Nat.lt_succ_of_le ?_)
  have hlength := List.length_filter_le (fun i => bucketOf (itemAt a i).key = b) (List.range a.len)
  rwa [List.length_range] at hlength

/-! ### Counting a sample of a key that is there -/

theorem itemAt_modify (a : Achash) (i j : ℕ) (f : AchashItem → AchashItem)
    (hi : i < a.items.length) :
    (a.items.modify i f).getD j default = if j = i then f (itemAt a i) else itemAt a j := by
  unfold itemAt
  simp only [List.getD_eq_getElem?_getD, List.getElem?_modify]
  by_cases hj : j = i
  · subst hj
    simp [hi]
  · simp [hj, Ne.symm hj]

theorem itemAt_countItem {i : ℕ} (hi : i < a.items.length) (j : ℕ) :
    itemAt (countItem a (i + 1)) j =
      if j = i then { itemAt a i with count := count16 ((itemAt a i).count + 1) }
      else itemAt a j :=
  itemAt_modify a i j _ hi

theorem key_countItem {i : ℕ} (hi : i < a.items.length) (j : ℕ) :
    (itemAt (countItem a (i + 1)) j).key = (itemAt a j).key ∧
      (itemAt (countItem a (i + 1)) j).next = (itemAt a j).next := by
  rw [itemAt_countItem hi]
  split
  · rename_i h
    subst h
    exact ⟨rfl, rfl⟩
  · exact ⟨rfl, rfl⟩

theorem keys_eq_map (hlen : a.len ≤ a.items.length) :
    a.entries.map Prod.fst = (List.range a.len).map fun i => (itemAt a i).key := by
  rw [entries_eq_map hlen, List.map_map]
  rfl

theorem countItem_table (tab : Table bucketOf a) {i : ℕ} (hi : i < a.len) :
    Table bucketOf (countItem a (i + 1)) := by
  have hlt : i < a.items.length := hi.trans_le tab.len_le_length
  have hlen : (countItem a (i + 1)).items.length = a.items.length := List.length_modify ..
  refine ⟨⟨hlen.trans tab.1.1, tab.1.2, tab.1.3, tab.1.4⟩, tab.len_le, ?_, fun b hb => ?_⟩
  · rw [keys_eq_map (hlen ▸ tab.len_le_length)]
    have : (fun j => (itemAt (countItem a (i + 1)) j).key) = fun j => (itemAt a j).key := by
      funext j
      exact (key_countItem hlt j).1
    rw [this]
    exact keys_eq_map tab.len_le_length ▸ tab.keys_nodup
  · have hbucket : bucketItems (countItem a (i + 1)) bucketOf b = bucketItems a bucketOf b := by
      unfold bucketItems
      exact List.filter_congr fun j _ => by rw [(key_countItem hlt j).1]
    rw [hbucket]
    exact (tab.chain b hb).congr fun j _ => (key_countItem hlt j).2

theorem entries_countItem (tab : Table bucketOf a) {i : ℕ} (hi : i < a.len) :
    (countItem a (i + 1)).entries =
      a.entries.map fun e => if e.1 = (itemAt a i).key then (e.1, count16 (e.2 + 1)) else e := by
  have hlt : i < a.items.length := hi.trans_le tab.len_le_length
  have hlen : (countItem a (i + 1)).items.length = a.items.length := List.length_modify ..
  rw [entries_eq_map (hlen ▸ tab.len_le_length), entries_eq_map tab.len_le_length, List.map_map]
  refine List.map_congr_left fun j hj => ?_
  rw [itemAt_countItem hlt]
  by_cases hji : j = i
  · subst hji
    simp [AchashItem.entry, AchashItem.key]
  · have hkey : (itemAt a j).key ≠ (itemAt a i).key := by
      intro h
      have hnodup := tab.keys_nodup
      rw [keys_eq_map tab.len_le_length] at hnodup
      exact hji (List.inj_on_of_nodup_map hnodup hj (List.mem_range.mpr hi) h)
    simp [hji, AchashItem.entry, hkey]

/-! ### A new key -/

section NewItem

variable (a) (addr pid : ℕ)

theorem achashNewItem_items : (achashNewItem a addr pid).items =
    a.items.set a.len ⟨addr, field24 pid, 0, count16 (initialCount a)⟩ := by
  unfold achashNewItem
  cases a.hashMode <;> rfl

theorem achashNewItem_len : (achashNewItem a addr pid).len = a.len + 1 := by
  unfold achashNewItem
  cases a.hashMode <;> rfl

theorem achashNewItem_buckets : (achashNewItem a addr pid).buckets = a.buckets := by
  unfold achashNewItem
  cases a.hashMode <;> rfl

theorem achashNewItem_samples :
    (achashNewItem a addr pid).samples = uint (a.samples + initialCount a) := by
  unfold achashNewItem
  cases a.hashMode <;> rfl

theorem achashNewItem_config : SameConfig a (achashNewItem a addr pid) := by
  unfold achashNewItem
  cases h : a.hashMode <;> exact ⟨by simp [h, histInc, histModify], rfl, rfl, rfl⟩

theorem itemAt_achashNewItem (hlen : a.len < a.items.length) (j : ℕ) :
    itemAt (achashNewItem a addr pid) j =
      if j = a.len then ⟨addr, field24 pid, 0, count16 (initialCount a)⟩ else itemAt a j := by
  unfold itemAt
  rw [achashNewItem_items]
  simp only [List.getD_eq_getElem?_getD, List.getElem?_set]
  by_cases hj : j = a.len
  · simp [hj, hlen]
  · simp [hj, Ne.symm hj]

end NewItem

/-- A new key that is linked at the end of the chain of its bucket. -/
theorem newItem_table (tab : Table bucketOf a) (a' : Achash) (same : SameConfig a a')
    (hitems : a'.items.length = a.items.length) (hbuckets : a'.buckets.length = a.buckets.length)
    (hlen : a'.len = a.len + 1) (hroom : a.len < a.size) (key : ℕ × ℕ) (initial : ℕ)
    (hold : ∀ i < a.len, (itemAt a' i).entry = (itemAt a i).entry)
    (hnew : (itemAt a' a.len).entry = (key, initial)) (hkey : key ∉ a.entries.map Prod.fst)
    (hchain : IsChain (fun i => (itemAt a' i).next) (a'.buckets.getD (bucketOf key) 0)
      (bucketItems a bucketOf (bucketOf key) ++ [a.len]))
    (hother : ∀ b ≤ a.mask, b ≠ bucketOf key →
      IsChain (fun i => (itemAt a' i).next) (a'.buckets.getD b 0) (bucketItems a bucketOf b)) :
    Table bucketOf a' ∧ a'.entries = a.entries ++ [(key, initial)] := by
  have hle : a'.len ≤ a'.items.length := by
    rw [hlen, hitems, tab.length_items]
    exact hroom
  have hentries : a'.entries = a.entries ++ [(key, initial)] := by
    rw [entries_eq_map hle, entries_eq_map tab.len_le_length, hlen, List.range_succ,
      List.map_append, List.map_singleton, hnew]
    refine congrArg (· ++ _) (List.map_congr_left fun i hi => hold i (List.mem_range.mp hi))
  refine ⟨⟨⟨?_, ?_, ?_, ?_⟩, ?_, ?_, fun b hb => ?_⟩, hentries⟩
  · rw [hitems, same.size_eq, tab.length_items]
  · rw [hbuckets, same.mask_eq, tab.length_buckets]
  · rw [same.size_eq]; exact tab.size_pos
  · rw [same.size_eq]; exact tab.size_le
  · rw [hlen, same.size_eq]; exact hroom
  · rw [hentries, List.map_append, List.nodup_append]
    refine ⟨tab.keys_nodup, by simp, fun k hk k' hk' h => ?_⟩
    rw [List.map_singleton, List.mem_singleton] at hk'
    have hkk : k = key := h.trans hk'
    exact hkey (hkk ▸ hk)
  · rw [same.mask_eq] at hb
    have hbucket : bucketItems a' bucketOf b =
        bucketItems a bucketOf b ++ if bucketOf key = b then [a.len] else [] := by
      unfold bucketItems
      rw [hlen, List.range_succ, List.filter_append]
      congr 1
      · refine List.filter_congr fun i hi => ?_
        have := congrArg Prod.fst (hold i (List.mem_range.mp hi))
        rw [show (itemAt a' i).key = (itemAt a i).key from this]
      · have : (itemAt a' a.len).key = key := congrArg Prod.fst hnew
        simp [List.filter_cons, this]
    rw [hbucket]
    by_cases hbk : bucketOf key = b
    · subst hbk
      rw [if_pos rfl]
      exact hchain
    · rw [if_neg hbk, List.append_nil]
      exact hother b hb (Ne.symm hbk)

theorem mem_bucketItems {b i : ℕ} :
    i ∈ bucketItems a bucketOf b ↔ i < a.len ∧ bucketOf (itemAt a i).key = b := by
  simp [bucketItems]

theorem bucketItems_nodup (b : ℕ) : (bucketItems a bucketOf b).Nodup :=
  List.nodup_range.filter _

/-- A key that is there is in its own bucket. -/
theorem mem_keys_iff (tab : Table bucketOf a) {key : ℕ × ℕ} :
    key ∈ a.entries.map Prod.fst ↔
      ∃ i ∈ bucketItems a bucketOf (bucketOf key), (itemAt a i).key = key := by
  rw [keys_eq_map tab.len_le_length, List.mem_map]
  constructor
  · rintro ⟨i, hi, hkey⟩
    exact ⟨i, mem_bucketItems.mpr ⟨List.mem_range.mp hi, by rw [hkey]⟩, hkey⟩
  · rintro ⟨i, hi, hkey⟩
    exact ⟨i, List.mem_range.mpr (mem_bucketItems.mp hi).1, hkey⟩

/-- The new item as the first one of bucket `b`. -/
def newItemFirst (a : Achash) (addr pid b : ℕ) : Achash :=
  { achashNewItem a addr pid with
    buckets := (achashNewItem a addr pid).buckets.set b (achashNewItem a addr pid).len }

/-- The new item behind item `last`. -/
def newItemBehind (a : Achash) (addr pid last : ℕ) : Achash :=
  { achashNewItem a addr pid with
    items := (achashNewItem a addr pid).items.modify last fun item =>
      { item with next := field24 (achashNewItem a addr pid).len } }

section Linked

variable {addr pid last : ℕ} {l : List ℕ}

theorem entry_newItem (hpid : pid < 2 ^ 24) (count : ℕ) :
    AchashItem.entry ⟨addr, field24 pid, 0, count⟩ = ((addr, pid), count) := by
  have hfield : field24 pid = pid := Nat.mod_eq_of_lt hpid
  simp [AchashItem.entry, AchashItem.key, hfield]

theorem newItemFirst_config (b : ℕ) : SameConfig a (newItemFirst a addr pid b) :=
  have hsame := achashNewItem_config a addr pid
  ⟨hsame.1, hsame.2, hsame.3, hsame.4⟩

theorem newItemBehind_config (last : ℕ) : SameConfig a (newItemBehind a addr pid last) :=
  have hsame := achashNewItem_config a addr pid
  ⟨hsame.1, hsame.2, hsame.3, hsame.4⟩

theorem itemAt_newItemFirst (hlen : a.len < a.items.length) (addr pid b j : ℕ) :
    itemAt (newItemFirst a addr pid b) j =
      if j = a.len then ⟨addr, field24 pid, 0, count16 (initialCount a)⟩ else itemAt a j :=
  itemAt_achashNewItem a addr pid hlen j

theorem itemAt_newItemBehind (tab : Table bucketOf a) (hroom : a.len < a.size)
    (hlast : last < a.len) (addr pid j : ℕ) :
    itemAt (newItemBehind a addr pid last) j =
      if j = last then { itemAt a last with next := a.len + 1 }
      else if j = a.len then ⟨addr, field24 pid, 0, count16 (initialCount a)⟩
      else itemAt a j := by
  have hlt : a.len < a.items.length := by
    rw [tab.length_items]
    exact hroom
  have hnext : field24 (a.len + 1) = a.len + 1 := by
    refine Nat.mod_eq_of_lt ?_
    have hsize := tab.size_le
    have hmax : (2 : ℕ) ^ achashSizeOrderMax < 2 ^ 24 := by decide
    omega
  have hlen : last < (achashNewItem a addr pid).items.length := by
    rw [achashNewItem_items, List.length_set]
    exact hlast.trans hlt
  refine (itemAt_modify (achashNewItem a addr pid) last j _ hlen).trans ?_
  rw [itemAt_achashNewItem a addr pid hlt, itemAt_achashNewItem a addr pid hlt, if_neg hlast.ne,
    achashNewItem_len, hnext]

/-- A new key whose bucket was empty. -/
theorem newItemFirst_table (tab : Table bucketOf a) (hpid : pid < 2 ^ 24) (hroom : a.len < a.size)
    (hkey : (addr, pid) ∉ a.entries.map Prod.fst) (hmask : bucketOf (addr, pid) ≤ a.mask)
    (hempty : bucketItems a bucketOf (bucketOf (addr, pid)) = []) :
    Table bucketOf (newItemFirst a addr pid (bucketOf (addr, pid))) ∧
      (newItemFirst a addr pid (bucketOf (addr, pid))).entries =
        a.entries ++ [((addr, pid), count16 (initialCount a))] := by
  have hat := itemAt_newItemFirst (tab.length_items ▸ hroom) addr pid (bucketOf (addr, pid))
  refine newItem_table tab _ (newItemFirst_config _) (by simp [newItemFirst, achashNewItem_items])
    (by simp [newItemFirst, achashNewItem_buckets]) (achashNewItem_len a addr pid) hroom
    (addr, pid) (count16 (initialCount a)) (fun i hi => ?_) ?_ hkey ?_ fun b hb hne => ?_
  · rw [hat, if_neg hi.ne]
  · rw [hat, if_pos rfl]
    exact entry_newItem hpid _
  · rw [hempty]
    refine ⟨?_, ?_⟩
    · have hb : bucketOf (addr, pid) < a.buckets.length := by
        rw [tab.length_buckets]
        exact Nat.lt_succ_of_le hmask
      simp [newItemFirst, achashNewItem_buckets, achashNewItem_len, hb]
    · show (itemAt _ a.len).next = 0
      rw [hat, if_pos rfl]
  · have hget : (newItemFirst a addr pid (bucketOf (addr, pid))).buckets.getD b 0 =
        a.buckets.getD b 0 := by
      simp [newItemFirst, achashNewItem_buckets, Ne.symm hne]
    rw [hget]
    refine (tab.chain b hb).congr fun i hi => ?_
    rw [hat, if_neg (mem_bucketItems.mp hi).1.ne]

/-- A new key that is linked behind the last one of its bucket. -/
theorem newItemBehind_table (tab : Table bucketOf a) (hpid : pid < 2 ^ 24)
    (hroom : a.len < a.size) (hkey : (addr, pid) ∉ a.entries.map Prod.fst)
    (hmask : bucketOf (addr, pid) ≤ a.mask)
    (hl : bucketItems a bucketOf (bucketOf (addr, pid)) = l ++ [last]) :
    Table bucketOf (newItemBehind a addr pid last) ∧
      (newItemBehind a addr pid last).entries =
        a.entries ++ [((addr, pid), count16 (initialCount a))] := by
  have hmem : ∀ i ∈ l ++ [last], i < a.len ∧ bucketOf (itemAt a i).key = bucketOf (addr, pid) := by
    intro i hi
    rw [← hl] at hi
    exact mem_bucketItems.mp hi
  have hlast := (hmem last (List.mem_append_right _ (List.mem_singleton_self _))).1
  have hat := itemAt_newItemBehind tab hroom hlast addr pid
  -- an item that is not the last one of the bucket keeps its link
  have hkept : ∀ i < a.len, i ≠ last →
      (itemAt (newItemBehind a addr pid last) i).next = (itemAt a i).next := by
    intro i hi hne
    rw [hat, if_neg hne, if_neg hi.ne]
  refine newItem_table tab _ (newItemBehind_config last)
    (by simp [newItemBehind, achashNewItem_items]) (by simp [newItemBehind, achashNewItem_buckets])
    (achashNewItem_len a addr pid) hroom (addr, pid) (count16 (initialCount a)) (fun i hi => ?_)
    ?_ hkey ?_ fun b hb hne => ?_
  · rw [hat]
    by_cases h : i = last
    · rw [if_pos h, h]
      rfl
    · rw [if_neg h, if_neg hi.ne]
  · rw [hat, if_neg hlast.ne', if_pos rfl]
    exact entry_newItem hpid _
  · have chain := tab.chain _ hmask
    have hnodup : (bucketItems a bucketOf (bucketOf (addr, pid))).Nodup :=
      bucketItems_nodup (bucketOf (addr, pid))
    rw [hl] at hnodup chain ⊢
    have hchain := chain.append a.len (fun i => (itemAt (newItemBehind a addr pid last) i).next)
      (fun i hi => hkept i (hmem i (List.mem_append_left _ hi)).1 fun h =>
        (List.nodup_append.mp hnodup).2.2 i hi last (List.mem_singleton_self _) h)
      (by simp only [hat, if_true]) (by simp only [hat, if_neg hlast.ne', if_true])
    simpa [newItemBehind, achashNewItem_buckets] using hchain
  · have hbuckets : (newItemBehind a addr pid last).buckets = a.buckets :=
      achashNewItem_buckets a addr pid
    rw [hbuckets]
    refine (tab.chain b hb).congr fun i hi => hkept i (mem_bucketItems.mp hi).1 ?_
    rintro rfl
    exact hne ((mem_bucketItems.mp hi).2.symm.trans
      (hmem i (List.mem_append_right _ (List.mem_singleton_self _))).2)

end Linked

/-- `achash_update` finds the key, or adds it as the last item. -/
theorem achashUpdate_spec16 (tab : Table bucketOf a) {addr pid h : ℕ}
    (hbucket : h &&& a.mask = bucketOf (addr, pid)) (hpid : pid < 2 ^ 24)
    (hroom : a.len < a.size) :
    ∃ a', achashUpdate a addr pid h = some (a', decide (a'.len ≥ a'.size)) ∧
      Table bucketOf a' ∧ SameConfig a a' ∧
      a'.entries = record16 (initialCount a) (addr, pid) a.entries ∧
      a'.samples = uint (a.samples +
        if (addr, pid) ∈ a.entries.map Prod.fst then 1 else initialCount a) := by
  have hmask : bucketOf (addr, pid) ≤ a.mask := hbucket ▸ Nat.and_le_right
  have chain := tab.chain _ hmask
  unfold achashUpdate
  simp only [hbucket]
  by_cases hkey : (addr, pid) ∈ a.entries.map Prod.fst
  · -- the key is there: the walk ends at its item
    obtain ⟨i, hi, hikey⟩ := (mem_keys_iff tab).mp hkey
    have hnum : a.buckets.getD (bucketOf (addr, pid)) 0 ≠ 0 :=
      mt chain.num_eq_zero_iff.mp (List.ne_nil_of_mem hi)
    obtain ⟨j, hfind⟩ : ∃ j, (bucketItems a bucketOf (bucketOf (addr, pid))).find?
        (fun i => (itemAt a i).key = (addr, pid)) = some j := by
      rw [← Option.isSome_iff_exists, List.find?_isSome]
      exact ⟨i, hi, by simpa using hikey⟩
    have hj := (mem_bucketItems.mp (List.mem_of_find?_eq_some hfind)).1
    have hjkey : (itemAt a j).key = (addr, pid) := by simpa using List.find?_some hfind
    rw [if_neg hnum, walkChain_bucket tab hmask, hfind]
    rw [record16, if_pos hkey]
    have hroom' : ¬(countItem a (j + 1)).len ≥ (countItem a (j + 1)).size := not_le.mpr hroom
    refine ⟨countItem a (j + 1), by simp [hroom'], countItem_table tab hj, ⟨rfl, rfl, rfl, rfl⟩,
      ?_, by rw [if_pos hkey]; rfl⟩
    rw [entries_countItem tab hj, hjkey]
  · rw [record16, if_neg hkey, if_neg hkey]
    by_cases hnum : a.buckets.getD (bucketOf (addr, pid)) 0 = 0
    · rw [if_pos hnum]
      obtain ⟨htab, hentries⟩ := newItemFirst_table tab hpid hroom hkey hmask
        (chain.num_eq_zero_iff.mp hnum)
      exact ⟨newItemFirst a addr pid (bucketOf (addr, pid)), rfl, htab, newItemFirst_config _,
        hentries, achashNewItem_samples a addr pid⟩
    · -- the walk ends at the last item of the bucket
      have hnone : (bucketItems a bucketOf (bucketOf (addr, pid))).find?
          (fun i => (itemAt a i).key = (addr, pid)) = none := by
        rw [List.find?_eq_none]
        intro i hi
        simpa using fun h => hkey ((mem_keys_iff tab).mpr ⟨i, hi, h⟩)
      obtain ⟨l, last, hl⟩ : ∃ l last,
          bucketItems a bucketOf (bucketOf (addr, pid)) = l ++ [last] :=
        ⟨_, _, (List.dropLast_append_getLast (mt chain.num_eq_zero_iff.mpr hnum)).symm⟩
      obtain ⟨htab, hentries⟩ := newItemBehind_table tab hpid hroom hkey hmask hl
      rw [if_neg hnum, walkChain_bucket tab hmask, hnone, hl, List.getLast?_append]
      exact ⟨newItemBehind a addr pid last, rfl, htab, newItemBehind_config last, hentries,
        achashNewItem_samples a addr pid⟩

/-- The same, where no count wraps. -/
theorem achashUpdate_spec (tab : Table bucketOf a) {addr pid h : ℕ}
    (hbucket : h &&& a.mask = bucketOf (addr, pid)) (hpid : pid < 2 ^ 24)
    (hroom : a.len < a.size)
    (hfit : ∀ e ∈ record (initialCount a) (addr, pid) a.entries, e.2 < 2 ^ 16) :
    ∃ a', achashUpdate a addr pid h = some (a', decide (a'.len ≥ a'.size)) ∧
      Table bucketOf a' ∧ SameConfig a a' ∧
      a'.entries = record (initialCount a) (addr, pid) a.entries ∧
      a'.samples = uint (a.samples +
        if (addr, pid) ∈ a.entries.map Prod.fst then 1 else initialCount a) := by
  rw [← record16_eq hfit]
  exact achashUpdate_spec16 tab hbucket hpid hroom

end Table

end MemoryOptimizer.PmuRefs
