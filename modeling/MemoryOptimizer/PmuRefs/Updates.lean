import MemoryOptimizer.PmuRefs.Interval
import Mathlib.Algebra.BigOperators.Group.List.Defs

/-!
# The table after any updates

`achash_update` called for any keys, up to the first call that reports a full
table, from a table just cleared.

* `tally` — the counts of the keys, in order of first appearance.
* `Tallies` — the table holds the tally, with counts and links of their own width.
* `achashUpdates_represents` — the representation invariant, in terms of the table.
* `achashUpdates_samplesWrap` — `samples` has 32 bits.
-/

namespace MemoryOptimizer.PmuRefs

/-- Calls of `achash_update`, up to the first one that returns true, and the keys
they were made for. -/
def achashUpdates (hashOf : Key → ℕ) : Achash → List Key → Option (Achash × List Key)
  | a, [] => some (a, [])
  | a, key :: keys =>
      (achashUpdate a key.1 key.2 (hashOf key)).bind fun r =>
        if r.2 then some (r.1, [key])
        else (achashUpdates hashOf r.1 keys).map fun t => (t.1, key :: t.2)

/-! ### The tally of the keys -/

/-- The keys in order of first appearance, with their initial count and one more
for each later update. -/
def tally (initial : ℕ) (used : List Key) : List (Key × ℕ) :=
  used.foldl (fun l key => record initial key l) []

/-- The same with the counts as the items keep them. -/
def tally16 (initial : ℕ) (used : List Key) : List (Key × ℕ) :=
  used.foldl (fun l key => record16 initial key l) []

section Tally

variable (initial : ℕ) (used : List Key) (key : Key)

theorem tally_concat : tally initial (used ++ [key]) = record initial key (tally initial used) :=
  List.foldl_concat ..

theorem tally16_concat :
    tally16 initial (used ++ [key]) = record16 initial key (tally16 initial used) :=
  List.foldl_concat ..

theorem keys_record (l : List (Key × ℕ)) : (record initial key l).map Prod.fst =
    if key ∈ l.map Prod.fst then l.map Prod.fst else l.map Prod.fst ++ [key] := by
  unfold record
  split
  · rw [List.map_map]
    refine List.map_congr_left fun e _ => ?_
    rw [Function.comp_apply]
    split <;> rfl
  · rw [List.map_append, List.map_singleton]

theorem keys_record16 (l : List (Key × ℕ)) :
    (record16 initial key l).map Prod.fst = (record initial key l).map Prod.fst := by
  rw [keys_record]
  unfold record16
  split
  · rw [List.map_map]
    refine List.map_congr_left fun e _ => ?_
    rw [Function.comp_apply]
    split <;> rfl
  · rw [List.map_append, List.map_singleton]

theorem keys_tally16 : (tally16 initial used).map Prod.fst = (tally initial used).map Prod.fst := by
  induction used using List.reverseRecOn with
  | nil => rfl
  | append_singleton used key ih =>
      rw [tally16_concat, tally_concat, keys_record16, keys_record, keys_record, ih]

theorem keys_tally_nodup : ((tally initial used).map Prod.fst).Nodup := by
  induction used using List.reverseRecOn with
  | nil => exact List.nodup_nil
  | append_singleton used key ih =>
      rw [tally_concat, keys_record]
      split
      · exact ih
      · next hkey => exact List.nodup_append.mpr ⟨ih, List.nodup_singleton key, by
          rintro k hk _ hk' rfl
          exact hkey (List.mem_singleton.mp hk' ▸ hk)⟩

theorem mem_keys_tally {k : Key} : k ∈ (tally initial used).map Prod.fst ↔ k ∈ used := by
  induction used using List.reverseRecOn with
  | nil => rfl
  | append_singleton used key ih =>
      rw [tally_concat, keys_record, List.mem_append, List.mem_singleton, ← ih]
      split
      · next hkey => exact ⟨.inl, fun h => h.elim id fun hk => hk ▸ hkey⟩
      · rw [List.mem_append, List.mem_singleton]

/-- A count is its initial value plus the later updates. -/
theorem count_tally {e : Key × ℕ} (he : e ∈ tally initial used) :
    e.2 + 1 = initial + used.count e.1 := by
  induction used using List.reverseRecOn generalizing e with
  | nil => cases he
  | append_singleton used key ih =>
      rw [tally_concat] at he
      rw [List.count_append, List.count_singleton]
      unfold record at he
      split at he
      · obtain ⟨e', he', rfl⟩ := List.mem_map.mp he
        have hcount := ih he'
        by_cases hkey : e'.1 = key
        · simp only [hkey, if_true, beq_self_eq_true]
          rw [← hkey]
          omega
        · simp only [hkey, if_false, beq_eq_false_iff_ne.mpr (Ne.symm hkey), Bool.false_eq_true]
          omega
      · next hkey =>
        rcases List.mem_append.mp he with he | he
        · have hne : key ≠ e.1 := fun h => hkey (h ▸ List.mem_map_of_mem he)
          rw [ih he, beq_eq_false_iff_ne.mpr hne]
          simp
        · obtain rfl := List.mem_singleton.mp he
          have hnone : used.count key = 0 :=
            List.count_eq_zero.mpr fun h => hkey ((mem_keys_tally initial used).mpr h)
          simp [hnone]

/-- Where the counts fit, the items keep them as they are. -/
theorem tally16_eq (hfit : ∀ key ∈ used, initial + used.count key ≤ 2 ^ 16) :
    tally16 initial used = tally initial used := by
  induction used using List.reverseRecOn with
  | nil => rfl
  | append_singleton used key ih =>
      have hfits : ∀ e ∈ tally initial (used ++ [key]), e.2 < 2 ^ 16 := by
        intro e he
        have hcount := count_tally initial (used ++ [key]) he
        have hle := hfit e.1 ((mem_keys_tally initial (used ++ [key])).mp
          (List.mem_map_of_mem he))
        omega
      have hused : ∀ k ∈ used, initial + used.count k ≤ 2 ^ 16 := by
        intro k hk
        have hle := hfit k (List.mem_append_left _ hk)
        rw [List.count_append] at hle
        omega
      rw [tally_concat] at hfits
      rw [tally16_concat, tally_concat, ih hused]
      exact record16_eq hfits

/-- The sum of the counts, without a bound on its width. -/
theorem sum_tally_concat : ((tally initial (used ++ [key])).map Prod.snd).sum =
    ((tally initial used).map Prod.snd).sum + if key ∈ used then 1 else initial := by
  rw [tally_concat, sum_record (keys_tally_nodup initial used)]
  simp only [mem_keys_tally]

end Tally

/-! ### The table -/

/-- What the updates maintain: the items hold the tally, and `samples` counts it
in 32 bits. -/
structure Tallies (bucketOf : Key → ℕ) (used : List Key) (a : Achash) : Prop where
  table : Table bucketOf a
  entries_eq : a.entries = tally16 (initialCount a) used
  samples_eq : a.samples = uint ((tally (initialCount a) used).map Prod.snd).sum

section Updates

variable {bucketOf hashOf : Key → ℕ} {used : List Key} {a : Achash}

theorem Tallies.clear (sized : Sized a) : Tallies bucketOf [] (achashClear a) :=
  ⟨achashClear_table sized, by simp [tally16, Achash.entries, Achash.current, achashClear], rfl⟩

theorem Tallies.mem_keys (h : Tallies bucketOf used a) {key : Key} :
    key ∈ a.entries.map Prod.fst ↔ key ∈ used := by
  rw [h.entries_eq, keys_tally16, mem_keys_tally]

/-- **One update.** -/
theorem Tallies.update (h : Tallies bucketOf used a) (hroom : a.len < a.size) {key : Key}
    (hbucket : hashOf key &&& a.mask = bucketOf key) (hpid : key.2 < 2 ^ 24) :
    ∃ a', achashUpdate a key.1 key.2 (hashOf key) = some (a', decide (a'.len ≥ a'.size)) ∧
      Tallies bucketOf (used ++ [key]) a' ∧ SameConfig a a' := by
  obtain ⟨a', hupdate, table, same, hentries, hsamples⟩ :=
    achashUpdate_spec16 h.table hbucket hpid hroom
  refine ⟨a', hupdate, ⟨table, ?_, ?_⟩, same⟩
  · rw [hentries, h.entries_eq, same.initialCount_eq, tally16_concat]
  · rw [hsamples, h.samples_eq, uint_add, same.initialCount_eq, sum_tally_concat]
    simp only [h.mem_keys]

/-- Any updates, up to the first one that fills the table. -/
theorem Tallies.updates {keys : List Key} (h : Tallies bucketOf used a) (hroom : a.len < a.size)
    (hbucket : ∀ key, hashOf key &&& a.mask = bucketOf key)
    (hpid : ∀ key ∈ keys, key.2 < 2 ^ 24) :
    ∃ a' later, achashUpdates hashOf a keys = some (a', later) ∧ later <+: keys ∧
      Tallies bucketOf (used ++ later) a' ∧ SameConfig a a' ∧
      (later = keys ∨ a'.len = a'.size) := by
  induction keys generalizing a used with
  | nil =>
      refine ⟨a, [], rfl, List.prefix_rfl, ?_, ⟨rfl, rfl, rfl, rfl⟩, .inl rfl⟩
      rw [List.append_nil]
      exact h
  | cons key keys ih =>
      obtain ⟨hkey, hkeys⟩ := List.forall_mem_cons.mp hpid
      obtain ⟨a₁, hupdate, h₁, same₁⟩ := h.update hroom (hbucket key) hkey
      rw [achashUpdates, hupdate, Option.bind_some]
      dsimp only
      by_cases hfull : a₁.len ≥ a₁.size
      · rw [if_pos (decide_eq_true hfull)]
        exact ⟨a₁, [key], rfl, ⟨keys, rfl⟩, h₁, same₁, .inr (le_antisymm h₁.table.len_le hfull)⟩
      · rw [if_neg (by simpa using hfull)]
        obtain ⟨a', later, hrun, hprefix, htallies, same, hend⟩ :=
          ih h₁ (not_le.mp hfull) (fun key' => by rw [same₁.mask_eq]; exact hbucket key') hkeys
        rw [List.append_assoc] at htallies
        refine ⟨a', key :: later, by rw [hrun]; rfl, List.cons_prefix_cons.mpr ⟨rfl, hprefix⟩,
          htallies, same₁.trans same, hend.imp_left fun h => by rw [h]⟩

end Updates

/-! ### The representation invariant -/

/-- The table represents the keys that were updated. -/
structure Represents (hashOf : Key → ℕ) (used : List Key) (a : Achash) : Prop extends Sized a where
  len_le : a.len ≤ a.size
  bucket_le : ∀ b ≤ a.mask, a.buckets.getD b 0 ≤ a.len
  next_le : ∀ i < a.len, (itemAt a i).next ≤ a.len
  chain : ∀ b ≤ a.mask, ∃ l : List ℕ,
    IsChain (fun i => (itemAt a i).next) (a.buckets.getD b 0) l ∧ l.Nodup ∧
      ∀ i, i ∈ l ↔ i < a.len ∧ hashOf (itemAt a i).key &&& a.mask = b
  keys_nodup : (a.current.map AchashItem.key).Nodup
  mem_keys : ∀ key, key ∈ a.current.map AchashItem.key ↔ key ∈ used
  count_eq : ∀ item ∈ a.current, item.count + 1 = initialCount a + used.count item.key
  samples_eq : a.samples = uint (a.current.map AchashItem.count).sum

theorem Tallies.represents {hashOf : Key → ℕ} {used : List Key} {a : Achash}
    (h : Tallies (fun key => hashOf key &&& a.mask) used a)
    (hfit : ∀ key ∈ used, initialCount a + used.count key ≤ 2 ^ 16) :
    Represents hashOf used a := by
  have hentries : a.entries = tally (initialCount a) used :=
    h.entries_eq.trans (tally16_eq _ _ hfit)
  have hkeys : a.entries.map Prod.fst = a.current.map AchashItem.key := List.map_map ..
  have hcounts : a.entries.map Prod.snd = a.current.map AchashItem.count := List.map_map ..
  have hlt : ∀ b, ∀ i ∈ bucketItems a (fun key => hashOf key &&& a.mask) b, i < a.len :=
    fun b i hi => (mem_bucketItems.mp hi).1
  refine ⟨h.table.toSized, h.table.len_le, fun b hb => (h.table.chain b hb).num_le (hlt b),
    fun i hi => ?_,
    fun b hb => ⟨_, h.table.chain b hb, bucketItems_nodup b, fun i => mem_bucketItems⟩,
    hkeys ▸ h.table.keys_nodup, fun key => hkeys ▸ h.mem_keys, fun item hitem => ?_, ?_⟩
  · -- an item is in the chain of its own bucket
    have hbucket : hashOf (itemAt a i).key &&& a.mask ≤ a.mask := Nat.and_le_right
    exact (h.table.chain _ hbucket).next_le (hlt _) (mem_bucketItems.mpr ⟨hi, rfl⟩)
  · have hmem : item.entry ∈ tally (initialCount a) used := hentries ▸ List.mem_map_of_mem hitem
    exact count_tally _ _ hmem
  · rw [h.samples_eq, ← hentries, hcounts]

/-- Any table just cleared, in either mode, and any keys: the calls succeed up to
the one that fills the table, and while the counts fit their 16 bits the table
represents the keys. -/
theorem achashUpdates_represents {a : Achash} (sized : Sized a) (hashOf : Key → ℕ)
    (keys : List Key) (hpid : ∀ key ∈ keys, key.2 < 2 ^ 24) :
    ∃ a' used, achashUpdates hashOf (achashClear a) keys = some (a', used) ∧ used <+: keys ∧
      (used = keys ∨ a'.len = a'.size) ∧ SameConfig a a' ∧
      ((∀ key ∈ used, initialCount a + used.count key ≤ 2 ^ 16) → Represents hashOf used a') := by
  have hclear : Tallies (fun key => hashOf key &&& a.mask) [] (achashClear a) :=
    Tallies.clear sized
  obtain ⟨a', used, hrun, hprefix, htallies, same, hend⟩ :=
    hclear.updates sized.size_pos (fun key => rfl) hpid
  refine ⟨a', used, hrun, hprefix, hend, ⟨same.1, same.2, same.3, same.4⟩,
    fun hfit => Tallies.represents ?_ fun key hkey => ?_⟩
  · rw [same.mask_eq]
    exact htallies
  · rw [same.initialCount_eq]
    exact hfit key hkey

/-- A table of two items that takes two pages, one of them twice. -/
theorem achashUpdates_represents_twice : ∃ a a' used,
    achashInit true 3 1 4 = some a ∧
    achashUpdates Prod.fst (achashClear a) [(5, 1), (5, 1), (7, 1), (9, 1)] = some (a', used) ∧
    used = [(5, 1), (5, 1), (7, 1)] ∧ Represents Prod.fst used a' := by
  obtain ⟨a, ha⟩ : ∃ a, achashInit true 3 1 4 = some a := ⟨_, rfl⟩
  have sized : Sized a := by cases ha; exact ⟨rfl, rfl, by decide, by decide⟩
  obtain ⟨a', used, hrun, -, -, -, hrepresents⟩ := achashUpdates_represents sized Prod.fst
    [(5, 1), (5, 1), (7, 1), (9, 1)] (by decide)
  have hused : used = [(5, 1), (5, 1), (7, 1)] := by
    cases ha
    have hrun' := congrArg (Option.map Prod.snd) hrun
    exact (Option.some_inj.mp hrun').symm
  refine ⟨a, a', used, ha, hrun, hused, hrepresents ?_⟩
  cases ha
  rw [hused]
  decide

/-- Outside hash mode 131072 pages with a threshold of 32768: the counts of the items
add up to 2^32, and `samples` is 0. -/
theorem achashUpdates_samplesWrap : ∃ a a' used, achashInit false 32768 18 4 = some a ∧
    achashUpdates Prod.fst (achashClear a) ((List.range 131072).map fun n => (n, 0)) =
      some (a', used) ∧
    (∀ key ∈ used, initialCount a + used.count key ≤ 2 ^ 16) ∧
    a'.samples = 0 ∧ (a'.current.map AchashItem.count).sum = 2 ^ 32 := by
  obtain ⟨a, ha⟩ : ∃ a, achashInit false 32768 18 4 = some a := ⟨_, rfl⟩
  obtain ⟨sized, hinitial, hsize⟩ : Sized a ∧ initialCount a = 32768 ∧ a.size = 2 ^ 18 := by
    cases ha
    exact ⟨⟨List.length_replicate, List.length_replicate, by decide, by decide⟩, rfl, rfl⟩
  generalize hkeys : (List.range 131072).map (fun n => ((n, 0) : Key)) = keys
  have hnodup : keys.Nodup := hkeys ▸ List.nodup_range.map fun m n h => congrArg Prod.fst h
  have hlength : keys.length = 131072 := by rw [← hkeys, List.length_map, List.length_range]
  have hpid : ∀ key ∈ keys, key.2 < 2 ^ 24 := by
    intro key hkey
    rw [← hkeys] at hkey
    obtain ⟨n, -, rfl⟩ := List.mem_map.mp hkey
    norm_num
  obtain ⟨a', used, hrun, hprefix, hend, same, hrepresents⟩ :=
    achashUpdates_represents sized Prod.fst keys hpid
  have hused : used.Nodup := hprefix.sublist.nodup hnodup
  have hfit : ∀ key ∈ used, initialCount a + used.count key ≤ 2 ^ 16 := by
    intro key hkey
    rw [List.count_eq_one_of_mem hused hkey, hinitial]
    norm_num
  have h := hrepresents hfit
  have hlen : a'.current.length = used.length := by
    rw [← List.length_map (f := AchashItem.key)]
    exact ((List.perm_ext_iff_of_nodup h.keys_nodup hused).mpr h.mem_keys).length_eq
  have hcounts : ∀ count ∈ a'.current.map AchashItem.count, count = 32768 := by
    intro count hcount
    obtain ⟨item, hitem, rfl⟩ := List.mem_map.mp hcount
    have hmem := (h.mem_keys item.key).mp (List.mem_map_of_mem hitem)
    have heq := h.count_eq item hitem
    rw [List.count_eq_one_of_mem hused hmem, same.initialCount_eq, hinitial] at heq
    omega
  -- the keys are too few to fill the table
  obtain rfl : used = keys := by
    refine hend.resolve_right fun hfull => ?_
    have hle := hprefix.length_le
    rw [Achash.current, List.length_take, h.length_items, hfull, min_self, same.size_eq,
      hsize] at hlen
    omega
  have hsum : (a'.current.map AchashItem.count).sum = 2 ^ 32 := by
    rw [List.sum_eq_card_nsmul _ _ hcounts, List.length_map, hlen, hlength]
    norm_num
  refine ⟨a, a', used, ha, hrun, hfit, ?_, hsum⟩
  rw [h.samples_eq, hsum]
  rfl

end MemoryOptimizer.PmuRefs
