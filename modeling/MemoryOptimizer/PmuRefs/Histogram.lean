import MemoryOptimizer.PmuRefs.Counts
import MemoryOptimizer.PmuRefs.HotList

/-!
# The histogram of the counts

`hist_inc` and `hist_dec` are called for the count of an item before and behind one more
sample.  With a bin to write to, they stay inside `hist` as long as no count wraps: the
count 0 behind 65535 has the index -1 before it.

* `HistFits` — no access has missed `hist`, and there is a bin.
* `nextCount` — the count of a page after one more sample of it.
* `HistFits.cmskUpdate` — one update, where that count does not wrap.
-/

namespace MemoryOptimizer.PmuRefs

/-- `hist` has as many bins as it says, at least one, and no access has missed it. -/
structure HistFits (a : Achash) : Prop where
  length_hist : a.hist.length = a.histMax
  histMax_pos : 0 < a.histMax
  histOverrun_eq : a.histOverrun = false

/-- The count that an item of the page would have after one more sample, or start with,
if it did not wrap there. -/
def nextCount (a : Achash) (key : Key) : ℕ :=
  (storedCount a key).elim (count16 (initialCount a)) (· + 1)

section Table

variable {bucketOf : Key → ℕ} {a a' : Achash}

/-- The index of a count that is no negative `int`. -/
theorem histIndex_inside (hpos : 0 < a.histMax) {count : ℕ} (hcount : count < 2 ^ 31) :
    0 ≤ histIndex a count ∧ histIndex a count < a.histMax := by
  have hint : intOfUlong count = count := by
    unfold intOfUlong
    rw [Int.bmod_def]
    split <;> omega
  unfold histIndex
  rw [hint]
  split <;> omega

theorem HistFits.modify (h : HistFits a) {index : ℤ} (hindex : 0 ≤ index ∧ index < a.histMax)
    (f : ℕ → ℕ) : HistFits (histModify a index f) := by
  have hinside : 0 ≤ index ∧ index < a.hist.length := h.length_hist ▸ hindex
  refine ⟨?_, h.histMax_pos, ?_⟩
  · show (if 0 ≤ index then a.hist.modify index.toNat f else a.hist).length = a.histMax
    rw [if_pos hindex.1, List.length_modify]
    exact h.length_hist
  · show (a.histOverrun || !decide (0 ≤ index ∧ index < a.hist.length)) = false
    rw [h.histOverrun_eq, decide_eq_true hinside]
    rfl

theorem HistFits.inc (h : HistFits a) {count : ℕ} (hcount : count < 2 ^ 31) :
    HistFits (histInc a count) :=
  h.modify (histIndex_inside h.histMax_pos hcount) _

theorem HistFits.dec (h : HistFits a) {count : ℕ} (hcount : count < 2 ^ 31) :
    HistFits (histDec a count) :=
  h.modify (histIndex_inside h.histMax_pos hcount) _

theorem HistFits.newItem (h : HistFits a) (addr pid : ℕ) :
    HistFits (achashNewItem a addr pid) := by
  have hplain : ∀ items samples len,
      HistFits { a with items := items, samples := samples, len := len } :=
    fun _ _ _ => ⟨h.length_hist, h.histMax_pos, h.histOverrun_eq⟩
  unfold achashNewItem
  dsimp only
  split
  · exact HistFits.inc (hplain _ _ _) (by norm_num)
  · exact hplain _ _ _

/-- One more sample of an item that is not at its largest count. -/
theorem HistFits.countItem (h : HistFits a) {num : ℕ} (hcount : (achashItem a num).count < 0xffff) :
    HistFits (countItem a num) := by
  have hnext : count16 ((achashItem a num).count + 1) = (achashItem a num).count + 1 :=
    Nat.mod_eq_of_lt (by omega)
  have hprevious : usub32 ((achashItem a num).count + 1) 1 = (achashItem a num).count := by
    unfold usub32 uint
    omega
  unfold PmuRefs.countItem
  dsimp only
  rw [hnext, hprevious]
  refine HistFits.dec (HistFits.inc ?_ (by omega)) (by omega)
  exact ⟨h.length_hist, h.histMax_pos, h.histOverrun_eq⟩

/-- The item that a walk finds is that of the page. -/
theorem storedCount_of_found (tab : Table bucketOf a) {addr pid b num : ℕ} (hb : b ≤ a.mask)
    (hwalk : walkChain a addr pid (a.len + 1) (a.buckets.getD b 0) 0 = some (.found num)) :
    storedCount a (addr, pid) = some (achashItem a num).count := by
  rw [walkChain_bucket tab hb] at hwalk
  split at hwalk
  · next i hfind =>
    cases hwalk
    have hi := (mem_bucketItems.mp (List.mem_of_find?_eq_some hfind)).1
    have hkey : (itemAt a i).key = (addr, pid) := by simpa using List.find?_some hfind
    have hmem : ((addr, pid), (itemAt a i).count) ∈ a.entries := by
      rw [entries_eq_map tab.len_le_length]
      exact List.mem_map.mpr ⟨i, List.mem_range.mpr hi, Prod.ext hkey rfl⟩
    exact lookup_eq_some tab.keys_nodup hmem
  · cases hwalk

theorem HistFits.achashUpdate (h : HistFits a) (tab : Table bucketOf a) {addr pid hash : ℕ}
    {full : Bool} (hcount : nextCount a (addr, pid) < 2 ^ 16)
    (hupdate : achashUpdate a addr pid hash = some (a', full)) : HistFits a' := by
  have hnew := h.newItem addr pid
  unfold PmuRefs.achashUpdate at hupdate
  dsimp only at hupdate
  split at hupdate
  · cases hupdate
    exact ⟨hnew.length_hist, hnew.histMax_pos, hnew.histOverrun_eq⟩
  · obtain ⟨chain, hwalk, heq⟩ := Option.map_eq_some_iff.mp hupdate
    cases chain with
    | found num =>
        cases heq
        have hstored := storedCount_of_found tab Nat.and_le_right hwalk
        rw [nextCount, hstored, Option.elim_some] at hcount
        exact h.countItem (by omega)
    | last num =>
        cases heq
        exact ⟨hnew.length_hist, hnew.histMax_pos, hnew.histOverrun_eq⟩

/-- A sample of the page, where it is counted without a wrap: its next count goes up by
one, and that of any other page stays. -/
theorem nextCount_record16 (same : SameConfig a a') {key : Key}
    (hentries : a'.entries = record16 (initialCount a) key a.entries)
    (hcount : nextCount a key < 2 ^ 16) (k : Key) :
    nextCount a' k = nextCount a k + if k = key then 1 else 0 := by
  unfold nextCount storedCount at hcount ⊢
  rw [hentries, lookup_record16, same.initialCount_eq]
  by_cases hk : k = key
  · subst hk
    rw [if_pos rfl, if_pos rfl]
    cases hlookup : a.entries.lookup k with
    | none => rfl
    | some c =>
        rw [hlookup, Option.elim_some] at hcount
        show count16 (c + 1) + 1 = c + 1 + 1
        rw [count16, Nat.mod_eq_of_lt hcount]
  · rw [if_neg hk, if_neg hk, Nat.add_zero]

end Table

section Cmsk

variable {s s' : Cmsk} {key : Key}

theorem HistFits.init {agingHalf hashMode : Bool} {widthOrder depth threshold histMax : ℕ}
    (h : Fresh agingHalf hashMode widthOrder depth threshold histMax s) (hpos : 0 < histMax) :
    HistFits s.achash :=
  ⟨h.length_hist.trans h.histMax_eq.symm, h.histMax_eq ▸ hpos, h.histOverrun_eq⟩

/-- The bins are cleared with the table, and every page starts again. -/
theorem HistFits.age (h : HistFits s.achash) :
    HistFits (cmskAge s).achash ∧
      ∀ key, nextCount (cmskAge s).achash key = count16 (initialCount s.achash) := by
  rw [cmskAge_achash]
  refine ⟨⟨(List.length_map ..).trans h.length_hist, h.histMax_pos, h.histOverrun_eq⟩,
    fun key => ?_⟩
  unfold nextCount storedCount Achash.entries Achash.current achashClear
  rw [List.take_zero, List.map_nil, List.lookup_nil]
  rfl

/-- The sort does not touch them. -/
theorem HistFits.sort (std : SortByCount) (h : HistFits s.achash) :
    HistFits (cmskSort std s).achash := by
  by_cases hlen : s.achash.len = 0
  · rw [cmskSort, if_pos hlen]
    exact h
  · rw [cmskSort_achash std hlen]
    split <;> exact ⟨h.length_hist, h.histMax_pos, h.histOverrun_eq⟩

/-- **One update.** -/
theorem HistFits.cmskUpdate {depth widthOrder : ℕ} (h : HistFits s.achash)
    (sound : Sound depth widthOrder s) (hroom : s.achash.len < s.achash.size)
    (hpid : key.2 < 2 ^ 24) (hcount : nextCount s.achash key < 2 ^ 16) {full : Bool}
    (hupdate : cmskUpdate s key.1 key.2 = some (s', full)) :
    HistFits s'.achash ∧
      ∀ k, nextCount s'.achash k ≤ nextCount s.achash k + if k = key then 1 else 0 := by
  obtain ⟨hash, hbucket, heq⟩ := cmskUpdate_eq s key
  rw [heq] at hupdate
  dsimp only at hupdate
  split at hupdate
  · obtain ⟨a, ha, -, same, hentries, -⟩ := achashUpdate_spec16 sound.table hbucket hpid hroom
    rw [ha] at hupdate
    cases hupdate
    exact ⟨h.achashUpdate sound.table hcount ha,
      fun k => (nextCount_record16 same hentries hcount k).le⟩
  · cases hupdate
    exact ⟨h, fun k => Nat.le_add_right _ _⟩

end Cmsk

end MemoryOptimizer.PmuRefs
