import MemoryOptimizer.Lib.Descending
import MemoryOptimizer.PmuRefs.Interval

/-!
# The hot list

`achash_sort` sorts the whole array of items, those of earlier intervals
included, so an item that is left over takes the place of a current one when it
counts more.  `StaleBelow` excludes that, and the reduction of the threshold to
`cms_count_t`, and `HotCountsFit` that `samples` overflows; under both the items exposed
after a `cmsk_sort` are the hot entries of the interval (`cmskSort_exposes`), in every
interval of a run (`hotLists_run`).
-/

namespace MemoryOptimizer.PmuRefs

/-- The items of earlier intervals. -/
def Achash.stale (a : Achash) : List AchashItem := a.items.drop a.len

/-- The threshold of the hot pages at the end of an interval. -/
def finalThreshold (s : Cmsk) : ℕ := hotThreshold s.achash.hashMode s.achash.threshold s.cms

/-- Before the sort: no item of an earlier interval comes before a current one,
also where every current one is hot, and the threshold, reduced to 16 bits, still
cuts above the current ones. -/
def StaleBelow (s : Cmsk) : Prop :=
  s.achash.len = 0 ∨
    (∀ x ∈ s.achash.stale, ∀ y ∈ s.achash.current, x.count ≤ y.count) ∧
    ((∀ y ∈ s.achash.current, finalThreshold s ≤ y.count) →
      ∀ x ∈ s.achash.stale, ∀ y ∈ s.achash.current, x.count < y.count) ∧
    (finalThreshold s ≤ 2 ^ 16 ∨ s.achash.len = 1 ∨
      ∀ y ∈ s.achash.current, y.count ≤ count16 (finalThreshold s - 1))

instance (s : Cmsk) : Decidable (StaleBelow s) :=
  inferInstanceAs (Decidable (_ ∨ _ ∧ _ ∧ _))

/-- Before the sort: the counts of the hot items add up to what `samples`, an `unsigned
int`, can hold. -/
def HotCountsFit (s : Cmsk) : Prop :=
  ((s.achash.current.filter fun y => finalThreshold s ≤ y.count).map AchashItem.count).sum < 2 ^ 32

instance (s : Cmsk) : Decidable (HotCountsFit s) := inferInstanceAs (Decidable (_ < _))

/-- The hot list is the entries of `l` that count at least `threshold`. -/
structure Exposes (l : List (Key × ℕ)) (threshold : ℕ) (s : Cmsk) : Prop where
  perm : ((cmskHotPages s s.achash.len).map AchashItem.entry).Perm
    (l.filter fun e => threshold ≤ e.2)
  once : ((cmskHotPages s s.achash.len).map AchashItem.key).Nodup
  ordered : (cmskHotPages s s.achash.len).Pairwise fun x y => x.count ≥ y.count
  samples : s.achash.samples = ((cmskHotPages s s.achash.len).map AchashItem.count).sum

instance (l : List (Key × ℕ)) (threshold : ℕ) (s : Cmsk) : Decidable (Exposes l threshold s) :=
  decidable_of_iff (_ ∧ _ ∧ _ ∧ _)
    ⟨fun h => ⟨h.1, h.2.1, h.2.2.1, h.2.2.2⟩, fun h => ⟨h.1, h.2, h.3, h.4⟩⟩

section Sorted

variable {items : List AchashItem}

/-- The binary search ends between the larger counts and the others. -/
theorem achashBsearch_spec (hs : items.Pairwise fun x y => x.count ≥ y.count) (count : ℕ)
    {start stop : ℕ} (hle : start ≤ stop) (hstop : stop ≤ items.length) :
    start ≤ achashBsearch items count start stop ∧ achashBsearch items count start stop ≤ stop ∧
    (∀ i (h : i < items.length), start ≤ i → i < achashBsearch items count start stop →
      count < items[i].count) ∧
    ∀ i (h : i < items.length), achashBsearch items count start stop ≤ i → i < stop →
      items[i].count ≤ count := by
  have hmono : ∀ i j (hi : i < items.length) (hj : j < items.length), i ≤ j →
      items[j].count ≤ items[i].count := by
    intro i j hi hj hij
    rcases Nat.lt_or_eq_of_le hij with hlt | rfl
    · exact List.pairwise_iff_getElem.mp hs i j hi hj hlt
    · exact le_rfl
  fun_induction achashBsearch items count start stop with
  | case1 start stop hlt mid hmid ih =>
      have hm : mid < items.length := by omega
      rw [List.getD_eq_getElem _ _ hm] at hmid
      obtain ⟨h1, h2, h3, h4⟩ := ih (by omega) (by omega)
      refine ⟨h1, by omega, h3, fun i hi hki his => ?_⟩
      by_cases him : i < mid
      · exact h4 i hi hki him
      · exact (hmono mid i hm hi (by omega)).trans hmid
  | case2 start stop hlt mid hmid ih =>
      have hm : mid < items.length := by omega
      rw [List.getD_eq_getElem _ _ hm] at hmid
      obtain ⟨h1, h2, h3, h4⟩ := ih (by omega) hstop
      refine ⟨by omega, h2, fun i hi hsi hik => ?_, h4⟩
      by_cases him : mid + 1 ≤ i
      · exact h3 i hi him hik
      · exact (not_le.mp hmid).trans_le (hmono i mid hi hm (by omega))
  | case3 start stop hlt => exact ⟨le_rfl, hle, by omega, by omega⟩

/-- Where the item before `len` is below the threshold, the cut counts the items
that are not. -/
theorem achashBsearch_eq_countP (hs : items.Pairwise fun x y => x.count ≥ y.count)
    {len threshold : ℕ} (hpos : 0 < len) (hlen : len ≤ items.length)
    (hlast : (items.getD (len - 1) default).count < threshold)
    (hwidth : threshold ≤ 2 ^ 16 ∨ (∀ x ∈ items, x.count < threshold) ∧
      (len = 1 ∨ ∀ x ∈ items, x.count ≤ count16 (threshold - 1))) :
    achashBsearch items (count16 (threshold - 1)) 0 (len - 1) =
      items.countP fun x => threshold ≤ x.count := by
  have hl : len - 1 < items.length := by omega
  rw [List.getD_eq_getElem _ _ hl] at hlast
  obtain ⟨-, h2, h3, h4⟩ := achashBsearch_spec hs (count16 (threshold - 1))
    (Nat.zero_le (len - 1)) hl.le
  symm
  refine countP_eq (h2.trans hl.le) (fun i hi hik => ?_) (fun i hi hki => ?_)
  · have hcount := h3 i hi (Nat.zero_le _) hik
    rcases hwidth with hwidth | ⟨-, rfl | hall⟩
    · have : count16 (threshold - 1) = threshold - 1 := Nat.mod_eq_of_lt (by omega)
      omega
    · omega
    · exact absurd (hall _ (List.getElem_mem hi)) (not_le.mpr hcount)
  · rcases hwidth with hwidth | ⟨hbound, -⟩
    · have : count16 (threshold - 1) = threshold - 1 := Nat.mod_eq_of_lt (by omega)
      by_cases hil : i < len - 1
      · have := h4 i hi hki hil
        omega
      · rcases Nat.lt_or_eq_of_le (not_lt.mp hil) with hlt | rfl
        · exact (List.pairwise_iff_getElem.mp hs _ i hl hi hlt).trans_lt hlast
        · exact hlast
    · exact hbound _ (List.getElem_mem hi)

/-- Taking counts off the samples one by one. -/
theorem foldl_usub32 (l : List AchashItem) {n : ℕ} (hl : (l.map AchashItem.count).sum ≤ n)
    (hcount : ∀ x ∈ l, x.count < 2 ^ 16) :
    l.foldl (fun samples item => usub32 samples item.count) (uint n) =
      uint (n - (l.map AchashItem.count).sum) := by
  induction l generalizing n with
  | nil => rfl
  | cons x l ih =>
      rw [List.map_cons, List.sum_cons] at hl ⊢
      obtain ⟨hx, hcount⟩ := List.forall_mem_cons.mp hcount
      have hstep : usub32 (uint n) x.count = uint (n - x.count) := by
        simp only [usub32, uint]
        omega
      rw [List.foldl_cons, hstep, ih (by omega) hcount, Nat.sub_sub]

end Sorted

/-- A prefix in order of count that holds the hot ones of `current`. -/
theorem exposes_of_perm {s : Cmsk} {current : List AchashItem} {l : List (Key × ℕ)}
    {threshold : ℕ} (hcurrent : current.map AchashItem.entry = l)
    (hnodup : (l.map Prod.fst).Nodup)
    (hperm : (s.achash.items.take s.achash.len).Perm
      (current.filter fun y => threshold ≤ y.count))
    (hordered : s.achash.items.Pairwise fun x y => x.count ≥ y.count)
    (hsamples : s.achash.samples =
      uint ((s.achash.items.take s.achash.len).map AchashItem.count).sum)
    (hfit : ((current.filter fun y => threshold ≤ y.count).map AchashItem.count).sum < 2 ^ 32) :
    Exposes l threshold s := by
  have hhot : cmskHotPages s s.achash.len = s.achash.items.take s.achash.len := by
    rw [cmskHotPages, Nat.min_self]
  have hentries : ((s.achash.items.take s.achash.len).map AchashItem.entry).Perm
      (l.filter fun e => threshold ≤ e.2) := by
    rw [← hcurrent, List.filter_map]
    exact hperm.map AchashItem.entry
  rw [← (hperm.map AchashItem.count).sum_nat] at hfit
  refine ⟨hhot ▸ hentries, ?_, ?_, hhot ▸ hsamples.trans (Nat.mod_eq_of_lt hfit)⟩
  · have hkeys := hentries.map Prod.fst
    rw [List.map_map] at hkeys
    rw [hhot]
    exact hkeys.nodup_iff.mpr (hnodup.sublist (List.filter_sublist.map Prod.fst))
  · rw [hhot]
    exact hordered.sublist (List.take_sublist _ _)

theorem cmskSort_cms (std : SortByCount) (s : Cmsk) : (cmskSort std s).cms = s.cms := by
  unfold cmskSort
  dsimp only
  split <;> rfl

/-- The table after a sort. -/
theorem cmskSort_achash (std : SortByCount) {s : Cmsk} (hlen : s.achash.len ≠ 0) :
    (cmskSort std s).achash =
      if ((std.sort s.achash.items).getD (s.achash.len - 1) default).count < finalThreshold s then
        { s.achash with
          items := std.sort s.achash.items
          len := achashBsearch (std.sort s.achash.items) (count16 (finalThreshold s - 1)) 0
            (s.achash.len - 1)
          samples := (((std.sort s.achash.items).take s.achash.len).drop
            (achashBsearch (std.sort s.achash.items) (count16 (finalThreshold s - 1)) 0
              (s.achash.len - 1))).foldl (fun samples item => usub32 samples item.count)
                s.achash.samples }
      else { s.achash with items := std.sort s.achash.items } := by
  rw [cmskSort, if_neg hlen]
  rfl

section Leftovers

variable (std : SortByCount) {s : Cmsk} {l : List (Key × ℕ)}

theorem sort_split : (std.sort s.achash.items).Perm (s.achash.current ++ s.achash.stale) := by
  rw [Achash.current, Achash.stale, List.take_append_drop]
  exact std.perm _

theorem Holds.length_current (hs : Holds l s) : s.achash.current.length = s.achash.len := by
  rw [Achash.current, List.length_take, Nat.min_eq_left hs.table.len_le_length]

theorem Holds.current_entries (hs : Holds l s) : s.achash.current.map AchashItem.entry = l :=
  hs.entries_eq

theorem Holds.keys_nodup (hs : Holds l s) : (l.map Prod.fst).Nodup :=
  hs.entries_eq ▸ hs.table.keys_nodup

theorem Holds.count_lt (hs : Holds l s) (hfits : ∀ e ∈ l, e.2 < 2 ^ 16) :
    ∀ y ∈ s.achash.current, y.count < 2 ^ 16 :=
  fun y hy => hfits y.entry (hs.current_entries ▸ List.mem_map_of_mem hy)

/-- The samples are the counts of the first items of the sorted array. -/
theorem Holds.samples_sort (hs : Holds l s)
    (hle : ∀ x ∈ s.achash.stale, ∀ y ∈ s.achash.current, x.count ≤ y.count) :
    s.achash.samples =
      uint (((std.sort s.achash.items).take s.achash.len).map AchashItem.count).sum := by
  have hmap := map_take_perm (std.ordered s.achash.items) (sort_split std) hle
  have hcounts : l.map Prod.snd = s.achash.current.map AchashItem.count := by
    rw [← hs.current_entries, List.map_map]
    rfl
  rw [hs.length_current] at hmap
  rw [hs.samples_eq, hcounts, hmap.sum_nat]

/-- Every current item is hot: they are the first of the sorted array. -/
theorem cmskSort_exposes_all (hs : Holds l s) (hpos : 0 < s.achash.len) (hsum : HotCountsFit s)
    (hhot : ∀ y ∈ s.achash.current, finalThreshold s ≤ y.count)
    (hlt : ∀ x ∈ s.achash.stale, ∀ y ∈ s.achash.current, x.count < y.count) :
    Exposes l (finalThreshold s) (cmskSort std s) := by
  have hordered := std.ordered s.achash.items
  have hlast : s.achash.len - 1 < (std.sort s.achash.items).length := by
    have := hs.table.len_le_length
    rw [(std.perm _).length_eq]
    omega
  have htake := take_perm hordered (sort_split std) hlt
  rw [hs.length_current] at htake
  have hmem : (std.sort s.achash.items)[s.achash.len - 1] ∈ s.achash.current :=
    htake.mem_iff.mp (List.mem_take_iff_getElem.mpr ⟨s.achash.len - 1, by omega, rfl⟩)
  have hsort := cmskSort_achash std hpos.ne'
  rw [List.getD_eq_getElem _ _ hlast, if_neg (not_lt.mpr (hhot _ hmem))] at hsort
  refine exposes_of_perm hs.current_entries hs.keys_nodup ?_ ?_ ?_ hsum
  · rw [hsort, List.filter_eq_self.mpr (by simpa using hhot)]
    exact htake
  · rw [hsort]
    exact hordered
  · rw [hsort]
    exact hs.samples_sort std fun x hx y hy => (hlt x hx y hy).le

/-- Some current item is not hot: the array is cut behind the hot ones. -/
theorem cmskSort_exposes_cut (hs : Holds l s) (hfits : ∀ e ∈ l, e.2 < 2 ^ 16)
    (hpos : 0 < s.achash.len) (hsum : HotCountsFit s)
    (hle : ∀ x ∈ s.achash.stale, ∀ y ∈ s.achash.current, x.count ≤ y.count)
    (hwidth : finalThreshold s ≤ 2 ^ 16 ∨ s.achash.len = 1 ∨
      ∀ y ∈ s.achash.current, y.count ≤ count16 (finalThreshold s - 1))
    {y : AchashItem} (hy : y ∈ s.achash.current) (hcold : y.count < finalThreshold s) :
    Exposes l (finalThreshold s) (cmskSort std s) := by
  have hordered := std.ordered s.achash.items
  have hsplit := sort_split std (s := s)
  have hlength : s.achash.len ≤ (std.sort s.achash.items).length := by
    rw [(std.perm _).length_eq]
    exact hs.table.len_le_length
  have hfit := hs.count_lt hfits
  have hbelow : ((std.sort s.achash.items).getD (s.achash.len - 1) default).count <
      finalThreshold s := by
    have hlast : s.achash.current.length - 1 < (std.sort s.achash.items).length := by
      rw [hs.length_current]
      omega
    rw [← hs.length_current, List.getD_eq_getElem _ _ hlast]
    exact getElem_length_pred_lt hordered hsplit hle hy hcold hlast
  have hstale : (s.achash.stale.filter fun x => finalThreshold s ≤ x.count) = [] :=
    List.filter_eq_nil_iff.mpr fun x hx => by simpa using (hle x hx y hy).trans_lt hcold
  have hfilter := hsplit.filter fun x => finalThreshold s ≤ x.count
  rw [List.filter_append, hstale, List.append_nil] at hfilter
  have hcut := achashBsearch_eq_countP hordered hpos hlength hbelow (by
    rcases Nat.lt_or_ge (2 ^ 16) (finalThreshold s) with hbig | hsmall
    · -- the threshold does not fit 16 bits, and every count does
      have hall : ∀ n, (∀ z ∈ s.achash.current, z.count ≤ n) →
          ∀ x ∈ std.sort s.achash.items, x.count ≤ n := by
        intro n hn x hx
        rcases List.mem_append.mp (hsplit.mem_iff.mp hx) with hx | hx
        · exact hn x hx
        · exact (hle x hx y hy).trans (hn y hy)
      refine Or.inr ⟨fun x hx => ?_, (hwidth.resolve_left (by omega)).imp_right (hall _)⟩
      have := hall (2 ^ 16) (fun z hz => (hfit z hz).le) x hx
      omega
    · exact Or.inl hsmall)
  have hsort := cmskSort_achash std hpos.ne'
  rw [if_pos hbelow, hcut] at hsort
  set k := (std.sort s.achash.items).countP fun x => finalThreshold s ≤ x.count with hk
  have hkle : k ≤ s.achash.len := by
    rw [hk, List.countP_eq_length_filter, hfilter.length_eq, ← hs.length_current]
    exact List.length_filter_le _ _
  refine exposes_of_perm hs.current_entries hs.keys_nodup ?_ ?_ ?_ hsum
  · rw [hsort]
    show (List.take k _).Perm _
    rw [hk, take_countP hordered]
    exact hfilter
  · rw [hsort]
    exact hordered
  · rw [hsort]
    have hparts : (((std.sort s.achash.items).take s.achash.len).map AchashItem.count).sum =
        (((std.sort s.achash.items).take k).map AchashItem.count).sum +
        ((((std.sort s.achash.items).take s.achash.len).drop k).map AchashItem.count).sum := by
      conv_lhs => rw [← List.take_append_drop k ((std.sort s.achash.items).take s.achash.len)]
      rw [List.map_append, List.sum_append, List.take_take, Nat.min_eq_left hkle]
    show List.foldl _ s.achash.samples _ = _
    rw [hs.samples_sort std hle, foldl_usub32 _ (by omega), hparts, Nat.add_sub_cancel]
    intro x hx
    have hmap := map_take_perm hordered hsplit hle
    rw [hs.length_current] at hmap
    obtain ⟨z, hz, hzx⟩ := List.mem_map.mp
      (hmap.mem_iff.mp (List.mem_map_of_mem (List.mem_of_mem_drop hx)))
    exact hzx ▸ hfit z hz

/-- The sort of a table whose leftovers all come last exposes the hot entries. -/
theorem cmskSort_exposes (hs : Holds l s) (hfits : ∀ e ∈ l, e.2 < 2 ^ 16)
    (hstale : StaleBelow s) (hsum : HotCountsFit s) :
    Exposes l (finalThreshold s) (cmskSort std s) := by
  rcases Nat.eq_zero_or_pos s.achash.len with hzero | hpos
  · -- no sample reached the table
    have hnil : l = [] := List.eq_nil_of_length_eq_zero (hs.length_eq.symm.trans hzero)
    have hsort : cmskSort std s = { s with nrHotPage := 0 } := by rw [cmskSort, if_pos hzero]
    have hsamples := hs.samples_eq
    rw [hnil] at hsamples
    rw [hsort, hnil]
    exact ⟨by simp [cmskHotPages, hzero], by simp [cmskHotPages, hzero],
      by simp [cmskHotPages, hzero], by simp [cmskHotPages, hzero, hsamples, uint]⟩
  · obtain ⟨hle, hlt, hwidth⟩ := hstale.resolve_left hpos.ne'
    by_cases hhot : ∀ y ∈ s.achash.current, finalThreshold s ≤ y.count
    · exact cmskSort_exposes_all std hs hpos hsum hhot (hlt hhot)
    · obtain ⟨y, hy, hcold⟩ : ∃ y ∈ s.achash.current, y.count < finalThreshold s := by
        simpa using hhot
      exact cmskSort_exposes_cut std hs hfits hpos hsum hle hwidth hy hcold

end Leftovers

/-! ### Runs -/

/-- In every interval of a run the updates end, and where the state before the
sort meets `cond`, the hot list after it is right. -/
def HotLists (std : SortByCount) (cond : Cmsk → Prop) : List (List Key) → Cmsk → Prop
  | [], _ => True
  | keys :: intervals, s =>
      let r := reference s.achash.hashMode s.achash.threshold s.achash.size (cmskAge s).cms [] keys
      (∀ key ∈ keys, key.2 < 2 ^ 24) → (∀ e ∈ r.2, e.2 < 2 ^ 16) →
        ∃ s' ∈ cmskUpdates (cmskAge s) keys,
          (cond s' → Exposes r.2 (hotThreshold s.achash.hashMode s.achash.threshold r.1)
            (cmskSort std s')) ∧
          HotLists std cond intervals (cmskSort std s')

instance (std : SortByCount) (cond : Cmsk → Prop) [DecidablePred cond] :
    (intervals : List (List Key)) → DecidablePred (HotLists std cond intervals)
  | [], _ => isTrue trivial
  | keys :: intervals, s =>
      have := instDecidablePredCmskHotLists std cond intervals
      inferInstanceAs (Decidable (_ → _ → ∃ s' ∈ cmskUpdates (cmskAge s) keys,
        (cond s' → _) ∧ HotLists std cond intervals (cmskSort std s')))

theorem cmskAge_achash (s : Cmsk) : (cmskAge s).achash = achashClear s.achash := by
  unfold cmskAge
  split <;> rfl

/-- Aging empties the table. -/
theorem cmskAge_holds {s : Cmsk} (sized : Sized s.achash) : Holds [] (cmskAge s) := by
  refine ⟨?_, ?_, ?_⟩
  · rw [cmskAge_achash]
    exact achashClear_table sized
  · simp [cmskAge_achash, Achash.entries, Achash.current, achashClear]
  · simp [cmskAge_achash, achashClear, uint]

/-- Sorting leaves the sizes alone. -/
theorem cmskSort_sized (std : SortByCount) {s : Cmsk} (sized : Sized s.achash) :
    Sized (cmskSort std s).achash := by
  by_cases hlen : s.achash.len = 0
  · rw [cmskSort, if_pos hlen]
    exact sized
  · have hitems := (std.perm s.achash.items).length_eq.trans sized.length_items
    rw [cmskSort_achash std hlen]
    split <;> exact ⟨hitems, sized.length_buckets, sized.size_pos, sized.size_le⟩

theorem hotLists (std : SortByCount) {s : Cmsk} (sized : Sized s.achash)
    (intervals : List (List Key)) :
    HotLists std (fun s => StaleBelow s ∧ HotCountsFit s) intervals s := by
  induction intervals generalizing s with
  | nil => trivial
  | cons keys intervals ih =>
      intro hpid hfits
      have hholds := cmskAge_holds sized
      have hachash := cmskAge_achash s
      obtain ⟨s', hupdates, -, same, hcms, hs'⟩ := cmskUpdates_spec hholds
        (by rw [hachash]; exact sized.size_pos) hpid
        (by rw [hachash]; rfl) hfits
      refine ⟨s', hupdates, fun ⟨hstale, hsum⟩ => ?_, ih (cmskSort_sized std hs'.table.toSized)⟩
      have hexposes := cmskSort_exposes std hs' hfits hstale hsum
      rw [finalThreshold, same.hashMode_eq, same.threshold_eq, hachash, hcms] at hexposes
      exact hexposes

/-- From a sketch just initialised, whatever the samples of its intervals. -/
theorem hotLists_run (std : SortByCount) {agingHalf hashMode : Bool}
    {widthOrder depth threshold sizeOrder histMax : ℕ} {s : Cmsk}
    (hinit : cmskInit agingHalf hashMode widthOrder depth threshold sizeOrder histMax = some s)
    (intervals : List (List Key)) :
    HotLists std (fun s => StaleBelow s ∧ HotCountsFit s) intervals s :=
  hotLists std (cmskInit_fresh hinit).sized intervals

/-- An insertion sort by count. -/
def insertionSortByCount : SortByCount where
  sort := List.insertionSort fun x y => x.count ≥ y.count
  perm := List.perm_insertionSort _
  ordered := List.pairwise_insertionSort fun x y : AchashItem => x.count ≥ y.count

/-- One page counted once, then two pages counted twice: the one left over comes
last, and the hot list of the second interval is right. -/
theorem hotLists_run_leftoverBelow :
    (cmskInit true true 1 1 1 2 8).isSome ∧
    ∀ s ∈ cmskInit true true 1 1 1 2 8,
      HotLists insertionSortByCount (fun s => StaleBelow s ∧ HotCountsFit s)
        [[(2, 1)], [(4, 1), (4, 1), (3, 1), (3, 1)]] s ∧
      HotLists insertionSortByCount (fun _ => True)
        [[(2, 1)], [(4, 1), (4, 1), (3, 1), (3, 1)]] s :=
  ⟨by decide, fun _ hinit => ⟨hotLists_run insertionSortByCount hinit _, by
    obtain rfl := Option.some.inj hinit
    decide +kernel⟩⟩

/-- Two pages counted twice and three times, then one page counted once: the sort
of the second interval brings a page of the first one back in its place. -/
theorem hotLists_leftoverAbove : ∃ s ∈ cmskInit true true 1 1 1 2 8,
    ¬HotLists insertionSortByCount (fun _ => True)
      [[(2, 1), (2, 1), (1, 1), (1, 1), (1, 1)], [(3, 1)]] s := by
  decide +kernel

end MemoryOptimizer.PmuRefs
