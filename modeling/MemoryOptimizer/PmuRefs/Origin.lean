import MemoryOptimizer.PmuRefs.Counts
import MemoryOptimizer.PmuRefs.HotList

/-!
# Where the hot items come from

Every item of the table that counts anything was sampled at some time: `FromKeys` is
kept by all operations of `cmsk.cc`, also by the sort, which brings back items of earlier
intervals.  After a `cmsk_sort` every item of the hot list counts at least one, if the
threshold does (`cmskSort_count_pos`).
-/

namespace MemoryOptimizer.PmuRefs

/-- The items that count anything have a key of `K`. -/
def FromKeys (K : Key → Prop) (items : List AchashItem) : Prop :=
  ∀ item ∈ items, item.count = 0 ∨ K item.key

section FromKeys

variable {K : Key → Prop} {items : List AchashItem} {a a' : Achash} {addr pid hash : ℕ}
variable {full : Bool}

theorem FromKeys.mono {K' : Key → Prop} (hle : ∀ key, K key → K' key) (h : FromKeys K items) :
    FromKeys K' items := by
  intro item hitem
  exact (h item hitem).imp_right (hle item.key)

theorem FromKeys.perm {items' : List AchashItem} (hperm : items'.Perm items)
    (h : FromKeys K items) : FromKeys K items' :=
  fun item hitem => h item (hperm.mem_iff.mp hitem)

/-- A changed item must have a key of its own. -/
theorem FromKeys.modify (h : FromKeys K items) {i : ℕ} {f : AchashItem → AchashItem}
    (hf : ∀ item ∈ items[i]?, (f item).count = 0 ∨ K (f item).key) :
    FromKeys K (items.modify i f) := by
  intro item hitem
  obtain ⟨j, hj⟩ := List.mem_iff_getElem?.mp hitem
  rw [List.getElem?_modify] at hj
  obtain ⟨old, hold, heq⟩ := Option.map_eq_some_iff.mp hj
  split at heq
  · next hij =>
    subst hij heq
    exact hf old hold
  · subst heq
    exact h old (List.mem_of_getElem? hold)

/-- The walk along a chain finds the key it looks for. -/
theorem walkChain_found {fuel num last n : ℕ}
    (h : walkChain a addr pid fuel num last = some (.found n)) :
    (achashItem a n).key = (addr, pid) := by
  induction fuel generalizing num last with
  | zero => cases h
  | succ fuel ih =>
      rw [walkChain] at h
      split at h
      · cases h
      · dsimp only at h
        split at h
        · next hkey =>
          cases h
          exact Prod.ext hkey.1 hkey.2
        · exact ih h

theorem FromKeys.newItem (h : FromKeys K a.items) (hK : K (addr, pid)) (hpid : pid < 2 ^ 24) :
    FromKeys K (achashNewItem a addr pid).items := by
  rw [achashNewItem_items]
  intro item hitem
  rcases List.mem_or_eq_of_mem_set hitem with hitem | rfl
  · exact h item hitem
  · refine .inr ?_
    have hfield : field24 pid = pid := Nat.mod_eq_of_lt hpid
    simpa [AchashItem.key, hfield] using hK

theorem FromKeys.achashUpdate (h : FromKeys K a.items) (hK : K (addr, pid)) (hpid : pid < 2 ^ 24)
    (hupdate : achashUpdate a addr pid hash = some (a', full)) : FromKeys K a'.items := by
  have hnew := h.newItem hK hpid
  unfold PmuRefs.achashUpdate at hupdate
  dsimp only at hupdate
  split at hupdate
  · cases hupdate
    exact hnew
  · obtain ⟨chain, hwalk, heq⟩ := Option.map_eq_some_iff.mp hupdate
    cases chain with
    | found num =>
        cases heq
        refine h.modify fun item hitem => .inr ?_
        have hkey := walkChain_found hwalk
        rw [achashItem, List.getD_eq_getElem?_getD, Option.mem_def.mp hitem,
          Option.getD_some] at hkey
        show K item.key
        rwa [hkey]
    | last num =>
        cases heq
        exact hnew.modify fun item hitem => hnew item (List.mem_of_getElem? hitem)

end FromKeys

section Cmsk

variable {K : Key → Prop} {s s' : Cmsk} {key : Key} {full : Bool} {depth widthOrder : ℕ}

theorem FromKeys.cmskUpdate (h : FromKeys K s.achash.items) (hK : K key) (hpid : key.2 < 2 ^ 24)
    (hupdate : cmskUpdate s key.1 key.2 = some (s', full)) : FromKeys K s'.achash.items := by
  obtain ⟨hash, -, heq⟩ := cmskUpdate_eq s key
  rw [heq] at hupdate
  dsimp only at hupdate
  split at hupdate
  · obtain ⟨⟨a, full'⟩, ha, hs'⟩ := Option.map_eq_some_iff.mp hupdate
    cases hs'
    exact h.achashUpdate hK hpid ha
  · cases hupdate
    exact h

theorem cmskAge_items (s : Cmsk) : (cmskAge s).achash.items = s.achash.items := by
  rw [cmskAge_achash]
  rfl

theorem FromKeys.cmskSort (std : SortByCount) (h : FromKeys K s.achash.items) :
    FromKeys K (cmskSort std s).achash.items := by
  by_cases hlen : s.achash.len = 0
  · rw [PmuRefs.cmskSort, if_pos hlen]
    exact h
  · rw [cmskSort_achash std hlen]
    split <;> exact h.perm (std.perm _)

/-- The hot list keeps what counts more than a threshold of at least one. -/
theorem cmskSort_count_pos (std : SortByCount) (hle : s.achash.len ≤ s.achash.items.length)
    (hthreshold : 1 ≤ finalThreshold s) :
    ∀ item ∈ (cmskSort std s).achash.current, 1 ≤ item.count := by
  by_cases hlen : s.achash.len = 0
  · intro item hitem
    rw [cmskSort, if_pos hlen, Achash.current, hlen, List.take_zero] at hitem
    cases hitem
  · have hsorted := std.ordered s.achash.items
    have hlength : (std.sort s.achash.items).length = s.achash.items.length :=
      (std.perm s.achash.items).length_eq
    have hmem : ∀ {n : ℕ} {item : AchashItem}, item ∈ (std.sort s.achash.items).take n →
        ∃ i, ∃ h : i < (std.sort s.achash.items).length, i < n ∧
          (std.sort s.achash.items)[i] = item := by
      intro n item hitem
      obtain ⟨i, hi, rfl⟩ := List.mem_take_iff_getElem.mp hitem
      exact ⟨i, by omega, by omega, rfl⟩
    rw [cmskSort_achash std hlen]
    split
    · intro item hitem
      obtain ⟨i, hi, hlt, rfl⟩ := hmem hitem
      obtain ⟨-, -, habove, -⟩ := achashBsearch_spec hsorted (count16 (finalThreshold s - 1))
        (Nat.zero_le (s.achash.len - 1)) (by omega)
      exact Nat.one_le_of_lt (habove i hi (Nat.zero_le i) hlt)
    · next hcut =>
      intro item hitem
      obtain ⟨i, hi, hlt, rfl⟩ := hmem hitem
      change i < s.achash.len at hlt
      have hlast : s.achash.len - 1 < (std.sort s.achash.items).length := by omega
      rw [List.getD_eq_getElem _ _ hlast, not_lt] at hcut
      refine hthreshold.trans (hcut.trans ?_)
      rcases Nat.lt_or_ge i (s.achash.len - 1) with h | h
      · exact List.pairwise_iff_getElem.mp hsorted i (s.achash.len - 1) hi hlast h
      · obtain rfl : i = s.achash.len - 1 := by omega
        exact le_rfl

/-- A threshold of at least one stays one at the end of the interval. -/
theorem finalThreshold_pos (hthreshold : 1 ≤ s.achash.threshold)
    (hlt : s.achash.threshold < 2 ^ 31) (htotal : s.cms.total < 2 ^ 32)
    (hwidth : 2 ≤ s.cms.widthOrder) : 1 ≤ finalThreshold s := by
  unfold finalThreshold hotThreshold
  split
  · exact hthreshold
  · have herror : cmsError s.cms < 2 ^ 31 := by
      unfold cmsError
      rw [Nat.shiftRight_eq_div_pow]
      have hpow : 2 ^ 1 ≤ 2 ^ (s.cms.widthOrder - 1) := Nat.pow_le_pow_right (by decide) (by omega)
      rw [Nat.div_lt_iff_lt_mul (by positivity)]
      omega
    rw [uint, Nat.mod_eq_of_lt (by omega)]
    omega

end Cmsk

end MemoryOptimizer.PmuRefs
