import Mathlib.Data.List.Sort
import Mathlib.Order.Lattice

/-!
# Ordered maps with iterators

`SortedMap κ ν` is the ordered associative container of the C++ standard
library, reduced to what a program can observe through iterators: the entries
in strictly ascending key order.  An **iterator** is the entry it stands at,
and `none` is `end()`.  Iterators therefore survive the erasure of *other*
entries, which is the guarantee `std::map` gives.

* `upperBound`, `next`, `prev`, `first` — moving around;
* `erase`, `insert` — changing the map (`insert` never overwrites);
* `floor_eq_some` — the idiom "`upper_bound`, then one step back" finds the
  greatest key not above the probe.

Stepping back from the first entry is undefined in C++; here `prev` answers
`none`, so that "no entry before" is a value a caller can test.
-/

namespace MemoryOptimizer

universe u v

/-- An ordered map: entries in strictly ascending key order. -/
structure SortedMap (κ : Type u) (ν : Type v) [LinearOrder κ] where
  entries : List (κ × ν)
  sorted : entries.Pairwise fun a b => a.1 < b.1

namespace SortedMap

variable {κ : Type u} {ν : Type v} [LinearOrder κ]

/-- The map with no entries. -/
def empty : SortedMap κ ν := ⟨[], List.Pairwise.nil⟩

@[simp] theorem entries_empty : (empty : SortedMap κ ν).entries = [] := rfl

/-- `begin()`. -/
def first (m : SortedMap κ ν) : Option (κ × ν) := m.entries.head?

/-- `upper_bound(k)`: the first entry whose key is above `k`. -/
def upperBound (m : SortedMap κ ν) (k : κ) : Option (κ × ν) :=
  m.entries.find? fun e => k < e.1

/-- One step forward from the entry with key `k`. -/
def next (m : SortedMap κ ν) (k : κ) : Option (κ × ν) := m.upperBound k

/-- One step back: the last entry before the iterator, `none` at the front. -/
def prev (m : SortedMap κ ν) : Option (κ × ν) → Option (κ × ν)
  | none => m.entries.getLast?
  | some e => (m.entries.filter fun d => d.1 < e.1).getLast?

/-- `erase(it)` for an iterator at key `k`. -/
def erase (m : SortedMap κ ν) (k : κ) : SortedMap κ ν :=
  ⟨m.entries.filter fun e => e.1 ≠ k, m.sorted.filter _⟩

private theorem insert_sorted (m : SortedMap κ ν) (k : κ) (v : ν) :
    ((m.entries.filter fun e => e.1 < k) ++
      (k, v) :: m.entries.filter fun e => k < e.1).Pairwise
        fun a b => a.1 < b.1 := by
  rw [List.pairwise_append, List.pairwise_cons]
  refine ⟨m.sorted.filter _, ⟨fun e he => ?_, m.sorted.filter _⟩, ?_⟩
  · simpa using (List.mem_filter.mp he).2
  · intro a ha b hb
    have hak : a.1 < k := by simpa using (List.mem_filter.mp ha).2
    rcases List.mem_cons.mp hb with rfl | hb
    · exact hak
    · exact hak.trans (by simpa using (List.mem_filter.mp hb).2)

/-- `insert({k, v})`: leaves the map alone when the key is taken. -/
def insert (m : SortedMap κ ν) (k : κ) (v : ν) : SortedMap κ ν :=
  if k ∈ m.entries.map Prod.fst then m else
    ⟨(m.entries.filter fun e => e.1 < k) ++
      (k, v) :: m.entries.filter fun e => k < e.1, insert_sorted m k v⟩

/-! ### Membership -/

/-- Two entries with one key are one entry. -/
theorem eq_of_mem {m : SortedMap κ ν} {d e : κ × ν} (hd : d ∈ m.entries)
    (he : e ∈ m.entries) (hkey : d.1 = e.1) : d = e := by
  have hnodup : (m.entries.map Prod.fst).Nodup :=
    List.pairwise_map.mpr (m.sorted.imp fun h => h.ne)
  exact List.inj_on_of_nodup_map hnodup hd he hkey

@[simp] theorem mem_erase {m : SortedMap κ ν} {k : κ} {e : κ × ν} :
    e ∈ (m.erase k).entries ↔ e ∈ m.entries ∧ e.1 ≠ k := by
  simp [erase]

theorem mem_insert {m : SortedMap κ ν} {k : κ} {v : ν} {e : κ × ν}
    (hfree : ∀ d ∈ m.entries, d.1 ≠ k) :
    e ∈ (m.insert k v).entries ↔ e = (k, v) ∨ e ∈ m.entries := by
  have hk : k ∉ m.entries.map Prod.fst := by simpa using fun v h => hfree (k, v) h rfl
  simp only [insert, if_neg hk, List.mem_append, List.mem_cons, List.mem_filter,
    decide_eq_true_eq]
  constructor
  · rintro (⟨he, -⟩ | rfl | ⟨he, -⟩) <;> simp [*]
  · rintro (rfl | he)
    · simp
    · rcases lt_trichotomy e.1 k with h | h | h
      · exact Or.inl ⟨he, h⟩
      · exact absurd h (hfree e he)
      · exact Or.inr (Or.inr ⟨he, h⟩)

/-! ### Where the iterators land -/

theorem mem_of_first {m : SortedMap κ ν} {e : κ × ν} (h : m.first = some e) :
    e ∈ m.entries := List.mem_of_head? h

/-- Nothing lies before `begin()`. -/
theorem first_le {m : SortedMap κ ν} {e d : κ × ν} (h : m.first = some e)
    (hd : d ∈ m.entries) : e.1 ≤ d.1 := by
  obtain ⟨tail, htail⟩ : ∃ tail, m.entries = e :: tail := by
    cases hm : m.entries with
    | nil => simp [first, hm] at h
    | cons a tail => exact ⟨tail, by simp [first, hm] at h; rw [h]⟩
  have hs := m.sorted
  rw [htail] at hs hd
  rcases List.mem_cons.mp hd with rfl | hd
  · exact le_rfl
  · exact (List.rel_of_pairwise_cons hs hd).le

theorem first_eq_none {m : SortedMap κ ν} : m.first = none ↔ m.entries = [] := by
  simp [first]

theorem upperBound_eq_some {m : SortedMap κ ν} {k : κ} {e : κ × ν} :
    m.upperBound k = some e ↔
      e ∈ m.entries ∧ k < e.1 ∧ ∀ d ∈ m.entries, k < d.1 → e.1 ≤ d.1 := by
  rw [upperBound, List.find?_eq_some_iff_append]
  constructor
  · rintro ⟨hlt, as, bs, heq, has⟩
    refine ⟨by simp [heq], by simpa using hlt, fun d hd hkd => ?_⟩
    have hs := m.sorted
    rw [heq] at hs hd
    rcases List.mem_append.mp hd with hd | hd
    · exact absurd hkd (by simpa using has d hd)
    · rcases List.mem_cons.mp hd with rfl | hd
      · exact le_rfl
      · exact (List.rel_of_pairwise_cons (List.pairwise_append.mp hs).2.1 hd).le
  · rintro ⟨he, hlt, hmin⟩
    obtain ⟨as, bs, heq⟩ := List.append_of_mem he
    refine ⟨by simpa using hlt, as, bs, heq, fun d hd => ?_⟩
    have hs := m.sorted
    rw [heq] at hs
    have hde : d.1 < e.1 := (List.pairwise_append.mp hs).2.2 d hd e (by simp)
    have : ¬ k < d.1 := fun hkd =>
      absurd (hmin d (by simp [heq, hd]) hkd) (not_le.mpr hde)
    simpa using this

theorem upperBound_eq_none {m : SortedMap κ ν} {k : κ} :
    m.upperBound k = none ↔ ∀ d ∈ m.entries, d.1 ≤ k := by
  simp [upperBound, List.find?_eq_none]

private theorem getLast?_filter_eq_some {m : SortedMap κ ν} {p : κ → Prop}
    [DecidablePred p] {e : κ × ν} :
    (m.entries.filter fun d => p d.1).getLast? = some e ↔
      e ∈ m.entries ∧ p e.1 ∧ ∀ d ∈ m.entries, p d.1 → d.1 ≤ e.1 := by
  have hs := m.sorted.filter fun d => decide (p d.1)
  constructor
  · intro h
    obtain ⟨ys, hys⟩ := List.getLast?_eq_some_iff.mp h
    have he : e ∈ m.entries.filter fun d => decide (p d.1) := by simp [hys]
    refine ⟨(List.mem_filter.mp he).1, by simpa using (List.mem_filter.mp he).2,
      fun d hd hpd => ?_⟩
    have hd' : d ∈ m.entries.filter fun d => decide (p d.1) :=
      List.mem_filter.mpr ⟨hd, by simpa using hpd⟩
    rw [hys] at hs hd'
    rcases List.mem_append.mp hd' with hd' | hd'
    · exact ((List.pairwise_append.mp hs).2.2 d hd' e (by simp)).le
    · rw [List.mem_singleton.mp hd']
  · rintro ⟨he, hpe, hmax⟩
    have he' : e ∈ m.entries.filter fun d => decide (p d.1) :=
      List.mem_filter.mpr ⟨he, by simpa using hpe⟩
    cases hl : (m.entries.filter fun d => decide (p d.1)).getLast? with
    | none => rw [List.getLast?_eq_none_iff.mp hl] at he'; simp at he'
    | some f =>
        obtain ⟨ys, hys⟩ := List.getLast?_eq_some_iff.mp hl
        have hf : f ∈ m.entries.filter fun d => decide (p d.1) := by simp [hys]
        have hle := hmax f (List.mem_filter.mp hf).1 (by simpa using (List.mem_filter.mp hf).2)
        rw [hys] at he' hs
        rcases List.mem_append.mp he' with he' | he'
        · exact absurd ((List.pairwise_append.mp hs).2.2 e he' f (by simp)) (not_lt.mpr hle)
        · rw [List.mem_singleton.mp he']

theorem prev_some_eq_some {m : SortedMap κ ν} {e p : κ × ν} :
    m.prev (some e) = some p ↔
      p ∈ m.entries ∧ p.1 < e.1 ∧ ∀ d ∈ m.entries, d.1 < e.1 → d.1 ≤ p.1 :=
  getLast?_filter_eq_some (p := fun k => k < e.1)

theorem prev_some_eq_none {m : SortedMap κ ν} {e : κ × ν} :
    m.prev (some e) = none ↔ ∀ d ∈ m.entries, e.1 ≤ d.1 := by
  simp [prev]

/-- `upper_bound` and one step back: the greatest key not above the probe. -/
theorem floor_eq_some {m : SortedMap κ ν} {k : κ} {p : κ × ν} :
    m.prev (m.upperBound k) = some p ↔
      p ∈ m.entries ∧ p.1 ≤ k ∧ ∀ d ∈ m.entries, d.1 ≤ k → d.1 ≤ p.1 := by
  cases hub : m.upperBound k with
  | none =>
      have hall := upperBound_eq_none.mp hub
      have h := getLast?_filter_eq_some (m := m) (p := fun _ => True) (e := p)
      simp only [decide_true, List.filter_true, true_and, forall_const] at h
      rw [prev, h]
      exact ⟨fun ⟨hp, hmax⟩ => ⟨hp, hall p hp, fun d hd _ => hmax d hd⟩,
        fun ⟨hp, _, hmax⟩ => ⟨hp, fun d hd => hmax d hd (hall d hd)⟩⟩
  | some u =>
      obtain ⟨hu, hku, hmin⟩ := upperBound_eq_some.mp hub
      have hiff : ∀ d ∈ m.entries, d.1 < u.1 ↔ d.1 ≤ k := fun d hd =>
        ⟨fun h => not_lt.mp fun hkd => absurd (hmin d hd hkd) (not_le.mpr h),
          fun h => h.trans_lt hku⟩
      rw [prev_some_eq_some]
      constructor
      · rintro ⟨hp, hlt, hmax⟩
        exact ⟨hp, (hiff p hp).mp hlt, fun d hd h => hmax d hd ((hiff d hd).mpr h)⟩
      · rintro ⟨hp, hle, hmax⟩
        exact ⟨hp, (hiff p hp).mpr hle, fun d hd h => hmax d hd ((hiff d hd).mp h)⟩

theorem floor_eq_none {m : SortedMap κ ν} {k : κ} :
    m.prev (m.upperBound k) = none ↔ ∀ d ∈ m.entries, k < d.1 := by
  cases hub : m.upperBound k with
  | none =>
      have hall := upperBound_eq_none.mp hub
      rw [prev, List.getLast?_eq_none_iff]
      exact ⟨fun h => by simp [h], fun h => List.eq_nil_iff_forall_not_mem.mpr fun d hd =>
        absurd (h d hd) (not_lt.mpr (hall d hd))⟩
  | some u =>
      obtain ⟨hu, hku, hmin⟩ := upperBound_eq_some.mp hub
      rw [prev_some_eq_none]
      exact ⟨fun h d hd => hku.trans_le (h d hd), fun h d hd => hmin d hd (h d hd)⟩

/-! ### Counting what lies ahead of an iterator

The measure of a loop that walks an iterator to `end()`. -/

/-- How many entries stand at or after the iterator. -/
def ahead (m : SortedMap κ ν) : Option (κ × ν) → ℕ
  | none => 0
  | some e => m.entries.countP fun d => e.1 ≤ d.1

theorem ahead_le_length (m : SortedMap κ ν) (it : Option (κ × ν)) :
    m.ahead it ≤ m.entries.length := by
  cases it with
  | none => exact Nat.zero_le _
  | some e => exact List.countP_le_length

/-- A step forward leaves strictly less ahead. -/
theorem ahead_next_lt {m : SortedMap κ ν} {e : κ × ν} (he : e ∈ m.entries) :
    m.ahead (m.next e.1) < m.ahead (some e) := by
  cases hn : m.next e.1 with
  | none => exact List.countP_pos_iff.mpr ⟨e, he, by simp⟩
  | some f =>
      obtain ⟨hf, hlt, -⟩ := upperBound_eq_some.mp hn
      simp only [ahead, List.countP_eq_length_filter]
      have hsub : (m.entries.filter fun d => decide (f.1 ≤ d.1)).Sublist
          (m.entries.filter fun d => decide (e.1 ≤ d.1)) :=
        List.monotone_filter_right _ fun d hd => by
          simp only [decide_eq_true_eq] at hd ⊢
          exact (hlt.trans_le hd).le
      refine lt_of_le_of_ne hsub.length_le fun hlen => ?_
      have : e ∈ m.entries.filter fun d => decide (f.1 ≤ d.1) := by
        rw [hsub.eq_of_length hlen]; simp [he]
      simp [not_le.mpr hlt] at this

/-- Erasing the entry the iterator stands at does not add anything ahead. -/
theorem ahead_erase_le (m : SortedMap κ ν) (k : κ) (it : Option (κ × ν)) :
    (m.erase k).ahead it ≤ m.ahead it := by
  cases it with
  | none => exact le_rfl
  | some e => exact (List.filter_sublist).countP_le

theorem next_erase (m : SortedMap κ ν) (k : κ) : (m.erase k).next k = m.next k := by
  cases hn : m.next k with
  | none =>
      exact upperBound_eq_none.mpr fun d hd =>
        upperBound_eq_none.mp hn d (mem_erase.mp hd).1
  | some f =>
      obtain ⟨hf, hlt, hmin⟩ := upperBound_eq_some.mp hn
      exact upperBound_eq_some.mpr ⟨mem_erase.mpr ⟨hf, hlt.ne'⟩, hlt,
        fun d hd h => hmin d (mem_erase.mp hd).1 h⟩

end SortedMap

end MemoryOptimizer
