import MemoryOptimizer.AddrSequence.Visit

/-!
# Hotness drifting

`GlobalScan::calc_page_hotness_drifting` goes through the normalised sequences of two
periods side by side and counts the pages that are hot in both and in one of them. The
loop ends with the shorter sequence, and so it misses the hot pages of the other one
that lie behind its end.

* `hotInBoth`, `hotInOne`, `hotBehind` — the counts, on lists of pages.
* `driftLoop_counts` — what the loop counts, from any point on.
* `calcPageHotnessDrifting_counts_iff` — when it counts every page.
-/

namespace MemoryOptimizer

open AddrSequence

namespace GlobalScan

/-- `stable_hotness_count` and `unstable_hotness_count` of one page type. -/
structure HotnessCount where
  stable : ℕ
  unstable : ℕ
  deriving DecidableEq, Repr

/-- The loop of `calc_page_hotness_drifting`, with the results of the last `get_first` or
`get_next` of each sequence and a bound on the iterations. -/
def driftLoop : ℕ → AddrSequence → AddrSequence → Option (ℕ × ℕ × ℤ) → Option (ℕ × ℕ × ℤ) →
    HotnessCount → Option HotnessCount
  | 0, _, _, _, _, _ => none
  | fuel + 1, s₀, s₁, some (addr₀, hotness₀, nid₀), some (addr₁, hotness₁, nid₁), count =>
      if addr₀ < addr₁ then
        let count := if hotness₀ = 1 then { count with unstable := count.unstable + 1 } else count
        let (s₀, rc₀) := s₀.getNext
        driftLoop fuel s₀ s₁ rc₀ (some (addr₁, hotness₁, nid₁)) count
      else if addr₀ > addr₁ then
        let count := if hotness₁ = 1 then { count with unstable := count.unstable + 1 } else count
        let (s₁, rc₁) := s₁.getNext
        driftLoop fuel s₀ s₁ (some (addr₀, hotness₀, nid₀)) rc₁ count
      else
        let finalHotness := signedChar (hotness₀ + hotness₁)
        let count :=
          if finalHotness = 1 then { count with unstable := count.unstable + 1 }
          else if finalHotness = 2 then { count with stable := count.stable + 1 }
          else count
        let (s₀, rc₀) := s₀.getNext
        let (s₁, rc₁) := s₁.getNext
        driftLoop fuel s₀ s₁ rc₀ rc₁ count
  | _ + 1, _, _, _, _, count => some count

/-- `calc_page_hotness_drifting`, for one page type and before the unstable count is
halved. -/
def calcPageHotnessDrifting (last current : AddrSequence) : Option HotnessCount :=
  if last.size = 0 ∧ current.size = 0 then some ⟨0, 0⟩
  else
    let (s₀, rc₀) := last.getFirst
    let (s₁, rc₁) := current.getFirst
    driftLoop (last.size + current.size + 1) s₀ s₁ rc₀ rc₁ ⟨0, 0⟩

/-! ### The counts -/

/-- The address is hot in the list. -/
def HotIn (l : List (ℕ × ℕ)) (addr : ℕ) : Prop := ∃ q ∈ l, q.1 = addr ∧ q.2 = 1

instance (l : List (ℕ × ℕ)) (addr : ℕ) : Decidable (HotIn l addr) :=
  inferInstanceAs (Decidable (∃ q ∈ l, _ ∧ _))

/-- The addresses hot in both lists. -/
def hotInBoth (l₀ l₁ : List (ℕ × ℕ)) : ℕ := l₀.countP fun p => p.2 = 1 ∧ HotIn l₁ p.1

/-- The addresses hot in exactly one of the lists. -/
def hotInOne (l₀ l₁ : List (ℕ × ℕ)) : ℕ :=
  (l₀.countP fun p => p.2 = 1 ∧ ¬HotIn l₁ p.1) + l₁.countP fun p => p.2 = 1 ∧ ¬HotIn l₀ p.1

/-- The hot pages behind the end of the other list. -/
def hotBehind (l₀ l₁ : List (ℕ × ℕ)) : ℕ :=
  (l₀.countP fun p => p.2 = 1 ∧ ∀ q ∈ l₁, q.1 < p.1) +
    l₁.countP fun p => p.2 = 1 ∧ ∀ q ∈ l₀, q.1 < p.1

theorem hotIn_cons {p : ℕ × ℕ} {l : List (ℕ × ℕ)} {addr : ℕ} :
    HotIn (p :: l) addr ↔ (p.1 = addr ∧ p.2 = 1) ∨ HotIn l addr := by
  simp only [HotIn, List.mem_cons, exists_eq_or_imp]

theorem hotInOne_comm (l₀ l₁ : List (ℕ × ℕ)) : hotInOne l₀ l₁ = hotInOne l₁ l₀ :=
  Nat.add_comm _ _

theorem hotBehind_comm (l₀ l₁ : List (ℕ × ℕ)) : hotBehind l₀ l₁ = hotBehind l₁ l₀ :=
  Nat.add_comm _ _

/-- The addresses ascend. -/
def Ascending (l : List (ℕ × ℕ)) : Prop := l.Pairwise fun p q => p.1 < q.1

theorem Ascending.head_le {p : ℕ × ℕ} {l : List (ℕ × ℕ)} (h : Ascending (p :: l)) :
    ∀ q ∈ p :: l, p.1 ≤ q.1 := by
  intro q hq
  rcases List.mem_cons.mp hq with rfl | hq
  · exact le_rfl
  · exact ((List.pairwise_cons.mp h).1 q hq).le

theorem countP_congr_left {l : List (ℕ × ℕ)} {P Q : ℕ × ℕ → Prop} [DecidablePred P]
    [DecidablePred Q] (h : ∀ p ∈ l, P p ↔ Q p) :
    (l.countP fun p => P p) = l.countP fun p => Q p :=
  List.countP_congr fun p hp => by simpa using h p hp

section Step

variable {p q : ℕ × ℕ} {l₀ l₁ : List (ℕ × ℕ)}

/-- A page below every page of the other list is in one of them only. -/
theorem counts_of_below (hbelow : ∀ r ∈ l₁, p.1 < r.1) (hne : l₁ ≠ []) :
    hotInBoth (p :: l₀) l₁ = hotInBoth l₀ l₁ ∧ hotInBoth l₁ (p :: l₀) = hotInBoth l₁ l₀ ∧
      hotInOne (p :: l₀) l₁ = (if p.2 = 1 then 1 else 0) + hotInOne l₀ l₁ ∧
      hotBehind (p :: l₀) l₁ = hotBehind l₀ l₁ := by
  have hnot : ¬HotIn l₁ p.1 := fun ⟨r, hr, heq, _⟩ => (hbelow r hr).ne heq.symm
  have hmem : ∀ r ∈ l₁, (HotIn (p :: l₀) r.1 ↔ HotIn l₀ r.1) := by
    intro r hr
    rw [hotIn_cons]
    exact or_iff_right fun h => (hbelow r hr).ne h.1
  have hbehind : ∀ r ∈ l₁, ((∀ t ∈ p :: l₀, t.1 < r.1) ↔ ∀ t ∈ l₀, t.1 < r.1) := by
    intro r hr
    rw [List.forall_mem_cons]
    exact and_iff_right (hbelow r hr)
  have hahead : ¬∀ t ∈ l₁, t.1 < p.1 := by
    intro h
    obtain ⟨r, rest, rfl⟩ := List.exists_cons_of_ne_nil hne
    exact lt_asymm (h r (List.mem_cons_self ..)) (hbelow r (List.mem_cons_self ..))
  refine ⟨?_, ?_, ?_, ?_⟩
  · simp [hotInBoth, hnot]
  · exact countP_congr_left fun r hr => by rw [hmem r hr]
  · have h := countP_congr_left (l := l₁) (P := fun r => r.2 = 1 ∧ ¬HotIn (p :: l₀) r.1)
      (Q := fun r => r.2 = 1 ∧ ¬HotIn l₀ r.1) fun r hr => by rw [hmem r hr]
    rw [hotInOne, hotInOne, h, List.countP_cons]
    simp only [hnot, not_false_eq_true, and_true, decide_eq_true_eq]
    omega
  · have h := countP_congr_left (l := l₁) (P := fun r => r.2 = 1 ∧ ∀ t ∈ p :: l₀, t.1 < r.1)
      (Q := fun r => r.2 = 1 ∧ ∀ t ∈ l₀, t.1 < r.1) fun r hr => by rw [hbehind r hr]
    rw [hotBehind, hotBehind, h, List.countP_cons]
    simp only [hahead, and_false, decide_false, Bool.false_eq_true, if_false, Nat.add_zero]

/-- Two pages of one address. -/
theorem counts_of_eq (h₀ : Ascending (p :: l₀)) (h₁ : Ascending (q :: l₁)) (heq : p.1 = q.1)
    (hp : p.2 ≤ 1) (hq : q.2 ≤ 1) :
    hotInBoth (p :: l₀) (q :: l₁) = (if p.2 + q.2 = 2 then 1 else 0) + hotInBoth l₀ l₁ ∧
      hotInOne (p :: l₀) (q :: l₁) = (if p.2 + q.2 = 1 then 1 else 0) + hotInOne l₀ l₁ ∧
      hotBehind (p :: l₀) (q :: l₁) = hotBehind l₀ l₁ := by
  have hlt₀ : ∀ r ∈ l₀, p.1 < r.1 := (List.pairwise_cons.mp h₀).1
  have hlt₁ : ∀ r ∈ l₁, p.1 < r.1 := heq ▸ (List.pairwise_cons.mp h₁).1
  have hmem₀ : ∀ r ∈ l₀, (HotIn (q :: l₁) r.1 ↔ HotIn l₁ r.1) := by
    intro r hr
    rw [hotIn_cons]
    exact or_iff_right fun h => (hlt₀ r hr).ne (heq.trans h.1)
  have hmem₁ : ∀ r ∈ l₁, (HotIn (p :: l₀) r.1 ↔ HotIn l₀ r.1) := by
    intro r hr
    rw [hotIn_cons]
    exact or_iff_right fun h => (hlt₁ r hr).ne h.1
  have hhead₀ : HotIn (q :: l₁) p.1 ↔ q.2 = 1 := by
    rw [hotIn_cons]
    constructor
    · rintro (h | ⟨r, hr, h, -⟩)
      · exact h.2
      · exact absurd h (hlt₁ r hr).ne'
    · exact fun h => Or.inl ⟨heq.symm, h⟩
  have hhead₁ : HotIn (p :: l₀) q.1 ↔ p.2 = 1 := by
    rw [hotIn_cons]
    constructor
    · rintro (h | ⟨r, hr, h, -⟩)
      · exact h.2
      · exact absurd (heq.trans h.symm) (hlt₀ r hr).ne
    · exact fun h => Or.inl ⟨heq, h⟩
  refine ⟨?_, ?_, ?_⟩
  · have h := countP_congr_left (l := l₀) (P := fun r => r.2 = 1 ∧ HotIn (q :: l₁) r.1)
      (Q := fun r => r.2 = 1 ∧ HotIn l₁ r.1) fun r hr => by rw [hmem₀ r hr]
    rw [hotInBoth, hotInBoth, List.countP_cons, h, Nat.add_comm]
    simp only [hhead₀, decide_eq_true_eq]
    congr 1
    split_ifs <;> omega
  · have h := countP_congr_left (l := l₀) (P := fun r => r.2 = 1 ∧ ¬HotIn (q :: l₁) r.1)
      (Q := fun r => r.2 = 1 ∧ ¬HotIn l₁ r.1) fun r hr => by rw [hmem₀ r hr]
    have h' := countP_congr_left (l := l₁) (P := fun r => r.2 = 1 ∧ ¬HotIn (p :: l₀) r.1)
      (Q := fun r => r.2 = 1 ∧ ¬HotIn l₀ r.1) fun r hr => by rw [hmem₁ r hr]
    rw [hotInOne, hotInOne, List.countP_cons, List.countP_cons, h, h']
    simp only [hhead₀, hhead₁, decide_eq_true_eq]
    split_ifs <;> omega
  · have hbehind : ∀ r ∈ l₀, ((∀ t ∈ q :: l₁, t.1 < r.1) ↔ ∀ t ∈ l₁, t.1 < r.1) := by
      intro r hr
      rw [List.forall_mem_cons]
      exact and_iff_right (heq ▸ hlt₀ r hr)
    have hbehind' : ∀ r ∈ l₁, ((∀ t ∈ p :: l₀, t.1 < r.1) ↔ ∀ t ∈ l₀, t.1 < r.1) := by
      intro r hr
      rw [List.forall_mem_cons]
      exact and_iff_right (hlt₁ r hr)
    have h := countP_congr_left (l := l₀) (P := fun r => r.2 = 1 ∧ ∀ t ∈ q :: l₁, t.1 < r.1)
      (Q := fun r => r.2 = 1 ∧ ∀ t ∈ l₁, t.1 < r.1) fun r hr => by rw [hbehind r hr]
    have h' := countP_congr_left (l := l₁) (P := fun r => r.2 = 1 ∧ ∀ t ∈ p :: l₀, t.1 < r.1)
      (Q := fun r => r.2 = 1 ∧ ∀ t ∈ l₀, t.1 < r.1) fun r hr => by rw [hbehind' r hr]
    rw [hotBehind, hotBehind, List.countP_cons, List.countP_cons, h, h']
    simp only [List.forall_mem_cons, heq, lt_irrefl, false_and, and_false, decide_false,
      Bool.false_eq_true, if_false, Nat.add_zero]

end Step

/-! ### The loop -/

/-- What `get_next` will yield. -/
structure Reads (s : AddrSequence) (l : List Stored) : Prop where
  size_pos : ∀ c ∈ s.addrClusters, 0 < c.size
  iterOk : IterOk s s.walkIter
  remaining_eq : remaining s s.walkIter = l

/-- `get_next`, by what it yields. -/
theorem Reads.getNext {s : AddrSequence} {l : List Stored} (h : Reads s l) :
    ∃ s', s.getNext = (s', l.head?.map (view s)) ∧ Reads s' l.tail ∧ s'.bufs = s.bufs := by
  obtain ⟨iter, hnext, hiter, hrest⟩ := getNext_remaining h.size_pos h.iterOk h.remaining_eq
  exact ⟨_, hnext, ⟨h.size_pos, hiter, hrest⟩, rfl⟩

theorem reads_getFirst {s : AddrSequence} (lay : Layout s) {x : Stored} {l : List Stored}
    (hall : allStored s = x :: l) :
    ∃ s', s.getFirst = (s', some (view s x)) ∧ Reads s' l ∧ s'.bufs = s.bufs := by
  have hclusters : s.addrClusters ≠ [] := by
    intro hnil
    rw [allStored, hnil] at hall
    cases hall
  obtain ⟨h1, h2, h3, h4, h5⟩ := iterOk_resetIterator lay.size_pos s.walkIter
  have hreads : Reads { s with walkIter := s.resetIterator s.walkIter 0 } (x :: l) :=
    ⟨lay.size_pos, ⟨h1, h2, h3, h4, h5⟩, (remaining_resetIterator s.walkIter).trans hall⟩
  obtain ⟨s', hnext, hrest, hbufs⟩ := hreads.getNext
  exact ⟨s', (if_neg hclusters).trans hnext, hrest, hbufs⟩

/-- Stored pages with their counts. -/
def pagesOf (s : AddrSequence) (l : List Stored) : List (ℕ × ℕ) :=
  l.map fun x => (x.addr, payloadAt s x)

@[simp] theorem pagesOf_nil (s : AddrSequence) : pagesOf s [] = [] := rfl

theorem pagesOf_cons (s : AddrSequence) (x : Stored) (l : List Stored) :
    pagesOf s (x :: l) = (x.addr, payloadAt s x) :: pagesOf s l := rfl

theorem view_congr {s s' : AddrSequence} (h : s'.bufs = s.bufs) : view s' = view s := by
  funext x
  rw [view, payloadAt, h]
  rfl

theorem pagesOf_congr {s s' : AddrSequence} (h : s'.bufs = s.bufs) (l : List Stored) :
    pagesOf s' l = pagesOf s l :=
  List.map_congr_left fun x _ => by rw [payloadAt, h, payloadAt]

/-- A sequence in the merge: the first page of the list has been read, `get_next` will yield
the others, and what the list holds is a normalised sequence. -/
structure Merging (s : AddrSequence) (l : List Stored) : Prop where
  reads : Reads s l.tail
  ascending : Ascending (pagesOf s l)
  le_one : ∀ p ∈ pagesOf s l, p.2 ≤ 1

/-- Reading on. -/
theorem Merging.next {s : AddrSequence} {x : Stored} {l : List Stored} (h : Merging s (x :: l)) :
    ∃ s', s.getNext = (s', l.head?.map (view s')) ∧ Merging s' l ∧ pagesOf s' l = pagesOf s l := by
  obtain ⟨s', hnext, hreads, hbufs⟩ := h.reads.getNext
  have hpages := pagesOf_congr hbufs l
  rw [← view_congr hbufs] at hnext
  refine ⟨s', hnext, ⟨hreads, ?_, ?_⟩, hpages⟩
  · rw [hpages]
    exact (List.pairwise_cons.mp h.ascending).2
  · rw [hpages]
    exact fun p hp => h.le_one p (List.mem_cons_of_mem _ hp)

/-- With one list at its end nothing is counted any more. -/
theorem counts_of_nil (l : List (ℕ × ℕ)) :
    hotInBoth [] l = 0 ∧ hotInBoth l [] = 0 ∧ hotBehind [] l = hotInOne [] l := by
  simp [hotInBoth, hotBehind, hotInOne, HotIn]

/-- The loop: what is hot in one list only is counted or lies behind the end of the
other one. -/
theorem driftLoop_counts {fuel : ℕ} {s₀ s₁ : AddrSequence} {l₀ l₁ : List Stored}
    (h₀ : Merging s₀ l₀) (h₁ : Merging s₁ l₁) (hfuel : l₀.length + l₁.length < fuel)
    (count : HotnessCount) :
    ∃ c, driftLoop fuel s₀ s₁ (l₀.head?.map (view s₀)) (l₁.head?.map (view s₁)) count = some c ∧
      c.stable = count.stable + hotInBoth (pagesOf s₀ l₀) (pagesOf s₁ l₁) ∧
      c.unstable + hotBehind (pagesOf s₀ l₀) (pagesOf s₁ l₁) =
        count.unstable + hotInOne (pagesOf s₀ l₀) (pagesOf s₁ l₁) := by
  induction fuel generalizing s₀ s₁ l₀ l₁ count with
  | zero => exact absurd hfuel (Nat.not_lt_zero _)
  | succ fuel ih =>
      rcases l₀ with _ | ⟨x, l₀⟩
      · obtain ⟨hboth, -, hbehind⟩ := counts_of_nil (pagesOf s₁ l₁)
        exact ⟨count, rfl, by rw [pagesOf_nil, hboth, Nat.add_zero], by rw [pagesOf_nil, hbehind]⟩
      rcases l₁ with _ | ⟨y, l₁⟩
      · obtain ⟨-, hboth, hbehind⟩ := counts_of_nil (pagesOf s₀ (x :: l₀))
        refine ⟨count, rfl, by rw [pagesOf_nil, hboth, Nat.add_zero], ?_⟩
        rw [pagesOf_nil, hotBehind_comm, hotInOne_comm, hbehind]
      obtain ⟨s₀', hnext₀, h₀', hpages₀⟩ := h₀.next
      obtain ⟨s₁', hnext₁, h₁', hpages₁⟩ := h₁.next
      simp only [List.length_cons] at hfuel
      simp only [List.head?_cons, Option.map_some, view, driftLoop, hnext₀, hnext₁]
      rcases lt_trichotomy x.addr y.addr with hlt | heq | hgt
      · -- the page of the first sequence is not in the second one
        obtain ⟨hboth, -, hone, hbehind⟩ := @counts_of_below (x.addr, payloadAt s₀ x)
          (pagesOf s₀ l₀) (pagesOf s₁ (y :: l₁))
          (fun r hr => hlt.trans_le (h₁.ascending.head_le r hr)) (List.cons_ne_nil _ _)
        dsimp only at hone
        obtain ⟨c, hloop, hstable, hunstable⟩ := ih h₀' h₁
          (by simp only [List.length_cons]; omega)
          (if payloadAt s₀ x = 1 then { count with unstable := count.unstable + 1 } else count)
        rw [hpages₀] at hstable hunstable
        refine ⟨c, by rw [if_pos hlt]; exact hloop, ?_, ?_⟩
        · rw [hstable, pagesOf_cons s₀, hboth]
          split_ifs <;> rfl
        · rw [pagesOf_cons s₀, hone, hbehind, hunstable]
          simp only [apply_ite HotnessCount.unstable]
          split_ifs <;> omega
      · -- both sequences hold the page
        have hx : payloadAt s₀ x ≤ 1 :=
          h₀.le_one (x.addr, payloadAt s₀ x) (List.mem_cons_self ..)
        have hy : payloadAt s₁ y ≤ 1 :=
          h₁.le_one (y.addr, payloadAt s₁ y) (List.mem_cons_self ..)
        obtain ⟨hboth, hone, hbehind⟩ := @counts_of_eq (x.addr, payloadAt s₀ x)
          (y.addr, payloadAt s₁ y) (pagesOf s₀ l₀) (pagesOf s₁ l₁) h₀.ascending h₁.ascending heq
          hx hy
        dsimp only at hboth hone
        have hsum : signedChar (payloadAt s₀ x + payloadAt s₁ y) =
            payloadAt s₀ x + payloadAt s₁ y := signedChar_of_bounds (by omega) (by omega)
        obtain ⟨c, hloop, hstable, hunstable⟩ := ih h₀' h₁' (by omega)
          (if signedChar (payloadAt s₀ x + payloadAt s₁ y) = 1 then
            { count with unstable := count.unstable + 1 }
          else if signedChar (payloadAt s₀ x + payloadAt s₁ y) = 2 then
            { count with stable := count.stable + 1 }
          else count)
        rw [hpages₀, hpages₁] at hstable hunstable
        refine ⟨c, by rw [if_neg heq.not_lt, if_neg heq.not_gt]; exact hloop, ?_, ?_⟩
        · rw [hstable, pagesOf_cons s₀, pagesOf_cons s₁, hboth, hsum]
          simp only [apply_ite HotnessCount.stable]
          split_ifs <;> omega
        · rw [pagesOf_cons s₀, pagesOf_cons s₁, hone, hbehind, hunstable, hsum]
          simp only [apply_ite HotnessCount.unstable]
          split_ifs <;> omega
      · -- the page of the second sequence is not in the first one
        obtain ⟨-, hboth, hone, hbehind⟩ := @counts_of_below (y.addr, payloadAt s₁ y)
          (pagesOf s₁ l₁) (pagesOf s₀ (x :: l₀))
          (fun r hr => hgt.trans_le (h₀.ascending.head_le r hr)) (List.cons_ne_nil _ _)
        dsimp only at hone
        obtain ⟨c, hloop, hstable, hunstable⟩ := ih h₀ h₁'
          (by simp only [List.length_cons]; omega)
          (if payloadAt s₁ y = 1 then { count with unstable := count.unstable + 1 } else count)
        rw [hpages₁] at hstable hunstable
        refine ⟨c, by rw [if_neg hgt.not_gt, if_pos hgt]; exact hloop, ?_, ?_⟩
        · rw [hstable, pagesOf_cons s₁, hboth]
          split_ifs <;> rfl
        · rw [hotBehind_comm, hotInOne_comm] at hunstable ⊢
          rw [pagesOf_cons s₁, hone, hbehind, hunstable]
          simp only [apply_ite HotnessCount.unstable]
          split_ifs <;> omega

/-- What is counted of two sequences. -/
theorem calcPageHotnessDrifting_counts {last current : AddrSequence} (lay₀ : Layout last)
    (lay₁ : Layout current) (hle₀ : ∀ p ∈ contents last, p.2 ≤ 1)
    (hle₁ : ∀ p ∈ contents current, p.2 ≤ 1) :
    ∃ c, calcPageHotnessDrifting last current = some c ∧
      c.stable = hotInBoth (contents last) (contents current) ∧
      c.unstable + hotBehind (contents last) (contents current) =
        hotInOne (contents last) (contents current) := by
  have hempty : ∀ {s : AddrSequence}, Layout s → allStored s = [] →
      s.getFirst = (s, none) ∧ contents s = [] := fun {s} lay hnil =>
    ⟨if_pos (addrClusters_of_nil lay hnil), by rw [contents, hnil, List.map_nil]⟩
  cases hall₀ : allStored last with
  | nil =>
      obtain ⟨hfirst, hcontents⟩ := hempty lay₀ hall₀
      obtain ⟨hboth, -, hbehind⟩ := counts_of_nil (contents current)
      refine ⟨⟨0, 0⟩, ?_, by rw [hcontents, hboth], by rw [hcontents, hbehind, Nat.zero_add]⟩
      rw [calcPageHotnessDrifting, hfirst]
      split <;> rfl
  | cons x l₀ =>
      obtain ⟨s₀, hfirst₀, hreads₀, hbufs₀⟩ := reads_getFirst lay₀ hall₀
      have hsize : ¬(last.size = 0 ∧ current.size = 0) := by
        intro h
        have := lay₀.addrSize_eq.symm.trans h.1
        rw [hall₀] at this
        cases this
      rw [calcPageHotnessDrifting, if_neg hsize, hfirst₀]
      cases hall₁ : allStored current with
      | nil =>
          obtain ⟨hfirst, hcontents⟩ := hempty lay₁ hall₁
          obtain ⟨-, hboth, hbehind⟩ := counts_of_nil (contents last)
          refine ⟨⟨0, 0⟩, by rw [hfirst]; rfl, by rw [hcontents, hboth], ?_⟩
          rw [hcontents, hotBehind_comm, hotInOne_comm, hbehind, Nat.zero_add]
      | cons y l₁ =>
          obtain ⟨s₁, hfirst₁, hreads₁, hbufs₁⟩ := reads_getFirst lay₁ hall₁
          have hpages₀ : pagesOf s₀ (x :: l₀) = contents last := by
            rw [pagesOf_congr hbufs₀, contents, hall₀, pagesOf]
          have hpages₁ : pagesOf s₁ (y :: l₁) = contents current := by
            rw [pagesOf_congr hbufs₁, contents, hall₁, pagesOf]
          have hfuel : (x :: l₀).length + (y :: l₁).length < last.size + current.size + 1 := by
            rw [← hall₀, ← hall₁, ← lay₀.addrSize_eq, ← lay₁.addrSize_eq]
            exact Nat.lt_succ_self _
          have hmerging₀ : Merging s₀ (x :: l₀) :=
            ⟨hreads₀, by rw [hpages₀]; exact List.pairwise_map.mpr lay₀.ascending, hpages₀ ▸ hle₀⟩
          have hmerging₁ : Merging s₁ (y :: l₁) :=
            ⟨hreads₁, by rw [hpages₁]; exact List.pairwise_map.mpr lay₁.ascending, hpages₁ ▸ hle₁⟩
          have hloop := driftLoop_counts hmerging₀ hmerging₁ hfuel ⟨0, 0⟩
          rw [hpages₀, hpages₁, view_congr hbufs₀, view_congr hbufs₁] at hloop
          rw [hfirst₁]
          simpa only [List.head?_cons, Option.map_some, Nat.zero_add] using hloop

/-- Nothing hot lies behind the end of the other list. -/
theorem hotBehind_eq_zero (l₀ l₁ : List (ℕ × ℕ)) :
    hotBehind l₀ l₁ = 0 ↔
      (∀ p ∈ l₀, p.2 = 1 → ∃ q ∈ l₁, p.1 ≤ q.1) ∧ ∀ p ∈ l₁, p.2 = 1 → ∃ q ∈ l₀, p.1 ≤ q.1 := by
  simp only [hotBehind, Nat.add_eq_zero_iff, List.countP_eq_zero, decide_eq_true_eq, not_and,
    not_forall, not_lt, exists_prop]

/-- Every two normalised sequences: the loop counts the addresses hot in both, and it
counts all that are hot in exactly one of them if and only if none of these lies above
every address of the other sequence. -/
theorem calcPageHotnessDrifting_counts_iff {last current : AddrSequence} (huse₀ : InUse last)
    (huse₁ : InUse current) (hle₀ : ∀ p ∈ contents last, p.2 ≤ 1)
    (hle₁ : ∀ p ∈ contents current, p.2 ≤ 1) :
    calcPageHotnessDrifting last current =
        some ⟨hotInBoth (contents last) (contents current),
          hotInOne (contents last) (contents current)⟩ ↔
      (∀ p ∈ contents last, p.2 = 1 → ∃ q ∈ contents current, p.1 ≤ q.1) ∧
        ∀ p ∈ contents current, p.2 = 1 → ∃ q ∈ contents last, p.1 ≤ q.1 := by
  obtain ⟨⟨stable, unstable⟩, hrun, hstable, hunstable⟩ :=
    calcPageHotnessDrifting_counts huse₀.layout huse₁.layout hle₀ hle₁
  simp only at hstable hunstable
  rw [hrun, ← hotBehind_eq_zero, Option.some_inj, HotnessCount.mk.injEq]
  exact ⟨fun h => by omega, fun h => ⟨hstable, by omega⟩⟩

/-- Three pages and then four: one is hot in both periods and three in one of them. -/
theorem calcPageHotnessDrifting_counts_iff_twoPeriods :
    let last := (init.clear.setPageshift 12).walk [(0x1000, 1), (0x3000, 0), (0x5000, 1)]
    let current :=
      (init.clear.setPageshift 12).walk [(0x2000, 1), (0x3000, 1), (0x5000, 1), (0x6000, 0)]
    calcPageHotnessDrifting last current = some ⟨1, 3⟩ := by
  intro last current
  have hcounts := (@calcPageHotnessDrifting_counts_iff last current
    (.firstWalk init 12 _ (by decide)) (.firstWalk init 12 _ (by decide)) (by decide)
    (by decide)).mpr (by decide)
  exact hcounts.trans (by decide)

/-- A second page that has become hot and lies behind the only page of the period before
is not counted. -/
theorem calcPageHotnessDrifting_behind :
    let last := (init.clear.setPageshift 12).walk [(0x1000, 1)]
    let current := (init.clear.setPageshift 12).walk [(0x1000, 1), (0x2000, 1)]
    calcPageHotnessDrifting last current = some ⟨1, 0⟩ ∧
      hotInBoth (contents last) (contents current) = 1 ∧
      hotInOne (contents last) (contents current) = 1 := by
  decide

end GlobalScan

end MemoryOptimizer
