import MemoryOptimizer.Kernel.Fill

/-!
# Accesses in one fill

Which pages a fill reports as accessed, for a scan without flags.

* `Ept.AccessedPage` — a present leaf page whose accessed bit is set.
* `Ept.Unscanned` — outside a range the entries of the leaf pages are as they were.
* `accesses_content` — every accessed page that the walk has passed is reported,
  and ahead of it no bit is cleared; where the walk stops at a page that did not
  fit, the bit of that page alone may be gone.
-/

namespace MemoryOptimizer

/-- A valid, present entry whose accessed bit is set. -/
def EptEntry.IsAccessed (entry : EptEntry) : Prop :=
  entry.invalid = false ∧ entry.present = true ∧ entry.accessed = true

instance (entry : EptEntry) : Decidable entry.IsAccessed := inferInstanceAs (Decidable (_ ∧ _ ∧ _))

/-- A present leaf page at `x` with its accessed bit set, by the type that reports
it: of 4K, or of 2M. -/
def Ept.AccessedPage (ept : Ept) (type : ProcIdlePageType) (x : ℕ) : Prop :=
  type.size ∣ x ∧ ¬ept.Missing x ∧ (ept.pud (x >>> 30)).large = false ∧
    (type = .pteAccessed ∧ (ept.pmd (x >>> 21)).IsTable ∧ (ept.pte (x >>> 12)).IsAccessed ∨
      type = .pmdAccessed ∧ (ept.pmd (x >>> 21)).IsAccessed ∧ (ept.pmd (x >>> 21)).large = true)

theorem Ept.AccessedPage.size_eq {ept : Ept} {type : ProcIdlePageType} {x : ℕ}
    (h : ept.AccessedPage type x) : type.size = 2 ^ type.shift ∧ type.shift ≤ 21 := by
  rcases h.2.2.2 with ⟨rfl, -⟩ | ⟨rfl, -⟩ <;> exact ⟨rfl, by decide⟩

theorem Ept.AccessedPage.size_pos {ept : Ept} {type : ProcIdlePageType} {x : ℕ}
    (h : ept.AccessedPage type x) : 0 < type.size := by
  rw [h.size_eq.1]
  exact Nat.two_pow_pos _

/-- The flags of a scan without any `SCAN_*` flag. -/
def noFlags : ScanFlags := ⟨false, false, false⟩

/-- From `old` to `new` no entry of a leaf page outside `[lo, hi)` has changed, nor
where the tables are; none at all where the range is empty. -/
structure Ept.Unscanned (old new : Ept) (lo hi : ℕ) : Prop where
  pgdirShift : new.pgdirShift = old.pgdirShift
  pgdPresent : new.pgdPresent = old.pgdPresent
  p4dPresent : new.p4dPresent = old.p4dPresent
  pud : new.pud = old.pud
  table : ∀ j, (new.pmd j).invalid = (old.pmd j).invalid ∧
    (new.pmd j).present = (old.pmd j).present ∧ (new.pmd j).large = (old.pmd j).large
  pmd : ∀ j, (j + 1) * 2 ^ 21 ≤ lo ∨ hi ≤ j * 2 ^ 21 ∨ hi ≤ lo → (old.pmd j).large = true →
    new.pmd j = old.pmd j
  pte : ∀ i, i * 2 ^ 12 < lo ∨ hi ≤ i * 2 ^ 12 → new.pte i = old.pte i

namespace Ept.Unscanned

variable {old new : Ept} {lo hi hi' : ℕ}

theorem refl (ept : Ept) (lo hi : ℕ) : ept.Unscanned ept lo hi :=
  ⟨rfl, rfl, rfl, rfl, fun _ => ⟨rfl, rfl, rfl⟩, fun _ _ _ => rfl, fun _ _ => rfl⟩

theorem mono (h : old.Unscanned new lo hi) (hle : hi ≤ hi') : old.Unscanned new lo hi' :=
  ⟨h.pgdirShift, h.pgdPresent, h.p4dPresent, h.pud, h.table,
    fun j hj => h.pmd j (hj.imp_right (Or.imp hle.trans hle.trans)),
    fun i hi => h.pte i (hi.imp_right hle.trans)⟩

theorem tables (h : old.Unscanned new lo hi) : new.tables = old.tables := by
  rw [Ept.tables, h.pgdirShift, h.pgdPresent, h.p4dPresent, h.pud]
  rfl

theorem missing (h : old.Unscanned new lo hi) (x : ℕ) : new.Missing x ↔ old.Missing x :=
  Ept.missing_congr h.tables x

theorem isTable (h : old.Unscanned new lo hi) (j : ℕ) :
    (new.pmd j).IsTable ↔ (old.pmd j).IsTable := by
  obtain ⟨h1, h2, h3⟩ := h.table j
  unfold EptEntry.IsTable
  rw [h1, h2, h3]

/-- A page outside the range is still accessed. -/
theorem accessedPage (h : old.Unscanned new lo hi) {type : ProcIdlePageType} {x : ℕ}
    (hpage : old.AccessedPage type x) (hx : x + type.size ≤ lo ∨ hi ≤ x ∨ hi ≤ lo) :
    new.AccessedPage type x := by
  obtain ⟨hdvd, hmissing, hpud, hleaf⟩ := hpage
  refine ⟨hdvd, mt (h.missing x).mp hmissing, by rw [h.pud]; exact hpud, ?_⟩
  rcases hleaf with ⟨rfl, htable, haccessed⟩ | ⟨rfl, haccessed, hlarge⟩
  · have hdvd : 2 ^ 12 ∣ x := hdvd
    have hindex : x >>> 12 * 2 ^ 12 = x := by
      rw [Nat.shiftRight_eq_div_pow, Nat.div_mul_cancel hdvd]
    refine Or.inl ⟨rfl, (h.isTable _).mpr htable, ?_⟩
    rw [h.pte (x >>> 12) (by
      rw [hindex]
      change x + 2 ^ 12 ≤ lo ∨ hi ≤ x ∨ hi ≤ lo at hx
      omega)]
    exact haccessed
  · have hdvd : 2 ^ 21 ∣ x := hdvd
    have hindex : x >>> 21 * 2 ^ 21 = x := by
      rw [Nat.shiftRight_eq_div_pow, Nat.div_mul_cancel hdvd]
    have hpmd := h.pmd (x >>> 21) (by
      rw [Nat.succ_mul, hindex]
      exact hx) hlarge
    refine Or.inr ⟨rfl, ?_, ?_⟩
    · rw [hpmd]
      exact haccessed
    · rw [hpmd]
      exact hlarge

/-- Scanning the entry of a 2M region of the range. -/
theorem setPmd (h : old.Unscanned new lo hi) (flags : ScanFlags) {a : ℕ} (hlo : lo ≤ a)
    (ha : a < hi ∨ (new.pmd (a >>> 21)).large = false) :
    old.Unscanned (new.setPmd (a >>> 21) (scanPmd flags (new.pmd (a >>> 21))).2) lo hi := by
  refine ⟨h.pgdirShift, h.pgdPresent, h.p4dPresent, h.pud, fun j => ?_, fun j hj hlarge => ?_,
    h.pte⟩
  · rw [Ept.setPmd_pmd]
    by_cases hja : j = a >>> 21
    · subst hja
      rw [Function.update_self]
      obtain ⟨h1, h2, h3⟩ := scanPmd_snd flags (new.pmd (a >>> 21))
      rw [h1, h2, h3]
      exact h.table _
    · rw [Function.update_of_ne hja]
      exact h.table j
  · rw [Ept.setPmd_pmd, Function.update_of_ne]
    · exact h.pmd j hj hlarge
    · rintro rfl
      have hdiv := Nat.div_mul_le_self a (2 ^ 21)
      have hlt : a < (a / 2 ^ 21 + 1) * 2 ^ 21 :=
        (Nat.div_lt_iff_lt_mul (by decide)).mp (Nat.lt_succ_self _)
      rw [Nat.shiftRight_eq_div_pow] at hj
      rcases ha with ha | ha
      · omega
      · rw [(h.table _).2.2] at ha
        exact Bool.noConfusion (ha.symm.trans hlarge)

/-- Scanning the entry of a page of the range. -/
theorem setPte (h : old.Unscanned new lo hi) {a : ℕ} (hlo : lo ≤ a) (ha : a < hi)
    (hdvd : 2 ^ 12 ∣ a) (entry : EptEntry) :
    old.Unscanned (new.setPte (a >>> 12) entry) lo hi := by
  refine ⟨h.pgdirShift, h.pgdPresent, h.p4dPresent, h.pud, h.table, h.pmd, fun i hi => ?_⟩
  rw [Ept.setPte_pte, Function.update_of_ne]
  · exact h.pte i hi
  · rintro rfl
    rw [Nat.shiftRight_eq_div_pow, Nat.div_mul_cancel hdvd] at hi
    omega

end Ept.Unscanned

/-! ### The content of a fill -/

theorem scanPmd_of_isTable {entry : EptEntry} (h : entry.IsTable) :
    (scanPmd noFlags entry).1 = none := by
  obtain ⟨hinvalid, hpresent, hlarge⟩ := h
  cases haccessed : entry.accessed <;>
    simp [scanPmd, noFlags, hinvalid, hpresent, hlarge, haccessed]

theorem scanPmd_of_isAccessed {entry : EptEntry} (h : entry.IsAccessed)
    (hlarge : entry.large = true) : (scanPmd noFlags entry).1 = some .pmdAccessed := by
  obtain ⟨hinvalid, hpresent, haccessed⟩ := h
  simp [scanPmd, noFlags, hinvalid, hpresent, hlarge, haccessed]

theorem scanPte_of_isAccessed {entry : EptEntry} (h : entry.IsAccessed) :
    (scanPte noFlags entry).1 = .pteAccessed := by
  obtain ⟨hinvalid, hpresent, haccessed⟩ := h
  simp [scanPte, noFlags, hinvalid, hpresent, haccessed]

/-- A scan leaves no entry accessed. -/
theorem scanPmd_not_isAccessed (flags : ScanFlags) (entry : EptEntry) :
    ¬(scanPmd flags entry).2.IsAccessed := by
  simp only [scanPmd, EptEntry.IsAccessed]
  split_ifs <;> simp_all

theorem scanPte_not_isAccessed (flags : ScanFlags) (entry : EptEntry) :
    ¬(scanPte flags entry).2.IsAccessed := by
  simp only [scanPte, EptEntry.IsAccessed]
  split_ifs <;> simp_all

namespace FillRange

variable (range : FillRange) (old : Ept)

/-- Every accessed page that starts before `a` and ends in the range is among the
pages reported, once the walk has left the start of the range. -/
def Seen (a : ℕ) (rep : List (ProcIdlePageType × ℕ)) : Prop :=
  range.first < a → ∀ type x, old.AccessedPage type x → range.first < x + type.size → x < a →
    (type, ulong (x + usub range.base range.first)) ∈ rep

/-- The walk has reached `a`: what is before it was seen, what is ahead was not
scanned. -/
def Passed : Pred := fun a ept rep => old.Unscanned ept range.first a ∧ range.Seen old a rep

/-- The walk has stopped at `a`, after it has scanned the entry there, so that its bit
is gone. -/
def StoppedAt : Pred := fun a ept rep =>
  old.Unscanned ept range.first (a + 1) ∧ range.Seen old a rep ∧
    ∀ type, old.AccessedPage type a → ¬ept.AccessedPage type a

variable {range old} {a next : ℕ} {rep rep' : List (ProcIdlePageType × ℕ)}

/-- The pages up to the end of a piece: those seen before it, and those that overlap
it, the one in which the range starts included. -/
theorem Seen.extend (h : range.Seen old a rep) (hsub : rep ⊆ rep')
    (hnew : ∀ type x, old.AccessedPage type x → a < x + type.size → x < next →
      a ≤ x ∨ a ≤ range.first → (type, ulong (x + usub range.base range.first)) ∈ rep') :
    range.Seen old next rep' := by
  intro _ type x hpage hend hlt
  have hsize := hpage.size_pos
  rcases Nat.lt_or_ge x a with hx | hx
  · rcases Nat.lt_or_ge range.first a with ha | ha
    · exact hsub (h ha type x hpage hend hx)
    · exact hnew type x hpage (ha.trans_lt hend) hlt (Or.inr ha)
  · exact hnew type x hpage (by omega) hlt (Or.inl hx)

section Overlap

variable {k : ℕ} {type : ProcIdlePageType} {x : ℕ}

theorem shiftRight_eq_of_le {m n x y : ℕ} (hmn : m ≤ n) (h : x >>> m = y >>> m) :
    x >>> n = y >>> n := by
  rw [← Nat.add_sub_cancel' hmn, Nat.shiftRight_add, Nat.shiftRight_add, h]

/-- The addresses of a page have its index. -/
theorem index_of_mem (hpage : old.AccessedPage type x) (hxa : x ≤ a) (hax : a < x + type.size)
    {m : ℕ} (hm : type.shift ≤ m) : x >>> m = a >>> m := by
  refine shiftRight_eq_of_le hm ?_
  obtain ⟨n, rfl⟩ := hpage.1
  have hpow := Nat.two_pow_pos type.shift
  rw [hpage.size_eq.1] at hxa hax ⊢
  rw [Nat.shiftRight_eq_div_pow, Nat.shiftRight_eq_div_pow, Nat.mul_div_cancel_left _ hpow]
  refine (Nat.div_eq_of_lt_le ?_ ?_).symm
  · rw [Nat.mul_comm]
    exact hxa
  · rw [Nat.succ_mul, Nat.mul_comm n]
    exact hax

variable (piece : Piece range.first range.stop k a next) (hpage : old.AccessedPage type x)
variable (hax : a < x + type.size) (hxn : x < next)

include piece hpage hax hxn

/-- A page that overlaps a piece has the index of its start. -/
theorem index_of_overlap {m : ℕ} (hk : k ≤ m) (hm : type.shift ≤ m) : x >>> m = a >>> m := by
  rcases Nat.lt_or_ge x a with hx | hx
  · exact index_of_mem hpage hx.le hax hm
  · exact shiftRight_eq_of_le hk (piece.index_eq hx hxn)

/-- The page of a call whose piece it overlaps. -/
theorem Ok.pages_eq (hrange : range.Ok) (hk : type.shift = k) :
    PageCall.pages ⟨a, next, type⟩ (usub range.base range.first) =
      [(type, ulong (x + usub range.base range.first))] := by
  have hindex := index_of_overlap piece hpage hax hxn hk.ge le_rfl
  have hdown : roundDown a type.size = x := by
    rw [Nat.shiftRight_eq_div_pow, Nat.shiftRight_eq_div_pow] at hindex
    rw [hpage.size_eq.1,
      roundDown_eq (piece.lt_stop.trans hrange.stop_lt) type.shift_le, ← hindex,
      ← hpage.size_eq.1, Nat.div_mul_cancel hpage.1]
  have hhva : PageCall.hva ⟨a, next, type⟩ (usub range.base range.first) =
      ulong (x + usub range.base range.first) := by
    rw [PageCall.hva]
    dsimp only
    rw [hdown]
  rcases hpage.2.2.2 with ⟨rfl, -⟩ | ⟨rfl, -⟩ <;> simp [PageCall.pages, PageCall.IsHole, hhva]

end Overlap

/-- A scan without flags reports the accessed pages, and clears no other bit. -/
theorem accesses_content (hrange : range.Ok) (old : Ept) (hshift : 30 ≤ old.pgdirShift) :
    range.Content noFlags (usub range.base range.first) (range.Passed old) (range.StoppedAt old)
    where
  skip k a next ept rep piece _ hmissing := by
    rintro ⟨hframe, hseen⟩
    refine ⟨hframe.mono piece.lt.le,
      hseen.extend (List.Subset.refl _) fun type x hpage hax hxn _ => ?_⟩
    refine absurd ?_ hpage.2.1
    rcases Nat.lt_or_ge x a with hx | hx
    · -- the range starts inside of the page
      have hindex := index_of_mem hpage hx.le hax
        (hpage.size_eq.2.trans (by decide : 21 ≤ 30))
      exact (Ept.missing_of_index le_rfl hshift hindex).mpr
        ((hframe.missing a).mp (hmissing a le_rfl piece.lt))
    · exact (hframe.missing x).mp (hmissing x hx hxn)
  pud a next ept rep piece hpresent hlarge := by
    rintro ⟨hframe, hseen⟩
    refine ⟨⟨hframe.mono piece.lt.le, hseen.extend (List.subset_append_left _ _)
      fun type x hpage hax hxn _ => ?_⟩, hframe.mono (Nat.le_succ a), hseen, fun type hpage => ?_⟩
    · have hindex := index_of_overlap piece hpage hax hxn le_rfl
        (hpage.size_eq.2.trans (by decide))
      have hpud := hpage.2.2.1
      rw [hindex, ← hframe.pud, hlarge] at hpud
      exact Bool.noConfusion hpud
    · have hpud := hpage.2.2.1
      rw [← hframe.pud, hlarge] at hpud
      exact Bool.noConfusion hpud
  pmd a next ept rep type piece hscan := by
    rintro ⟨hframe, hseen⟩
    refine ⟨⟨(hframe.mono piece.lt.le).setPmd noFlags piece.first_le (Or.inl piece.lt),
      hseen.extend (List.subset_append_left _ _)
        fun type' x hpage hax hxn hnew => ?_⟩,
      (hframe.mono (Nat.le_succ a)).setPmd noFlags piece.first_le (Or.inl (Nat.lt_succ_self a)),
      hseen, ?_⟩
    swap
    · rintro type' ⟨-, -, -, ⟨rfl, htable, -⟩ | ⟨rfl, -, -⟩⟩ ⟨-, -, -, hleaf⟩
      · rw [scanPmd_of_isTable ((hframe.isTable _).mpr htable)] at hscan
        cases hscan
      · obtain ⟨h, -⟩ | ⟨-, haccessed, -⟩ := hleaf
        · cases h
        · rw [Ept.setPmd_pmd, Function.update_self] at haccessed
          exact scanPmd_not_isAccessed _ _ haccessed
    have hindex := index_of_overlap piece hpage hax hxn le_rfl hpage.size_eq.2
    have hpage' := hpage
    obtain ⟨hdvd, -, -, ⟨rfl, htable, -⟩ | ⟨rfl, haccessed, hlarge⟩⟩ := hpage
    · -- the pages of a table are not reported with it
      rw [hindex] at htable
      rw [scanPmd_of_isTable ((hframe.isTable _).mpr htable)] at hscan
      cases hscan
    · have hpmd := hframe.pmd (x >>> 21) (Or.inr (by
        have hdvd : 2 ^ 21 ∣ x := hdvd
        rw [Nat.shiftRight_eq_div_pow, Nat.div_mul_cancel hdvd]
        exact hnew)) hlarge
      rw [← hindex, hpmd, scanPmd_of_isAccessed haccessed hlarge] at hscan
      cases hscan
      rw [Ok.pages_eq piece hpage' hax hxn hrange rfl]
      exact List.mem_append_right _ (List.mem_singleton_self _)
  table a next ept rep piece hscan := by
    rintro ⟨hframe, hseen⟩
    exact ⟨hframe.setPmd noFlags piece.first_le (Or.inr (isTable_of_scanPmd hscan).2.2), hseen⟩
  pte a next ept rep piece htable := by
    rintro ⟨hframe, hseen⟩
    have hdvd12 : 2 ^ 12 ∣ a := piece.dvd_start hrange.first_dvd dvd_rfl
    refine ⟨⟨(hframe.mono piece.lt.le).setPte piece.first_le piece.lt hdvd12 _,
      hseen.extend (List.subset_append_left _ _)
        fun type x hpage hax hxn _ => ?_⟩,
      (hframe.mono (Nat.le_succ a)).setPte piece.first_le (Nat.lt_succ_self a) hdvd12 _, hseen,
      ?_⟩
    swap
    · rintro type ⟨-, -, -, ⟨rfl, -, -⟩ | ⟨rfl, -, hlarge⟩⟩ ⟨-, -, -, hleaf⟩
      · obtain ⟨-, -, haccessed⟩ | ⟨h, -⟩ := hleaf
        · rw [Ept.setPte_pte, Function.update_self] at haccessed
          exact scanPte_not_isAccessed _ _ haccessed
        · cases h
      · have htable := ((hframe.isTable _).mp htable).2.2
        exact Bool.noConfusion (htable.symm.trans hlarge)
    have hpage' := hpage
    obtain ⟨hdvd, -, -, ⟨rfl, -, haccessed⟩ | ⟨rfl, -, hlarge⟩⟩ := hpage
    · have hindex := index_of_overlap piece hpage' hax hxn le_rfl le_rfl
      have hpte := hframe.pte (a >>> 12) (Or.inr (by
        rw [Nat.shiftRight_eq_div_pow]
        exact (Nat.div_mul_cancel hdvd12).ge))
      rw [hindex] at haccessed
      rw [hpte, scanPte_of_isAccessed haccessed, Ok.pages_eq piece hpage' hax hxn hrange rfl]
      exact List.mem_append_right _ (List.mem_singleton_self _)
    · -- a page of 2M has no table
      have hindex := index_of_overlap piece hpage' hax hxn (m := 21) (by decide) le_rfl
      have htable := ((hframe.isTable _).mp htable).2.2
      rw [← hindex] at htable
      exact Bool.noConfusion (htable.symm.trans hlarge)

end FillRange

end MemoryOptimizer
