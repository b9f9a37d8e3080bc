import MemoryOptimizer.Kernel.NativeWalk

/-!
# The rule of the native page walk

`walkPgdRange_rule` is an induction principle for `walk_pgd_range` and the levels
below it, as `eptPageRange_rule` is for `ept_page_range`: a predicate indexed by the
address reached holds at the end of the range, and another one where a callback has
ended the walk, if the callbacks keep them (`MmSteps`).

The walk writes accessed bits only (`PageTable.Scanned`), so that what is present is
the same before and after it.
-/

namespace MemoryOptimizer

/-! ### The page table -/

namespace PageTable

/-- A table above the last two levels is missing at an address. -/
def Missing (pt : PageTable) (x : ℕ) : Prop :=
  pt.pgdNone (x >>> pt.pgdirShift) = true ∨ pt.p4dNone (x >>> 39) = true ∨
    (pt.pud (x >>> 30)).isNone = true

instance (pt : PageTable) (x : ℕ) : Decidable (pt.Missing x) :=
  inferInstanceAs (Decidable (_ ∨ _ ∨ _))

/-- A present leaf page of `2 ^ shift` bytes at `x`: of 4K, or of 2M. -/
def PresentPage (pt : PageTable) (shift x : ℕ) : Prop :=
  2 ^ shift ∣ x ∧ ¬pt.Missing x ∧ (pt.pud (x >>> 30)).huge = false ∧
    (pt.pmd (x >>> 21)).isNone = false ∧ (pt.pmd (x >>> 21)).present = true ∧
    (shift = 12 ∧ (pt.pmd (x >>> 21)).large = false ∧ (pt.pte (x >>> 12)).present = true ∨
      shift = 21 ∧ (pt.pmd (x >>> 21)).large = true)

/-- From `old` to `new` nothing but accessed bits has changed. -/
structure Scanned (old new : PageTable) : Prop where
  pgdirShift : new.pgdirShift = old.pgdirShift
  pgdNone : new.pgdNone = old.pgdNone
  p4dNone : new.p4dNone = old.p4dNone
  pud : new.pud = old.pud
  pmd : ∀ j, (new.pmd j).isNone = (old.pmd j).isNone ∧
    (new.pmd j).present = (old.pmd j).present ∧ (new.pmd j).large = (old.pmd j).large
  pte : ∀ i, (new.pte i).present = (old.pte i).present

namespace Scanned

variable {old new : PageTable}

theorem refl (pt : PageTable) : pt.Scanned pt :=
  ⟨rfl, rfl, rfl, rfl, fun _ => ⟨rfl, rfl, rfl⟩, fun _ => rfl⟩

theorem trans {mid : PageTable} (h : old.Scanned mid) (h' : mid.Scanned new) :
    old.Scanned new := by
  refine ⟨h'.pgdirShift.trans h.pgdirShift, h'.pgdNone.trans h.pgdNone,
    h'.p4dNone.trans h.p4dNone, h'.pud.trans h.pud, fun j => ?_,
    fun i => (h'.pte i).trans (h.pte i)⟩
  obtain ⟨hnone, hpresent, hlarge⟩ := h.pmd j
  rw [← hnone, ← hpresent, ← hlarge]
  exact h'.pmd j

theorem missing (h : old.Scanned new) (x : ℕ) : new.Missing x ↔ old.Missing x := by
  unfold Missing
  rw [h.pgdirShift, h.pgdNone, h.p4dNone, h.pud]

theorem presentPage (h : old.Scanned new) {shift x : ℕ} (hpage : old.PresentPage shift x) :
    new.PresentPage shift x := by
  obtain ⟨hnone, hpresent, hlarge⟩ := h.pmd (x >>> 21)
  unfold PresentPage at hpage ⊢
  rwa [h.missing, h.pud, hnone, hpresent, hlarge, h.pte]

theorem setPmd (h : old.Scanned new) (flags : ScanFlags) (j : ℕ) :
    old.Scanned (new.setPmd j (mmScanPmd flags (new.pmd j)).2) := by
  refine ⟨h.pgdirShift, h.pgdNone, h.p4dNone, h.pud, fun i => ?_, h.pte⟩
  obtain ⟨hnone, hpresent, hlarge⟩ := h.pmd i
  rw [setPmd_pmd]
  by_cases hij : i = j
  · subst hij
    rw [Function.update_self, ← hnone, ← hpresent, ← hlarge]
    simp only [mmScanPmd]
    split_ifs <;> exact ⟨rfl, rfl, rfl⟩
  · rw [Function.update_of_ne hij]
    exact ⟨hnone, hpresent, hlarge⟩

theorem setPte (h : old.Scanned new) (i : ℕ) :
    old.Scanned (new.setPte i (mmScanPte (new.pte i)).2) := by
  refine ⟨h.pgdirShift, h.pgdNone, h.p4dNone, h.pud, h.pmd, fun j => ?_⟩
  rw [setPte_pte]
  by_cases hji : j = i
  · subst hji
    rw [Function.update_self, ← h.pte]
    simp only [mmScanPte]
    split_ifs <;> rfl
  · rw [Function.update_of_ne hji, h.pte]

end Scanned

end PageTable

/-! ### The rule of the walk -/

/-- The callbacks of a walk of `[first, stop)` keep `P` at the address reached, or
end the walk with `Q`. -/
structure MmSteps (pt : PageTable) (first stop : ℕ) (P : ℕ → MmScan → Prop) (Q : MmScan → Prop) :
    Prop where
  scanned : ∀ a s, P a s → pt.Scanned s.pt
  skip : ∀ a next s, first ≤ a → a < next → next ≤ stop → P a s →
    (∀ x, a ≤ x → x < next → pt.Missing x ∨ (pt.pmd (x >>> 21)).isNone = true) → P next s
  pud : ∀ a next s, Piece first stop 30 a next → P a s → ¬pt.Missing a →
    (pt.pud (a >>> 30)).huge = true → Q (mmIdlePudEntry s a next).1
  pmd : ∀ a next s, Piece first stop 21 a next → P a s → ¬pt.Missing a →
    (pt.pud (a >>> 30)).huge = false → (pt.pmd (a >>> 21)).isNone = false →
    Post P Q next (mmIdlePmdEntry s a next)

theorem mmIdlePudEntry_snd (s : MmScan) (addr next : ℕ) : (mmIdlePudEntry s addr next).2 = 1 := by
  unfold mmIdlePudEntry
  split <;> rfl

section Levels

variable {pt : PageTable} {first stop : ℕ} {P : ℕ → MmScan → Prop} {Q : MmScan → Prop}
variable (steps : MmSteps pt first stop P Q) (hlt : stop < 2 ^ 64)
variable {a e : ℕ} {s : MmScan}

include steps hlt

theorem walkPmdRange_rule (outer : Piece first stop 30 a e)
    (hwalked : ∀ x, a ≤ x → x < e → ¬pt.Missing x) (hhuge : (pt.pud (a >>> 30)).huge = false)
    (h : P a s) : Post P Q e (walkPmdRange s a e) := by
  refine walkRange_pieces outer (by decide)
    (fun _ _ hxe _ => addrEnd_eq (by decide) hxe (outer.next_le.trans_lt hlt))
    (fun x next t piece hax hnext h => ?_) h
  have hxe := piece.lt.trans_le hnext
  unfold walkPmd
  rw [((steps.scanned x t h).pmd _).1]
  cases hnone : (pt.pmd (x >>> 21)).isNone with
  | true =>
      refine Post.ok (steps.skip x next t piece.first_le piece.lt piece.next_le h
        fun y hxy hyn => Or.inr ?_)
      rw [piece.index_eq hxy hyn, hnone]
  | false =>
      exact steps.pmd x next t piece h (hwalked x hax hxe) (by rwa [outer.index_eq hax hxe]) hnone

theorem walkPudRange_rule (outer : Piece first stop 39 a e)
    (hwalked : ∀ x, a ≤ x → x < e → pt.pgdNone (x >>> pt.pgdirShift) = false ∧
      pt.p4dNone (x >>> 39) = false) (h : P a s) : Post P Q e (walkPudRange s a e) := by
  refine walkRange_pieces outer (by decide)
    (fun _ _ hxe _ => addrEnd_eq (by decide) hxe (outer.next_le.trans_lt hlt))
    (fun x next t piece hax hnext h => ?_) h
  unfold walkPud
  dsimp only
  rw [(steps.scanned x t h).pud]
  cases hnone : (pt.pud (x >>> 30)).isNone with
  | true =>
      refine Post.ok (steps.skip x next t piece.first_le piece.lt piece.next_le h
        fun y hxy hyn => Or.inl (Or.inr (Or.inr ?_)))
      rw [piece.index_eq hxy hyn, hnone]
  | false =>
      have hthere : ∀ y, x ≤ y → y < next → ¬pt.Missing y := by
        intro y hxy hyn hmissing
        obtain ⟨hpgd, hp4d⟩ := hwalked y (hax.trans hxy) (hyn.trans_le hnext)
        rcases hmissing with hmissing | hmissing | hmissing
        · exact Bool.noConfusion (hpgd.symm.trans hmissing)
        · exact Bool.noConfusion (hp4d.symm.trans hmissing)
        · rw [piece.index_eq hxy hyn, hnone] at hmissing
          exact Bool.noConfusion hmissing
      cases hhuge : (pt.pud (x >>> 30)).huge with
      | true =>
          refine ⟨fun hret => ?_, fun _ =>
            steps.pud x next t piece h (hthere x le_rfl piece.lt) hhuge⟩
          have := (mmIdlePudEntry_snd t x next).symm.trans hret
          exact absurd this one_ne_zero
      | false => exact walkPmdRange_rule steps hlt piece hthere hhuge h

theorem walkP4dRange_rule {big : ℕ} (hbig : 39 ≤ big) (outer : Piece first stop big a e)
    (hwalked : ∀ x, a ≤ x → x < e → pt.pgdNone (x >>> pt.pgdirShift) = false) (h : P a s) :
    Post P Q e (walkP4dRange s a e) := by
  refine walkRange_pieces outer hbig
    (fun _ _ hxe _ => addrEnd_eq (by decide) hxe (outer.next_le.trans_lt hlt))
    (fun x next t piece hax hnext h => ?_) h
  unfold walkP4d
  rw [(steps.scanned x t h).p4dNone]
  cases hnone : pt.p4dNone (x >>> 39) with
  | true =>
      refine Post.ok (steps.skip x next t piece.first_le piece.lt piece.next_le h
        fun y hxy hyn => Or.inl (Or.inr (Or.inl ?_)))
      rw [piece.index_eq hxy hyn, hnone]
  | false =>
      refine walkPudRange_rule steps hlt piece (fun y hxy hyn => ⟨?_, ?_⟩) h
      · exact hwalked y (hax.trans hxy) (hyn.trans_le hnext)
      · rw [piece.index_eq hxy hyn, hnone]

/-- The walk of a range, from the predicate at its start. -/
theorem walkPgdRange_rule (hshift : 39 ≤ pt.pgdirShift ∧ pt.pgdirShift < 64) (hne : first < stop)
    (h : P first s) : Post P Q stop (walkPgdRange s first stop) := by
  have whole := Piece.whole hne hlt.le
  unfold walkPgdRange
  rw [(steps.scanned first s h).pgdirShift]
  refine walkRange_addrEnd whole hshift.2.le hshift.2 hlt (fun x next t piece h => ?_) h
  unfold walkPgd
  rw [(steps.scanned x t h).pgdNone, (steps.scanned x t h).pgdirShift]
  cases hnone : pt.pgdNone (x >>> pt.pgdirShift) with
  | true =>
      refine Post.ok (steps.skip x next t piece.first_le piece.lt piece.next_le h
        fun y hxy hyn => Or.inl (Or.inl ?_))
      rw [piece.index_eq hxy hyn, hnone]
  | false =>
      refine walkP4dRange_rule steps hlt hshift.1 piece (fun y hxy hyn => ?_) h
      rw [piece.index_eq hxy hyn, hnone]

end Levels

end MemoryOptimizer
