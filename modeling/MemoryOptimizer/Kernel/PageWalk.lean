import MemoryOptimizer.Kernel.EptWalk

/-!
# The rule of the page-table walk

`eptPageRange_rule` is an induction principle for `ept_page_range` and the levels
below it: a predicate indexed by the guest physical address reached holds at the
end of the range, and another one where the walk stopped early, if every step at a
leaf, at a hole and on the way into a table keeps them (`WalkSteps`).
-/

namespace MemoryOptimizer

/-- A table above the last two levels is missing at an address. -/
def Ept.Missing (ept : Ept) (x : ℕ) : Prop :=
  ept.pgdPresent (x >>> ept.pgdirShift) = false ∨ ept.p4dPresent (x >>> 39) = false ∨
    (ept.pud (x >>> 30)).present = false

instance (ept : Ept) (x : ℕ) : Decidable (ept.Missing x) := inferInstanceAs (Decidable (_ ∨ _ ∨ _))

/-- The tables above the last two levels. -/
def Ept.tables (ept : Ept) : ℕ × (ℕ → Bool) × (ℕ → Bool) × (ℕ → EptEntry) :=
  (ept.pgdirShift, ept.pgdPresent, ept.p4dPresent, ept.pud)

theorem Ept.missing_congr {old new : Ept} (h : new.tables = old.tables) (x : ℕ) :
    new.Missing x ↔ old.Missing x := by
  simp only [tables, Prod.mk.injEq] at h
  obtain ⟨hshift, hpgd, hp4d, hpud⟩ := h
  unfold Missing
  rw [hshift, hpgd, hp4d, hpud]

/-- A table is missing for a whole block of the levels below. -/
theorem Ept.missing_of_index {ept : Ept} {k x y : ℕ} (hk : k ≤ 30) (hshift : 30 ≤ ept.pgdirShift)
    (h : x >>> k = y >>> k) : ept.Missing x ↔ ept.Missing y := by
  have hindex : ∀ m, k ≤ m → x >>> m = y >>> m := by
    intro m hm
    rw [← Nat.add_sub_cancel' hm, Nat.shiftRight_add, Nat.shiftRight_add, h]
  unfold Missing
  rw [hindex _ (hk.trans hshift), hindex 39 (by omega), hindex 30 hk]

/-- A valid entry that points to a table. -/
def EptEntry.IsTable (entry : EptEntry) : Prop :=
  entry.invalid = false ∧ entry.present = true ∧ entry.large = false

/-- Scanning an entry clears bits only. -/
theorem scanPmd_snd (flags : ScanFlags) (entry : EptEntry) :
    (scanPmd flags entry).2.invalid = entry.invalid ∧
      (scanPmd flags entry).2.present = entry.present ∧
      (scanPmd flags entry).2.large = entry.large := by
  simp only [scanPmd]
  split_ifs <;> simp

/-- The pages of a region are walked where its entry points to a table. -/
theorem isTable_of_scanPmd {flags : ScanFlags} {entry : EptEntry}
    (h : (scanPmd flags entry).1 = none) : entry.IsTable := by
  unfold EptEntry.IsTable
  simp only [scanPmd] at h
  split_ifs at h <;> simp_all

/-- What the walk of a 2M region leaves of its entry. -/
def EptScan.scanRegion (s : EptScan) (a : ℕ) : EptScan :=
  ⟨s.ept.setPmd (a >>> 21) (scanPmd s.eic.flags (s.ept.pmd (a >>> 21))).2, s.eic⟩

/-! ### The tables above stay as they are -/

section Tables

variable (s : EptScan) (addr stop : ℕ)

theorem eptPteRange_tables : (eptPteRange s addr stop).1.ept.tables = s.ept.tables :=
  walkRange_inv (I := fun t : EptScan => t.ept.tables = s.ept.tables) rfl fun _ _ _ h => h

theorem eptPmd_tables : (eptPmd s addr stop).1.ept.tables = s.ept.tables := by
  unfold eptPmd
  dsimp only
  split
  · rfl
  · exact (eptPteRange_tables ..).trans rfl

theorem eptPud_tables : (eptPud s addr stop).1.ept.tables = s.ept.tables := by
  unfold eptPud
  dsimp only
  split
  · rfl
  · split
    · rfl
    · exact walkRange_inv (I := fun t : EptScan => t.ept.tables = s.ept.tables) rfl
        fun t a next h => (eptPmd_tables t a next).trans h

theorem eptP4d_tables : (eptP4d s addr stop).1.ept.tables = s.ept.tables := by
  unfold eptP4d
  split
  · rfl
  · exact walkRange_inv (I := fun t : EptScan => t.ept.tables = s.ept.tables) rfl
      fun t a next h => (eptPud_tables t a next).trans h

theorem eptPageRange_tables : (eptPageRange s addr stop).1.ept.tables = s.ept.tables := by
  refine walkRange_inv (I := fun t : EptScan => t.ept.tables = s.ept.tables) rfl
    fun t a next h => ?_
  unfold eptPgd
  split
  · exact h
  · exact walkRange_inv (I := fun t : EptScan => t.ept.tables = s.ept.tables) h
      fun t a next h => (eptP4d_tables t a next).trans h

theorem walkSlot_tables (kvm : Kvm) (stop : ℕ) (w : HvaWalk) :
    (walkSlot kvm stop w).1.ept.tables = w.scan.ept.tables := by
  unfold walkSlot walkSlotBy
  split
  · dsimp only
    split <;> rfl
  · exact eptPageRange_tables ..

end Tables

/-- The steps of a walk of `[first, stop)` keep `P` at the address reached, or
fail with `Q`. -/
structure WalkSteps (first stop shift : ℕ) (P : ℕ → EptScan → Prop) (Q : EptScan → Prop) :
    Prop where
  pgdirShift_eq : ∀ a s, P a s → s.ept.pgdirShift = shift
  skip : ∀ k a next s, 12 ≤ k → Piece first stop k a next → P a s →
    (∀ x, a ≤ x → x < next → s.ept.Missing x) → P next (s.skip next).1
  pud : ∀ a next s, Piece first stop 30 a next → P a s → ¬s.ept.Missing a →
    (s.ept.pud (a >>> 30)).large = true → Post P Q next (s.addPage a next .pudPresent)
  pmd : ∀ a next s type, Piece first stop 21 a next → P a s → ¬s.ept.Missing a →
    (scanPmd s.eic.flags (s.ept.pmd (a >>> 21))).1 = some type →
    Post P Q next ((s.scanRegion a).addPage a next type)
  table : ∀ a next s, Piece first stop 21 a next → P a s →
    (scanPmd s.eic.flags (s.ept.pmd (a >>> 21))).1 = none → P a (s.scanRegion a)
  pte : ∀ a next s, Piece first stop 12 a next → P a s → (s.ept.pmd (a >>> 21)).IsTable →
    Post P Q next (eptPte s a next)

section Levels

variable {first stop shift : ℕ} {P : ℕ → EptScan → Prop} {Q : EptScan → Prop}
variable (steps : WalkSteps first stop shift P Q)
variable (hfirst : 2 ^ 12 ∣ first) (hstop : 2 ^ 12 ∣ stop) (hlt : stop < 2 ^ 64)
variable {a e : ℕ} {s : EptScan}

include steps hfirst hstop hlt

theorem eptPteRange_rule (outer : Piece first stop 21 a e) (h : P a s)
    (htable : (s.ept.pmd (a >>> 21)).IsTable) : Post P Q e (eptPteRange s a e) := by
  have he := outer.dvd_next hstop (Nat.pow_dvd_pow 2 (by decide : 12 ≤ 21))
  -- the entries of the level above stay as they are
  have hrule : Post (fun x t => P x t ∧ t.ept.pmd = s.ept.pmd) Q e (eptPteRange s a e) := by
    refine walkRange_pieces outer (show 12 ≤ 21 by decide) (fun x hax hxe hx => ?_)
      (fun x next t piece hax hnext ⟨hP, hpmd⟩ => ?_) ⟨h, rfl⟩
    · have hx : 2 ^ 12 ∣ x := hx.elim
        (fun h => h ▸ outer.dvd_start hfirst (Nat.pow_dvd_pow 2 (by decide))) id
      have := outer.next_le
      rw [ulong_of_lt (by omega)]
      omega
    · have hstep := steps.pte x next t piece hP
        (by rw [hpmd, outer.index_eq hax (piece.lt.trans_le hnext)]; exact htable)
      exact ⟨fun hret => ⟨hstep.1 hret, hpmd⟩, hstep.2⟩
  exact ⟨fun hret => (hrule.1 hret).1, hrule.2⟩

theorem eptPmdRange_rule (outer : Piece first stop 30 a e)
    (hwalked : ∀ x, a ≤ x → x < e → ¬s.ept.Missing x) (h : P a s) :
    Post P Q e (eptPmdRange s a e) := by
  refine walkRange_addrEnd_inv outer (by decide) (by decide) hlt
    (fun t x next ht => (eptPmd_tables t x next).trans ht)
    (fun x next t piece hax hnext ht h => ?_) h rfl
  have hpresent : ¬t.ept.Missing x :=
    mt (Ept.missing_congr ht x).mp (hwalked x hax (piece.lt.trans_le hnext))
  unfold eptPmd
  cases hscan : (scanPmd t.eic.flags (t.ept.pmd (x >>> 21))).1 with
  | some type =>
      simp only [hscan]
      exact steps.pmd x next t type piece h hpresent hscan
  | none =>
      simp only [hscan]
      refine eptPteRange_rule steps hfirst hstop hlt piece (steps.table x next t piece h hscan) ?_
      obtain ⟨hinvalid, hpresent, hlarge⟩ := isTable_of_scanPmd hscan
      obtain ⟨h1, h2, h3⟩ := scanPmd_snd t.eic.flags (t.ept.pmd (x >>> 21))
      simp only [Ept.setPmd_pmd, Function.update_self]
      exact ⟨h1.trans hinvalid, h2.trans hpresent, h3.trans hlarge⟩

theorem eptPudRange_rule (outer : Piece first stop 39 a e)
    (hwalked : ∀ x, a ≤ x → x < e → s.ept.pgdPresent (x >>> s.ept.pgdirShift) = true ∧
      s.ept.p4dPresent (x >>> 39) = true) (h : P a s) :
    Post P Q e (eptPudRange s a e) := by
  refine walkRange_addrEnd_inv outer (by decide) (by decide) hlt
    (fun t x next ht => (eptPud_tables t x next).trans ht)
    (fun x next t piece hax hnext ht h => ?_) h rfl
  unfold eptPud
  dsimp only
  cases hpresent : (t.ept.pud (x >>> 30)).present with
  | false =>
      refine Post.ok (steps.skip 30 x next t (by decide) piece h fun y hxy hyn =>
        Or.inr (Or.inr ?_))
      rw [piece.index_eq hxy hyn, hpresent]
  | true =>
      have hthere : ∀ y, x ≤ y → y < next → ¬t.ept.Missing y := by
        intro y hxy hyn hmissing
        obtain ⟨hpgd, hp4d⟩ := hwalked y (hax.trans hxy) (hyn.trans_le hnext)
        simp only [Ept.tables, Prod.mk.injEq] at ht
        obtain ⟨ht1, ht2, ht3, -⟩ := ht
        rcases hmissing with hmissing | hmissing | hmissing
        · rw [ht1, ht2, hpgd] at hmissing
          exact Bool.noConfusion hmissing
        · rw [ht3, hp4d] at hmissing
          exact Bool.noConfusion hmissing
        · rw [piece.index_eq hxy hyn, hpresent] at hmissing
          exact Bool.noConfusion hmissing
      cases hlarge : (t.ept.pud (x >>> 30)).large with
      | true =>
          exact steps.pud x next t piece h (hthere x le_rfl piece.lt) hlarge
      | false =>
          exact eptPmdRange_rule steps hfirst hstop hlt piece hthere h

theorem eptP4dRange_rule {big : ℕ} (hbig : 39 ≤ big) (outer : Piece first stop big a e)
    (hwalked : ∀ x, a ≤ x → x < e → s.ept.pgdPresent (x >>> s.ept.pgdirShift) = true)
    (h : P a s) : Post P Q e (eptP4dRange s a e) := by
  refine walkRange_addrEnd_inv outer hbig (by decide) hlt
    (fun t x next ht => (eptP4d_tables t x next).trans ht)
    (fun x next t piece hax hnext ht h => ?_) h rfl
  unfold eptP4d
  cases hpresent : t.ept.p4dPresent (x >>> 39) with
  | false =>
      refine Post.ok (steps.skip 39 x next t (by decide) piece h fun y hxy hyn =>
        Or.inr (Or.inl ?_))
      rw [piece.index_eq hxy hyn, hpresent]
  | true =>
      refine eptPudRange_rule steps hfirst hstop hlt piece (fun y hxy hyn => ⟨?_, ?_⟩) h
      · have hpgd := hwalked y (hax.trans hxy) (hyn.trans_le hnext)
        simp only [Ept.tables, Prod.mk.injEq] at ht
        rw [ht.1, ht.2.1, hpgd]
      · rw [piece.index_eq hxy hyn, hpresent]

/-- The walk of a range, from the predicate at its start. -/
theorem eptPageRange_rule (hshift : 39 ≤ shift ∧ shift < 64) (hne : first < stop)
    (h : P first s) : Post P Q stop (eptPageRange s first stop) := by
  have whole := Piece.whole hne hlt.le
  unfold eptPageRange
  rw [steps.pgdirShift_eq first s h]
  refine walkRange_addrEnd whole hshift.2.le hshift.2 hlt (fun x next s piece h => ?_) h
  unfold eptPgd
  cases hpresent : s.ept.pgdPresent (x >>> s.ept.pgdirShift) with
  | false =>
      refine Post.ok (steps.skip shift x next s (by omega) piece h fun y hxy hyn => Or.inl ?_)
      rw [steps.pgdirShift_eq x s h] at hpresent ⊢
      rw [piece.index_eq hxy hyn, hpresent]
  | true =>
      refine eptP4dRange_rule steps hfirst hstop hlt hshift.1 piece (fun y hxy hyn => ?_) h
      rw [steps.pgdirShift_eq x s h] at hpresent ⊢
      rw [piece.index_eq hxy hyn, hpresent]

end Levels

end MemoryOptimizer
