import MemoryOptimizer.Kernel.Bounds
import MemoryOptimizer.Kernel.PageWalk

/-!
# The overrun of the kernel's buffer

A fill that starts with a negative `pie_read_max` does not stop at a page that needs a
new address: the comparison is made as `unsigned long`.  It does stop at a page right
behind the last one, and at a hole right behind it, so that the kernel's buffer is overrun
where pages lie apart and what is between them has no table.

* `Apart` — a guest of 1G pages with a hole of 1G behind each of them.
* `eptPageRange_spills` — the walk of its pages takes ten bytes for each.
* `eptPageRange_overruns` — 801 pages are more than the kernel's buffer holds.
* `walkHva_overruns` — an iteration that walks them.
-/

namespace MemoryOptimizer

/-- From the block `b` on every other block of 1G is a page, and the others are holes. -/
structure Apart (b : ℕ) (ept : Ept) : Prop where
  pgdirShift : ept.pgdirShift = 39
  pgdPresent : ∀ i, ept.pgdPresent i = true
  p4dPresent : ∀ i, ept.p4dPresent i = true
  present : ∀ i, b ≤ i → ((ept.pud i).present = true ↔ (i - b) % 2 = 0)
  large : ∀ i, b ≤ i → (ept.pud i).large = true

theorem Apart.congr {b : ℕ} {old new : Ept} (h : Apart b old) (heq : new.tables = old.tables) :
    Apart b new := by
  simp only [Ept.tables, Prod.mk.injEq] at heq
  obtain ⟨hshift, hpgd, hp4d, hpud⟩ := heq
  exact ⟨hshift.trans h.pgdirShift, hpgd ▸ h.pgdPresent, hp4d ▸ h.p4dPresent, hpud ▸ h.present,
    hpud ▸ h.large⟩

/-- A fill without room that has come from the block `b` to `x`: half of the blocks have
left ten bytes each, and the last one ends below the next one. -/
structure Spilling (gpaToHva b x : ℕ) (s : EptScan) : Prop where
  apart : Apart b s.ept
  dvd : 2 ^ 30 ∣ x
  le : b * 2 ^ 30 ≤ x
  pieReadMax : -9 ≤ s.eic.pieReadMax ∧ s.eic.pieReadMax < 0
  gpaToHva_eq : s.eic.gpaToHva = gpaToHva
  pieRead_eq : s.eic.pieRead = 10 * ((x / 2 ^ 30 - b + 1) / 2)
  pieRead_le : s.eic.pieRead ≤ s.eic.peak
  nextHva_le : s.eic.pieRead ≠ 0 →
    s.eic.nextHva + 2 ^ 30 * ((x / 2 ^ 30 - b + 1) % 2) ≤ x + gpaToHva

section Walk

variable {gpaToHva b first stop a e : ℕ} {s : EptScan}

/-- One page takes ten bytes. -/
theorem EptScan.addPage_spills (h : Spilling gpaToHva b a s) {next : ℕ} (hnext : next = a + 2 ^ 30)
    (heven : (a / 2 ^ 30 - b) % 2 = 0) (hhva : next + gpaToHva < 2 ^ 64) :
    Post (Spilling gpaToHva b) (fun _ => False) next (s.addPage a next .pudPresent) := by
  have hdvd := h.dvd
  have hle := h.le
  have hmax := h.pieReadMax
  have hread := h.pieRead_eq
  have hbehind := h.nextHva_le
  have hgpa := h.gpaToHva_eq
  have hulong : ulong (a + gpaToHva) = a + gpaToHva := ulong_of_lt (by omega)
  have hfresh : Fresh s.eic ⟨a, next, .pudPresent⟩ := by
    by_cases hzero : s.eic.pieRead = 0
    · exact Or.inl hzero
    · refine Or.inr ?_
      have := hbehind hzero
      show ulong (a + s.eic.gpaToHva) ≠ s.eic.nextHva
      rw [hgpa, hulong]
      omega
  have hup : roundUp next (2 ^ 30) = next := by
    rw [roundUp_eq (by omega) (by omega), ulong_of_lt (by omega)]
    omega
  have hhole : ¬(⟨a, next, .pudPresent⟩ : PageCall).IsHole := by
    rintro (h | h) <;> cases h
  have hcases := eicAddPage_cases s.eic ⟨a, next, .pudPresent⟩
  unfold EptScan.addPage
  dsimp only at hcases ⊢
  generalize eicAddPage s.eic a next .pudPresent = r at hcases ⊢
  cases hcases with
  | hole _ h => exact absurd h hhole
  | extend fresh | noRoomForItem fresh | item fresh => exact absurd hfresh fresh
  | noRoomForAddress fresh _ room =>
      unfold ulongOfSigned at room
      omega
  | address =>
      refine Post.ok ⟨h.apart, by omega, by omega, hmax, hgpa, ?_, ?_, fun _ => ?_⟩
      · show (s.eic.kpie ++ _ ++ _).length = _
        rw [List.length_append, List.length_append]
        show s.eic.pieRead + 9 + 1 = _
        omega
      · refine le_max_of_le_right (le_of_eq ?_)
        exact List.length_append
      · show ulong (roundUp next (2 ^ 30) + s.eic.gpaToHva) + _ ≤ _
        rw [hup, hgpa, ulong_of_lt hhva]
        omega

theorem eptPud_spills {next : ℕ} (piece : Piece first stop 30 a next) (hstop : 2 ^ 30 ∣ stop)
    (hhva : stop + gpaToHva < 2 ^ 64) (h : Spilling gpaToHva b a s) :
    Post (Spilling gpaToHva b) (fun _ => False) next (eptPud s a next) := by
  have hdvd := h.dvd
  have hle := h.le
  have hnext : next = a + 2 ^ 30 := by
    have hdvd' : 2 ^ 30 ∣ next := piece.dvd_next hstop (dvd_refl _)
    have hblock := piece.block
    have hlt := piece.lt
    omega
  have hindex : a >>> 30 = a / 2 ^ 30 := Nat.shiftRight_eq_div_pow a 30
  have hb : b ≤ a / 2 ^ 30 := (Nat.le_div_iff_mul_le (Nat.two_pow_pos 30)).mpr hle
  have hpresent := h.apart.present _ hb
  have hlarge := h.apart.large _ hb
  unfold eptPud
  rw [hindex]
  dsimp only
  by_cases heven : (a / 2 ^ 30 - b) % 2 = 0
  · rw [hpresent.mpr heven, hlarge]
    exact EptScan.addPage_spills h hnext heven
      (lt_of_le_of_lt (Nat.add_le_add_right piece.next_le _) hhva)
  · have hnone : (s.ept.pud (a / 2 ^ 30)).present = false := by
      simpa using mt hpresent.mp heven
    rw [hnone]
    refine Post.ok ⟨h.apart, by omega, by omega, h.pieReadMax, h.gpaToHva_eq, ?_, h.pieRead_le,
      fun hne => ?_⟩
    · show s.eic.pieRead = _
      rw [h.pieRead_eq]
      omega
    · have := h.nextHva_le hne
      show s.eic.nextHva + _ ≤ _
      omega

/-- The walk of the range: no page ends it, and each of them has taken its ten bytes. -/
theorem eptPageRange_spills (hstop : 2 ^ 30 ∣ stop) (hlt : first < stop)
    (hhva : stop + gpaToHva < 2 ^ 64) (h : Spilling gpaToHva b first s) :
    Post (Spilling gpaToHva b) (fun _ => False) stop (eptPageRange s first stop) := by
  have hstop64 : stop < 2 ^ 64 := by omega
  unfold eptPageRange
  rw [h.apart.pgdirShift]
  refine walkRange_addrEnd (Piece.whole hlt hstop64.le) (by decide) (by decide) hstop64
    (fun a e s outer h => ?_) h
  unfold eptPgd
  rw [h.apart.pgdPresent]
  refine walkRange_addrEnd outer le_rfl (by decide) hstop64 (fun a e s outer h => ?_) h
  unfold eptP4d
  rw [h.apart.p4dPresent]
  exact walkRange_addrEnd outer (by decide) (by decide) hstop64
    (fun a e s piece h => eptPud_spills piece hstop hhva h) h

/-- A fill that starts with a negative `pie_read_max`, and 801 pages: the kernel's buffer
is overrun. -/
theorem eptPageRange_overruns (hstop : 2 ^ 30 ∣ stop) (hpages : (b + 1602) * 2 ^ 30 ≤ stop)
    (hhva : stop + gpaToHva < 2 ^ 64) {ept : Ept} (hapart : Apart b ept) {eic : EptIdleCtrl}
    (hempty : eic.kpie = []) (hmax : -9 ≤ eic.pieReadMax ∧ eic.pieReadMax < 0) :
    (eptPageRange ⟨ept, eic.setGpaToHva gpaToHva⟩ (b * 2 ^ 30) stop).1.eic.Overrun := by
  have hread : (eic.setGpaToHva gpaToHva).pieRead = 0 := by
    rw [EptIdleCtrl.pieRead, EptIdleCtrl.setGpaToHva_kpie, hempty, List.length_nil]
  have hstart : Spilling gpaToHva b (b * 2 ^ 30) ⟨ept, eic.setGpaToHva gpaToHva⟩ := by
    refine ⟨hapart, Nat.dvd_mul_left _ _, le_rfl, hmax, rfl, ?_, ?_, fun h => absurd hread h⟩
    · rw [hread]
      omega
    · rw [hread]
      exact Nat.zero_le _
  have hspill := eptPageRange_spills hstop (by omega) hhva hstart
  generalize eptPageRange ⟨ept, eic.setGpaToHva gpaToHva⟩ (b * 2 ^ 30) stop = r at hspill ⊢
  have hend : Spilling gpaToHva b stop r.1 := by
    by_cases hret : r.2 = 0
    · exact hspill.1 hret
    · exact (hspill.2 hret).elim
  have hlen := hend.pieRead_eq
  refine lt_of_lt_of_le ?_ hend.pieRead_le
  show 8000 < _
  omega

end Walk

theorem walkSlot_of_found {kvm : Kvm} {w : HvaWalk} {gpaAddr addrRange : ℕ}
    (hfind : eptIdleFindGpa kvm.slots w.start = (some gpaAddr, addrRange)) (stop : ℕ) :
    walkSlot kvm stop w =
      ((eptPageRange ⟨w.scan.ept, w.scan.eic.setGpaToHva (usub w.start gpaAddr)⟩ gpaAddr
          (ulong (gpaAddr + addrRange))).1,
        ulong (usub w.start gpaAddr + gpaAddr + addrRange)) := by
  unfold walkSlot walkSlotBy
  rw [hfind]
  rfl

/-- An iteration with such a fill has overrun it. -/
theorem walkHva_overruns {kvm : Kvm} {w : HvaWalk} {b gpaAddr addrRange gpaEnd : ℕ}
    (hfind : eptIdleFindGpa kvm.slots w.start = (some gpaAddr, addrRange))
    (hgpa : gpaAddr = b * 2 ^ 30) (hend : ulong (gpaAddr + addrRange) = gpaEnd)
    (hdvd : 2 ^ 30 ∣ gpaEnd) (hpages : (b + 1602) * 2 ^ 30 ≤ gpaEnd)
    (hhva : gpaEnd + usub w.start gpaAddr < 2 ^ 64) (hapart : Apart b w.scan.ept)
    (hempty : w.scan.eic.kpie = [])
    (hmax : -9 ≤ w.scan.eic.pieReadMax ∧ w.scan.eic.pieReadMax < 0) (stop : ℕ) :
    (walkHva kvm stop w).1.scan.eic.Overrun := by
  have hover := eptPageRange_overruns hdvd hpages hhva hapart hempty hmax
  rw [← hgpa] at hover
  unfold walkHva
  rw [walkSlot_of_found hfind, hend]
  refine copyWalked_overrun ?_ kvm
  exact hover

end MemoryOptimizer
