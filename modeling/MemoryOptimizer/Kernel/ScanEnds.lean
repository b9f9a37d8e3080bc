import MemoryOptimizer.Kernel.Overrun
import MemoryOptimizer.Kernel.ReadProtocol

/-!
# The scan loops end

`ept_idle_walk_hva_range` whatever the guest does meanwhile: before every iteration it may
show its page table, and there may be no vcpu with a valid root.

* `RangeEnds` — the loops of the page-table levels end, `pageRangeEnds`.
* `walkHvaOf_of_nothing` — an iteration that has nothing to report leaves the loop.
* `walkHvaOf_advances` — an iteration that does not leave it moves `start` forward.
* `eptIdleWalkHvaRange_ends_iff` — the scan ends just where no iteration overruns the
  kernel's buffer.
* `eptIdleWalkHvaRange_lost` — a scan that overruns it.
-/

namespace MemoryOptimizer

/-! ### The page-table levels -/

/-- The loop of `ept_pte_range` ends. -/
def PteRangeEnds (s : EptScan) (addr stop : ℕ) : Prop :=
  RangeEnds (fun addr _ => ulong (addr + 2 ^ 12)) eptPte (fun _ _ _ => True) stop s addr
    (eptPteRange s addr stop)

/-- The loops in an iteration of `ept_pmd_range` end. -/
def PmdEnds (s : EptScan) (addr next : ℕ) : Prop :=
  (scanPmd s.eic.flags (s.ept.pmd (addr >>> 21))).1 = none →
    PteRangeEnds (s.scanRegion addr) addr next

/-- The loops of `ept_pmd_range` end. -/
def PmdRangeEnds (s : EptScan) (addr stop : ℕ) : Prop :=
  RangeEnds (addrEnd 21) eptPmd PmdEnds stop s addr (eptPmdRange s addr stop)

/-- The loops in an iteration of `ept_pud_range` end. -/
def PudEnds (s : EptScan) (addr next : ℕ) : Prop :=
  (s.ept.pud (addr >>> 30)).present = true → (s.ept.pud (addr >>> 30)).large = false →
    PmdRangeEnds s addr next

/-- The loops of `ept_pud_range` end. -/
def PudRangeEnds (s : EptScan) (addr stop : ℕ) : Prop :=
  RangeEnds (addrEnd 30) eptPud PudEnds stop s addr (eptPudRange s addr stop)

/-- The loops in an iteration of `ept_p4d_range` end. -/
def P4dEnds (s : EptScan) (addr next : ℕ) : Prop :=
  s.ept.p4dPresent (addr >>> 39) = true → PudRangeEnds s addr next

/-- The loops of `ept_p4d_range` end. -/
def P4dRangeEnds (s : EptScan) (addr stop : ℕ) : Prop :=
  RangeEnds (addrEnd 39) eptP4d P4dEnds stop s addr (eptP4dRange s addr stop)

/-- The loops in an iteration of `ept_page_range` end. -/
def PgdEnds (s : EptScan) (addr next : ℕ) : Prop :=
  s.ept.pgdPresent (addr >>> s.ept.pgdirShift) = true → P4dRangeEnds s addr next

/-- The loops of `ept_page_range` end. -/
def PageRangeEnds (s : EptScan) (addr stop : ℕ) : Prop :=
  RangeEnds (addrEnd s.ept.pgdirShift) eptPgd PgdEnds stop s addr (eptPageRange s addr stop)

section Levels

variable {first stop a e : ℕ}

/-- The addresses of the last level rise by a page, and meet the end of the range, because
it is one of pages. -/
theorem pteRangeEnds (hfirst : 2 ^ 12 ∣ first) (hstop : 2 ^ 12 ∣ stop) (hlt : stop < 2 ^ 64)
    (outer : Piece first stop 21 a e) (s : EptScan) : PteRangeEnds s a e := by
  have he := outer.dvd_next hstop (Nat.pow_dvd_pow 2 (by decide : 12 ≤ 21))
  refine walkRange_ends_pieces outer (by decide : 12 ≤ 21) (fun x hax hxe hx => ?_)
    (fun _ _ _ _ => trivial) s
  have hx : 2 ^ 12 ∣ x := hx.elim
    (fun h => h ▸ outer.dvd_start hfirst (Nat.pow_dvd_pow 2 (by decide))) id
  have := outer.next_le
  rw [ulong_of_lt (by omega)]
  omega

theorem pmdRangeEnds (hfirst : 2 ^ 12 ∣ first) (hstop : 2 ^ 12 ∣ stop) (hlt : stop < 2 ^ 64)
    (outer : Piece first stop 30 a e) (s : EptScan) : PmdRangeEnds s a e :=
  walkRange_ends_addrEnd outer (by decide) (by decide) hlt
    (fun _ _ _ piece _ => pteRangeEnds hfirst hstop hlt piece _) s

theorem pudRangeEnds (hfirst : 2 ^ 12 ∣ first) (hstop : 2 ^ 12 ∣ stop) (hlt : stop < 2 ^ 64)
    (outer : Piece first stop 39 a e) (s : EptScan) : PudRangeEnds s a e :=
  walkRange_ends_addrEnd outer (by decide) (by decide) hlt
    (fun _ _ _ piece _ _ => pmdRangeEnds hfirst hstop hlt piece _) s

theorem p4dRangeEnds (hfirst : 2 ^ 12 ∣ first) (hstop : 2 ^ 12 ∣ stop) (hlt : stop < 2 ^ 64)
    {big : ℕ} (hbig : 39 ≤ big) (outer : Piece first stop big a e) (s : EptScan) :
    P4dRangeEnds s a e :=
  walkRange_ends_addrEnd outer hbig (by decide) hlt
    (fun _ _ _ piece _ => pudRangeEnds hfirst hstop hlt piece _) s

/-- The walk of a range of pages ends, whatever the page table is. -/
theorem pageRangeEnds (hfirst : 2 ^ 12 ∣ first) (hstop : 2 ^ 12 ∣ stop) (hlt : stop < 2 ^ 64)
    (hne : first < stop) {s : EptScan} (hshift : 39 ≤ s.ept.pgdirShift ∧ s.ept.pgdirShift < 64) :
    PageRangeEnds s first stop :=
  walkRange_ends_addrEnd (Piece.whole hne hlt.le) hshift.2.le hshift.2 hlt
    (fun _ _ _ piece _ => p4dRangeEnds hfirst hstop hlt hshift.1 piece _) s

end Levels

/-! ### The guest -/

/-- What the guest does: the page table that an iteration finds, from the one before it, and
whether there is a vcpu with a valid root. -/
structure Guest where
  touch : ℕ → Ept → Ept
  validRoot : ℕ → Bool
  touch_pgdirShift : ∀ i ept, (touch i ept).pgdirShift = ept.pgdirShift

/-- `ept_page_range` with its tests of the vcpu and the root; its return value is not used. -/
def eptPageRangeOf (validRoot : Bool) (s : EptScan) (addr stop : ℕ) : EptScan :=
  if validRoot then (eptPageRange s addr stop).1 else s

/-- The state that an iteration finds. -/
def HvaWalk.touch (w : HvaWalk) (guest : Guest) (i : ℕ) : HvaWalk :=
  ⟨w.start, ⟨guest.touch i w.scan.ept, w.scan.eic⟩⟩

/-- An iteration of `ept_idle_walk_hva_range`, with the value of `ret` after it. -/
def walkHvaOf (guest : Guest) (kvm : Kvm) (stop i : ℕ) (w : HvaWalk) : HvaWalk × ℤ :=
  copyWalked kvm (walkSlotBy (eptPageRangeOf (guest.validRoot i)) kvm stop (w.touch guest i))

/-- The same, with the number of the iteration. -/
def walkHvaNext (guest : Guest) (kvm : Kvm) (stop : ℕ) (s : ℕ × HvaWalk) : (ℕ × HvaWalk) × ℤ :=
  ((s.1 + 1, (walkHvaOf guest kvm stop s.1 s.2).1), (walkHvaOf guest kvm stop s.1 s.2).2)

/-- The loop of `ept_idle_walk_hva_range`, from its `i`th iteration: the state, and `ret`
where it has ended. -/
def walkHvaLoopOf (guest : Guest) (kvm : Kvm) (stop fuel i : ℕ) (w : HvaWalk) :
    (ℕ × HvaWalk) × Option ℤ :=
  loopUntilRet (fun s : ℕ × HvaWalk => s.2.start < stop) (walkHvaNext guest kvm stop) fuel (i, w)

theorem walkHvaLoopOf_succ (guest : Guest) (kvm : Kvm) (stop fuel i : ℕ) (w : HvaWalk) :
    walkHvaLoopOf guest kvm stop (fuel + 1) i w =
      if w.start < stop then
        if (walkHvaOf guest kvm stop i w).2 ≠ 0 then
          ((i + 1, (walkHvaOf guest kvm stop i w).1), some (walkHvaOf guest kvm stop i w).2)
        else walkHvaLoopOf guest kvm stop fuel (i + 1) (walkHvaOf guest kvm stop i w).1
      else ((i, w), some 0) :=
  rfl

/-- `ept_idle_walk_hva_range`, with a bound on the iterations; it has no result where it
overruns the kernel's buffer. -/
def eptIdleWalkHvaRange (guest : Guest) (kvm : Kvm) (eic : EptIdleCtrl) (ept : Ept)
    (flags : ScanFlags) (count start fuel : ℕ) : Option ℤ :=
  if !kvm.supportsCpu then some (-einval)
  else
    let (w, ret) := walkStart eic ept flags count start
    if ret ≠ 0 then some ret
    else
      let (s, ret) := walkHvaLoopOf guest kvm (hvaEnd start count) fuel 0 w
      if s.2.scan.eic.Overrun then none
      else ret.map fun ret => if s.2.scan.eic.bytesCopied ≠ 0 then 0 else ret

theorem eptIdleWalkHvaRange_eq (guest : Guest) (kvm : Kvm) (eic : EptIdleCtrl) (ept : Ept)
    (flags : ScanFlags) (count start fuel : ℕ) :
    eptIdleWalkHvaRange guest kvm eic ept flags count start fuel =
      if !kvm.supportsCpu then some (-einval)
      else if (walkStart eic ept flags count start).2 ≠ 0 then
        some ((walkStart eic ept flags count start).2 : ℤ)
      else
        let r := walkHvaLoopOf guest kvm (hvaEnd start count) fuel 0
          (walkStart eic ept flags count start).1
        if r.1.2.scan.eic.Overrun then none
        else r.2.map fun ret => if r.1.2.scan.eic.bytesCopied ≠ 0 then 0 else ret :=
  rfl

/-- The loop comes to its `i`th iteration, or to its end, in a state. -/
inductive Iterates (guest : Guest) (kvm : Kvm) (stop : ℕ) (first : HvaWalk) : ℕ → HvaWalk → Prop
  | start : Iterates guest kvm stop first 0 first
  | next {i : ℕ} {w : HvaWalk} (before : Iterates guest kvm stop first i w) (lt : w.start < stop)
      (ret : (walkHvaOf guest kvm stop i w).2 = 0) :
      Iterates guest kvm stop first (i + 1) (walkHvaOf guest kvm stop i w).1

/-- The loops in the walk of an iteration end. -/
def WalkEnds (guest : Guest) (kvm : Kvm) (i : ℕ) (w : HvaWalk) : Prop :=
  ∀ gpaAddr addrRange, eptIdleFindGpa kvm.slots w.start = (some gpaAddr, addrRange) →
    guest.validRoot i = true →
      PageRangeEnds ⟨guest.touch i w.scan.ept, w.scan.eic.setGpaToHva (usub w.start gpaAddr)⟩
        gpaAddr (ulong (gpaAddr + addrRange))

/-! ### The slots -/

/-- The slots are pages, and their ends do not wrap, nor do those of the huge pages of up to
1G that they end in. -/
structure Kvm.NoWrap (kvm : Kvm) : Prop where
  userspaceAddr_dvd : ∀ slot ∈ kvm.slots, 2 ^ 12 ∣ slot.userspaceAddr
  hvaEnd_lt : ∀ slot ∈ kvm.slots, slot.hvaEnd + 2 ^ 30 < 2 ^ 64
  gpaEnd_lt : ∀ slot ∈ kvm.slots, slot.gpaEnd < 2 ^ 64

theorem Kvm.Ok.noWrap {kvm : Kvm} (hkvm : kvm.Ok) : kvm.NoWrap :=
  ⟨hkvm.userspaceAddr_dvd,
    fun slot hslot =>
      (Nat.add_le_add_right (hkvm.hvaEnd_le slot hslot) _).trans_lt hkvm.taskSize_lt,
    hkvm.gpaEnd_lt⟩

/-- The machine with an address space of the task that holds all its slots. -/
def Kvm.widen (kvm : Kvm) : Kvm := { kvm with taskSize := 2 ^ 64 - 2 ^ 30 - 1 }

theorem Kvm.NoWrap.widen {kvm : Kvm} (hkvm : kvm.NoWrap) : kvm.widen.Ok :=
  ⟨hkvm.userspaceAddr_dvd, fun slot hslot => Nat.le_sub_of_add_le (by
    have := hkvm.hvaEnd_lt slot hslot
    omega), hkvm.gpaEnd_lt, show 2 ^ 64 - 2 ^ 30 - 1 + 2 ^ 30 < 2 ^ 64 by decide⟩

/-- In a slot the address space of the task does not matter. -/
theorem walkHva_widen {kvm : Kvm} {w : HvaWalk} {slot : KvmMemorySlot}
    (hfind : kvm.slots.find? (fun slot => slot.Holds w.start) = some slot) (stop : ℕ) :
    walkHva kvm stop w = walkHva kvm.widen stop w := by
  have hfind' : kvm.widen.slots.find? (fun slot => slot.Holds w.start) = some slot := hfind
  simp only [walkHva, walkSlot, walkSlotBy, eptIdleFindGpa, findGpaLoop_of_some hfind,
    findGpaLoop_of_some hfind']
  rfl

/-! ### An iteration -/

/-- Where the walk has reported nothing, the copy leaves the loop. -/
theorem eptIdleCopyUser_of_nil {eic : EptIdleCtrl} (h : eic.kpie = []) (copyFails : ℕ → Bool)
    (start stop : ℕ) : (eptIdleCopyUser copyFails eic start stop).2 ≠ 0 := by
  have hread : eic.pieRead = 0 := by rw [EptIdleCtrl.pieRead, h, List.length_nil]
  have hfault : -efault ≠ 0 := by decide
  have hfull : (eptIdleBufFull : ℤ) ≠ 0 := by decide
  unfold eptIdleCopyUser
  simp only [hread, decide_true, if_true]
  generalize reportTailHole eic _ stop = reported
  split
  · exact one_ne_zero
  · split
    · exact hfault
    · split
      · exact hfull
      · exact one_ne_zero

section Iteration

variable {guest : Guest} {kvm : Kvm} {stop pgdirShift ppos i : ℕ} {tokens : List PipToken}
  {w : HvaWalk}

theorem Reading.touch (hw : Reading pgdirShift ppos tokens w) (guest : Guest) (i : ℕ) :
    Reading pgdirShift ppos tokens (w.touch guest i) :=
  ⟨(guest.touch_pgdirShift i _).trans hw.pgdirShift_eq, hw.kpie_eq, hw.room, hw.start_dvd,
    hw.nextHva_le, hw.buf_eq, hw.valid, hw.cursor⟩

theorem walkHvaOf_of_valid (hvalid : guest.validRoot i = true) :
    walkHvaOf guest kvm stop i w = walkHva kvm stop (w.touch guest i) := by
  unfold walkHvaOf walkHva walkSlot
  rw [hvalid]
  rfl

/-- Outside the slots nothing is reported, nor is it without a root, where `restart_gpa` is
left as it was. -/
theorem walkHvaOf_of_nothing (hkpie : w.scan.eic.kpie = [])
    (h : kvm.slots.find? (fun slot => slot.Holds w.start) = none ∨ guest.validRoot i = false) :
    (walkHvaOf guest kvm stop i w).2 ≠ 0 := by
  have hslot : (walkSlotBy (eptPageRangeOf (guest.validRoot i)) kvm stop
      (w.touch guest i)).1.eic.kpie = [] := by
    unfold walkSlotBy eptPageRangeOf
    rcases h with hfind | hvalid
    · rw [eptIdleFindGpa, show (w.touch guest i).start = w.start from rfl,
        findGpaLoop_of_none hfind]
      dsimp only
      split <;> exact hkpie
    · rw [hvalid]
      rcases eptIdleFindGpa kvm.slots (w.touch guest i).start with ⟨_ | gpaAddr, addrRange⟩
      · dsimp only
        split <;> exact hkpie
      · exact hkpie
  exact eptIdleCopyUser_of_nil hslot _ _ _

/-- An iteration that does not leave the loop moves `start` forward: it has reported a page,
so `next_hva` is past the position, and the restart is not before `next_hva`. -/
theorem walkHvaOf_advances (hkvm : kvm.NoWrap) (hshift : 39 ≤ pgdirShift ∧ pgdirShift < 64)
    (hw : Reading pgdirShift ppos tokens w) (hlt : w.start < stop) (hstop : stop < 2 ^ 64)
    (hret : (walkHvaOf guest kvm stop i w).2 = 0) :
    w.start < (walkHvaOf guest kvm stop i w).1.start ∧
      ∃ tokens', Reading pgdirShift ppos tokens' (walkHvaOf guest kvm stop i w).1 := by
  cases hfind : kvm.slots.find? (fun slot => slot.Holds w.start) with
  | none => exact absurd hret (walkHvaOf_of_nothing hw.kpie_eq (Or.inl hfind))
  | some slot =>
  cases hvalid : guest.validRoot i with
  | false => exact absurd hret (walkHvaOf_of_nothing hw.kpie_eq (Or.inr hvalid))
  | true =>
      have hfind : kvm.slots.find? (fun slot => slot.Holds (w.touch guest i).start) = some slot :=
        hfind
      rw [walkHvaOf_of_valid hvalid, walkHva_widen hfind] at hret ⊢
      obtain ⟨_, chunk, step⟩ := walkHva_step hkvm.widen hshift (hw.touch guest i)
        (show (w.touch guest i).start < stop from hlt) hstop
      have hcopied : kvm.widen.copyFails (w.touch guest i).scan.eic.bytesCopied = false := by
        by_contra hfails
        rw [(step.failed (by simpa using hfails)).1] at hret
        exact absurd hret (by decide)
      obtain ⟨hreading, -⟩ := step.next hcopied hret
      exact ⟨step.lt_cursor.trans_le hreading.nextHva_le, _, hreading⟩

theorem Reading.walkEnds (hkvm : kvm.NoWrap) (hshift : 39 ≤ pgdirShift ∧ pgdirShift < 64)
    (hw : Reading pgdirShift ppos tokens w) : WalkEnds guest kvm i w := by
  intro gpaAddr addrRange hfound _
  cases hfind : kvm.slots.find? (fun slot => slot.Holds w.start) with
  | none =>
      rw [eptIdleFindGpa, findGpaLoop_of_none hfind] at hfound
      cases hfound
  | some slot =>
      rw [eptIdleFindGpa, findGpaLoop_of_some hfind] at hfound
      cases hfound
      have hholds : slot.Holds w.start := by simpa using List.find?_some hfind
      have hmem := List.mem_of_find?_eq_some hfind
      obtain ⟨hrange, -⟩ := hkvm.widen.fillRange hmem hw.start_dvd hholds hshift
      rw [KvmMemorySlot.gpa_add (hkvm.userspaceAddr_dvd slot hmem) hw.start_dvd hholds,
        ulong_of_lt (hkvm.gpaEnd_lt slot hmem)]
      refine pageRangeEnds hrange.first_dvd hrange.stop_dvd hrange.stop_lt hrange.first_lt ?_
      rw [guest.touch_pgdirShift, hw.pgdirShift_eq]
      exact hshift

/-- Every state between two iterations is one of a read. -/
theorem Iterates.reading (hkvm : kvm.NoWrap) (hshift : 39 ≤ pgdirShift ∧ pgdirShift < 64)
    (hstop : stop < 2 ^ 64) {first : HvaWalk} (hfirst : Reading pgdirShift ppos tokens first)
    (h : Iterates guest kvm stop first i w) : ∃ tokens', Reading pgdirShift ppos tokens' w := by
  induction h with
  | start => exact ⟨tokens, hfirst⟩
  | next _ hlt hret ih =>
      obtain ⟨_, hw⟩ := ih
      exact (walkHvaOf_advances hkvm hshift hw hlt hstop hret).2

/-- The loop ends, and more fuel changes nothing. The induction is on what is left of the
range. -/
theorem walkHvaLoopOf_ends (guest : Guest) (i : ℕ) (hkvm : kvm.NoWrap)
    (hshift : 39 ≤ pgdirShift ∧ pgdirShift < 64) (hstop : stop < 2 ^ 64) {n : ℕ}
    (hn : stop - w.start < n) (hw : Reading pgdirShift ppos tokens w) :
    ∃ s ret, ∀ fuel, n ≤ fuel → walkHvaLoopOf guest kvm stop fuel i w = (s, some ret) := by
  induction n generalizing i w tokens with
  | zero => exact absurd hn (Nat.not_lt_zero _)
  | succ n ih =>
      by_cases hlt : w.start < stop
      · by_cases hret : (walkHvaOf guest kvm stop i w).2 = 0
        · obtain ⟨hadvance, _, hnext⟩ := walkHvaOf_advances hkvm hshift hw hlt hstop hret
          obtain ⟨s, ret, hrest⟩ := ih (i + 1) (by omega) hnext
          refine ⟨s, ret, fun fuel hfuel => ?_⟩
          obtain ⟨fuel, rfl⟩ := Nat.exists_eq_add_of_le hfuel
          rw [Nat.add_right_comm, walkHvaLoopOf_succ, if_pos hlt, if_neg (not_not.mpr hret)]
          exact hrest _ (Nat.le_add_right _ _)
        · refine ⟨(i + 1, (walkHvaOf guest kvm stop i w).1), (walkHvaOf guest kvm stop i w).2,
            fun fuel hfuel => ?_⟩
          obtain ⟨fuel, rfl⟩ := Nat.exists_eq_add_of_le hfuel
          rw [Nat.add_right_comm, walkHvaLoopOf_succ, if_pos hlt, if_pos hret]
      · refine ⟨(i, w), 0, fun fuel hfuel => ?_⟩
        obtain ⟨fuel, rfl⟩ := Nat.exists_eq_add_of_le hfuel
        rw [Nat.add_right_comm, walkHvaLoopOf_succ, if_neg hlt]

end Iteration

/-! ### The kernel's buffer -/

/-- Every fill of the loop starts with a `pie_read_max` that is not negative. -/
def FillsNonnegOf (guest : Guest) (kvm : Kvm) (stop : ℕ) (first : HvaWalk) : Prop :=
  ∀ i w, Iterates guest kvm stop first i w → w.start < stop → 0 ≤ w.scan.eic.pieReadMax

/-- No iteration of the loop writes behind the kernel's buffer. -/
def KbufFitsOf (guest : Guest) (kvm : Kvm) (stop : ℕ) (first : HvaWalk) : Prop :=
  ∀ i w, Iterates guest kvm stop first i w → w.start < stop →
    ¬(walkHvaOf guest kvm stop i w).1.scan.eic.Overrun

section Kbuf

variable {guest : Guest} {kvm : Kvm} {stop i : ℕ} {first w : HvaWalk}

/-- `ept_page_range` with its tests keeps what it keeps without them. -/
theorem WalkKeeps.pageRangeOf {I : EptIdleCtrl → Prop} (keeps : WalkKeeps I) {s : EptScan}
    (h : I s.eic) (validRoot : Bool) (addr stop : ℕ) :
    I (eptPageRangeOf validRoot s addr stop).eic := by
  unfold eptPageRangeOf
  split
  · exact keeps.pageRange h addr stop
  · exact h

/-- An iteration does not undo an overrun. -/
theorem walkHvaOf_overrun (h : w.scan.eic.Overrun) (guest : Guest) (kvm : Kvm) (stop i : ℕ) :
    (walkHvaOf guest kvm stop i w).1.scan.eic.Overrun :=
  walkSlotBy_overrun (w := w.touch guest i) h
    (fun _ addr stop h => walkKeeps_overrun.pageRangeOf h _ addr stop) kvm stop

/-- Where no fill starts with a negative `pie_read_max`, every iteration starts with room. -/
theorem Iterates.room {count : ℕ} (hfills : FillsNonnegOf guest kvm stop first)
    (hroom : Room count first.scan.eic) (hempty : first.scan.eic.kpie = [])
    (h : Iterates guest kvm stop first i w) :
    Room count w.scan.eic ∧ w.scan.eic.kpie = [] := by
  induction h with
  | start => exact ⟨hroom, hempty⟩
  | @next i w before hlt hret ih =>
      exact (walkSlotBy_inBounds (w := w.touch guest i) kvm stop
        (fun _ addr stop h => (walkKeeps_filling count).pageRangeOf h _ addr stop) ih.1 ih.2
        (hfills i w before hlt)).2 hret

theorem FillsNonnegOf.kbufFits {count : ℕ} (hfills : FillsNonnegOf guest kvm stop first)
    (hroom : Room count first.scan.eic) (hempty : first.scan.eic.kpie = []) :
    KbufFitsOf guest kvm stop first := by
  intro i w hiter hlt
  obtain ⟨hroom, hempty⟩ := hiter.room hfills hroom hempty
  exact not_lt.mpr (walkSlotBy_inBounds (w := w.touch guest i) kvm stop
    (fun _ addr stop h => (walkKeeps_filling count).pageRangeOf h _ addr stop) hroom hempty
    (hfills i w hiter hlt)).1.peak_le

/-- A loop that its first iteration ends. -/
theorem Iterates.eq_first (h : Iterates guest kvm stop first i w)
    (hends : (walkHvaOf guest kvm stop 0 first).2 ≠ 0) : i = 0 ∧ w = first := by
  induction h with
  | start => exact ⟨rfl, rfl⟩
  | next before hlt hret ih =>
      obtain ⟨rfl, rfl⟩ := ih
      exact absurd hret hends

/-- What is left of the loop at its `i`th iteration. -/
theorem Iterates.loop (h : Iterates guest kvm stop first i w) (fuel : ℕ) :
    walkHvaLoopOf guest kvm stop (i + fuel) 0 first = walkHvaLoopOf guest kvm stop fuel i w := by
  induction h generalizing fuel with
  | start => rw [Nat.zero_add]
  | next before hlt hret ih =>
      rw [Nat.add_right_comm, Nat.add_assoc, ih, walkHvaLoopOf_succ, if_pos hlt,
        if_neg (not_not.mpr hret)]

/-- A loop that has ended has overrun the kernel's buffer just where an iteration has. -/
theorem kbufFitsOf_iff {s : ℕ × HvaWalk} {ret : ℤ} {n : ℕ}
    (hends : ∀ fuel, n ≤ fuel → walkHvaLoopOf guest kvm stop fuel 0 first = (s, some ret))
    (hfirst : ¬first.scan.eic.Overrun) :
    KbufFitsOf guest kvm stop first ↔ ¬s.2.scan.eic.Overrun := by
  constructor
  · intro hfits
    have hret : (walkHvaLoopOf guest kvm stop n 0 first).2 = some ret := by rw [hends n le_rfl]
    have hend := loopUntilRet_rule
      (I := fun s : ℕ × HvaWalk => Iterates guest kvm stop first s.1 s.2 ∧ ¬s.2.scan.eic.Overrun)
      (Q := fun s _ => ¬s.2.scan.eic.Overrun) ⟨.start, hfirst⟩ (fun _ h _ => h.2)
      (fun s h hlt hgo => ⟨h.1.next hlt hgo, hfits s.1 s.2 h.1 hlt⟩)
      (fun s h hlt _ => hfits s.1 s.2 h.1 hlt) hret
    have hs : (walkHvaLoopOf guest kvm stop n 0 first).1 = s := by rw [hends n le_rfl]
    exact hs ▸ hend
  · intro hgood i w hiter hlt hover
    have hrest := hiter.loop (n + 1)
    rw [hends (i + (n + 1)) (by omega)] at hrest
    refine loopUntilRet_never (P := fun s : ℕ × HvaWalk => s.2.scan.eic.Overrun)
      (fun s h => walkHvaOf_overrun h guest kvm stop s.1) (congrArg Prod.snd hrest).symm ?_ 1 ?_
    · exact (congrArg Prod.fst hrest) ▸ hgood
    · show (walkHvaLoopOf guest kvm stop 1 i w).1.2.scan.eic.Overrun
      rw [walkHvaLoopOf_succ, if_pos hlt]
      split
      · exact hover
      · exact hover

end Kbuf

/-! ### The scan -/

/-- The scan returns; in every iteration the loops of the walk end, and an iteration that
does not leave the loop moves `start` forward. -/
structure ScanEnds (guest : Guest) (kvm : Kvm) (eic : EptIdleCtrl) (ept : Ept) (flags : ScanFlags)
    (count start : ℕ) : Prop where
  returns : ∃ ret, ∀ fuel, count <<< 15 < fuel →
    eptIdleWalkHvaRange guest kvm eic ept flags count start fuel = some ret
  iterations : (walkStart eic ept flags count start).2 = 0 → ∀ i w,
    Iterates guest kvm (hvaEnd start count) (walkStart eic ept flags count start).1 i w →
    w.start < hvaEnd start count →
      WalkEnds guest kvm i w ∧
        ((walkHvaOf guest kvm (hvaEnd start count) i w).2 = 0 →
          w.start < (walkHvaOf guest kvm (hvaEnd start count) i w).1.start)

theorem scan_iterations (guest : Guest) {kvm : Kvm} (hkvm : kvm.NoWrap) {eic : EptIdleCtrl}
    {ept : Ept} (hshift : 39 ≤ ept.pgdirShift ∧ ept.pgdirShift < 64) {flags : ScanFlags}
    {count start : ℕ} (hstart : 2 ^ 12 ∣ start)
    (hret : (walkStart eic ept flags count start).2 = 0) {i : ℕ} {w : HvaWalk}
    (hiter : Iterates guest kvm (hvaEnd start count) (walkStart eic ept flags count start).1 i w)
    (hlt : w.start < hvaEnd start count) :
    WalkEnds guest kvm i w ∧
      ((walkHvaOf guest kvm (hvaEnd start count) i w).2 = 0 →
        w.start < (walkHvaOf guest kvm (hvaEnd start count) i w).1.start) := by
  have hstop : hvaEnd start count < 2 ^ 64 := ulong_lt _
  obtain ⟨_, hw⟩ := hiter.reading hkvm hshift hstop (walkStart_reading_of_zero hstart hret)
  exact ⟨hw.walkEnds hkvm hshift, fun hgo => (walkHvaOf_advances hkvm hshift hw hlt hstop hgo).1⟩

/-- A scan that comes to its loop has the result of the loop, or none where that has written
behind the kernel's buffer. -/
theorem eptIdleWalkHvaRange_result (guest : Guest) {kvm : Kvm} (hkvm : kvm.NoWrap)
    (eic : EptIdleCtrl) {ept : Ept} (hshift : 39 ≤ ept.pgdirShift ∧ ept.pgdirShift < 64)
    (flags : ScanFlags) (count : ℕ) {start : ℕ} (hstart : 2 ^ 12 ∣ start)
    (hcpu : kvm.supportsCpu = true) (hret : (walkStart eic ept flags count start).2 = 0) :
    ∃ (s : ℕ × HvaWalk) (ret : ℤ),
      (KbufFitsOf guest kvm (hvaEnd start count) (walkStart eic ept flags count start).1 ↔
        ¬s.2.scan.eic.Overrun) ∧
      ∀ fuel, count <<< 15 < fuel →
        eptIdleWalkHvaRange guest kvm eic ept flags count start fuel =
          if s.2.scan.eic.Overrun then none
          else some (if s.2.scan.eic.bytesCopied ≠ 0 then 0 else ret) := by
  have hle : hvaEnd start count ≤ start + count <<< 15 := Nat.mod_le _ _
  have hfirst : (walkStart eic ept flags count start).1.start = start := rfl
  have hstop : hvaEnd start count < 2 ^ 64 := ulong_lt _
  obtain ⟨hroom, -⟩ := walkStart_room eic ept flags count start
  obtain ⟨s, ret, hloop⟩ := walkHvaLoopOf_ends guest 0 hkvm hshift hstop
    (n := count <<< 15 + 1) (by rw [hfirst]; omega) (walkStart_reading_of_zero hstart hret)
  refine ⟨s, ret, kbufFitsOf_iff hloop (not_lt.mpr hroom.peak_le), fun fuel hfuel => ?_⟩
  rw [eptIdleWalkHvaRange_eq, hcpu, if_neg (by decide), if_neg (not_not.mpr hret),
    hloop fuel hfuel]
  rfl

/-- **The scan loops end** for every layout of the slots, whatever the guest does to its page
table and its vcpus, if and only if no iteration writes behind the kernel's buffer; and none
does where no fill starts with a negative `pie_read_max`. -/
theorem eptIdleWalkHvaRange_ends_iff (guest : Guest) {kvm : Kvm} (hkvm : kvm.NoWrap)
    (eic : EptIdleCtrl) {ept : Ept} (hept : ept.pgdirShift = 39 ∨ ept.pgdirShift = 48)
    (flags : ScanFlags) (count : ℕ) {start : ℕ} (hstart : 2 ^ 12 ∣ start) :
    (ScanEnds guest kvm eic ept flags count start ↔
      (kvm.supportsCpu = true → (walkStart eic ept flags count start).2 = 0 →
        KbufFitsOf guest kvm (hvaEnd start count) (walkStart eic ept flags count start).1)) ∧
    (FillsNonnegOf guest kvm (hvaEnd start count) (walkStart eic ept flags count start).1 →
      KbufFitsOf guest kvm (hvaEnd start count) (walkStart eic ept flags count start).1) := by
  have hshift : 39 ≤ ept.pgdirShift ∧ ept.pgdirShift < 64 := by omega
  obtain ⟨hroom, hempty⟩ := walkStart_room eic ept flags count start
  refine ⟨?_, fun hfills => hfills.kbufFits hroom hempty⟩
  by_cases hcpu : kvm.supportsCpu = true
  · by_cases hret : (walkStart eic ept flags count start).2 = 0
    · obtain ⟨s, ret, hfits, hresult⟩ :=
        eptIdleWalkHvaRange_result guest hkvm eic hshift flags count hstart hcpu hret
      constructor
      · rintro ⟨⟨_, hreturns⟩, -⟩ - -
        refine hfits.mpr fun hover => ?_
        have hnone := hresult _ (Nat.lt_succ_self (count <<< 15))
        rw [if_pos hover, hreturns _ (Nat.lt_succ_self _)] at hnone
        cases hnone
      · intro h
        refine ⟨⟨if s.2.scan.eic.bytesCopied ≠ 0 then 0 else ret, fun fuel hfuel => ?_⟩,
          fun _ _ _ => scan_iterations guest hkvm hshift hstart hret⟩
        rw [hresult fuel hfuel, if_neg (hfits.mp (h hcpu hret))]
    · refine iff_of_true ⟨⟨(walkStart eic ept flags count start).2, fun fuel _ => ?_⟩,
        fun h => absurd h hret⟩ fun _ h => absurd h hret
      rw [eptIdleWalkHvaRange_eq, hcpu, if_neg (by decide), if_pos hret]
  · refine iff_of_true ⟨⟨-einval, fun fuel _ => ?_⟩, fun hret _ _ =>
      scan_iterations guest hkvm hshift hstart hret⟩ fun h => absurd h hcpu
    rw [eptIdleWalkHvaRange_eq, Bool.eq_false_iff.mpr hcpu]
    rfl

/-- A guest that clears nothing and loses its root at the fourth iteration. -/
def briefGuest : Guest := ⟨fun _ ept => ept, fun i => i ≠ 3, fun _ _ => rfl⟩

/-- The first page fills the twenty bytes, and the loop ends. -/
theorem eptIdleWalkHvaRange_ends_twoPages :
    ScanEnds briefGuest (twoPages fun _ => false) eptIdleOpen firstGib ⟨false, false, false⟩ 20
      0x7f0000000000 := by
  obtain ⟨hiff, hfits⟩ := eptIdleWalkHvaRange_ends_iff briefGuest
    (Kvm.Ok.noWrap (show (twoPages fun _ => false).Ok by decide)) eptIdleOpen
    (show firstGib.pgdirShift = 39 ∨ _ from Or.inl rfl) ⟨false, false, false⟩ 20
    (show 2 ^ 12 ∣ 0x7f0000000000 by decide)
  have hends : (walkHvaOf briefGuest (twoPages fun _ => false) (hvaEnd 0x7f0000000000 20) 0
      (walkStart eptIdleOpen firstGib ⟨false, false, false⟩ 20 0x7f0000000000).1).2 ≠ 0 := by
    decide +kernel
  refine hiff.mpr fun _ _ => hfits fun i w hiter _ => ?_
  rw [(hiter.eq_first hends).2]
  decide +kernel

/-- A guest that does nothing. -/
def idleGuest : Guest := ⟨fun _ ept => ept, fun _ => true, fun _ _ => rfl⟩

theorem HvaWalk.touch_idleGuest (w : HvaWalk) (i : ℕ) : w.touch idleGuest i = w := rfl

/-- Pages in the first GiB of the guest, and behind it 1G pages that lie apart. -/
def apartPages : Ept where
  pgdirShift := 39
  pgdPresent := fun _ => true
  p4dPresent := fun _ => true
  pud := fun i => ⟨false, i % 2 = 0, i ≠ 0, false, false⟩
  pmd := fun _ => ⟨false, true, false, false, false⟩
  pte := fun _ => ⟨false, true, false, false, false⟩

/-- A slot whose second page is a hole, and right behind it a slot of 1602 GiB. -/
def apartSlots : Kvm :=
  ⟨true, [⟨0x3ffff, 2, 0x60003fffe000⟩, ⟨0x80000, 1602 * 2 ^ 18, 0x600040000000⟩],
    0x7ffffffff000, fun _ => false⟩

theorem apartPages_apart : Apart 2 apartPages := by
  refine ⟨rfl, fun _ => rfl, fun _ => rfl, fun i hi => ?_, fun i hi => ?_⟩
  · show decide (i % 2 = 0) = true ↔ _
    rw [decide_eq_true_iff]
    omega
  · exact decide_eq_true (by omega)

/-- Where the second slot begins. -/
def secondSlot : HvaWalk :=
  (walkHvaOf idleGuest apartSlots (hvaEnd 0x60003fffe000 20) 0
    (walkStart eptIdleOpen apartPages ⟨false, false, false⟩ 20 0x60003fffe000).1).1

/-- The hole leaves one byte of twenty, and the second slot has 801 pages apart: the scan
writes over what follows the kernel's buffer. -/
theorem eptIdleWalkHvaRange_lost :
    apartSlots.NoWrap ∧
      ¬ScanEnds idleGuest apartSlots eptIdleOpen apartPages ⟨false, false, false⟩ 20
        0x60003fffe000 := by
  have hkvm : apartSlots.NoWrap := Kvm.Ok.noWrap (by decide)
  refine ⟨hkvm, fun hends => ?_⟩
  have hfits := (eptIdleWalkHvaRange_ends_iff idleGuest hkvm eptIdleOpen
    (show apartPages.pgdirShift = 39 ∨ _ from Or.inl rfl) ⟨false, false, false⟩ 20
    (show 2 ^ 12 ∣ 0x60003fffe000 by decide)).1.mp hends rfl (by decide +kernel)
  have hfirst : Iterates idleGuest apartSlots (hvaEnd 0x60003fffe000 20)
      (walkStart eptIdleOpen apartPages ⟨false, false, false⟩ 20 0x60003fffe000).1 1 secondSlot :=
    .next .start (by decide +kernel) (by decide +kernel)
  have hapart : Apart 2 secondSlot.scan.ept := by
    refine apartPages_apart.congr ?_
    exact walkSlot_tables apartSlots (hvaEnd 0x60003fffe000 20)
      (walkStart eptIdleOpen apartPages ⟨false, false, false⟩ 20 0x60003fffe000).1
  have hstart : secondSlot.start = 0x600040000000 := by decide +kernel
  have hfind : eptIdleFindGpa apartSlots.slots secondSlot.start =
      (some (2 * 2 ^ 30), 1602 * 2 ^ 30) := by
    rw [hstart]
    decide
  have hhva : 1604 * 2 ^ 30 + usub secondSlot.start (2 * 2 ^ 30) < 2 ^ 64 := by
    rw [hstart]
    decide
  have hempty : secondSlot.scan.eic.kpie = [] := by decide +kernel
  have hmax : -9 ≤ secondSlot.scan.eic.pieReadMax ∧ secondSlot.scan.eic.pieReadMax < 0 := by
    decide +kernel
  refine hfits 1 secondSlot hfirst (by decide +kernel) ?_
  rw [walkHvaOf_of_valid rfl, HvaWalk.touch_idleGuest]
  exact walkHva_overruns hfind rfl (show _ = 1604 * 2 ^ 30 by decide) (Nat.dvd_mul_left _ _)
    (by decide) hhva hapart hempty hmax _

end MemoryOptimizer
