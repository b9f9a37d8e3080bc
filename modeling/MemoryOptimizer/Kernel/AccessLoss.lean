import MemoryOptimizer.Kernel.Reach
import MemoryOptimizer.Kernel.ReadProtocol
import Mathlib.Data.List.Pairwise

/-!
# The accesses that a read reports

An access is lost where the bit of a page is cleared, or the page is passed, and the
page is not reported: at a page that `eic_add_page` refuses after its entry was
scanned, and behind the end of a slot, up to where the walk of the slot restarts.

* `SlotPage.Accessed` — a leaf page of a slot whose accessed bit is set.
* `HvaWalk.Loses` — an iteration that loses a page.
* `Tracks` — what an iteration keeps of a page that it does not lose.
* `HvaWalk.StopsAt.not_accessed` — the bit of a page at which the walk stops is gone.
* `eptIdleRead_reports` — a read reports every accessed page of the range it covers
  that none of its iterations loses.
-/

namespace MemoryOptimizer

/-- The slots share no guest physical address. -/
def KvmMemorySlot.GuestApart (s t : KvmMemorySlot) : Prop :=
  s.gpaEnd ≤ t.baseGfn <<< 12 ∨ t.gpaEnd ≤ s.baseGfn <<< 12

instance : Std.Symm KvmMemorySlot.GuestApart := ⟨fun _ _ h => h.symm⟩

instance (s t : KvmMemorySlot) : Decidable (s.GuestApart t) := inferInstanceAs (Decidable (_ ∨ _))

/-- No two slots share a guest physical address. -/
def Kvm.GuestDisjoint (kvm : Kvm) : Prop := kvm.slots.Pairwise KvmMemorySlot.GuestApart

instance (kvm : Kvm) : Decidable kvm.GuestDisjoint :=
  inferInstanceAs (Decidable (List.Pairwise _ _))

/-- A page of a slot, by the type that reports it and its host virtual address. -/
structure SlotPage where
  slot : KvmMemorySlot
  type : ProcIdlePageType
  hva : ℕ

/-- The page lies in its slot, and is a present leaf page whose accessed bit is set. -/
structure SlotPage.Accessed (page : SlotPage) (ept : Ept) : Prop where
  hva_dvd : 2 ^ 12 ∣ page.hva
  start_le : page.slot.userspaceAddr ≤ page.hva
  le_end : page.hva + page.type.size ≤ page.slot.hvaEnd
  accessed : ept.AccessedPage page.type (page.slot.gpa page.hva)

/-- The walk of the slot of the page stops at the page, which does not fit. -/
def HvaWalk.StopsAt (w : HvaWalk) (page : SlotPage) : Prop :=
  (w.walk page.slot).2 ≠ 0 ∧ (w.walk page.slot).1.eic.restartHva = page.hva

/-- The iteration loses the page: its walk stops there, or it walks another slot that
reaches to the end of the page or behind it. -/
def HvaWalk.Loses (kvm : Kvm) (w : HvaWalk) (page : SlotPage) : Prop :=
  ∃ slot, kvm.slots.find? (fun slot => slot.Holds w.start) = some slot ∧
    w.start < page.hva + page.type.size ∧
    (slot = page.slot ∧ w.StopsAt page ∨
      slot ≠ page.slot ∧ page.hva + page.type.size ≤ slot.reachHva w.scan.ept)

/-! ### One walk -/

section Walk

variable {kvm : Kvm} {stop pgdirShift ppos va : ℕ} {tokens : List PipToken} {w : HvaWalk}
variable {slot : KvmMemorySlot}

theorem reachHva_congr {old new : Ept} {lo hi : ℕ} (h : old.Unscanned new lo hi)
    (slot : KvmMemorySlot) : slot.reachHva new = slot.reachHva old := by
  rw [KvmMemorySlot.reachHva, KvmMemorySlot.reachHva, Ept.reach_congr h.tables h.isTable]

/-- A walk from `w.start`: it gets to the end of the slot, or stops at a page. -/
structure Walk (va : ℕ) (w : HvaWalk) (slot : KvmMemorySlot) (range : FillRange)
    (reports : List PipToken) (r : EptScan × ℕ) : Prop where
  walked : Walked w.scan.eic va w.start slot.hvaEnd reports r.1.eic
  completed : r.2 = 0 → range.Passed w.scan.ept slot.gpaEnd r.1.ept (reported va reports) ∧
    slot.hvaEnd ≤ r.1.eic.restartHva ∧ r.1.eic.restartHva ≤ slot.reachHva w.scan.ept
  stopped : r.2 ≠ 0 → reports ≠ [] ∧ ∃ a, range.first < a ∧ a < slot.gpaEnd ∧
    range.StoppedAt w.scan.ept a r.1.ept (reported va reports) ∧
    r.1.eic.restartHva = range.hva a

theorem HvaWalk.walk_spec (va : ℕ) (hkvm : kvm.Ok) (hshift : 39 ≤ pgdirShift ∧ pgdirShift < 64)
    (hw : Reading pgdirShift ppos tokens w) (hflags : w.scan.eic.flags = noFlags)
    (hmem : slot ∈ kvm.slots) (hholds : slot.Holds w.start) :
    ∃ reports, Walk va w slot (slot.fillRange w.start pgdirShift) reports (w.walk slot) := by
  obtain ⟨hrange, hhva⟩ := hkvm.fillRange hmem hw.start_dvd hholds hshift
  have hbase : 2 ^ 12 ∣ (slot.fillRange w.start pgdirShift).base := hw.start_dvd
  have hgpa : (w.enter slot).gpaToHva = usub (slot.fillRange w.start pgdirShift).base
      (slot.fillRange w.start pgdirShift).first := HvaWalk.enter_gpaToHva ..
  have hept : 30 ≤ w.scan.ept.pgdirShift := by
    rw [hw.pgdirShift_eq]
    exact (by decide : 30 ≤ 39).trans hshift.1
  have hfill := hw.walk_fill va hrange
    (hflags ▸ FillRange.accesses_content hrange w.scan.ept hept)
    ⟨Ept.Unscanned.refl _ _ _, fun h => absurd h (lt_irrefl _)⟩
  have hend : (slot.fillRange w.start pgdirShift).hva slot.gpaEnd = slot.hvaEnd := hhva
  by_cases hret : (w.walk slot).2 = 0
  · obtain ⟨reports, -, hpassed, hwalked, hrestart⟩ := (hfill.1 hret).ended hrange hbase hgpa
    refine ⟨reports, hend ▸ hwalked.of_enter, fun _ => ⟨hpassed, hend ▸ hrestart, ?_⟩,
      fun h => absurd hret h⟩
    rw [← reachHva_congr hpassed.1]
    exact HvaWalk.walk_reach hw hflags hrange hhva hret
  · obtain ⟨a, reports, filled, hstopped, hwalked, hfirst, hlt, hrestart, hne⟩ :=
      (hfill.2 hret).ended hrange hbase hgpa
    refine ⟨reports, hend ▸ hwalked.of_enter, fun h => absurd h hret, fun _ => ⟨hne, a, hfirst,
      hlt, hstopped, hrestart⟩⟩

end Walk

/-! ### One iteration -/

/-- What is kept of a page: it was reported, or it is ahead and still accessed. -/
def Tracks (ppos : ℕ) (tokens : List PipToken) (start : ℕ) (ept : Ept) (page : SlotPage) : Prop :=
  (page.type, page.hva) ∈ reported ppos tokens ∨
    start < page.hva + page.type.size ∧ page.Accessed ept

section Step

variable {kvm : Kvm} {stop pgdirShift ppos : ℕ} {tokens : List PipToken} {w : HvaWalk}
variable {slot : KvmMemorySlot} {page : SlotPage}

/-- A page of a slot, in both address spaces. -/
theorem SlotPage.Accessed.gpa_eq {ept : Ept} (h : page.Accessed ept)
    (hslot : 2 ^ 12 ∣ page.slot.userspaceAddr) :
    page.slot.gpa page.hva = page.slot.baseGfn * 2 ^ 12 + (page.hva - page.slot.userspaceAddr) :=
  KvmMemorySlot.gpa_eq hslot h.hva_dvd h.start_le

/-- The page lies in the guest physical addresses of its slot. -/
theorem SlotPage.Accessed.gpa_mem {ept : Ept} (h : page.Accessed ept)
    (hslot : 2 ^ 12 ∣ page.slot.userspaceAddr) :
    page.slot.baseGfn <<< 12 ≤ page.slot.gpa page.hva ∧
      page.slot.gpa page.hva + page.type.size ≤ page.slot.gpaEnd := by
  have hend := h.le_end
  have hstart := h.start_le
  rw [h.gpa_eq hslot]
  simp only [KvmMemorySlot.hvaEnd, KvmMemorySlot.gpaEnd, Nat.shiftLeft_eq] at hend ⊢
  omega

/-- Scanning a part of another slot leaves the page as it is. -/
theorem SlotPage.Accessed.of_other (hkvm : kvm.Ok) (hdisjoint : kvm.GuestDisjoint)
    (hslot : slot ∈ kvm.slots) (hpage : page.slot ∈ kvm.slots) (hne : slot ≠ page.slot)
    {old new : Ept} {lo hi : ℕ} (h : page.Accessed old) (hframe : old.Unscanned new lo hi)
    (hlo : slot.baseGfn <<< 12 ≤ lo) (hhi : hi ≤ slot.gpaEnd) : page.Accessed new := by
  obtain ⟨hbase, hend⟩ := h.gpa_mem (hkvm.userspaceAddr_dvd page.slot hpage)
  refine ⟨h.hva_dvd, h.start_le, h.le_end, hframe.accessedPage h.accessed ?_⟩
  have hapart : slot.GuestApart page.slot := List.Pairwise.forall hdisjoint hslot hpage hne
  rcases hapart with h | h
  · exact Or.inr (Or.inl ((hhi.trans h).trans hbase))
  · exact Or.inl ((hend.trans h).trans hlo)

/-- `gpa_to_hva` takes the page back to where it is. -/
theorem SlotPage.Accessed.ulong_gpa {ept : Ept} (h : page.Accessed ept) (hkvm : kvm.Ok)
    (hmem : page.slot ∈ kvm.slots) {start : ℕ} (hstart : 2 ^ 12 ∣ start)
    (hholds : page.slot.Holds start) :
    ulong (page.slot.gpa page.hva + usub start (page.slot.gpa start)) = page.hva := by
  have hslot := hkvm.userspaceAddr_dvd page.slot hmem
  have hadd := KvmMemorySlot.gpa_add hslot hstart hholds
  have hend := hkvm.gpaEnd_lt page.slot hmem
  have htask := hkvm.hvaEnd_le page.slot hmem
  have hlt := hkvm.taskSize_lt
  have hle := h.le_end
  have hge := h.start_le
  have hgpa := KvmMemorySlot.gpa_eq hslot hstart hholds.1
  obtain ⟨hstart, hholds⟩ := hholds
  rw [h.gpa_eq hslot]
  unfold usub ulong
  omega

/-- The walk of the slot of the page: it reports the page, or stops before it. -/
theorem Walk.tracks_own {va : ℕ} {reports : List PipToken} (hkvm : kvm.Ok)
    (hdvd : 2 ^ 12 ∣ w.start) (hholds : page.slot.Holds w.start) (hmem : page.slot ∈ kvm.slots)
    (hshift : 39 ≤ pgdirShift ∧ pgdirShift < 64)
    (walk : Walk va w page.slot (page.slot.fillRange w.start pgdirShift) reports (w.walk page.slot))
    (hpage : page.Accessed w.scan.ept) (hlt : w.start < page.hva + page.type.size)
    (hstops : ¬w.StopsAt page) :
    (page.type, page.hva) ∈ reported va reports ∨
      reports ≠ [] ∧ (w.walk page.slot).1.eic.restartHva ≤ page.hva ∧
        page.Accessed (w.walk page.slot).1.ept := by
  have hslot := hkvm.userspaceAddr_dvd page.slot hmem
  have hhva := hpage.ulong_gpa hkvm hmem hdvd hholds
  obtain ⟨-, hend⟩ := hpage.gpa_mem hslot
  have hsize := hpage.accessed.size_pos
  have hrange := (hkvm.fillRange hmem hdvd hholds hshift).1
  have hfirst : page.slot.gpa w.start < page.slot.gpa page.hva + page.type.size := by
    have hstart := hholds.1
    have hle := hpage.start_le
    rw [hpage.gpa_eq hslot, KvmMemorySlot.gpa_eq hslot hdvd hstart]
    omega
  have hmem : ∀ b, page.slot.gpa w.start < b → page.slot.gpa page.hva < b →
      (page.slot.fillRange w.start pgdirShift).Seen w.scan.ept b (reported va reports) →
      (page.type, page.hva) ∈ reported va reports := by
    intro b hb hlt hseen
    have := hseen hb _ _ hpage.accessed hfirst hlt
    change (page.type, ulong (page.slot.gpa page.hva + usub w.start (page.slot.gpa w.start))) ∈
      reported va reports at this
    rwa [hhva] at this
  by_cases hret : (w.walk page.slot).2 = 0
  · obtain ⟨⟨-, hseen⟩, -⟩ := walk.completed hret
    exact Or.inl (hmem page.slot.gpaEnd hrange.first_lt (by omega) hseen)
  · obtain ⟨hne, a, ha, hlt, ⟨hframe, hseen, -⟩, hrestart⟩ := walk.stopped hret
    rcases Nat.lt_or_ge (page.slot.gpa page.hva) a with hbefore | hbehind
    · exact Or.inl (hmem a ha hbefore hseen)
    · have hle : page.slot.gpa w.start ≤ page.slot.gpa page.hva := ha.le.trans hbehind
      have hback : (page.slot.fillRange w.start pgdirShift).hva (page.slot.gpa page.hva) =
          page.hva := by
        refine Eq.trans (hrange.ulong_hva hle ?_).symm hhva
        show page.slot.gpa page.hva ≤ page.slot.gpaEnd + 2 ^ 30
        omega
      rcases hbehind.eq_or_lt with rfl | hbehind
      · -- the page is where the walk stopped
        exact absurd ⟨hret, hrestart.trans hback⟩ hstops
      · refine Or.inr ⟨hne, ?_, hpage.hva_dvd, hpage.start_le, hpage.le_end,
          hframe.accessedPage hpage.accessed (Or.inr (Or.inl hbehind))⟩
        rw [hrestart, ← hback]
        exact FillRange.hva_mono hbehind.le

/-- Where the walk stops at a page, the bit of the page is gone. -/
theorem HvaWalk.StopsAt.not_accessed (hkvm : kvm.Ok)
    (hshift : 39 ≤ pgdirShift ∧ pgdirShift < 64) (hw : Reading pgdirShift ppos tokens w)
    (hflags : w.scan.eic.flags = noFlags) (hmem : page.slot ∈ kvm.slots)
    (hholds : page.slot.Holds w.start) (hpage : page.Accessed w.scan.ept)
    (hstops : w.StopsAt page) : ¬page.Accessed (w.walk page.slot).1.ept := by
  have hslot := hkvm.userspaceAddr_dvd page.slot hmem
  obtain ⟨reports, walk⟩ :=
    HvaWalk.walk_spec 0 hkvm hshift hw hflags hmem hholds
  obtain ⟨hret, hrestart⟩ := hstops
  obtain ⟨-, a, ha, -, ⟨-, -, hgone⟩, hend⟩ := walk.stopped hret
  have hat : a = page.slot.gpa page.hva := by
    have hstart := hholds.1
    have hhva := hrestart.symm.trans hend
    simp only [FillRange.hva, KvmMemorySlot.fillRange] at hhva ha
    rw [KvmMemorySlot.gpa_eq hslot hw.start_dvd hstart] at hhva ha
    rw [hpage.gpa_eq hslot]
    omega
  subst hat
  exact fun h => hgone _ hpage.accessed h.accessed

/-- The walk of another slot, which does not reach to the end of the page. -/
theorem Walk.tracks_other {va : ℕ} {reports : List PipToken} (hkvm : kvm.Ok)
    (hdisjoint : kvm.GuestDisjoint) (hdvd : 2 ^ 12 ∣ w.start) (hholds : slot.Holds w.start)
    (hslot : slot ∈ kvm.slots) (hmem : page.slot ∈ kvm.slots) (hne : slot ≠ page.slot)
    (hshift : 39 ≤ pgdirShift ∧ pgdirShift < 64)
    (walk : Walk va w slot (slot.fillRange w.start pgdirShift) reports (w.walk slot))
    (hpage : page.Accessed w.scan.ept) 
    (hreach : slot.reachHva w.scan.ept < page.hva + page.type.size) :
    (w.walk slot).1.eic.restartHva < page.hva + page.type.size ∧
      slot.hvaEnd < page.hva + page.type.size ∧
      page.Accessed (w.walk slot).1.ept := by
  obtain ⟨hrange, hhva⟩ := hkvm.fillRange hslot hdvd hholds hshift
  have hend : slot.hvaEnd < page.hva + page.type.size := (Nat.le_add_right _ _).trans_lt hreach
  have hlo : slot.baseGfn <<< 12 ≤ (slot.fillRange w.start pgdirShift).first := by
    show slot.baseGfn <<< 12 ≤ slot.gpa w.start
    rw [KvmMemorySlot.gpa_eq (hkvm.userspaceAddr_dvd slot hslot) hdvd hholds.1, Nat.shiftLeft_eq]
    exact Nat.le_add_right _ _
  by_cases hret : (w.walk slot).2 = 0
  · obtain ⟨⟨hframe, -⟩, -, hrestart⟩ := walk.completed hret
    exact ⟨hrestart.trans_lt hreach, hend,
      hpage.of_other hkvm hdisjoint hslot hmem hne hframe hlo le_rfl⟩
  · obtain ⟨-, a, -, hlt, ⟨hframe, -, -⟩, hrestart⟩ := walk.stopped hret
    refine ⟨?_, hend, hpage.of_other hkvm hdisjoint hslot hmem hne hframe hlo hlt⟩
    rw [hrestart]
    exact (FillRange.hva_mono hlt.le).trans_lt (hhva.trans_lt hend)

/-- What an iteration that has copied `chunk` keeps of a page. -/
def Keeps (kvm : Kvm) (stop pgdirShift ppos : ℕ) (tokens : List PipToken) (w : HvaWalk)
    (page : SlotPage) : Prop :=
  ∃ vaEnd reports chunk,
    Iteration kvm pgdirShift ppos vaEnd w tokens reports chunk (walkHva kvm stop w) ∧
    Tracks ppos (tokens ++ chunk)
      (max (walkHva kvm stop w).1.start (walkHva kvm stop w).1.scan.eic.nextHva)
      (walkHva kvm stop w).1.scan.ept page

/-- A hole ends below the slot of a page ahead. -/
theorem keeps_hole (hkvm : kvm.Ok) (hw : Reading pgdirShift ppos tokens w) (hlt : w.start < stop)
    (hstop : stop < 2 ^ 64)
    (hfind : kvm.slots.find? (fun slot => slot.Holds w.start) = none)
    (hmem : page.slot ∈ kvm.slots) (hahead : w.start < page.hva + page.type.size)
    (hpage : page.Accessed w.scan.ept) :
    Keeps kvm stop pgdirShift ppos tokens w page := by
  obtain ⟨hept, hwalked, habove⟩ := walkSlot_hole (cursorAfter ppos tokens) hkvm hw hlt hfind
  obtain ⟨chunk, step⟩ := hwalked.iteration (by rw [hept]; exact hw.pgdirShift_eq) hw hstop
  have hout : ¬page.slot.Holds w.start := by
    simpa using List.find?_eq_none.mp hfind page.slot hmem
  have hlt : w.start < page.slot.userspaceAddr := by
    by_contra h
    exact hout ⟨not_lt.mp h, hahead.trans_le hpage.le_end⟩
  refine ⟨_, [], chunk, step, Or.inr ⟨?_, ?_⟩⟩
  · rw [step.cursor_of_nil rfl, walkHva_start, ← max_assoc, max_self]
    exact ((habove page.slot hmem hlt).trans hpage.start_le).trans_lt
      (Nat.lt_add_of_pos_right hpage.accessed.size_pos)
  · rw [walkHva_ept, hept]
    exact hpage

/-- The walk of a slot that does not lose a page ahead. -/
theorem keeps_slot (hkvm : kvm.Ok) (hdisjoint : kvm.GuestDisjoint)
    (hshift : 39 ≤ pgdirShift ∧ pgdirShift < 64) (hw : Reading pgdirShift ppos tokens w)
    (hflags : w.scan.eic.flags = noFlags) (hlt : w.start < stop) (hstop : stop < 2 ^ 64)
    (hfind : kvm.slots.find? (fun slot => slot.Holds w.start) = some slot)
    (hmem : page.slot ∈ kvm.slots) (hahead : w.start < page.hva + page.type.size)
    (hpage : page.Accessed w.scan.ept)
    (hloses : ¬w.Loses kvm page) : Keeps kvm stop pgdirShift ppos tokens w page := by
  have hholds : slot.Holds w.start := by simpa using List.find?_some hfind
  have hslot := List.mem_of_find?_eq_some hfind
  obtain ⟨reports, walk⟩ :=
    HvaWalk.walk_spec (cursorAfter ppos tokens) hkvm hshift hw hflags hslot hholds
  have heq := walkSlot_of_some stop hkvm hw.start_dvd hfind
  have hscan : (walkSlot kvm stop w).1 = (w.walk slot).1 := by rw [heq]
  have hvaEnd : (walkSlot kvm stop w).2 = slot.hvaEnd := by rw [heq]
  have hwalked : Walked w.scan.eic (cursorAfter ppos tokens) w.start
      (walkSlot kvm stop w).2 reports (walkSlot kvm stop w).1.eic := by
    rw [hscan, hvaEnd]
    exact walk.walked
  obtain ⟨chunk, step⟩ :=
    hwalked.iteration (walkSlot_walked 0 hkvm hshift hw hlt).1 hw hstop
  have hstart : (walkHva kvm stop w).1.start = (w.walk slot).1.eic.restartHva := by
    rw [walkHva_start, hscan]
  have hept : (walkHva kvm stop w).1.scan.ept = (w.walk slot).1.ept := by
    rw [walkHva_ept, hscan]
  refine ⟨_, reports, chunk, step, ?_⟩
  rw [Tracks, reported_append, step.reported_eq, hstart, hept]
  by_cases hown : slot = page.slot
  · subst hown
    have hstops : ¬w.StopsAt page := fun h =>
      hloses ⟨page.slot, hfind, hahead, Or.inl ⟨rfl, h⟩⟩
    rcases walk.tracks_own hkvm hw.start_dvd hholds hmem hshift hpage hahead hstops with
      h | ⟨hne, hrestart, haccessed⟩
    · exact Or.inl (List.mem_append_right _ h)
    · have hcursor := step.cursor_le hne
      rw [hstart] at hcursor
      exact Or.inr ⟨(max_le hrestart (hcursor.trans hrestart)).trans_lt
        (Nat.lt_add_of_pos_right hpage.accessed.size_pos), haccessed⟩
  · have hreach : slot.reachHva w.scan.ept < page.hva + page.type.size := not_le.mp fun h =>
      hloses ⟨slot, hfind, hahead, Or.inr ⟨hown, h⟩⟩
    obtain ⟨hrestart, hend, haccessed⟩ :=
      walk.tracks_other hkvm hdisjoint hw.start_dvd hholds hslot hmem hown hshift hpage hreach
    refine Or.inr ⟨max_lt hrestart ?_, haccessed⟩
    by_cases hnil : reports = []
    · rw [step.cursor_of_nil hnil, hstart, hvaEnd]
      exact max_lt hrestart hend
    · have hcursor := step.cursor_le hnil
      rw [hstart] at hcursor
      exact hcursor.trans_lt hrestart

/-- An iteration keeps track of a page that it does not lose. -/
theorem walkHva_keeps (hkvm : kvm.Ok) (hdisjoint : kvm.GuestDisjoint)
    (hshift : 39 ≤ pgdirShift ∧ pgdirShift < 64) (hw : Reading pgdirShift ppos tokens w)
    (hflags : w.scan.eic.flags = noFlags) (hlt : w.start < stop) (hstop : stop < 2 ^ 64)
    (hmem : page.slot ∈ kvm.slots) (hpage : Tracks ppos tokens w.start w.scan.ept page)
    (hloses : ¬w.Loses kvm page) : Keeps kvm stop pgdirShift ppos tokens w page := by
  rcases hpage with hreported | ⟨hahead, hpage⟩
  · obtain ⟨reports, chunk, step⟩ := walkHva_step hkvm hshift hw hlt hstop
    refine ⟨_, reports, chunk, step, Or.inl ?_⟩
    rw [reported_append]
    exact List.mem_append_left _ hreported
  · cases hfind : kvm.slots.find? (fun slot => slot.Holds w.start) with
    | none => exact keeps_hole hkvm hw hlt hstop hfind hmem hahead hpage
    | some slot =>
        exact keeps_slot hkvm hdisjoint hshift hw hflags hlt hstop hfind hmem hahead hpage
          hloses

end Step

/-! ### The read -/

/-- No iteration of the loop loses the page. -/
def Kept (kvm : Kvm) (stop : ℕ) (w : HvaWalk) (page : SlotPage) : Prop :=
  ∀ n, Running kvm stop w n → ¬(walkHvaLoop kvm stop n w).1.Loses kvm page

/-- The pages that the decoder calls for, of a read at `ppos`. -/
def ReadResult.pages (r : ReadResult) (ppos : ℕ) : List (ProcIdlePageType × ℕ) :=
  ((parseIdlepages r.buf ppos (2 ^ 64) r.buf.length).map fun parsed =>
    parsed.2.flatMap RefCall.pages).getD []

/-- What has been delivered where the loop ends: the page, if the cursor is behind it. -/
structure Delivers (ppos : ℕ) (page : SlotPage) (tokens : List PipToken) (r : HvaWalk × ℤ) :
    Prop where
  valid : ∀ token ∈ tokens, token.Valid
  buf_eq : r.1.scan.eic.buf = pipBytes tokens
  ret : tokens = [] → r.2 ≠ 0
  reported : tokens ≠ [] → page.hva + page.type.size ≤ r.1.scan.eic.nextHva →
    (page.type, page.hva) ∈ reported ppos tokens

section Read

variable {kvm : Kvm} {stop pgdirShift ppos : ℕ} {tokens : List PipToken} {w : HvaWalk}
variable {page : SlotPage}

/-- The loop delivers a page that it keeps, from the first iteration or from any one
after it. -/
theorem walkHvaLoop_delivers (hkvm : kvm.Ok) (hdisjoint : kvm.GuestDisjoint)
    (hshift : 39 ≤ pgdirShift ∧ pgdirShift < 64) (hstop : stop < 2 ^ 64)
    (hmem : page.slot ∈ kvm.slots) {n : ℕ} (hw : Reading pgdirShift ppos tokens w)
    (hflags : w.scan.eic.flags = noFlags) (hgoes : w.start < stop ∨ tokens ≠ [])
    (hpage : Tracks ppos tokens (max w.start w.scan.eic.nextHva) w.scan.ept page)
    (hkept : Kept kvm stop w page) (hlate : NoLateFault kvm stop w) {ret : ℤ}
    (hret : (walkHvaLoop kvm stop n w).2 = some ret) :
    ∃ tokens, Delivers ppos page tokens ((walkHvaLoop kvm stop n w).1, ret) := by
  induction n generalizing tokens w with
  | zero => cases hret
  | succ n ih =>
      rw [walkHvaLoop_succ] at hret ⊢
      by_cases hlt : w.start < stop
      · rw [if_pos hlt] at hret ⊢
        obtain ⟨hloses, hkept⟩ := (forall_running kvm hlt fun w => ¬w.Loses kvm page).mp hkept
        obtain ⟨hfault, hlate⟩ := (noLateFault_step kvm hlt).mp hlate
        obtain ⟨vaEnd, reports, chunk, step, htracks⟩ := walkHva_keeps hkvm hdisjoint hshift hw
          hflags hlt hstop hmem
          (hpage.imp_right fun h => ⟨(le_max_left _ _).trans_lt h.1, h.2⟩) hloses
        have hvalid : ∀ token ∈ tokens ++ chunk, token.Valid := by
          intro token htoken
          rcases List.mem_append.mp htoken with h | h
          · exact hw.valid token h
          · exact step.valid token h
        have hne : tokens ++ chunk ≠ [] := fun h => step.ne_nil (List.append_eq_nil_iff.mp h).2
        cases hfails : kvm.copyFails w.scan.eic.bytesCopied with
        | true =>
            -- only the first copy of a read may fail
            obtain ⟨hefault, hbuf⟩ := step.failed hfails
            have hnonzero : (walkHva kvm stop w).2 ≠ 0 := by
              rw [hefault]
              decide
            rw [if_pos hnonzero] at hret ⊢
            obtain rfl := Option.some.inj hret
            have hnil : tokens = [] := by
              by_contra h
              refine absurd (hfault ?_) (by rw [hfails]; decide)
              rw [EptIdleCtrl.bytesCopied, hw.buf_eq]
              exact mt (fun h => pipBytes_eq_nil.mp (List.length_eq_zero_iff.mp h)) h
            subst hnil
            exact ⟨[], hw.valid, hbuf, fun _ => hnonzero, fun h => absurd rfl h⟩
        | false =>
            by_cases hgo : (walkHva kvm stop w).2 = 0
            · rw [if_neg (not_not.mpr hgo)] at hret ⊢
              exact ih (step.next hfails hgo).1 (step.flags.trans hflags) (Or.inr hne) htracks
                (hkept hgo) (hlate hgo) hret
            · rw [if_pos hgo] at hret ⊢
              obtain rfl := Option.some.inj hret
              refine ⟨tokens ++ chunk, hvalid, (step.delivered hfails).1, fun h => absurd h hne,
                fun _ hcursor => htracks.resolve_right fun h => ?_⟩
              exact absurd ((le_max_right _ _).trans_lt h.1) (not_lt.mpr hcursor)
      · rw [if_neg hlt] at hret ⊢
        have hne := hgoes.resolve_left hlt
        refine ⟨tokens, hw.valid, hw.buf_eq, fun h => absurd h hne, fun _ hcursor =>
          hpage.resolve_right fun h => ?_⟩
        exact absurd ((le_max_right _ _).trans_lt h.1) (not_lt.mpr hcursor)

/-- The result of a read whose loop has delivered the page. -/
theorem Delivers.pages {r : HvaWalk × ℤ} (h : Delivers ppos page tokens r) (hpos : ppos < 2 ^ 64)
    (hahead : ppos < page.hva + page.type.size)
    (hcursor : page.hva + page.type.size ≤ (readResult ppos r).ppos) :
    (page.type, page.hva) ∈ (readResult ppos r).pages ppos := by
  have hbytes : r.1.scan.eic.bytesCopied = 0 ↔ tokens = [] := by
    rw [EptIdleCtrl.bytesCopied, h.buf_eq, List.length_eq_zero_iff, pipBytes_eq_nil]
  unfold readResult at hcursor ⊢
  by_cases hnil : tokens = []
  · rw [if_neg (not_not.mpr (hbytes.mpr hnil)), if_pos (h.ret hnil)] at hcursor
    exact absurd hcursor (not_le.mpr hahead)
  · rw [if_pos (mt hbytes.mp hnil)] at hcursor ⊢
    obtain ⟨calls, hparse, hpages⟩ := parseIdlepages_delivered h.valid hpos
    rw [ReadResult.pages]
    dsimp only
    rw [h.buf_eq, hparse, Option.map_some, Option.getD_some, hpages]
    exact h.reported hnil hcursor

/-- A read without flags returns, and delivers every accessed page of the range that it
moves past, if none of its iterations loses the page or overruns the kernel's buffer,
and no copy to the user fails after one that has succeeded.  KVM keeps the slots of a
machine apart. -/
theorem eptIdleRead_reports (kvm : Kvm) (eic : EptIdleCtrl) (ept : Ept) (count ppos fuel : ℕ)
    (hkvm : kvm.Ok) (hdisjoint : kvm.GuestDisjoint)
    (hept : ept.pgdirShift = 39 ∨ ept.pgdirShift = 48) (hfuel : count ≤ fuel) (page : SlotPage)
    (hmem : page.slot ∈ kvm.slots) (haccessed : page.Accessed ept)
    (hpos : ppos < page.hva + page.type.size)
    (hkept : Kept kvm (hvaEnd ppos count) (walkStart eic ept noFlags count ppos).1 page)
    (hlate : NoLateFault kvm (hvaEnd ppos count) (walkStart eic ept noFlags count ppos).1)
    (hfits : KbufFits kvm (hvaEnd ppos count) (walkStart eic ept noFlags count ppos).1) :
    ∃ r, eptIdleRead kvm eic ept noFlags count ppos fuel = some r ∧
      (page.hva + page.type.size ≤ r.ppos → (page.type, page.hva) ∈ r.pages ppos) := by
  have hunmoved : ∀ ret : ℤ,
      page.hva + page.type.size ≤ (⟨ret, [], ppos, ept⟩ : ReadResult).ppos →
      (page.type, page.hva) ∈ (⟨ret, [], ppos, ept⟩ : ReadResult).pages ppos :=
    fun ret h => absurd h (not_le.mpr hpos)
  have hshift : 39 ≤ ept.pgdirShift ∧ ept.pgdirShift < 64 := by omega
  have hread := eptIdleRead_end kvm eic ept noFlags count ppos fuel hkvm hshift hfuel
  generalize eptIdleRead kvm eic ept noFlags count ppos fuel = result at hread ⊢
  cases hread with
  | outside => exact ⟨_, rfl, hunmoved _⟩
  | invalid => exact ⟨_, rfl, hunmoved _⟩
  | noRoom => exact ⟨_, rfl, hunmoved _⟩
  | overrun above cpu size overruns => exact absurd hfits overruns
  | loop above cpu below size reading ret ret_eq =>
      have hpos64 : ppos < 2 ^ 64 := by
        have := hkvm.taskSize_lt
        omega
      have htracks : Tracks ppos [] (max ppos 0) ept page :=
        Or.inr ⟨(max_eq_left (Nat.zero_le ppos)).trans_lt hpos, haccessed⟩
      obtain ⟨tokens, delivers⟩ := walkHvaLoop_delivers hkvm hdisjoint hshift (ulong_lt _) hmem
        reading rfl (Or.inl above) htracks hkept hlate ret_eq
      exact ⟨_, rfl, delivers.pages hpos64 hpos⟩

end Read

/-- Tables of accessed pages, where the second level has them. -/
def accessedPages (tables : ℕ → Bool) : Ept where
  pgdirShift := 39
  pgdPresent := fun _ => true
  p4dPresent := fun _ => true
  pud := fun _ => ⟨false, true, false, false, false⟩
  pmd := fun i => ⟨false, tables i, false, false, false⟩
  pte := fun _ => ⟨false, true, false, true, false⟩

theorem eptIdleRead_reports_twoPages :
    ∃ r, eptIdleRead (twoPages fun _ => false) eptIdleOpen (accessedPages fun _ => true) noFlags 20
        0x7f0000000000 20 = some r ∧
      (0x7f0000000000 + 2 ^ 12 ≤ r.ppos →
        (.pteAccessed, 0x7f0000000000) ∈ r.pages 0x7f0000000000) := by
  have hends : (walkHva (twoPages fun _ => false) (hvaEnd 0x7f0000000000 20)
      (walkStart eptIdleOpen (accessedPages fun _ => true) noFlags 20 0x7f0000000000).1).2 ≠ 0 := by
    decide +kernel
  have hlt : (walkStart eptIdleOpen (accessedPages fun _ => true) noFlags 20
      0x7f0000000000).1.start < hvaEnd 0x7f0000000000 20 := by decide +kernel
  refine eptIdleRead_reports (twoPages fun _ => false) eptIdleOpen (accessedPages fun _ => true)
    20 0x7f0000000000 20 (by decide) (by decide) (Or.inl rfl) le_rfl
    ⟨⟨1, 1, 0x7f0000000000⟩, .pteAccessed, 0x7f0000000000⟩ List.mem_cons_self
    ⟨by decide, by decide, by decide, ?_⟩ (by decide) ?_ ?_ (FillsNonneg.kbufFits ?_)
  · exact ⟨by decide, by decide, rfl, Or.inl ⟨rfl, by decide, by decide⟩⟩
  · refine (forall_running _ hlt fun w => ¬w.Loses _ _).mpr ⟨?_, fun h => absurd h hends⟩
    have hfirst : (twoPages fun _ => false).slots.find? (fun slot => slot.Holds 0x7f0000000000) =
        some ⟨1, 1, 0x7f0000000000⟩ := by decide +kernel
    rintro ⟨slot, hfind, -, ⟨-, hret, -⟩ | ⟨hne, -⟩⟩
    · exact hret (by decide +kernel)
    · exact hne (Option.some.inj (hfind.symm.trans hfirst))
  · exact (noLateFault_step _ hlt).mpr ⟨fun _ => rfl, fun h => absurd h hends⟩
  · exact (forall_running _ hlt fun w => 0 ≤ w.scan.eic.pieReadMax).mpr
      ⟨by decide +kernel, fun h => absurd h hends⟩

/-- A slot of one page where the first 2M of the guest have no table, and 1M above it
a slot with an accessed page. -/
def twoRegions : Kvm :=
  ⟨true, [⟨1, 1, 0x7f0000000000⟩, ⟨0x200, 1, 0x7f0000100000⟩], 0x7ffffffff000, fun _ => false⟩

/-- The hole of the first slot is rounded up to 2M: the read moves past the accessed
page of the second slot, and does not report it. -/
theorem eptIdleRead_unreported :
    twoRegions.Ok ∧ twoRegions.GuestDisjoint ∧
      SlotPage.Accessed ⟨⟨0x200, 1, 0x7f0000100000⟩, .pteAccessed, 0x7f0000100000⟩
        (accessedPages (· ≠ 0)) ∧
      ∃ r, eptIdleRead twoRegions eptIdleOpen (accessedPages (· ≠ 0)) noFlags 20 0x7f0000000000
          20 = some r ∧
        0x7f0000100000 + 2 ^ 12 ≤ r.ppos ∧
          (.pteAccessed, 0x7f0000100000) ∉ r.pages 0x7f0000000000 := by
  have haccessed : (accessedPages (· ≠ 0)).AccessedPage .pteAccessed 0x200000 :=
    ⟨by decide, by decide, rfl, Or.inl ⟨rfl, by decide, by decide⟩⟩
  have hread : (eptIdleRead twoRegions eptIdleOpen (accessedPages (· ≠ 0)) noFlags 20
      0x7f0000000000 20).any (fun r => 0x7f0000100000 + 2 ^ 12 ≤ r.ppos ∧
        (.pteAccessed, 0x7f0000100000) ∉ r.pages 0x7f0000000000) = true := by
    decide +kernel
  obtain ⟨r, hr, hlost⟩ := (Option.any_eq_true _ _).mp hread
  exact ⟨by decide, by decide, ⟨by decide, by decide, by decide, haccessed⟩, r, hr,
    of_decide_eq_true hlost⟩

end MemoryOptimizer
