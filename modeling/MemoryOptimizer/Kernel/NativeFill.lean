import MemoryOptimizer.Kernel.Fill
import MemoryOptimizer.Kernel.NativePageWalk
import Mathlib.Data.List.Pairwise

/-!
# What a walk of a task keeps

`last_va` is the address of the region that `mm_idle_pmd_entry` or
`mm_idle_pud_entry` looked at last, whatever became of it.  A region is passed where
`last_va` is in it already.

* `Filled.addPage` — what a call of `eic_add_page` leaves.
* `MmPage` — the page that a walk is to report.
* `MmWalk.Skips` — how a walk may pass it without looking at it.
* `MmWalk.Walking` — the invariant of a walk, for every address it reaches: the page
  is among those reported, or still ahead.
* `MmWalk.Left` — what a walk leaves, where it has come to its end or was stopped.
-/

namespace MemoryOptimizer

/-! ### A call of `eic_add_page` -/

@[simp] theorem eicNewItem_lastVa (eic : EptIdleCtrl) (next : ℕ) (type : ProcIdlePageType) :
    (eicNewItem eic next type).lastVa = eic.lastVa := rfl

@[simp] theorem eicReportAddr_lastVa (eic : EptIdleCtrl) (addr : ℕ) :
    (eicReportAddr eic addr).lastVa = eic.lastVa := rfl

theorem AddPage.lastVa_eq {eic : EptIdleCtrl} {call : PageCall} {r : EptIdleCtrl × ℕ}
    (hr : AddPage eic call r) : r.1.lastVa = eic.lastVa := by
  cases hr with
  | hole | noRoomForAddress | noRoomForItem => exact EptIdleCtrl.setRestartGpa_lastVa ..
  | address => rw [eicNewItem_lastVa, eicReportAddr_lastVa]
  | extend =>
      rw [EptIdleCtrl.incLastByte_lastVa, EptIdleCtrl.setRestartGpa_lastVa,
        EptIdleCtrl.setNextHva_lastVa]
  | item => exact eicNewItem_lastVa ..

/-- A call for a single page. -/
theorem PageCall.pages_of_single (call : PageCall) (hhole : ¬call.IsHole)
    (hptes : call.type ≠ .pmdIdlePtes) (gpaToHva : ℕ) :
    call.pages gpaToHva = [(call.type, call.hva gpaToHva)] := by
  rw [PageCall.pages, if_neg hhole, if_neg hptes]

theorem SameRead.setLastVa {old eic : EptIdleCtrl} (h : SameRead old eic) (val : ℕ) :
    SameRead old (eic.setLastVa val) :=
  ⟨h.buf, h.bufSize, h.pieReadMax, h.gpaToHva, h.flags⟩

section Call

variable {old eic : EptIdleCtrl} {va base : ℕ} {tokens : List PipToken}

theorem Filled.setLastVa (filled : Filled old va base tokens eic) (val : ℕ) :
    Filled old va base tokens (eic.setLastVa val) :=
  ⟨filled.toSameRead.setLastVa val, ⟨filled.streams.kpie_eq, filled.streams.valid,
    filled.streams.last, filled.streams.cursor⟩, filled.nextHva_of_nil, filled.lt_nextHva⟩

/-- What an accepted call leaves: its pages are reported, and the restart is behind
its page. -/
structure Accepted (old : EptIdleCtrl) (va base : ℕ) (tokens : List PipToken)
    (eic : EptIdleCtrl) (call : PageCall) (tokens' : List PipToken) (eic' : EptIdleCtrl) :
    Prop where
  filled : Filled old va base tokens' eic'
  reported_eq : reported va tokens' = reported va tokens ++ call.pages 0
  restartGpa : eic'.restartGpa = roundDown call.addr call.type.size + call.type.size
  nextHva : eic'.nextHva = eic'.restartGpa ∨ eic'.nextHva = eic.nextHva

/-- What a refused call leaves: the restart is at its page. -/
structure Refused (old : EptIdleCtrl) (va base : ℕ) (tokens : List PipToken)
    (eic : EptIdleCtrl) (call : PageCall) (eic' : EptIdleCtrl) : Prop where
  filled : Filled old va base tokens eic'
  ne_nil : tokens ≠ []
  restartGpa : eic'.restartGpa = call.addr
  nextHva : eic'.nextHva = eic.nextHva

/-- A call where addresses are as they are in the task. -/
theorem Filled.addPage (filled : Filled old va base tokens eic) (hgpa : old.gpaToHva = 0)
    (hroom : 8 + 2 < ulongOfSigned old.pieReadMax) {call : PageCall} (hok : call.Ok)
    (hend : roundDown call.addr call.type.size + call.type.size < 2 ^ 64)
    (hbase : base ≤ call.addr)
    (haligned : ¬Fresh eic call → call.addr % call.type.size = 0) {r : EptIdleCtrl × ℕ}
    (hcall : AddPage eic call r) :
    (r.2 = 0 → ∃ tokens', Accepted old va base tokens eic call tokens' r.1) ∧
      (r.2 ≠ 0 → Refused old va base tokens eic call r.1) := by
  have hgpa' : eic.gpaToHva = 0 := filled.gpaToHva.trans hgpa
  obtain ⟨-, tokens', hstreams, hreported, hnil, -⟩ :=
    eicAddPage_streams filled.streams hok haligned hcall
  rw [hgpa'] at hreported
  have hsame := filled.toSameRead.addPage hcall
  have hsize := ProcIdlePageType.size_eq hok.type_ne
  have hround : roundUp call.next call.type.size =
      roundDown call.addr call.type.size + call.type.size := by
    have hle := hok.next_le
    rw [hsize] at hle hend ⊢
    rw [roundUp_of_mem call.type.shift_le hok.addr_lt hok.next_lt hle, ulong_of_lt hend]
  refine ⟨fun hret => ?_, fun hret => ?_⟩
  · obtain ⟨hrestart, hcursor⟩ := hcall.cursors hret
    rw [hround] at hrestart
    rw [if_pos hret] at hreported
    have hnext : r.1.nextHva = r.1.restartGpa ∨
        r.1.nextHva = eic.nextHva ∧ r.1.kpie = eic.kpie := by
      refine hcursor.imp (fun h => ?_) fun h => ⟨h.1, h.2.1⟩
      rw [h, hround, hgpa', Nat.add_zero, ulong_of_lt hend, hrestart]
    refine ⟨tokens', ⟨hsame, hstreams, fun h => ?_, fun hne => ?_⟩, hreported, hrestart,
      hnext.imp_right And.left⟩
    · obtain ⟨h0, h1⟩ := hnil h
      exact h1.trans (filled.nextHva_of_nil h0)
    · rcases hnext with h | ⟨h, hkpie⟩
      · have := hok.addr_lt
        have := hok.next_le
        omega
      · refine (filled.lt_nextHva fun h0 => hne ?_).trans_eq h.symm
        rw [← hstreams.pieRead_eq_zero, EptIdleCtrl.pieRead, hkpie, ← EptIdleCtrl.pieRead]
        exact filled.streams.pieRead_eq_zero.mpr h0
  · obtain ⟨hread, hr⟩ := hcall.refused (filled.pieReadMax ▸ hroom) hret
    have hne : tokens ≠ [] := fun h => hread (filled.streams.pieRead_eq_zero.mpr h)
    rw [hr]
    exact ⟨⟨filled.toSameRead.setRestartGpa _, filled.streams.setRestartGpa _,
      fun h => absurd h hne, filled.lt_nextHva⟩, hne, rfl, rfl⟩

end Call

/-! ### The page in question -/

/-- The VMAs that a scan walks. -/
def VmArea.Walked (vma : VmArea) : Prop := mmIdleTestWalk vma = 0 ∧ vma.hugetlb = false

instance (vma : VmArea) : Decidable vma.Walked := inferInstanceAs (Decidable (_ ∧ _))

/-- What the kernel keeps to: the VMAs are ranges of pages in the address space of the
task, in ascending order; and the address space ends 1G below that of the machine. -/
structure Mm.Ok (mm : Mm) : Prop where
  vmStart_dvd : ∀ vma ∈ mm.mmap, 2 ^ 12 ∣ vma.vmStart
  vmEnd_dvd : ∀ vma ∈ mm.mmap, 2 ^ 12 ∣ vma.vmEnd
  vmStart_lt : ∀ vma ∈ mm.mmap, vma.vmStart < vma.vmEnd
  vmEnd_le : ∀ vma ∈ mm.mmap, vma.vmEnd ≤ mm.taskSize
  ascending : mm.mmap.Pairwise fun vma vma' => vma.vmEnd ≤ vma'.vmStart
  taskSize_lt : mm.taskSize + 2 ^ 30 < 2 ^ 64

/-- The VMAs share no address. -/
def VmArea.Apart (vma vma' : VmArea) : Prop :=
  vma.vmEnd ≤ vma'.vmStart ∨ vma'.vmEnd ≤ vma.vmStart

instance : Std.Symm VmArea.Apart := ⟨fun _ _ h => h.symm⟩

theorem Mm.Ok.apart {mm : Mm} (hmm : mm.Ok) {vma vma' : VmArea} (hmem : vma ∈ mm.mmap)
    (hmem' : vma' ∈ mm.mmap) (hne : vma ≠ vma') : vma.Apart vma' := by
  have hpairwise : mm.mmap.Pairwise VmArea.Apart := hmm.ascending.imp Or.inl
  exact List.Pairwise.forall hpairwise hmem hmem' hne

theorem Mm.Ok.eq_of_mem {mm : Mm} (hmm : mm.Ok) {vma vma' : VmArea} (hmem : vma ∈ mm.mmap)
    (hmem' : vma' ∈ mm.mmap) {x : ℕ} (hx : vma.vmStart ≤ x ∧ x < vma.vmEnd)
    (hx' : vma'.vmStart ≤ x ∧ x < vma'.vmEnd) : vma = vma' := by
  by_contra hne
  rcases hmm.apart hmem hmem' hne with h | h <;> omega

/-- A page of a task: its VMA, its address, and its size as a shift. -/
structure MmPage where
  vma : VmArea
  addr : ℕ
  shift : ℕ

namespace MmPage

/-- The page lies in its VMA, and is present. -/
structure Present (page : MmPage) (pt : PageTable) : Prop where
  start_le : page.vma.vmStart ≤ page.addr
  le_end : page.addr + 2 ^ page.shift ≤ page.vma.vmEnd
  present : pt.PresentPage page.shift page.addr

theorem Present.mem_vma {page : MmPage} {pt : PageTable} (h : page.Present pt) :
    page.vma.vmStart ≤ page.addr ∧ page.addr < page.vma.vmEnd := by
  have := Nat.two_pow_pos page.shift
  have := h.le_end
  exact ⟨h.start_le, by omega⟩

/-- The page is among those reported, with its size. -/
def Reported (page : MmPage) (pages : List (ProcIdlePageType × ℕ)) : Prop :=
  ∃ type, (type, page.addr) ∈ pages ∧ type.shift = page.shift

instance (page : MmPage) (pages : List (ProcIdlePageType × ℕ)) :
    Decidable (page.Reported pages) :=
  decidable_of_iff (∃ p ∈ pages, p.2 = page.addr ∧ p.1.shift = page.shift)
    ⟨fun ⟨p, hp, haddr, hshift⟩ => ⟨p.1, haddr ▸ hp, hshift⟩,
      fun ⟨type, hp, hshift⟩ => ⟨(type, page.addr), hp, rfl, hshift⟩⟩

theorem Reported.append_right {page : MmPage} {pages : List (ProcIdlePageType × ℕ)}
    (h : page.Reported pages) (pages' : List (ProcIdlePageType × ℕ)) :
    page.Reported (pages ++ pages') := by
  obtain ⟨type, hmem, hshift⟩ := h
  exact ⟨type, List.mem_append_left _ hmem, hshift⟩

theorem Reported.append_left {page : MmPage} {pages : List (ProcIdlePageType × ℕ)}
    (h : page.Reported pages) (pages' : List (ProcIdlePageType × ℕ)) :
    page.Reported (pages' ++ pages) := by
  obtain ⟨type, hmem, hshift⟩ := h
  exact ⟨type, List.mem_append_right _ hmem, hshift⟩

end MmPage

namespace MmWalk

/-- How a walk that starts with `w` may pass a page without looking at it: as the last
region looked at is that of the page, or will be when the walk comes to the page; or as
a 1G page in front of it is taken for the last one, which ends the walk. -/
inductive Skips (mm : Mm) (w : MmWalk) (page : MmPage) : Prop
  | lastRegion (region : w.scan.eic.lastVa >>> 21 = page.addr >>> 21) : Skips mm w page
  | sharedRegion (flags : w.scan.eic.flags.hugePage = false) (vma : VmArea) (mem : vma ∈ mm.mmap)
      (walked : vma.Walked) (start_lt : w.start < vma.vmEnd) (le_addr : vma.vmEnd ≤ page.addr)
      (region : (vma.vmEnd - 1) >>> 21 = page.addr >>> 21) : Skips mm w page
  | lastHuge (x : ℕ) (start_le : w.start ≤ x) (lt_addr : x < page.addr) (vma : VmArea)
      (mem : vma ∈ mm.mmap) (walked : vma.Walked) (vmStart_le : vma.vmStart ≤ x)
      (lt_vmEnd : x < vma.vmEnd) (there : ¬w.scan.pt.Missing x)
      (huge : (w.scan.pt.pud (x >>> 30)).huge = true)
      (last : w.scan.eic.lastVa >>> 30 = x >>> 30) : Skips mm w page

/-- An iteration loses a page ahead of it that its walk passes in such a way. -/
def Loses (mm : Mm) (stop : ℕ) (w : MmWalk) (page : MmPage) : Prop :=
  w.start ≤ page.addr ∧ page.addr < stop ∧ w.Skips mm page

/-! ### The invariant -/

/-- The state in which a walk starts: the buffer is empty, with room for a first page,
and the cursors are not past the position. -/
structure Ready (w : MmWalk) : Prop where
  kpie_eq : w.scan.eic.kpie = []
  room : 8 + 2 < ulongOfSigned w.scan.eic.pieReadMax
  gpaToHva_eq : w.scan.eic.gpaToHva = 0
  start_dvd : 2 ^ 12 ∣ w.start
  nextHva_le : w.scan.eic.nextHva ≤ w.start
  restart_le : w.scan.eic.restartGpa ≤ w.start
  lastVa_lt : w.scan.eic.lastVa < 2 ^ 64

section Invariant

variable (mm : Mm) (stop va : ℕ) (w : MmWalk) (page : MmPage)

/-- A page ahead of a walk that does not lose it. -/
structure Tracked : Prop where
  mem : page.vma ∈ mm.mmap
  walked : page.vma.Walked
  present : page.Present w.scan.pt
  start_le : w.start ≤ page.addr
  kept : ¬w.Loses mm stop page

/-- What the regions looked at up to `a` leave, the last of them at `last_va`. -/
structure Called (a : ℕ) (eic : EptIdleCtrl) : Prop where
  start_le : w.start ≤ eic.lastVa
  lt : eic.lastVa < a
  nextHva_le : eic.nextHva ≤ eic.restartGpa
  restart_le : eic.restartGpa ≤ (eic.lastVa / 2 ^ 21 + 1) * 2 ^ 21
  restart_dvd : 2 ^ 12 ∣ eic.restartGpa
  table : (w.scan.pt.pud (eic.lastVa >>> 30)).huge = false
  vma : ∃ vma ∈ mm.mmap, vma.Walked ∧ vma.vmStart ≤ eic.lastVa ∧ eic.lastVa < vma.vmEnd

/-- No region was looked at yet. -/
structure Untouched (tokens : List PipToken) (eic : EptIdleCtrl) : Prop where
  tokens_eq : tokens = []
  lastVa_eq : eic.lastVa = w.scan.eic.lastVa
  restart_eq : eic.restartGpa = w.scan.eic.restartGpa

/-- The page is still ahead where the walk has reached `a`. -/
structure Ahead (a : ℕ) (eic : EptIdleCtrl) : Prop where
  le_addr : a ≤ page.addr
  nextHva_le : eic.nextHva ≤ page.addr
  restart_le : eic.restartGpa ≤ page.addr
  region : w.scan.eic.flags.hugePage = true →
    eic.lastVa = w.scan.eic.lastVa ∨ eic.lastVa >>> 21 ≠ page.addr >>> 21

/-- The walk has reached `a`, with `tokens` in the buffer. -/
structure Walking (a : ℕ) (tokens : List PipToken) (s : MmScan) : Prop where
  scanned : w.scan.pt.Scanned s.pt
  start_le : w.start ≤ a
  filled : Filled w.scan.eic va w.start tokens s.eic
  cursors : w.Untouched tokens s.eic ∨ w.Called mm a s.eic
  tracks : w.Tracked mm stop page →
    page.Reported (reported va tokens) ∨ w.Ahead page a s.eic

/-- What the walk leaves for the copy, where it has come to its end or was stopped. -/
structure Left (tokens : List PipToken) (s : MmScan) : Prop where
  scanned : w.scan.pt.Scanned s.pt
  filled : Filled w.scan.eic va w.start tokens s.eic
  restart_lt : s.eic.restartGpa < 2 ^ 64
  lastVa_lt : s.eic.lastVa < 2 ^ 64
  of_ne_nil : tokens ≠ [] → s.eic.nextHva ≤ s.eic.restartGpa ∧ 2 ^ 12 ∣ s.eic.restartGpa
  tracks : w.Tracked mm stop page → page.Reported (reported va tokens) ∨
    s.eic.restartGpa ≤ page.addr ∧ (tokens = [] → stop ≤ page.addr)

/-- What is left of a VMA for a walk, as far as it is in front of the end of the read. -/
structure Part (vma : VmArea) (first last : ℕ) : Prop where
  mem : vma ∈ mm.mmap
  walked : vma.Walked
  first_eq : first = max w.start vma.vmStart
  last_eq : last = min stop vma.vmEnd
  lt : first < last

end Invariant

section Steps

variable {mm : Mm} {stop va : ℕ} {w : MmWalk} {page : MmPage}
variable {tokens : List PipToken} {a b : ℕ} {s : MmScan}

/-- The tracked page is not in what a walk goes over without looking at it. -/
theorem Walking.mono (h : w.Walking mm stop va page a tokens s) (hab : a ≤ b)
    (hpage : w.Tracked mm stop page → w.Ahead page a s.eic → b ≤ page.addr) :
    w.Walking mm stop va page b tokens s := by
  refine ⟨h.scanned, h.start_le.trans hab, h.filled, h.cursors.imp_right fun called => ?_,
    fun tracked => (h.tracks tracked).imp_right fun ahead => ?_⟩
  · exact ⟨called.start_le, called.lt.trans_le hab, called.nextHva_le, called.restart_le,
      called.restart_dvd, called.table, called.vma⟩
  · exact ⟨hpage tracked ahead, ahead.nextHva_le, ahead.restart_le, ahead.region⟩

theorem Called.lastVa_lt (called : w.Called mm a s.eic) (hmm : mm.Ok) :
    s.eic.lastVa + 2 ^ 30 < 2 ^ 64 := by
  obtain ⟨vma, hmem, -, -, hlt⟩ := called.vma
  have := hmm.vmEnd_le vma hmem
  have := hmm.taskSize_lt
  omega

/-- Where a walk starts. -/
theorem Ready.walking (hw : w.Ready) : w.Walking mm stop va page w.start [] w.scan := by
  refine ⟨.refl _, le_rfl, ⟨⟨rfl, rfl, rfl, rfl, rfl⟩, ⟨hw.kpie_eq, by simp, Or.inl rfl,
    fun h => absurd rfl h⟩, fun _ => rfl, fun h => absurd rfl h⟩, Or.inl ⟨rfl, rfl, rfl⟩,
    fun tracked => Or.inr ?_⟩
  exact ⟨tracked.start_le, hw.nextHva_le.trans tracked.start_le,
    hw.restart_le.trans tracked.start_le, fun _ => Or.inl rfl⟩

/-- Where a walk ends, with the page behind it. -/
theorem Walking.leave (hmm : mm.Ok) (hw : w.Ready) (hstart : w.start < 2 ^ 64)
    (h : w.Walking mm stop va page a tokens s)
    (htracks : w.Tracked mm stop page → w.Ahead page a s.eic → tokens = [] → stop ≤ page.addr) :
    w.Left mm stop va page tokens s := by
  have htracks : w.Tracked mm stop page → page.Reported (reported va tokens) ∨
      s.eic.restartGpa ≤ page.addr ∧ (tokens = [] → stop ≤ page.addr) :=
    fun tracked => (h.tracks tracked).imp_right fun ahead =>
      ⟨ahead.restart_le, htracks tracked ahead⟩
  rcases h.cursors with untouched | called
  · refine ⟨h.scanned, h.filled, ?_, ?_, fun hne => absurd untouched.tokens_eq hne, htracks⟩
    · rw [untouched.restart_eq]
      exact hw.restart_le.trans_lt hstart
    · rw [untouched.lastVa_eq]
      exact hw.lastVa_lt
  · have hlast := called.lastVa_lt hmm
    refine ⟨h.scanned, h.filled, ?_, ?_, fun _ => ⟨called.nextHva_le, called.restart_dvd⟩,
      htracks⟩
    · have := called.restart_le
      omega
    · omega

/-- A region that is new to the walk is behind all that was reported. -/
theorem Walking.behind (h : w.Walking mm stop va page a tokens s) (hw : w.Ready) {k : ℕ}
    (hk : 21 ≤ k) (hnew : s.eic.lastVa >>> k ≠ a >>> k) :
    s.eic.nextHva ≤ a ∧ (tokens ≠ [] → s.eic.nextHva = a → a % 2 ^ k = 0) := by
  rcases h.cursors with untouched | called
  · refine ⟨?_, fun hne => absurd untouched.tokens_eq hne⟩
    rw [h.filled.nextHva_of_nil untouched.tokens_eq]
    exact hw.nextHva_le.trans h.start_le
  · rw [Nat.shiftRight_eq_div_pow, Nat.shiftRight_eq_div_pow] at hnew
    have hdiv : s.eic.lastVa / 2 ^ k < a / 2 ^ k :=
      lt_of_le_of_ne (Nat.div_le_div_right called.lt.le) hnew
    have hblock : (s.eic.lastVa / 2 ^ 21 + 1) * 2 ^ 21 ≤ a / 2 ^ k * 2 ^ k :=
      block_end_le hk ((Nat.div_lt_iff_lt_mul (Nat.two_pow_pos k)).mp hdiv)
    have hle := (called.nextHva_le.trans called.restart_le).trans hblock
    have hdown := Nat.div_mul_le_self a (2 ^ k)
    refine ⟨hle.trans hdown, fun _ heq => Nat.mod_eq_zero_of_dvd ?_⟩
    rw [← le_antisymm hdown (heq ▸ hle)]
    exact Nat.dvd_mul_left _ _

end Steps

end MmWalk

end MemoryOptimizer
