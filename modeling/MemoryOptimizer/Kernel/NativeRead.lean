import MemoryOptimizer.Kernel.NativeVmas
import MemoryOptimizer.Kernel.ReadProtocol

/-!
# The coverage of a scan of a task

`mm_idle_walk_range` walks, copies and goes on at `restart_gpa`.  A page that no
iteration passes without looking at it (`MmWalk.Loses`) is reported, or is ahead.

* `MmReading.iterate` — what an iteration leaves, from its walk and its copy.
* `mmIdleWalkLoop_isSome`, `mmIdleWalkLoop_delivers` — the loop ends, and delivers a
  page that it does not lose, if its cursor is behind the page.
* `mmIdleRead_reports` — a read reports the present pages of the range it covers.
* `mmIdleRead_unreported` — two VMAs in one region: the pages of the second one are
  lost.
-/

namespace MemoryOptimizer

/-! ### The copy -/

section Copy

variable (copyFails : ℕ → Bool) (eic : EptIdleCtrl) (start stop : ℕ)

theorem reportTailHole_cursors :
    (reportTailHole eic start stop).lastVa = eic.lastVa ∧
      (reportTailHole eic start stop).restartGpa = eic.restartGpa ∧
      (reportTailHole eic start stop).gpaToHva = eic.gpaToHva := by
  unfold reportTailHole
  split <;> exact ⟨rfl, rfl, rfl⟩

/-- The copy leaves the cursors of the walk as they are. -/
theorem eptIdleCopyUser_cursors :
    (eptIdleCopyUser copyFails eic start stop).1.lastVa = eic.lastVa ∧
      (eptIdleCopyUser copyFails eic start stop).1.restartGpa = eic.restartGpa ∧
      (eptIdleCopyUser copyFails eic start stop).1.gpaToHva = eic.gpaToHva := by
  unfold eptIdleCopyUser
  dsimp only
  generalize (if decide (eic.pieRead = 0) = true ∧ start < stop then stop else start) = start'
  have htail := reportTailHole_cursors eic start' stop
  split_ifs <;> exact htail

end Copy

/-! ### An iteration -/

/-- The state between two iterations of a read at `ppos`, which began with the page
table `pt`, where `tokens` have been delivered. -/
structure MmReading (pt : PageTable) (tokens : List PipToken) (w : MmWalk) : Prop
    extends w.Ready where
  scanned : pt.Scanned w.scan.pt
  buf_eq : w.scan.eic.buf = pipBytes tokens
  valid : ∀ token ∈ tokens, token.Valid

/-- The page is ahead of the walk and of the cursor. -/
def MmWalk.AheadOf (w : MmWalk) (page : MmPage) : Prop :=
  w.start ≤ page.addr ∧ w.scan.eic.nextHva ≤ page.addr

/-- What an iteration does after `tokens` have been delivered: its chunk follows
them unless the copy fails, and a page that is tracked is in the chunk, or still
ahead. -/
structure MmIteration (mm : Mm) (stop ppos : ℕ) (pt : PageTable) (page : MmPage) (w : MmWalk)
    (tokens chunk : List PipToken) (r : MmWalk × ℤ) : Prop where
  ne_nil : chunk ≠ []
  valid : ∀ token ∈ tokens ++ chunk, token.Valid
  bufSize : r.1.scan.eic.bufSize = w.scan.eic.bufSize
  failed : mm.copyFails w.scan.eic.bytesCopied = true →
    r.2 = -efault ∧ r.1.scan.eic.buf = pipBytes tokens
  delivered : mm.copyFails w.scan.eic.bytesCopied = false →
    r.1.scan.eic.buf = pipBytes (tokens ++ chunk)
  next : mm.copyFails w.scan.eic.bytesCopied = false → r.2 = 0 →
    MmReading pt (tokens ++ chunk) r.1 ∧ (r.1.scan.eic.bytesCopied : ℤ) < r.1.scan.eic.bufSize
  tracks : w.Tracked mm stop page →
    page.Reported (reported ppos (tokens ++ chunk)) ∨ r.1.AheadOf page

section Step

variable {mm : Mm} {stop ppos : ℕ} {pt : PageTable} {page : MmPage} {tokens : List PipToken}
variable {w : MmWalk}

theorem MmReading.iterate (hmm : mm.Ok) (hstop : 2 ^ 12 ∣ stop) (hstop_lt : stop < 2 ^ 64)
    (hshift : 39 ≤ pt.pgdirShift ∧ pt.pgdirShift < 64) (ppos : ℕ) (page : MmPage)
    (hw : MmReading pt tokens w) (hlt : w.start < stop) :
    ∃ chunk, MmIteration mm stop ppos pt page w tokens chunk (w.iterate mm stop) := by
  rw [← hw.scanned.pgdirShift] at hshift
  obtain ⟨reports, left⟩ := MmWalk.walk_left (cursorAfter ppos tokens) page hmm hw.toReady hstop
    hstop_lt hshift hlt
  unfold MmWalk.iterate
  generalize w.walk mm stop = s at left
  have hnil : reports = [] → s.eic.nextHva < max s.eic.restartGpa stop := by
    intro h
    rw [left.filled.nextHva_of_nil h]
    exact (hw.nextHva_le.trans_lt hlt).trans_le (le_max_right _ _)
  obtain ⟨chunk, copied⟩ := eptIdleCopyUser_spec mm.copyFails left.filled.streams
    left.restart_lt hstop_lt hnil
  obtain ⟨hlastVa, hrestart, hgpa⟩ :=
    eptIdleCopyUser_cursors mm.copyFails s.eic s.eic.restartGpa stop
  show ∃ chunk, MmIteration mm stop ppos pt page w tokens chunk
    (⟨s.eic.restartGpa, ⟨s.pt, (eptIdleCopyUser mm.copyFails s.eic s.eic.restartGpa stop).1⟩⟩,
      (eptIdleCopyUser mm.copyFails s.eic s.eic.restartGpa stop).2)
  generalize eptIdleCopyUser mm.copyFails s.eic s.eic.restartGpa stop = r at *
  have hbuf : s.eic.buf = pipBytes tokens := left.filled.buf.trans hw.buf_eq
  have hbytes : s.eic.bytesCopied = w.scan.eic.bytesCopied := by
    rw [EptIdleCtrl.bytesCopied, left.filled.buf]
    rfl
  have hvalid : ∀ token ∈ tokens ++ chunk, token.Valid := by
    intro token htoken
    rcases List.mem_append.mp htoken with h | h
    · exact hw.valid token h
    · exact copied.valid token h
  have hle : reports ≠ [] → r.1.nextHva ≤ s.eic.restartGpa := fun h =>
    copied.cursor_le h (left.of_ne_nil h).1
  have hdelivered : mm.copyFails s.eic.bytesCopied = false →
      r.1.buf = pipBytes (tokens ++ chunk) := by
    intro h
    rw [(copied.delivered h).1, hbuf, pipBytes_append]
  rw [hbytes] at hdelivered
  refine ⟨chunk, copied.ne_nil, hvalid, copied.bufSize.trans left.filled.bufSize, ?_, hdelivered,
    ?_, fun tracked => ?_⟩
  · rw [← hbytes]
    exact fun h => ⟨(copied.failed h).1, (copied.failed h).2.trans hbuf⟩
  · intro h hret
    obtain ⟨hne, hroom, hempty, hmax⟩ := copied.next (hbytes ▸ h) hret
    refine ⟨⟨⟨hempty, hmax, ?_, (left.of_ne_nil hne).2, hle hne, hrestart.le, ?_⟩, ?_,
      hdelivered h, hvalid⟩, hroom⟩
    · exact hgpa.trans (left.filled.gpaToHva.trans hw.gpaToHva_eq)
    · exact hlastVa.trans_lt left.lastVa_lt
    · exact hw.scanned.trans left.scanned
  · rw [reported_append, copied.reported_eq]
    rcases left.tracks tracked with hreported | ⟨hahead, hend⟩
    · exact Or.inl (hreported.append_left _)
    · refine Or.inr ⟨hahead, ?_⟩
      by_cases h : reports = []
      · exact (copied.cursor_of_nil h).trans_le (max_le hahead (hend h))
      · exact (hle h).trans hahead

end Step

/-! ### The loop -/

/-- No iteration of the loop loses the page. -/
def MmKept (mm : Mm) (stop : ℕ) (w : MmWalk) (page : MmPage) : Prop :=
  ∀ n, ComesTo (fun w : MmWalk => w.start < stop) (MmWalk.iterate mm stop) w n →
    ¬(mmIdleWalkLoop mm stop n w).1.Loses mm stop page

/-- No copy to the user fails after one that has succeeded. -/
def MmNoLateFault (mm : Mm) (stop : ℕ) (w : MmWalk) : Prop :=
  ∀ n, ComesTo (fun w : MmWalk => w.start < stop) (MmWalk.iterate mm stop) w n →
    (mmIdleWalkLoop mm stop n w).1.scan.eic.bytesCopied ≠ 0 →
      mm.copyFails (mmIdleWalkLoop mm stop n w).1.scan.eic.bytesCopied = false

/-- What has been delivered where the loop ends: the page, if the cursor is behind it. -/
structure MmDelivers (ppos : ℕ) (page : MmPage) (tokens : List PipToken) (w : MmWalk) (ret : ℤ) :
    Prop where
  valid : ∀ token ∈ tokens, token.Valid
  buf_eq : w.scan.eic.buf = pipBytes tokens
  ret : tokens = [] → ret ≠ 0
  reported : tokens ≠ [] → page.addr + 2 ^ page.shift ≤ w.scan.eic.nextHva →
    page.Reported (reported ppos tokens)

section Loop

variable {mm : Mm} {stop ppos : ℕ} {pt : PageTable} {page : MmPage} {tokens : List PipToken}
variable {w : MmWalk}

theorem mmKept_step (hlt : w.start < stop) : MmKept mm stop w page ↔
    ¬w.Loses mm stop page ∧
      ((w.iterate mm stop).2 = 0 → MmKept mm stop (w.iterate mm stop).1 page) :=
  forall_iteration (s := w) hlt fun w => ¬w.Loses mm stop page

theorem mmNoLateFault_step (hlt : w.start < stop) : MmNoLateFault mm stop w ↔
    (w.scan.eic.bytesCopied ≠ 0 → mm.copyFails w.scan.eic.bytesCopied = false) ∧
      ((w.iterate mm stop).2 = 0 → MmNoLateFault mm stop (w.iterate mm stop).1) :=
  forall_iteration (s := w) hlt fun w : MmWalk =>
    w.scan.eic.bytesCopied ≠ 0 → mm.copyFails w.scan.eic.bytesCopied = false

theorem MmReading.bytesCopied_eq_zero (hw : MmReading pt tokens w) :
    w.scan.eic.bytesCopied = 0 ↔ tokens = [] := by
  rw [EptIdleCtrl.bytesCopied, hw.buf_eq, List.length_eq_zero_iff, pipBytes_eq_nil]

theorem MmIteration.fails {chunk : List PipToken} {r : MmWalk × ℤ}
    (step : MmIteration mm stop ppos pt page w tokens chunk r) (hgo : r.2 = 0) :
    mm.copyFails w.scan.eic.bytesCopied = false := by
  by_contra h
  have := (step.failed (by simpa using h)).1
  rw [hgo] at this
  exact absurd this (by decide)

/-- Every iteration that goes on has copied at least one byte more, and the buffer of
the user is not full yet. -/
theorem mmIdleWalkLoop_isSome (hmm : mm.Ok) (hstop : 2 ^ 12 ∣ stop) (hstop_lt : stop < 2 ^ 64)
    (hshift : 39 ≤ pt.pgdirShift ∧ pt.pgdirShift < 64) (hw : MmReading pt tokens w) {fuel : ℕ}
    (hpos : 0 < fuel) (hfuel : w.scan.eic.bufSize ≤ fuel) :
    ∃ ret, (mmIdleWalkLoop mm stop fuel w).2 = some ret := by
  refine loopUntilRet_isSome (I := fun w => ∃ tokens, MmReading pt tokens w)
    (fun w => (w.scan.eic.bufSize - w.scan.eic.bytesCopied).toNat - 1) ⟨tokens, hw⟩
    (fun w ⟨tokens, hw⟩ hlt hgo => ?_) (by omega)
  obtain ⟨chunk, step⟩ :=
    hw.iterate hmm hstop hstop_lt hshift 0 ⟨⟨0, 0, false, false, false, false⟩, 0, 0⟩ hlt
  have hfails := step.fails hgo
  obtain ⟨hnext, hroom⟩ := step.next hfails hgo
  refine ⟨⟨_, hnext⟩, ?_⟩
  have hbytes : w.scan.eic.bytesCopied < (w.iterate mm stop).1.scan.eic.bytesCopied := by
    have hchunk : 0 < (pipBytes chunk).length :=
      List.length_pos_iff.mpr (mt pipBytes_eq_nil.mp step.ne_nil)
    simp only [EptIdleCtrl.bytesCopied, hw.buf_eq, step.delivered hfails, pipBytes_append,
      List.length_append]
    omega
  have hsize := step.bufSize
  omega

/-- What the loop keeps of a page that is not lost behind an iteration. -/
structure MmKeeps (mm : Mm) (stop ppos : ℕ) (pt : PageTable) (page : MmPage)
    (tokens : List PipToken) (w : MmWalk) : Prop extends MmReading pt tokens w where
  goes : w.start < stop ∨ tokens ≠ []
  tracks : page.Reported (reported ppos tokens) ∨ w.AheadOf page
  kept : MmKept mm stop w page
  late : MmNoLateFault mm stop w

/-- The loop delivers a page that it keeps. -/
theorem mmIdleWalkLoop_delivers (hmm : mm.Ok) (hstop : 2 ^ 12 ∣ stop) (hstop_lt : stop < 2 ^ 64)
    (hshift : 39 ≤ pt.pgdirShift ∧ pt.pgdirShift < 64) (hmem : page.vma ∈ mm.mmap)
    (hwalked : page.vma.Walked) (hpage : page.Present pt)
    (hw : MmKeeps mm stop ppos pt page tokens w) {fuel : ℕ} {ret : ℤ}
    (hret : (mmIdleWalkLoop mm stop fuel w).2 = some ret) :
    ∃ tokens, MmDelivers ppos page tokens (mmIdleWalkLoop mm stop fuel w).1 ret := by
  have hahead : ∀ w : MmWalk, w.AheadOf page →
      ¬page.addr + 2 ^ page.shift ≤ w.scan.eic.nextHva := by
    intro w h hle
    have := Nat.two_pow_pos page.shift
    have := h.2
    omega
  -- the tracked page is in the chunk of an iteration, or ahead of the next one
  have hstep : ∀ tokens w, MmKeeps mm stop ppos pt page tokens w → w.start < stop →
      ∃ chunk, MmIteration mm stop ppos pt page w tokens chunk (w.iterate mm stop) ∧
        (page.Reported (reported ppos (tokens ++ chunk)) ∨
          (w.iterate mm stop).1.AheadOf page) := by
    intro tokens w hw hlt
    obtain ⟨chunk, step⟩ := hw.iterate hmm hstop hstop_lt hshift ppos page hlt
    refine ⟨chunk, step, ?_⟩
    rcases hw.tracks with hreported | hahead
    · rw [reported_append]
      exact Or.inl (hreported.append_right _)
    · exact step.tracks ⟨hmem, hwalked, ⟨hpage.start_le, hpage.le_end,
        hw.scanned.presentPage hpage.present⟩, hahead.1, ((mmKept_step hlt).mp hw.kept).1⟩
  refine loopUntilRet_rule (I := fun w => ∃ tokens, MmKeeps mm stop ppos pt page tokens w)
    (Q := fun w ret => ∃ tokens, MmDelivers ppos page tokens w ret) ⟨tokens, hw⟩
    (fun w ⟨tokens, hw⟩ hstay => ?_) (fun w ⟨tokens, hw⟩ hlt hgo => ?_)
    (fun w ⟨tokens, hw⟩ hlt hlast => ?_) hret
  · have hne := hw.goes.resolve_left hstay
    exact ⟨tokens, hw.valid, hw.buf_eq, fun h => absurd h hne, fun _ hcursor =>
      hw.tracks.resolve_right fun h => hahead w h hcursor⟩
  · obtain ⟨chunk, step, htracks⟩ := hstep tokens w hw hlt
    have hnext := (step.next (step.fails hgo) hgo).1
    exact ⟨tokens ++ chunk, hnext, Or.inr fun h => step.ne_nil (List.append_eq_nil_iff.mp h).2,
      htracks, ((mmKept_step hlt).mp hw.kept).2 hgo, ((mmNoLateFault_step hlt).mp hw.late).2 hgo⟩
  · obtain ⟨chunk, step, htracks⟩ := hstep tokens w hw hlt
    cases hfails : mm.copyFails w.scan.eic.bytesCopied with
    | true =>
        -- only the first copy of a read may fail
        have hnil : tokens = [] := by
          by_contra h
          have := ((mmNoLateFault_step hlt).mp hw.late).1 (mt hw.bytesCopied_eq_zero.mp h)
          exact Bool.noConfusion (hfails.symm.trans this)
        subst hnil
        exact ⟨[], hw.valid, (step.failed hfails).2, fun _ => hlast, fun h => absurd rfl h⟩
    | false =>
        have hne : tokens ++ chunk ≠ [] := fun h => step.ne_nil (List.append_eq_nil_iff.mp h).2
        exact ⟨tokens ++ chunk, step.valid, step.delivered hfails, fun h => absurd h hne,
          fun _ hcursor => htracks.resolve_right fun h => hahead _ h hcursor⟩

end Loop

/-! ### The read -/

/-- The pages that the decoder calls for, of a read at `ppos`. -/
def MmReadResult.pages (r : MmReadResult) (ppos : ℕ) : List (ProcIdlePageType × ℕ) :=
  ((parseIdlepages r.buf ppos (2 ^ 64) r.buf.length).map fun parsed =>
    parsed.2.flatMap RefCall.pages).getD []

section Read

variable {ppos : ℕ} {page : MmPage} {tokens : List PipToken} {w : MmWalk}

/-- The state in which the loop of a read starts. -/
theorem mmWalkStart_reading (eic : EptIdleCtrl) (pt : PageTable) (flags : ScanFlags) (count : ℕ)
    (hpos : 2 ^ 12 ∣ ppos) (hret : (mmWalkStart eic pt flags count ppos).2 = 0) :
    MmReading pt [] (mmWalkStart eic pt flags count ppos).1 := by
  refine ⟨⟨rfl, ?_, rfl, hpos, Nat.zero_le _, Nat.zero_le _, Nat.two_pow_pos 64⟩, .refl pt, rfl,
    by simp⟩
  by_contra hsmall
  have : (mmWalkStart eic pt flags count ppos).2 = 1 := if_pos (not_lt.mp hsmall)
  exact absurd (hret.symm.trans this) zero_ne_one

/-- The end of the range that a read may cover is that of a page. -/
theorem dvd_hvaEnd (hpos : 2 ^ 12 ∣ ppos) (count : ℕ) : 2 ^ 12 ∣ hvaEnd ppos count := by
  rw [hvaEnd, ulong, Nat.shiftLeft_eq]
  omega

/-- The result of a read whose loop has delivered the page. -/
theorem MmDelivers.pages {ret : ℤ} (h : MmDelivers ppos page tokens w ret) (hpos : ppos < 2 ^ 64)
    (hle : ppos ≤ page.addr)
    (hcursor : page.addr + 2 ^ page.shift ≤ (mmReadResult ppos w ret).ppos) :
    page.Reported ((mmReadResult ppos w ret).pages ppos) := by
  have hbytes : w.scan.eic.bytesCopied = 0 ↔ tokens = [] := by
    rw [EptIdleCtrl.bytesCopied, h.buf_eq, List.length_eq_zero_iff, pipBytes_eq_nil]
  unfold mmReadResult at hcursor ⊢
  dsimp only at hcursor ⊢
  by_cases hnil : tokens = []
  · rw [if_neg (not_not.mpr (hbytes.mpr hnil)), if_pos (h.ret hnil)] at hcursor
    have := Nat.two_pow_pos page.shift
    dsimp only at hcursor
    omega
  · rw [if_pos (mt hbytes.mp hnil), if_neg (not_not.mpr rfl)] at hcursor ⊢
    obtain ⟨calls, hparse, hpages⟩ := parseIdlepages_delivered h.valid hpos
    rw [MmReadResult.pages]
    dsimp only
    rw [h.buf_eq, hparse, Option.map_some, Option.getD_some, hpages]
    exact h.reported hnil hcursor

/-- A read of a task reports every present page of a walked VMA in the range that it
moves past, if none of its iterations loses the page, and no copy to the user fails
after one that has succeeded. -/
theorem mmIdleRead_reports (mm : Mm) (eic : EptIdleCtrl) (pt : PageTable) (flags : ScanFlags)
    (count ppos fuel : ℕ) (hmm : mm.Ok) (hpt : pt.pgdirShift = 39 ∨ pt.pgdirShift = 48)
    (hfuel : count ≤ fuel) (page : MmPage) (hmem : page.vma ∈ mm.mmap)
    (hwalked : page.vma.Walked) (hpage : page.Present pt) (hpos : ppos ≤ page.addr)
    (hkept : MmKept mm (hvaEnd ppos count) (mmWalkStart eic pt flags count ppos).1 page)
    (hlate : MmNoLateFault mm (hvaEnd ppos count) (mmWalkStart eic pt flags count ppos).1) :
    ∃ r, mmIdleRead mm eic pt flags count ppos fuel = some r ∧
      (page.addr + 2 ^ page.shift ≤ r.ppos → page.Reported (r.pages ppos)) := by
  have hunmoved : ∀ ret : ℤ,
      page.addr + 2 ^ page.shift ≤ (⟨ret, [], ppos, pt⟩ : MmReadResult).ppos →
      page.Reported ((⟨ret, [], ppos, pt⟩ : MmReadResult).pages ppos) := by
    intro ret h
    have := Nat.two_pow_pos page.shift
    dsimp only at h
    omega
  have hshift : 39 ≤ pt.pgdirShift ∧ pt.pgdirShift < 64 := by omega
  have hpos64 : ppos < 2 ^ 64 := by
    have := hmm.vmEnd_le page.vma hmem
    have := hmm.taskSize_lt
    have := hpage.mem_vma
    omega
  unfold mmIdleRead
  dsimp only
  by_cases hout : hvaEnd ppos count ≤ ppos
  · rw [if_pos hout]
    exact ⟨_, rfl, hunmoved _⟩
  rw [if_neg hout]
  by_cases haligned : ppos &&& (2 ^ 12 - 1) ≠ 0
  · rw [if_pos haligned]
    exact ⟨_, rfl, hunmoved _⟩
  rw [if_neg haligned]
  by_cases hcount : count < eptIdleBufMin
  · rw [if_pos hcount]
    exact ⟨_, rfl, hunmoved _⟩
  rw [if_neg hcount]
  by_cases hret : (mmWalkStart eic pt flags count ppos).2 ≠ 0
  · rw [if_pos hret]
    exact ⟨_, rfl, hunmoved _⟩
  rw [if_neg hret]
  have hdvd : 2 ^ 12 ∣ ppos := by
    rw [Nat.and_two_pow_sub_one_eq_mod] at haligned
    exact Nat.dvd_of_mod_eq_zero (not_not.mp haligned)
  have hstop := dvd_hvaEnd hdvd count
  have hstop_lt : hvaEnd ppos count < 2 ^ 64 := ulong_lt _
  have hreading := mmWalkStart_reading eic pt flags count hdvd (not_not.mp hret)
  have hsize : (mmWalkStart eic pt flags count ppos).1.scan.eic.bufSize ≤ fuel :=
    (show _ = intOfUlong count from rfl).trans_le ((intOfUlong_le count).trans (by omega))
  have hfuel_pos : 0 < fuel := by
    unfold eptIdleBufMin at hcount
    omega
  obtain ⟨ret, hloop⟩ := mmIdleWalkLoop_isSome hmm hstop hstop_lt hshift hreading hfuel_pos hsize
  have hkeeps : MmKeeps mm (hvaEnd ppos count) ppos pt page []
      (mmWalkStart eic pt flags count ppos).1 :=
    ⟨hreading, Or.inl (not_le.mp hout), Or.inr ⟨hpos, Nat.zero_le _⟩, hkept, hlate⟩
  obtain ⟨tokens, delivers⟩ :=
    mmIdleWalkLoop_delivers hmm hstop hstop_lt hshift hmem hwalked hpage hkeeps hloop
  rw [hloop]
  exact ⟨_, rfl, delivers.pages hpos64 hpos⟩

end Read

/-- Tables of accessed pages of 4K. -/
def presentPages : PageTable where
  pgdirShift := 39
  pgdNone := fun _ => false
  p4dNone := fun _ => false
  pud := fun _ => ⟨false, false⟩
  pmd := fun _ => ⟨false, true, false, true⟩
  pte := fun _ => ⟨true, true⟩

/-- A VMA of one page that belongs to no file. -/
def anonymousPage (start : ℕ) : VmArea := ⟨start, start + 2 ^ 12, false, true, false, false⟩

/-- A task with two of them. -/
def twoVmas (second : ℕ) : Mm :=
  ⟨[anonymousPage 0x7f0000000000, anonymousPage second], 0x7ffffffff000, fun _ => false⟩

theorem mmIdleRead_reports_twoVmas :
    ∃ r, mmIdleRead (twoVmas 0x7f0000200000) eptIdleOpen presentPages ⟨false, false, false⟩ 128
        0x7f0000000000 128 = some r ∧
      (0x7f0000200000 + 2 ^ 12 ≤ r.ppos →
        MmPage.Reported ⟨anonymousPage 0x7f0000200000, 0x7f0000200000, 12⟩
          (r.pages 0x7f0000000000)) := by
  -- one walk reports both pages, and the next one finds nothing behind them
  have hlt : (mmWalkStart eptIdleOpen presentPages ⟨false, false, false⟩ 128
      0x7f0000000000).1.start < hvaEnd 0x7f0000000000 128 := by decide +kernel
  have hnext : ((mmWalkStart eptIdleOpen presentPages ⟨false, false, false⟩ 128
      0x7f0000000000).1.iterate (twoVmas 0x7f0000200000)
        (hvaEnd 0x7f0000000000 128)).1.start = 0x7f0000201000 := by decide +kernel
  have hlt' : ((mmWalkStart eptIdleOpen presentPages ⟨false, false, false⟩ 128
      0x7f0000000000).1.iterate (twoVmas 0x7f0000200000)
        (hvaEnd 0x7f0000000000 128)).1.start < hvaEnd 0x7f0000000000 128 := by
    rw [hnext]
    decide +kernel
  have hends : (((mmWalkStart eptIdleOpen presentPages ⟨false, false, false⟩ 128
      0x7f0000000000).1.iterate (twoVmas 0x7f0000200000)
        (hvaEnd 0x7f0000000000 128)).1.iterate (twoVmas 0x7f0000200000)
        (hvaEnd 0x7f0000000000 128)).2 ≠ 0 := by decide +kernel
  refine mmIdleRead_reports (twoVmas 0x7f0000200000) eptIdleOpen presentPages
    ⟨false, false, false⟩ 128 0x7f0000000000 128
    ⟨by decide, by decide, by decide, by decide, by decide, by decide⟩
    (Or.inl rfl) le_rfl ⟨anonymousPage 0x7f0000200000, 0x7f0000200000, 12⟩
    (List.mem_cons_of_mem _ List.mem_cons_self) (by decide)
    ⟨by decide, by decide, by decide, by decide, rfl, rfl, rfl, Or.inl ⟨rfl, rfl, rfl⟩⟩
    (by decide) ?_ ?_
  · refine (mmKept_step hlt).mpr ⟨?_, fun _ => (mmKept_step hlt').mpr ⟨?_, fun h =>
      absurd h hends⟩⟩
    · rintro ⟨-, -, skips⟩
      cases skips with
      | lastRegion region => exact absurd region (by decide +kernel)
      | sharedRegion _ vma mem _ _ le_addr region =>
          rcases List.mem_pair.mp mem with rfl | rfl
          · exact absurd region (by decide)
          · exact absurd le_addr (by decide)
      | lastHuge x _ _ _ _ _ _ _ _ huge => exact Bool.noConfusion huge
    · rintro ⟨hstart, -, -⟩
      rw [hnext] at hstart
      exact absurd hstart (by decide)
  · exact (mmNoLateFault_step hlt).mpr ⟨fun _ => rfl, fun _ =>
      (mmNoLateFault_step hlt').mpr ⟨fun _ => rfl, fun h => absurd h hends⟩⟩

/-- The second page is in the region of the first one, which was the last region
looked at: the read moves past the page, and does not report it. -/
theorem mmIdleRead_unreported :
    (twoVmas 0x7f0000002000).Ok ∧ (anonymousPage 0x7f0000002000).Walked ∧
      MmPage.Present ⟨anonymousPage 0x7f0000002000, 0x7f0000002000, 12⟩ presentPages ∧
      ∃ r, mmIdleRead (twoVmas 0x7f0000002000) eptIdleOpen presentPages ⟨false, false, false⟩ 64
          0x7f0000000000 64 = some r ∧
        0x7f0000002000 + 2 ^ 12 ≤ r.ppos ∧
          ¬MmPage.Reported ⟨anonymousPage 0x7f0000002000, 0x7f0000002000, 12⟩
            (r.pages 0x7f0000000000) := by
  have hread : (mmIdleRead (twoVmas 0x7f0000002000) eptIdleOpen presentPages
      ⟨false, false, false⟩ 64 0x7f0000000000 64).any (fun r => 0x7f0000002000 + 2 ^ 12 ≤ r.ppos ∧
        ¬MmPage.Reported ⟨anonymousPage 0x7f0000002000, 0x7f0000002000, 12⟩
          (r.pages 0x7f0000000000)) = true := by
    decide +kernel
  obtain ⟨r, hr, hlost⟩ := (Option.any_eq_true _ _).mp hread
  exact ⟨⟨by decide, by decide, by decide, by decide, by decide, by decide⟩, by decide,
    ⟨by decide, by decide, by decide, by decide, rfl, rfl, rfl, Or.inl ⟨rfl, rfl, rfl⟩⟩, r, hr,
    of_decide_eq_true hlost⟩

end MemoryOptimizer
