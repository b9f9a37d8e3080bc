import MemoryOptimizer.Kernel.NativeFill

/-!
# The callbacks of a walk of a task

`mm_idle_pmd_entry`, `mm_idle_pte_range` and `mm_idle_pud_entry` keep the invariant
of a walk, in what is left of a VMA.

* `Walking.addRegion` — a region that is reported as a whole.
* `Walking.duplicate` — a region that is passed.
* `PteWalking.range` — the pages of a table, one by one.
* `Walking.part` — what is left of a VMA is walked.
-/

namespace MemoryOptimizer

namespace MmWalk

/-! ### A part of a VMA -/

section Part

variable {mm : Mm} {stop va : ℕ} {w : MmWalk} {page : MmPage} {vma : VmArea}
variable {first last a next : ℕ} {tokens : List PipToken} {s : MmScan}

theorem Part.last_le (part : w.Part mm stop vma first last) (hmm : mm.Ok) :
    last + 2 ^ 30 < 2 ^ 64 := by
  have := hmm.vmEnd_le vma part.mem
  have := hmm.taskSize_lt
  have := part.last_eq.trans_le (min_le_right _ _)
  omega

theorem Part.start_le (part : w.Part mm stop vma first last) : w.start ≤ first :=
  (le_max_left _ _).trans_eq part.first_eq.symm

theorem Part.first_dvd (part : w.Part mm stop vma first last) (hmm : mm.Ok) (hw : w.Ready) :
    2 ^ 12 ∣ first := by
  rw [part.first_eq]
  rcases max_choice w.start vma.vmStart with h | h <;> rw [h]
  · exact hw.start_dvd
  · exact hmm.vmStart_dvd vma part.mem

theorem Part.last_dvd (part : w.Part mm stop vma first last) (hmm : mm.Ok)
    (hstop : 2 ^ 12 ∣ stop) : 2 ^ 12 ∣ last := by
  rw [part.last_eq]
  rcases min_choice stop vma.vmEnd with h | h <;> rw [h]
  · exact hstop
  · exact hmm.vmEnd_dvd vma part.mem

/-- The addresses of a part are in its VMA. -/
theorem Part.mem_vma (part : w.Part mm stop vma first last) {x : ℕ} (hfirst : first ≤ x)
    (hlast : x < last) : vma.vmStart ≤ x ∧ x < vma.vmEnd ∧ x < stop := by
  have := part.first_eq
  have := part.last_eq
  omega

/-- The call for a piece of a part is of one page. -/
theorem Part.callOk (part : w.Part mm stop vma first last) (hmm : mm.Ok)
    {type : ProcIdlePageType} (htype : type ≠ .pipCmd) {k : ℕ} (hshift : type.shift = k)
    (piece : Piece first last k a next) :
    PageCall.Ok ⟨a, next, type⟩ ∧
      roundDown a type.size + type.size = (a / 2 ^ k + 1) * 2 ^ k ∧
      roundDown a type.size + type.size < 2 ^ 64 := by
  subst hshift
  have hlast := part.last_le hmm
  have hlt := piece.lt_stop
  have hsize := ProcIdlePageType.size_eq htype
  have hdown : roundDown a type.size + type.size = (a / 2 ^ type.shift + 1) * 2 ^ type.shift := by
    rw [hsize, roundDown_eq (by omega) type.shift_le, Nat.succ_mul]
  have hpow : type.size ≤ 2 ^ 30 := by
    cases type <;> decide
  have hnext : next < 2 ^ 64 := piece.next_le.trans_lt (by omega)
  refine ⟨⟨htype, piece.lt, hnext, hdown ▸ piece.block⟩, hdown, ?_⟩
  have := roundDown_le a type.size
  omega

/-- A call that is right behind the last run has the address of the cursor. -/
theorem nextHva_of_not_fresh (hw : w.Ready) (filled : Filled w.scan.eic va w.start tokens s.eic)
    {call : PageCall} (hlt : call.addr < 2 ^ 64) (hfresh : ¬Fresh s.eic call) :
    tokens ≠ [] ∧ s.eic.nextHva = call.addr := by
  obtain ⟨hread, hnext⟩ := not_or.mp hfresh
  refine ⟨mt filled.streams.pieRead_eq_zero.mpr hread, ?_⟩
  rw [← not_not.mp hnext, filled.gpaToHva, hw.gpaToHva_eq, Nat.add_zero, ulong_of_lt hlt]

/-- A region that is looked at as a whole. -/
theorem Walking.addRegion (hmm : mm.Ok) (hw : w.Ready) (part : w.Part mm stop vma first last)
    (h : w.Walking mm stop va page a tokens s) {type : ProcIdlePageType} (htype : type ≠ .pipCmd)
    (hshift : type.shift = 21) (piece : Piece first last 21 a next)
    (hnew : s.eic.lastVa >>> 21 ≠ a >>> 21)
    (hhuge : (w.scan.pt.pud (a >>> 30)).huge = false) {pt : PageTable}
    (hscanned : w.scan.pt.Scanned pt)
    (hpages : w.Tracked mm stop page → a ≤ page.addr → page.addr >>> 21 = a >>> 21 →
      page.Reported (PageCall.pages ⟨a, next, type⟩ 0)) :
    Post (fun x t => ∃ tokens, w.Walking mm stop va page x tokens t)
      (fun t => ∃ tokens, w.Left mm stop va page tokens t) next
      (MmScan.addPage ⟨pt, s.eic.setLastVa a⟩ a next type) := by
  obtain ⟨hok, hdown, hend⟩ := part.callOk hmm htype hshift piece
  have hlast := part.last_le hmm
  have hlt := piece.lt_stop
  obtain ⟨hbehind, haligned⟩ := h.behind hw le_rfl hnew
  have hblock : a < (a / 2 ^ 21 + 1) * 2 ^ 21 :=
    (Nat.div_lt_iff_lt_mul (by decide)).mp (Nat.lt_succ_self _)
  have hcall := eicAddPage_cases (s.eic.setLastVa a) ⟨a, next, type⟩
  have hva := hcall.lastVa_eq.trans (EptIdleCtrl.setLastVa_lastVa ..)
  obtain ⟨haccepted, hrefused⟩ := (h.filled.setLastVa a).addPage hw.gpaToHva_eq hw.room hok hend
    h.start_le (fun hfresh => by
      obtain ⟨hne, heq⟩ := nextHva_of_not_fresh (s := ⟨pt, s.eic.setLastVa a⟩) hw
        (h.filled.setLastVa a) (show a < 2 ^ 64 by omega) hfresh
      rw [ProcIdlePageType.size_eq htype, hshift]
      exact haligned hne heq) hcall
  unfold MmScan.addPage
  dsimp only at hcall hva haccepted hrefused ⊢
  generalize eicAddPage (s.eic.setLastVa a) a next type = r at hcall hva haccepted hrefused ⊢
  refine ⟨fun hret => ?_, fun hret => ?_⟩
  · obtain ⟨tokens', acc⟩ := haccepted hret
    have hrestart : r.1.restartGpa = (a / 2 ^ 21 + 1) * 2 ^ 21 := by
      rw [acc.restartGpa, hdown]
    have hle : r.1.nextHva ≤ r.1.restartGpa := by
      rcases acc.nextHva with h | h
      · exact h.le
      · rw [h, hrestart]
        exact hbehind.trans hblock.le
    refine ⟨tokens', hscanned, h.start_le.trans piece.lt.le, acc.filled, Or.inr ?_,
      fun tracked => ?_⟩
    · obtain ⟨hmem1, hmem2, -⟩ := part.mem_vma piece.first_le hlt
      refine ⟨h.start_le.trans_eq hva.symm, hva.trans_lt piece.lt, hle, ?_, ?_, ?_,
        vma, part.mem, part.walked, hmem1.trans_eq hva.symm, hva.trans_lt hmem2⟩
      · rw [hva]
        exact hrestart.le
      · rw [hrestart]
        exact (Nat.pow_dvd_pow 2 (by decide)).trans (Nat.dvd_mul_left _ _)
      · rw [hva]
        exact hhuge
    · rw [acc.reported_eq]
      rcases h.tracks tracked with hrep | ahead
      · exact Or.inl (hrep.append_right _)
      · by_cases hregion : page.addr >>> 21 = a >>> 21
        · exact Or.inl ((hpages tracked ahead.le_addr hregion).append_left _)
        · -- the page is behind the region
          have hpage := block_end_le_of_ne ahead.le_addr hregion
          have hrestart_le := hrestart.trans_le hpage
          refine Or.inr ⟨piece.block.trans hpage, hle.trans hrestart_le, hrestart_le,
            fun _ => Or.inr fun heq => hregion ?_⟩
          rw [← heq, hva]
  · have hrefused := hrefused hret
    have hrestart : r.1.restartGpa = a := hrefused.restartGpa
    refine ⟨tokens, hscanned, hrefused.filled, ?_, ?_, fun _ => ⟨?_, ?_⟩, fun tracked =>
      (h.tracks tracked).imp_right fun ahead => ⟨hrestart.trans_le ahead.le_addr,
        fun hnil => absurd hnil hrefused.ne_nil⟩⟩
    · rw [hrestart]
      omega
    · rw [hva]
      omega
    · exact (hrefused.nextHva.trans_le hbehind).trans_eq hrestart.symm
    · rw [hrestart]
      exact piece.dvd_start (part.first_dvd hmm hw) (Nat.pow_dvd_pow 2 (by decide))

/-- A present page of a region that is looked at as a whole is among its pages. -/
theorem reported_region {pt : PageTable} (hpresent : page.Present pt) (hlt : page.addr < 2 ^ 64)
    {flags : ScanFlags} {entry : PmdEntry} {type : ProcIdlePageType}
    (hentry : entry.present = (pt.pmd (page.addr >>> 21)).present ∧
      entry.large = (pt.pmd (page.addr >>> 21)).large)
    (hscan : (mmScanPmd flags entry).1 = some type) (hle : a ≤ page.addr)
    (hregion : page.addr >>> 21 = a >>> 21) :
    page.Reported (PageCall.pages ⟨a, next, type⟩ 0) := by
  obtain ⟨hdvd, -, -, -, hthere, hleaf⟩ := hpresent.present
  rw [← hentry.1] at hthere
  rw [← hentry.2] at hleaf
  rw [Nat.shiftRight_eq_div_pow, Nat.shiftRight_eq_div_pow] at hregion
  have hdown : roundDown a (2 ^ 21) = page.addr / 2 ^ 21 * 2 ^ 21 := by
    rw [roundDown_eq (hle.trans_lt hlt) (by decide), hregion]
  have hbase := Nat.div_mul_le_self page.addr (2 ^ 21)
  have hhva : type.size = 2 ^ 21 →
      PageCall.hva ⟨a, next, type⟩ 0 = page.addr / 2 ^ 21 * 2 ^ 21 := by
    intro hsize
    rw [PageCall.hva, Nat.add_zero]
    dsimp only
    rw [hsize, hdown, ulong_of_lt (hbase.trans_lt hlt)]
  rcases hleaf with ⟨hshift, hlarge, -⟩ | ⟨hshift, hlarge⟩
  · -- a page of a table, which is reported as a whole
    have htype : type = .pmdIdlePtes := by
      simp only [mmScanPmd, hthere, hlarge] at hscan
      split_ifs at hscan <;> simp_all
    subst htype
    rw [hshift] at hdvd
    obtain ⟨n, hn⟩ := hdvd
    refine ⟨.pteIdle, ?_, hshift.symm⟩
    simp only [PageCall.pages, PageCall.IsHole, reduceCtorEq, or_self, if_false, if_true,
      List.mem_map, List.mem_range, hhva rfl]
    refine ⟨n % 512, Nat.mod_lt _ (by decide), ?_⟩
    have heq : page.addr / 2 ^ 21 * 2 ^ 21 + n % 512 * 2 ^ 12 = page.addr := by omega
    rw [heq, ulong_of_lt hlt]
  · have htype : type = .pmdIdle ∨ type = .pmdAccessed := by
      simp only [mmScanPmd, hthere, hlarge] at hscan
      split_ifs at hscan <;> simp_all
    rw [hshift] at hdvd
    refine ⟨type, ?_, ?_⟩
    · have hsingle : PageCall.pages ⟨a, next, type⟩ 0 =
          [(type, PageCall.hva ⟨a, next, type⟩ 0)] := by
        rcases htype with rfl | rfl <;> rfl
      have hsize : type.size = 2 ^ 21 := by
        rcases htype with rfl | rfl <;> rfl
      rw [hsingle, hhva hsize, Nat.div_mul_cancel hdvd]
      exact List.mem_singleton_self _
    · rcases htype with rfl | rfl <;> exact hshift.symm

/-- A region that is passed as the last one looked at holds no page that is tracked. -/
theorem Walking.duplicate (hmm : mm.Ok) (part : w.Part mm stop vma first last)
    (h : w.Walking mm stop va page a tokens s) (piece : Piece first last 21 a next)
    (hsame : s.eic.lastVa >>> 21 = a >>> 21) : w.Walking mm stop va page next tokens s := by
  refine h.mono piece.lt.le fun tracked ahead => ?_
  by_contra hlt
  have hlt := not_le.mp hlt
  have hle := ahead.le_addr
  have hregion : page.addr >>> 21 = a >>> 21 := piece.index_eq hle hlt
  obtain ⟨hpage1, hpage2, hpage3⟩ :=
    part.mem_vma (piece.first_le.trans hle) (hlt.trans_le piece.next_le)
  have hpage := tracked.present.mem_vma
  have hskips : ¬w.Skips mm page := fun h => tracked.kept ⟨tracked.start_le, hpage3, h⟩
  have hlast : s.eic.lastVa ≠ w.scan.eic.lastVa := fun h =>
    hskips (.lastRegion (h ▸ hsame.trans hregion.symm))
  rcases h.cursors with untouched | called
  · exact hlast untouched.lastVa_eq
  cases hflags : w.scan.eic.flags.hugePage with
  | true => exact ((ahead.region hflags).resolve_left hlast) (hsame.trans hregion.symm)
  | false =>
      obtain ⟨vma', hmem, hwalked, hstart, hend⟩ := called.vma
      have hstart_le := called.start_le
      have hlt_a := called.lt
      obtain rfl : page.vma = vma := hmm.eq_of_mem tracked.mem part.mem hpage ⟨hpage1, hpage2⟩
      by_cases hown : vma' = page.vma
      · -- the part was entered at `a`, in front of the region looked at before
        subst hown
        have hfirst := part.first_eq
        rcases piece.start with rfl | hdvd
        · omega
        · rw [Nat.shiftRight_eq_div_pow, Nat.shiftRight_eq_div_pow] at hsame
          omega
      · have hend_le : vma'.vmEnd ≤ page.addr := by
          rcases hmm.apart hmem tracked.mem hown with h | h <;> omega
        refine hskips (.sharedRegion hflags vma' hmem hwalked (by omega) hend_le ?_)
        have hup : s.eic.lastVa >>> 21 ≤ (vma'.vmEnd - 1) >>> 21 := by
          rw [Nat.shiftRight_eq_div_pow, Nat.shiftRight_eq_div_pow]
          exact Nat.div_le_div_right (by omega)
        have hdown : (vma'.vmEnd - 1) >>> 21 ≤ page.addr >>> 21 := by
          rw [Nat.shiftRight_eq_div_pow, Nat.shiftRight_eq_div_pow]
          exact Nat.div_le_div_right (by omega)
        omega

/-! ### The pages of a table -/

theorem mmScanPte_shift (entry : PteEntry) :
    (mmScanPte entry).1.shift = 12 ∧ (mmScanPte entry).1 ≠ .pipCmd := by
  simp only [mmScanPte]
  split_ifs <;> simp [ProcIdlePageType.shift]

theorem mmScanPte_of_present {entry : PteEntry} (h : entry.present = true) :
    (mmScanPte entry).1 = .pteIdle ∨ (mmScanPte entry).1 = .pteAccessed := by
  simp only [mmScanPte, h]
  split_ifs <;> simp_all

theorem mmScanPmd_shift {flags : ScanFlags} {entry : PmdEntry} {type : ProcIdlePageType}
    (h : (mmScanPmd flags entry).1 = some type) : type.shift = 21 ∧ type ≠ .pipCmd := by
  simp only [mmScanPmd] at h
  split_ifs at h <;> cases h <;> simp [ProcIdlePageType.shift]

/-- The pages of a region are walked where its entry is a table, and not with
`SCAN_HUGE_PAGE`. -/
theorem mmScanPmd_eq_none {flags : ScanFlags} {entry : PmdEntry}
    (h : (mmScanPmd flags entry).1 = none) : flags.hugePage = false ∧ entry.large = false := by
  simp only [mmScanPmd] at h
  split_ifs at h
  simp_all

variable (mm stop va w page) in
/-- The walk of the pages of a table has come from `a` to `x`. -/
structure PteWalking (a x : ℕ) (tokens : List PipToken) (s : MmScan) : Prop where
  scanned : w.scan.pt.Scanned s.pt
  filled : Filled w.scan.eic va w.start tokens s.eic
  lastVa_eq : s.eic.lastVa = a
  nextHva_le : s.eic.nextHva ≤ x
  restart_eq : a < x → s.eic.restartGpa = x
  tracks : w.Tracked mm stop page →
    page.Reported (reported va tokens) ∨ x ≤ page.addr ∧ s.eic.restartGpa ≤ page.addr

theorem PteWalking.step (hmm : mm.Ok) (hw : w.Ready) (hstop : 2 ^ 12 ∣ stop)
    (part : w.Part mm stop vma first last) {x : ℕ}
    (h : w.PteWalking mm stop va page a x tokens s) (hstart : w.start ≤ x) (hax : a ≤ x)
    (piece : Piece first last 12 x next)
    (htable : (w.scan.pt.pmd (x >>> 21)).large = false) :
    Post (fun x t => ∃ tokens, w.PteWalking mm stop va page a x tokens t)
      (fun t => ∃ tokens, w.Left mm stop va page tokens t) next (mmIdlePte s x next) := by
  obtain ⟨hshift, htype⟩ := mmScanPte_shift (s.pt.pte (x >>> 12))
  have hscanned := h.scanned.setPte (x >>> 12)
  have hpresent : (s.pt.pte (x >>> 12)).present = (w.scan.pt.pte (x >>> 12)).present :=
    h.scanned.pte _
  obtain ⟨hok, hdown, hend⟩ := part.callOk hmm htype hshift piece
  have hsize : (mmScanPte (s.pt.pte (x >>> 12))).1.size = 2 ^ 12 := by
    rw [ProcIdlePageType.size_eq htype, hshift]
  have hdvd : 2 ^ 12 ∣ x := piece.dvd_start (part.first_dvd hmm hw) dvd_rfl
  have hlast := part.last_le hmm
  have hlt := piece.lt_stop
  have hround : roundDown x (2 ^ 12) = x :=
    roundDown_of_mod_eq_zero (by omega) (by decide) (Nat.mod_eq_zero_of_dvd hdvd)
  have hcall := eicAddPage_cases s.eic ⟨x, next, (mmScanPte (s.pt.pte (x >>> 12))).1⟩
  have hva := hcall.lastVa_eq
  obtain ⟨haccepted, hrefused⟩ := h.filled.addPage hw.gpaToHva_eq hw.room hok hend hstart
    (fun _ => by
      rw [hsize]
      exact Nat.mod_eq_zero_of_dvd hdvd) hcall
  have hnext : next = x + 2 ^ 12 := by
    have hdvd' : 2 ^ 12 ∣ next := piece.dvd_next (part.last_dvd hmm hstop) dvd_rfl
    have := piece.block
    have := piece.lt
    omega
  unfold mmIdlePte MmScan.addPage
  dsimp only
  generalize hscan : mmScanPte (s.pt.pte (x >>> 12)) = entry at *
  generalize eicAddPage s.eic x next entry.1 = r at hcall hva haccepted hrefused ⊢
  refine ⟨fun hret => ?_, fun hret => ?_⟩
  · obtain ⟨tokens', acc⟩ := haccepted hret
    have hrestart : r.1.restartGpa = next := by
      rw [acc.restartGpa, hsize, hround, hnext]
    have hle : r.1.nextHva ≤ next := by
      rcases acc.nextHva with h' | h'
      · rw [h', hrestart]
      · rw [h']
        exact h.nextHva_le.trans piece.lt.le
    refine ⟨tokens', hscanned, acc.filled, hva.trans h.lastVa_eq, hle, fun _ => hrestart,
      fun tracked => ?_⟩
    rw [acc.reported_eq]
    rcases h.tracks tracked with hrep | ⟨hle', hrestart'⟩
    · exact Or.inl (hrep.append_right _)
    obtain ⟨hdvd', -, -, -, -, hleaf⟩ := tracked.present.present
    rcases hle'.eq_or_lt with heq | hlt'
    · subst heq
      rcases hleaf with ⟨hshift', -, hthere⟩ | ⟨-, hlarge⟩
      · have hidle := mmScanPte_of_present (hpresent.trans hthere)
        rw [hscan] at hidle
        have hhva : PageCall.hva ⟨page.addr, next, entry.1⟩ 0 = page.addr := by
          rw [PageCall.hva, Nat.add_zero]
          dsimp only
          rw [hsize, hround, ulong_of_lt (by omega)]
        have hpages := PageCall.pages_of_single ⟨page.addr, next, entry.1⟩
          (by rcases hidle with h | h <;> simp [PageCall.IsHole, h])
          (by rcases hidle with h | h <;> simp [h]) 0
        refine Or.inl ⟨entry.1, ?_, hshift.trans hshift'.symm⟩
        rw [hpages, hhva]
        exact List.mem_append_right _ (List.mem_singleton_self _)
      · exact Bool.noConfusion (htable.symm.trans hlarge)
    · have : 2 ^ 12 ∣ page.addr := by
        refine dvd_trans ?_ hdvd'
        rcases hleaf with ⟨h, -⟩ | ⟨h, -⟩ <;> rw [h]
        exact Nat.pow_dvd_pow 2 (by decide)
      exact Or.inr ⟨by omega, hrestart.trans_le (by omega)⟩
  · have hrefused := hrefused hret
    have hrestart : r.1.restartGpa = x := hrefused.restartGpa
    refine ⟨tokens, hscanned, hrefused.filled, ?_, ?_, fun _ => ⟨?_, ?_⟩, fun tracked =>
      (h.tracks tracked).imp_right fun ahead => ⟨hrestart.trans_le ahead.1,
        fun hnil => absurd hnil hrefused.ne_nil⟩⟩
    · dsimp only
      rw [hrestart]
      omega
    · dsimp only
      rw [hva, h.lastVa_eq]
      omega
    · exact (hrefused.nextHva.trans_le h.nextHva_le).trans_eq hrestart.symm
    · dsimp only
      rw [hrestart]
      exact hdvd

/-- The walk of the pages of a table. -/
theorem PteWalking.range (hmm : mm.Ok) (hw : w.Ready) (hstop : 2 ^ 12 ∣ stop)
    (part : w.Part mm stop vma first last) (h : w.PteWalking mm stop va page a a tokens s)
    (hstart : w.start ≤ a) (piece : Piece first last 21 a next)
    (htable : (w.scan.pt.pmd (a >>> 21)).large = false) :
    Post (fun x t => ∃ tokens, w.PteWalking mm stop va page a x tokens t)
      (fun t => ∃ tokens, w.Left mm stop va page tokens t) next (mmIdlePteRange s a next) := by
  have hlast := part.last_le hmm
  refine walkRange_pieces piece (show 12 ≤ 21 by decide) (fun x hax hxe hx => ?_)
    (fun x next' t piece' hax hnext ⟨tokens, h⟩ => ?_) ⟨tokens, h⟩
  · have hx : 2 ^ 12 ∣ x := hx.elim (fun h => h ▸ piece.dvd_start (part.first_dvd hmm hw)
      (Nat.pow_dvd_pow 2 (show 12 ≤ 21 by decide))) id
    have := piece.next_le
    have := piece.dvd_next (part.last_dvd hmm hstop) (Nat.pow_dvd_pow 2 (by decide : 12 ≤ 21))
    rw [ulong_of_lt (by omega)]
    omega
  · refine h.step hmm hw hstop part (hstart.trans hax) hax piece' ?_
    rw [piece.index_eq hax (piece'.lt.trans_le hnext)]
    exact htable

/-! ### The callbacks -/

theorem Walking.lastVa_lt (hmm : mm.Ok) (hw : w.Ready)
    (h : w.Walking mm stop va page a tokens s) : s.eic.lastVa < 2 ^ 64 := by
  rcases h.cursors with untouched | called
  · exact untouched.lastVa_eq ▸ hw.lastVa_lt
  · have := called.lastVa_lt hmm
    omega

/-- `mm_idle_pmd_entry` keeps the invariant. -/
theorem Walking.pmdEntry (hmm : mm.Ok) (hw : w.Ready) (hstop : 2 ^ 12 ∣ stop)
    (part : w.Part mm stop vma first last) (h : w.Walking mm stop va page a tokens s)
    (piece : Piece first last 21 a next) (hhuge : (w.scan.pt.pud (a >>> 30)).huge = false) :
    Post (fun x t => ∃ tokens, w.Walking mm stop va page x tokens t)
      (fun t => ∃ tokens, w.Left mm stop va page tokens t) next (mmIdlePmdEntry s a next) := by
  have hlast := part.last_le hmm
  have hlt := piece.lt_stop
  unfold mmIdlePmdEntry
  by_cases hsame : a >>> 21 = s.eic.lastVa >>> 21
  · rw [if_pos ((roundDown_eq_iff (by omega) (h.lastVa_lt hmm hw) (by decide)).mpr hsame)]
    exact Post.ok ⟨tokens, h.duplicate hmm part piece hsame.symm⟩
  rw [if_neg (mt (roundDown_eq_iff (by omega) (h.lastVa_lt hmm hw) (by decide)).mp hsame)]
  have hflags : s.eic.flags = w.scan.eic.flags := h.filled.flags
  have hentry := h.scanned.pmd (a >>> 21)
  have hscanned := h.scanned.setPmd s.eic.flags (a >>> 21)
  dsimp only
  cases hscan : (mmScanPmd s.eic.flags (s.pt.pmd (a >>> 21))).1 with
  | some type =>
      obtain ⟨hshift, htype⟩ := mmScanPmd_shift hscan
      refine h.addRegion hmm hw part htype hshift piece (Ne.symm hsame) hhuge hscanned
        fun tracked hle hregion => ?_
      have hpage := hmm.vmEnd_le page.vma tracked.mem
      have htask := hmm.taskSize_lt
      have haddr := tracked.present.mem_vma
      refine reported_region tracked.present (by omega) ?_ hscan hle hregion
      rw [hregion]
      exact ⟨hentry.2.1, hentry.2.2⟩
  | none =>
      obtain ⟨hhugePage, hlarge⟩ := mmScanPmd_eq_none hscan
      rw [hentry.2.2] at hlarge
      obtain ⟨hbehind, -⟩ := h.behind hw le_rfl (Ne.symm hsame)
      have hstart : w.PteWalking mm stop va page a a tokens
          ⟨s.pt.setPmd (a >>> 21) (mmScanPmd s.eic.flags (s.pt.pmd (a >>> 21))).2,
            s.eic.setLastVa a⟩ :=
        ⟨hscanned, h.filled.setLastVa a, rfl, hbehind, fun h => absurd h (lt_irrefl a),
          fun tracked => (h.tracks tracked).imp_right fun ahead => ⟨ahead.le_addr,
            ahead.restart_le⟩⟩
      refine ⟨fun hret => ?_, (hstart.range hmm hw hstop part h.start_le piece hlarge).2⟩
      obtain ⟨tokens', hpte⟩ :=
        (hstart.range hmm hw hstop part h.start_le piece hlarge).1 hret
      have hrestart := hpte.restart_eq piece.lt
      have hva := hpte.lastVa_eq
      obtain ⟨hmem1, hmem2, -⟩ := part.mem_vma piece.first_le hlt
      refine ⟨tokens', hpte.scanned, h.start_le.trans piece.lt.le, hpte.filled, Or.inr ?_,
        fun tracked => (hpte.tracks tracked).imp_right fun ahead => ?_⟩
      · refine ⟨h.start_le.trans_eq hva.symm, hva.trans_lt piece.lt,
          hpte.nextHva_le.trans_eq hrestart.symm, ?_, ?_, ?_, vma, part.mem, part.walked,
          hmem1.trans_eq hva.symm, hva.trans_lt hmem2⟩
        · rw [hrestart, hva]
          exact piece.block
        · rw [hrestart]
          exact piece.dvd_next (part.last_dvd hmm hstop) (Nat.pow_dvd_pow 2 (by decide))
        · rw [hva]
          exact hhuge
      · exact ⟨ahead.1, hpte.nextHva_le.trans ahead.1, ahead.2, fun h =>
          Bool.noConfusion ((hflags ▸ hhugePage).symm.trans h)⟩

/-- `mm_idle_pud_entry` ends the walk. -/
theorem Walking.pudEntry (hmm : mm.Ok) (hw : w.Ready) (part : w.Part mm stop vma first last)
    (h : w.Walking mm stop va page a tokens s) (piece : Piece first last 30 a next)
    (hthere : ¬w.scan.pt.Missing a) (hhuge : (w.scan.pt.pud (a >>> 30)).huge = true) :
    ∃ tokens, w.Left mm stop va page tokens (mmIdlePudEntry s a next).1 := by
  have hlast := part.last_le hmm
  have hlt := piece.lt_stop
  -- the page lies in no 1G page
  have hother : w.Tracked mm stop page → page.addr >>> 30 ≠ a >>> 30 := by
    intro tracked heq
    have := tracked.present.present.2.2.1
    rw [heq, hhuge] at this
    exact Bool.noConfusion this
  unfold mmIdlePudEntry
  by_cases hsame : a >>> 30 = s.eic.lastVa >>> 30
  · rw [if_neg (not_not.mpr
      ((roundDown_eq_iff (by omega) (h.lastVa_lt hmm hw) (by decide)).mpr hsame))]
    have hstart : w.start < 2 ^ 64 := h.start_le.trans_lt (by omega)
    refine ⟨tokens, h.leave hmm hw hstart fun tracked ahead hnil => ?_⟩
    rcases h.cursors with untouched | called
    · by_contra hstop
      have hlt' : a < page.addr :=
        lt_of_le_of_ne ahead.le_addr fun heq => hother tracked (by rw [heq])
      obtain ⟨hmem1, hmem2, -⟩ := part.mem_vma piece.first_le hlt
      refine tracked.kept ⟨tracked.start_le, not_le.mp hstop, .lastHuge a h.start_le hlt' vma
        part.mem part.walked hmem1 hmem2 hthere hhuge ?_⟩
      rw [hsame, untouched.lastVa_eq]
    · have := called.table
      rw [← hsame, hhuge] at this
      exact Bool.noConfusion this
  · rw [if_pos (mt (roundDown_eq_iff (by omega) (h.lastVa_lt hmm hw) (by decide)).mp hsame)]
    obtain ⟨hok, hdown, hend⟩ := part.callOk hmm (by decide)
      (show ProcIdlePageType.pudPresent.shift = 30 from rfl) piece
    obtain ⟨hbehind, haligned⟩ := h.behind hw (by decide) (Ne.symm hsame)
    have hblock : a < (a / 2 ^ 30 + 1) * 2 ^ 30 :=
      (Nat.div_lt_iff_lt_mul (by decide)).mp (Nat.lt_succ_self _)
    have hcall := eicAddPage_cases s.eic ⟨a, next, .pudPresent⟩
    obtain ⟨haccepted, hrefused⟩ := h.filled.addPage hw.gpaToHva_eq hw.room hok hend
      h.start_le (fun hfresh => by
        obtain ⟨hne, heq⟩ := nextHva_of_not_fresh hw h.filled (show a < 2 ^ 64 by omega) hfresh
        exact haligned hne heq) hcall
    dsimp only at hcall haccepted hrefused ⊢
    generalize eicAddPage s.eic a next .pudPresent = r at hcall haccepted hrefused ⊢
    by_cases hret : r.2 = 0
    · obtain ⟨tokens', acc⟩ := haccepted hret
      have hrestart := acc.restartGpa.trans hdown
      have hne : tokens' ≠ [] := by
        rintro rfl
        have := acc.reported_eq
        simp [reported, PageCall.pages, PageCall.IsHole] at this
      refine ⟨tokens', h.scanned, acc.filled.setLastVa a, ?_, ?_, fun _ => ⟨?_, ?_⟩,
        fun tracked => ?_⟩
      · exact acc.restartGpa.trans_lt hend
      · exact (show a < 2 ^ 64 by omega)
      · show r.1.nextHva ≤ r.1.restartGpa
        rcases acc.nextHva with h' | h'
        · exact h'.le
        · rw [h', hrestart]
          exact hbehind.trans hblock.le
      · show 2 ^ 12 ∣ r.1.restartGpa
        rw [hrestart]
        exact (Nat.pow_dvd_pow 2 (by decide)).trans (Nat.dvd_mul_left _ _)
      · rw [acc.reported_eq]
        refine (h.tracks tracked).imp (fun h => h.append_right _) fun ahead => ⟨?_,
          fun hnil => absurd hnil hne⟩
        exact hrestart.trans_le (block_end_le_of_ne ahead.le_addr (hother tracked))
    · have hrefused := hrefused hret
      have hrestart : r.1.restartGpa = a := hrefused.restartGpa
      refine ⟨tokens, h.scanned, hrefused.filled.setLastVa a, ?_, ?_, fun _ => ⟨?_, ?_⟩,
        fun tracked => (h.tracks tracked).imp_right fun ahead => ⟨hrestart.trans_le ahead.le_addr,
          fun hnil => absurd hnil hrefused.ne_nil⟩⟩
      · exact hrestart.trans_lt (by omega)
      · exact (show a < 2 ^ 64 by omega)
      · exact (hrefused.nextHva.trans_le hbehind).trans_eq hrestart.symm
      · show 2 ^ 12 ∣ r.1.restartGpa
        rw [hrestart]
        exact piece.dvd_start (part.first_dvd hmm hw) (Nat.pow_dvd_pow 2 (by decide))

/-- The callbacks keep the invariant in what is left of a VMA. -/
theorem Part.steps (va : ℕ) (page : MmPage) (hmm : mm.Ok) (hw : w.Ready) (hstop : 2 ^ 12 ∣ stop)
    (part : w.Part mm stop vma first last) :
    MmSteps w.scan.pt first last (fun x t => ∃ tokens, w.Walking mm stop va page x tokens t)
      (fun t => ∃ tokens, w.Left mm stop va page tokens t) := by
  refine ⟨?_, ?_, ?_, ?_⟩
  · rintro a t ⟨tokens, h⟩
    exact h.scanned
  · rintro a next t hfirst hlt hle ⟨tokens, h⟩ hhole
    refine ⟨tokens, h.mono hlt.le fun tracked ahead => ?_⟩
    by_contra hpage
    -- nothing is present where an entry is none
    obtain ⟨-, hthere, -, hnone, -⟩ := tracked.present.present
    rcases hhole page.addr ahead.le_addr (not_le.mp hpage) with hmissing | hmissing
    · exact hthere hmissing
    · exact Bool.noConfusion (hnone.symm.trans hmissing)
  · rintro a next t piece ⟨tokens, h⟩ hthere hhuge
    exact h.pudEntry hmm hw part piece hthere hhuge
  · rintro a next t piece ⟨tokens, h⟩ - hhuge -
    exact h.pmdEntry hmm hw hstop part piece hhuge

/-- What is left of a VMA is walked. -/
theorem Walking.part (hmm : mm.Ok) (hw : w.Ready) (hstop : 2 ^ 12 ∣ stop)
    (hshift : 39 ≤ w.scan.pt.pgdirShift ∧ w.scan.pt.pgdirShift < 64)
    (part : w.Part mm stop vma first last) (h : w.Walking mm stop va page first tokens s) :
    Post (fun x t => ∃ tokens, w.Walking mm stop va page x tokens t)
      (fun t => ∃ tokens, w.Left mm stop va page tokens t) last (walkPgdRange s first last) := by
  have hlast := part.last_le hmm
  exact walkPgdRange_rule (part.steps va page hmm hw hstop) (by omega) hshift part.lt ⟨tokens, h⟩

end Part

end MmWalk

end MemoryOptimizer
