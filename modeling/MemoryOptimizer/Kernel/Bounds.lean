import MemoryOptimizer.Kernel.EptWalk

/-!
# Buffer bounds of the scan

Within a fill the encoder stays at or below `pie_read_max` (`Filling`), and the
nine bytes kept free are for the command behind a hole at the end, so a fill fits
both the kernel's buffer and what is left of the user's.

This needs `pie_read_max` not to be negative.  It is negative where one to eight
bytes are left: the comparison in `init_ept_idle_ctrl_buffer`, made as `unsigned
long`, lets that pass.
-/

namespace MemoryOptimizer

/-- The room that a fill has: in the kernel's buffer, and in the user's buffer of
`count` bytes. -/
structure Room (count : ℕ) (eic : EptIdleCtrl) : Prop where
  kbuf : eic.pieReadMax + 9 ≤ eptIdleKbufSize
  ubuf : eic.pieReadMax + 9 + eic.bytesCopied ≤ eic.bufSize
  bufSize_le : eic.bufSize ≤ count
  peak_le : eic.peak ≤ eptIdleKbufSize

/-- The invariant within a fill. -/
structure Filling (count : ℕ) (eic : EptIdleCtrl) : Prop extends Room count eic where
  pieReadMax_nonneg : 0 ≤ eic.pieReadMax
  pieRead_le : (eic.pieRead : ℤ) ≤ eic.pieReadMax

/-- What holds at every moment. -/
structure InBounds (count : ℕ) (eic : EptIdleCtrl) : Prop where
  peak_le : eic.peak ≤ eptIdleKbufSize
  bytesCopied_le : eic.bytesCopied ≤ count

section Fill

variable {count : ℕ} {eic : EptIdleCtrl}

/-- Writing as many bytes as fit. -/
theorem Filling.write (h : Filling count eic) {bytes : List ℕ}
    (hfit : (eic.pieRead : ℤ) + bytes.length ≤ eic.pieReadMax) :
    Filling count (eic.write bytes) := by
  have hkbuf := h.kbuf
  have hpeak := h.peak_le
  refine ⟨⟨h.kbuf, h.ubuf, h.bufSize_le, ?_⟩, h.pieReadMax_nonneg, ?_⟩
  · rw [EptIdleCtrl.write_peak]
    omega
  · rw [EptIdleCtrl.pieRead, EptIdleCtrl.write_kpie, EptIdleCtrl.write_pieReadMax,
      List.length_append]
    rw [EptIdleCtrl.pieRead] at hfit
    omega

theorem Filling.reportAddr (h : Filling count eic)
    (hfit : (eic.pieRead : ℤ) + 9 ≤ eic.pieReadMax) (addr : ℕ) :
    Filling count (eicReportAddr eic addr) :=
  h.write hfit

theorem Filling.setRestartGpa (h : Filling count eic) (val : ℕ) :
    Filling count (eic.setRestartGpa val) :=
  ⟨⟨h.kbuf, h.ubuf, h.bufSize_le, h.peak_le⟩, h.pieReadMax_nonneg, h.pieRead_le⟩

theorem Filling.setNextHva (h : Filling count eic) (val : ℕ) :
    Filling count (eic.setNextHva val) :=
  ⟨⟨h.kbuf, h.ubuf, h.bufSize_le, h.peak_le⟩, h.pieReadMax_nonneg, h.pieRead_le⟩

theorem Filling.incLastByte (h : Filling count eic) : Filling count eic.incLastByte := by
  refine ⟨⟨h.kbuf, h.ubuf, h.bufSize_le, h.peak_le⟩, h.pieReadMax_nonneg, ?_⟩
  rw [EptIdleCtrl.pieRead, EptIdleCtrl.incLastByte_kpie, List.length_modify]
  exact h.pieRead_le

theorem Filling.newItem (h : Filling count eic) (next : ℕ) (type : ProcIdlePageType)
    (hfit : (eic.pieRead : ℤ) < eic.pieReadMax) : Filling count (eicNewItem eic next type) :=
  ((h.setNextHva _).setRestartGpa next).write hfit

/-- A call of `eic_add_page` stays within the room of the fill. -/
theorem eicAddPage_filling (h : Filling count eic) (addr next : ℕ) (type : ProcIdlePageType) :
    Filling count (eicAddPage eic addr next type).1 := by
  have hcases := eicAddPage_cases eic ⟨addr, next, type⟩
  generalize eicAddPage eic addr next type = r at hcases ⊢
  cases hcases with
  | hole | noRoomForAddress | noRoomForItem => exact h.setRestartGpa _
  | extend => exact ((h.setNextHva _).setRestartGpa _).incLastByte
  | item fresh room => exact h.newItem _ _ room
  | address fresh hhole room =>
      have hmax := ulongOfSigned_of_nonneg h.pieReadMax_nonneg (by
        have := h.kbuf
        have : (eptIdleKbufSize : ℤ) < 2 ^ 64 := by decide
        omega)
      refine (h.reportAddr (by omega) _).newItem _ _ ?_
      rw [eicReportAddr_pieRead, eicReportAddr_pieReadMax]
      omega

end Fill

/-! ### The walk of a slot -/

/-- `eic_add_page` keeps `I`, and so does the skip of a table. -/
structure WalkKeeps (I : EptIdleCtrl → Prop) : Prop where
  skip : ∀ {eic : EptIdleCtrl} (next : ℕ), I eic → I (eic.setRestartGpa next)
  addPage : ∀ {eic : EptIdleCtrl} (addr next : ℕ) (type : ProcIdlePageType), I eic →
    I (eicAddPage eic addr next type).1

namespace WalkKeeps

variable {I : EptIdleCtrl → Prop} {s : EptScan}

theorem pteRange (keeps : WalkKeeps I) (h : I s.eic) (addr stop : ℕ) :
    I (eptPteRange s addr stop).1.eic :=
  walkRange_inv (I := fun s : EptScan => I s.eic) h fun _ a next h => keeps.addPage a next _ h

theorem pmdRange (keeps : WalkKeeps I) (h : I s.eic) (addr stop : ℕ) :
    I (eptPmdRange s addr stop).1.eic := by
  refine walkRange_inv (I := fun s : EptScan => I s.eic) h fun s a next h => ?_
  unfold eptPmd
  dsimp only
  split
  · exact keeps.addPage a next _ h
  · exact keeps.pteRange (s := ⟨s.ept.setPmd _ _, s.eic⟩) h a next

theorem pudRange (keeps : WalkKeeps I) (h : I s.eic) (addr stop : ℕ) :
    I (eptPudRange s addr stop).1.eic := by
  refine walkRange_inv (I := fun s : EptScan => I s.eic) h fun s a next h => ?_
  unfold eptPud
  dsimp only
  split
  · exact keeps.skip next h
  · split
    · exact keeps.addPage a next _ h
    · exact keeps.pmdRange h a next

theorem p4dRange (keeps : WalkKeeps I) (h : I s.eic) (addr stop : ℕ) :
    I (eptP4dRange s addr stop).1.eic := by
  refine walkRange_inv (I := fun s : EptScan => I s.eic) h fun s a next h => ?_
  unfold eptP4d
  split
  · exact keeps.skip next h
  · exact keeps.pudRange h a next

theorem pageRange (keeps : WalkKeeps I) (h : I s.eic) (addr stop : ℕ) :
    I (eptPageRange s addr stop).1.eic := by
  refine walkRange_inv (I := fun s : EptScan => I s.eic) h fun s a next h => ?_
  unfold eptPgd
  split
  · exact keeps.skip next h
  · exact keeps.p4dRange h a next

/-- The walk of an iteration, by a `pageRange` that keeps `I`. -/
theorem walkSlotBy (keeps : WalkKeeps I) {pageRange : EptScan → ℕ → ℕ → EptScan}
    (hrange : ∀ s addr stop, I s.eic → I (pageRange s addr stop).eic)
    {w : HvaWalk} (h : ∀ val, I (w.scan.eic.setGpaToHva val)) (kvm : Kvm) (stop : ℕ) :
    I (MemoryOptimizer.walkSlotBy pageRange kvm stop w).1.eic := by
  unfold MemoryOptimizer.walkSlotBy
  split
  · dsimp only
    split
    · exact keeps.skip _ (h 0)
    · exact keeps.skip _ (h 0)
  · exact hrange ⟨w.scan.ept, _⟩ _ _ (h _)

end WalkKeeps

theorem walkKeeps_filling (count : ℕ) : WalkKeeps (Filling count) :=
  ⟨fun next h => h.setRestartGpa next, fun addr next type h => eicAddPage_filling h addr next type⟩

/-! ### The copy to the user -/

/-- Initialising the buffer makes room, unless nothing is left. -/
theorem initEptIdleCtrlBuffer_room {count : ℕ} (eic : EptIdleCtrl)
    (hsize : eic.bufSize ≤ count) (hpeak : eic.peak ≤ eptIdleKbufSize) :
    Room count (initEptIdleCtrlBuffer eic).1 ∧ (initEptIdleCtrlBuffer eic).1.kpie = [] := by
  refine ⟨⟨?_, ?_, hsize, hpeak⟩, rfl⟩
  · show min _ _ - (8 + 1) + 9 ≤ _
    omega
  · show min _ _ - (8 + 1) + 9 + (eic.bytesCopied : ℤ) ≤ eic.bufSize
    omega

/-- The command behind a hole at the end fits the bytes kept free for it. -/
theorem reportTailHole_inBounds {count : ℕ} {eic : EptIdleCtrl} (h : Filling count eic)
    (start stop : ℕ) :
    (reportTailHole eic start stop).peak ≤ eptIdleKbufSize ∧
    ((reportTailHole eic start stop).pieRead : ℤ) + (reportTailHole eic start stop).bytesCopied ≤
      (reportTailHole eic start stop).bufSize ∧
    (reportTailHole eic start stop).bufSize ≤ count := by
  have hkbuf := h.kbuf
  have hubuf := h.ubuf
  have hread := h.pieRead_le
  have hpeak := h.peak_le
  unfold reportTailHole
  split
  · refine ⟨?_, ?_, h.bufSize_le⟩
    · show max eic.peak (eic.pieRead + 9) ≤ _
      omega
    · rw [eicReportAddr_pieRead]
      show ((eic.pieRead + 9 : ℕ) : ℤ) + (eic.bytesCopied : ℤ) ≤ eic.bufSize
      omega
  · exact ⟨hpeak, by omega, h.bufSize_le⟩

theorem eptIdleCopyUser_inBounds {count : ℕ} {eic : EptIdleCtrl} (h : Filling count eic)
    (copyFails : ℕ → Bool) (start stop : ℕ) :
    InBounds count (eptIdleCopyUser copyFails eic start stop).1 ∧
      ((eptIdleCopyUser copyFails eic start stop).2 = 0 →
        Room count (eptIdleCopyUser copyFails eic start stop).1 ∧
          (eptIdleCopyUser copyFails eic start stop).1.kpie = []) := by
  unfold eptIdleCopyUser
  dsimp only
  generalize (if decide (eic.pieRead = 0) = true ∧ start < stop then stop else start) = start'
  obtain ⟨hpeak, hfits, hsize⟩ := reportTailHole_inBounds h start' stop
  generalize reportTailHole eic start' stop = eic' at hpeak hfits hsize ⊢
  have hcopied : (eic'.copyToUser.bytesCopied : ℤ) = eic'.bytesCopied + eic'.pieRead := by
    rw [EptIdleCtrl.bytesCopied, EptIdleCtrl.copyToUser_buf, List.length_append, Nat.cast_add]
    rfl
  have hold : eic'.bytesCopied ≤ count := by omega
  have hnew : eic'.copyToUser.bytesCopied ≤ count := by omega
  split
  · exact ⟨⟨hpeak, hold⟩, fun h => absurd h one_ne_zero⟩
  · split
    · exact ⟨⟨hpeak, hold⟩, fun h => absurd h (by simp [efault])⟩
    · split
      · exact ⟨⟨hpeak, hnew⟩, fun h => absurd h (by simp [eptIdleBufFull])⟩
      · split
        · exact ⟨⟨hpeak, hnew⟩, fun h => absurd h one_ne_zero⟩
        · exact ⟨⟨hpeak, hnew⟩, fun _ => initEptIdleCtrlBuffer_room _ hsize hpeak⟩

/-! ### The loop over the slots -/

/-- An iteration that starts with room keeps the bounds, and makes room again, whichever
walk of the range does not leave the room of the fill. -/
theorem walkSlotBy_inBounds (kvm : Kvm) (stop : ℕ) {count : ℕ} {w : HvaWalk}
    {pageRange : EptScan → ℕ → ℕ → EptScan}
    (hrange : ∀ s addr stop, Filling count s.eic → Filling count (pageRange s addr stop).eic)
    (hroom : Room count w.scan.eic) (hempty : w.scan.eic.kpie = [])
    (hmax : 0 ≤ w.scan.eic.pieReadMax) :
    InBounds count (copyWalked kvm (walkSlotBy pageRange kvm stop w)).1.scan.eic ∧
      ((copyWalked kvm (walkSlotBy pageRange kvm stop w)).2 = 0 →
        Room count (copyWalked kvm (walkSlotBy pageRange kvm stop w)).1.scan.eic ∧
          (copyWalked kvm (walkSlotBy pageRange kvm stop w)).1.scan.eic.kpie = []) := by
  have hfill : Filling count w.scan.eic :=
    ⟨hroom, hmax, by rw [EptIdleCtrl.pieRead, hempty]; exact hmax⟩
  have hgpa : ∀ val, Filling count (w.scan.eic.setGpaToHva val) := fun _ =>
    ⟨⟨hfill.kbuf, hfill.ubuf, hfill.bufSize_le, hfill.peak_le⟩, hfill.pieReadMax_nonneg,
      hfill.pieRead_le⟩
  exact eptIdleCopyUser_inBounds ((walkKeeps_filling count).walkSlotBy hrange hgpa kvm stop) _ _ _

theorem walkHva_inBounds (kvm : Kvm) (stop : ℕ) {count : ℕ} {w : HvaWalk}
    (hroom : Room count w.scan.eic) (hempty : w.scan.eic.kpie = [])
    (hmax : 0 ≤ w.scan.eic.pieReadMax) :
    InBounds count (walkHva kvm stop w).1.scan.eic ∧
      ((walkHva kvm stop w).2 = 0 → Room count (walkHva kvm stop w).1.scan.eic ∧
        (walkHva kvm stop w).1.scan.eic.kpie = []) :=
  walkSlotBy_inBounds kvm stop
    (fun _ addr stop h => (walkKeeps_filling count).pageRange h addr stop)
    hroom hempty hmax

/-- Whatever the slots and the page tables: as long as no fill starts with a
negative `pie_read_max`, the bounds hold after every number of iterations. -/
theorem walkHvaLoop_inBounds (kvm : Kvm) (stop : ℕ) {count : ℕ} {w : HvaWalk}
    (hroom : Room count w.scan.eic) (hempty : w.scan.eic.kpie = [])
    (hbounds : InBounds count w.scan.eic) (n : ℕ)
    (hmax : ∀ m < n, (walkHvaLoop kvm stop m w).2 = none →
      (walkHvaLoop kvm stop m w).1.start < stop →
      0 ≤ (walkHvaLoop kvm stop m w).1.scan.eic.pieReadMax) :
    InBounds count (walkHvaLoop kvm stop n w).1.scan.eic := by
  induction n generalizing w with
  | zero => exact hbounds
  | succ n ih =>
      rw [walkHvaLoop_succ]
      split
      · rename_i hstart
        obtain ⟨hbounds', hnext⟩ := walkHva_inBounds kvm stop hroom hempty
          (hmax 0 (Nat.succ_pos n) rfl hstart)
        split
        · exact hbounds'
        · rename_i hret
          obtain ⟨hroom', hempty'⟩ := hnext (not_not.mp hret)
          refine ih hroom' hempty' hbounds' fun m hm => ?_
          have hsucc := hmax (m + 1) (Nat.succ_lt_succ hm)
          rw [walkHvaLoop_succ, if_pos hstart] at hsucc
          simpa only [if_neg hret] using hsucc
      · exact hbounds

theorem walkStart_room (eic : EptIdleCtrl) (ept : Ept) (flags : ScanFlags) (count ppos : ℕ) :
    Room count (walkStart eic ept flags count ppos).1.scan.eic ∧
      (walkStart eic ept flags count ppos).1.scan.eic.kpie = [] :=
  initEptIdleCtrlBuffer_room (setupEptIdleCtrl eic count flags)
    (show _ ≤ (count : ℤ) by rw [setupEptIdleCtrl_bufSize]; exact intOfUlong_le count)
    (by rw [setupEptIdleCtrl_peak]; exact Nat.zero_le _)

/-- Every read, whatever its size, position and flags, and after every number of
iterations of its loop: as long as every fill so far started with a `pie_read_max`
that is not negative, the kernel's buffer has not been overrun, nor the user's. -/
theorem eptIdleRead_inBounds (kvm : Kvm) (eic : EptIdleCtrl) (ept : Ept) (flags : ScanFlags)
    (count ppos n : ℕ)
    (hmax : ∀ m < n,
      let r := walkHvaLoop kvm (hvaEnd ppos count) m (walkStart eic ept flags count ppos).1
      r.2 = none → r.1.start < hvaEnd ppos count → 0 ≤ r.1.scan.eic.pieReadMax) :
    InBounds count
      (walkHvaLoop kvm (hvaEnd ppos count) n
        (walkStart eic ept flags count ppos).1).1.scan.eic := by
  obtain ⟨hroom, hempty⟩ := walkStart_room eic ept flags count ppos
  have hbounds : InBounds count (walkStart eic ept flags count ppos).1.scan.eic := by
    constructor <;> simp [walkStart, initEptIdleCtrlBuffer, setupEptIdleCtrl,
      EptIdleCtrl.bytesCopied]
  exact walkHvaLoop_inBounds kvm _ hroom hempty hbounds n hmax

/-! ### Reads that overrun the kernel's buffer -/

/-- The loop comes to an iteration after `n` others. -/
def Running (kvm : Kvm) (stop : ℕ) (w : HvaWalk) (n : ℕ) : Prop :=
  (walkHvaLoop kvm stop n w).2 = none ∧ (walkHvaLoop kvm stop n w).1.start < stop

/-- Every fill starts with a `pie_read_max` that is not negative. -/
def FillsNonneg (kvm : Kvm) (stop : ℕ) (w : HvaWalk) : Prop :=
  ∀ n, Running kvm stop w n → 0 ≤ (walkHvaLoop kvm stop n w).1.scan.eic.pieReadMax

/-- No iteration writes behind the kernel's buffer. -/
def KbufFits (kvm : Kvm) (stop : ℕ) (w : HvaWalk) : Prop :=
  ∀ n, ¬(walkHvaLoop kvm stop n w).1.scan.eic.Overrun

/-- A read whose fills do not start with a negative `pie_read_max` does not overrun the
kernel's buffer. -/
theorem FillsNonneg.kbufFits {kvm : Kvm} {eic : EptIdleCtrl} {ept : Ept} {flags : ScanFlags}
    {count ppos : ℕ}
    (h : FillsNonneg kvm (hvaEnd ppos count) (walkStart eic ept flags count ppos).1) :
    KbufFits kvm (hvaEnd ppos count) (walkStart eic ept flags count ppos).1 := fun n =>
  not_lt.mpr (eptIdleRead_inBounds kvm eic ept flags count ppos n
    fun m _ hnone hlt => h m ⟨hnone, hlt⟩).peak_le

section Overrun

variable {eic : EptIdleCtrl}

theorem EptIdleCtrl.Overrun.write (h : eic.Overrun) (bytes : List ℕ) : (eic.write bytes).Overrun :=
  h.trans_le (le_max_left _ _)

theorem EptIdleCtrl.Overrun.setRestartGpa (h : eic.Overrun) (val : ℕ) :
    (eic.setRestartGpa val).Overrun := h

theorem EptIdleCtrl.Overrun.setNextHva (h : eic.Overrun) (val : ℕ) :
    (eic.setNextHva val).Overrun := h

theorem EptIdleCtrl.Overrun.incLastByte (h : eic.Overrun) : eic.incLastByte.Overrun := h

theorem EptIdleCtrl.Overrun.newItem (h : eic.Overrun) (next : ℕ) (type : ProcIdlePageType) :
    (eicNewItem eic next type).Overrun :=
  ((h.setNextHva _).setRestartGpa next).write _

/-- What was overrun stays so: a call of `eic_add_page` does not lower `peak`. -/
theorem eicAddPage_overrun (h : eic.Overrun) (addr next : ℕ) (type : ProcIdlePageType) :
    (eicAddPage eic addr next type).1.Overrun := by
  have hcases := eicAddPage_cases eic ⟨addr, next, type⟩
  generalize eicAddPage eic addr next type = r at hcases ⊢
  cases hcases with
  | hole | noRoomForAddress | noRoomForItem => exact h.setRestartGpa _
  | extend => exact ((h.setNextHva _).setRestartGpa _).incLastByte
  | item => exact h.newItem _ _
  | address => exact EptIdleCtrl.Overrun.newItem (h.write _) _ _

end Overrun

theorem walkKeeps_overrun : WalkKeeps EptIdleCtrl.Overrun :=
  ⟨fun next h => h.setRestartGpa next, fun addr next type h => eicAddPage_overrun h addr next type⟩

theorem eptIdleCopyUser_overrun {eic : EptIdleCtrl} (h : eic.Overrun) (copyFails : ℕ → Bool)
    (start stop : ℕ) : (eptIdleCopyUser copyFails eic start stop).1.Overrun := by
  unfold eptIdleCopyUser
  dsimp only
  generalize (if decide (eic.pieRead = 0) = true ∧ start < stop then stop else start) = start'
  have htail : (reportTailHole eic start' stop).Overrun := by
    unfold reportTailHole
    split
    · exact (h.setNextHva _).write _
    · exact h
  split_ifs <;> exact htail

theorem copyWalked_overrun {walked : EptScan × ℕ} (h : walked.1.eic.Overrun) (kvm : Kvm) :
    (copyWalked kvm walked).1.scan.eic.Overrun :=
  eptIdleCopyUser_overrun h _ _ _

/-- An iteration does not undo an overrun. -/
theorem walkSlotBy_overrun {w : HvaWalk} (h : w.scan.eic.Overrun)
    {pageRange : EptScan → ℕ → ℕ → EptScan}
    (hrange : ∀ s addr stop, s.eic.Overrun → (pageRange s addr stop).eic.Overrun) (kvm : Kvm)
    (stop : ℕ) : (copyWalked kvm (walkSlotBy pageRange kvm stop w)).1.scan.eic.Overrun :=
  copyWalked_overrun (walkKeeps_overrun.walkSlotBy hrange (fun _ => h) kvm stop) kvm

theorem walkHva_overrun {w : HvaWalk} (h : w.scan.eic.Overrun) (kvm : Kvm) (stop : ℕ) :
    (walkHva kvm stop w).1.scan.eic.Overrun :=
  walkSlotBy_overrun h (fun _ addr stop h => walkKeeps_overrun.pageRange h addr stop) kvm stop

/-- A loop that ends without an overrun has had none. -/
theorem kbufFits_of_ended {kvm : Kvm} {stop fuel : ℕ} {w : HvaWalk} {ret : ℤ}
    (hret : (walkHvaLoop kvm stop fuel w).2 = some ret)
    (h : ¬(walkHvaLoop kvm stop fuel w).1.scan.eic.Overrun) : KbufFits kvm stop w :=
  loopUntilRet_never (P := fun w : HvaWalk => w.scan.eic.Overrun)
    (fun _ h => walkHva_overrun h kvm stop) hret h

/-- Present pages in the first GiB of the guest, nothing above. -/
def firstGib : Ept where
  pgdirShift := 39
  pgdPresent := fun _ => true
  p4dPresent := fun _ => true
  pud := fun i => ⟨false, i = 0, false, false, false⟩
  pmd := fun _ => ⟨false, true, false, false, false⟩
  pte := fun _ => ⟨false, true, false, false, false⟩

theorem eptIdleRead_inBounds_firstGib :
    InBounds 64 (walkHvaLoop ⟨true, [⟨1, 3, 0x7f0000000000⟩], 0x7ffffffff000, fun _ => false⟩
      (hvaEnd 0x7f0000000000 64) 3
      (walkStart eptIdleOpen firstGib ⟨false, false, false⟩ 64 0x7f0000000000).1).1.scan.eic :=
  eptIdleRead_inBounds _ _ _ _ 64 _ 3 (by
    intro m hm
    match m, hm with
    | 0, _ => exact fun _ _ => by decide +kernel
    | 1, _ => exact fun _ _ => by decide +kernel
    | 2, _ => exact fun _ _ => by decide +kernel)

/-- A slot whose second page lies behind the tables, and a slot right behind it:
the command for the hole leaves one byte of 20, and the next page takes ten. -/
theorem eptIdleRead_overrun :
    ¬InBounds 20 (walkHvaLoop
      ⟨true, [⟨0x3ffff, 2, 0x7f0000000000⟩, ⟨1, 1, 0x7f0000002000⟩], 0x7ffffffff000, fun _ => false⟩
      (hvaEnd 0x7f0000000000 20) 2
      (walkStart eptIdleOpen firstGib ⟨false, false, false⟩ 20 0x7f0000000000).1).1.scan.eic :=
  fun h => absurd h.bytesCopied_le (by decide +kernel)

end MemoryOptimizer
