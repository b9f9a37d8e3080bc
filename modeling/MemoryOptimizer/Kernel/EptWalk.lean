import MemoryOptimizer.Kernel.Encoder
import MemoryOptimizer.Lib.Loops
import MemoryOptimizer.Lib.RangeWalk

/-!
# The scan of a virtual machine

`ept_idle_read` and what it calls in `ept_idle.c`: the walk over the memory slots
of a virtual machine, for each of them the walk over the extended page table, and
the copy of the buffer to the user after each walk.

* A table of the extended page table is a function of the index of the address at
  its level, so that an entry is found by the address alone; an entry is the bits
  the scan looks at.
* `kvm_get_vcpu` finds a vcpu with a valid root.
* `copy_to_user` fails or not by the offset in the user's buffer that it starts at.
* The loop over the slots has a bound; running out of it is `none`, and so is a read
  that overruns the kernel's buffer, at whatever iteration.
-/

namespace MemoryOptimizer

/-- An entry: `KVM_CHECK_INVALID_SPTE`, and the bits of `ept_idle.h`. -/
structure EptEntry where
  invalid : Bool
  present : Bool
  large : Bool
  accessed : Bool
  dirty : Bool
  deriving DecidableEq, Repr

/-- The extended page table; `pgdirShift` is 39 with four levels and 48 with five. -/
structure Ept where
  pgdirShift : ℕ
  pgdPresent : ℕ → Bool
  p4dPresent : ℕ → Bool
  pud : ℕ → EptEntry
  pmd : ℕ → EptEntry
  pte : ℕ → EptEntry

namespace Ept

/-- Writing an entry of the last level. -/
@[simps]
def setPte (ept : Ept) (i : ℕ) (entry : EptEntry) : Ept :=
  { ept with pte := Function.update ept.pte i entry }

/-- Writing an entry of the level above. -/
@[simps]
def setPmd (ept : Ept) (i : ℕ) (entry : EptEntry) : Ept :=
  { ept with pmd := Function.update ept.pmd i entry }

end Ept

/-- What a walk changes: the page table and the control structure. -/
structure EptScan where
  ept : Ept
  eic : EptIdleCtrl

/-! ### The page table -/

/-- The type of a page of 4K, and its entry with the bits cleared. -/
def scanPte (flags : ScanFlags) (entry : EptEntry) : ProcIdlePageType × EptEntry :=
  if entry.invalid then (.pteIdle, entry)
  else if !entry.present then (.pteHole, entry)
  else if !entry.accessed then (.pteIdle, entry)
  else
    let entry := { entry with accessed := false }
    if flags.dirtyPage && entry.dirty then (.pteDirty, { entry with dirty := false })
    else (.pteAccessed, entry)

/-- The type of a region of 2M, `none` where its pages are walked, and its entry
with the bits cleared. -/
def scanPmd (flags : ScanFlags) (entry : EptEntry) : Option ProcIdlePageType × EptEntry :=
  let ptePageType := if flags.hugePage then some .pmdIdlePtes else none
  if entry.invalid then (some .pmdIdle, entry)
  else if !entry.present then (some .pmdHole, entry)
  else if !entry.accessed then
    (if entry.large then some .pmdIdle
      else if flags.skimIdle then some .pmdIdlePtes
      else ptePageType, entry)
  else
    let entry := { entry with accessed := false }
    if entry.large then
      if flags.dirtyPage && entry.dirty then (some .pmdDirty, { entry with dirty := false })
      else (some .pmdAccessed, entry)
    else (ptePageType, entry)

/-- A call of `eic_add_page` in a walk. -/
def EptScan.addPage (s : EptScan) (addr next : ℕ) (type : ProcIdlePageType) : EptScan × ℕ :=
  let r := eicAddPage s.eic addr next type
  (⟨s.ept, r.1⟩, r.2)

/-- An iteration of `ept_pte_range`. -/
def eptPte (s : EptScan) (addr next : ℕ) : EptScan × ℕ :=
  let r := scanPte s.eic.flags (s.ept.pte (addr >>> 12))
  EptScan.addPage ⟨s.ept.setPte (addr >>> 12) r.2, s.eic⟩ addr next r.1

/-- `ept_pte_range`. -/
def eptPteRange (s : EptScan) (addr stop : ℕ) : EptScan × ℕ :=
  walkRange (fun addr _ => ulong (addr + 2 ^ 12)) eptPte s addr stop

/-- An iteration of `ept_pmd_range`. -/
def eptPmd (s : EptScan) (addr next : ℕ) : EptScan × ℕ :=
  let r := scanPmd s.eic.flags (s.ept.pmd (addr >>> 21))
  let s : EptScan := ⟨s.ept.setPmd (addr >>> 21) r.2, s.eic⟩
  match r.1 with
  | some type => s.addPage addr next type
  | none => eptPteRange s addr next

/-- `ept_pmd_range`. -/
def eptPmdRange (s : EptScan) (addr stop : ℕ) : EptScan × ℕ :=
  walkRange (addrEnd 21) eptPmd s addr stop

/-- A hole of a whole table. -/
def EptScan.skip (s : EptScan) (next : ℕ) : EptScan × ℕ := (⟨s.ept, s.eic.setRestartGpa next⟩, 0)

/-- An iteration of `ept_pud_range`. -/
def eptPud (s : EptScan) (addr next : ℕ) : EptScan × ℕ :=
  let entry := s.ept.pud (addr >>> 30)
  if !entry.present then s.skip next
  else if entry.large then s.addPage addr next .pudPresent
  else eptPmdRange s addr next

/-- `ept_pud_range`. -/
def eptPudRange (s : EptScan) (addr stop : ℕ) : EptScan × ℕ :=
  walkRange (addrEnd 30) eptPud s addr stop

/-- An iteration of `ept_p4d_range`. -/
def eptP4d (s : EptScan) (addr next : ℕ) : EptScan × ℕ :=
  if !s.ept.p4dPresent (addr >>> 39) then s.skip next else eptPudRange s addr next

/-- `ept_p4d_range`. -/
def eptP4dRange (s : EptScan) (addr stop : ℕ) : EptScan × ℕ :=
  walkRange (addrEnd 39) eptP4d s addr stop

/-- An iteration of `ept_page_range`. -/
def eptPgd (s : EptScan) (addr next : ℕ) : EptScan × ℕ :=
  if !s.ept.pgdPresent (addr >>> s.ept.pgdirShift) then s.skip next else eptP4dRange s addr next

/-- `ept_page_range`. -/
def eptPageRange (s : EptScan) (addr stop : ℕ) : EptScan × ℕ :=
  walkRange (addrEnd s.ept.pgdirShift) eptPgd s addr stop

/-! ### The buffer of the user -/

/-- `copy_to_user` of what has been written. -/
@[simps]
def EptIdleCtrl.copyToUser (eic : EptIdleCtrl) : EptIdleCtrl :=
  { eic with buf := eic.buf ++ eic.kpie }

/-- The command that sets the position behind a hole at the end, in
`ept_idle_copy_user`. -/
def reportTailHole (eic : EptIdleCtrl) (start stop : ℕ) : EptIdleCtrl :=
  if start ≥ stop ∧ start > eic.nextHva then eicReportAddr (eic.setNextHva start) start else eic

/-- `EINVAL`. -/
def einval : ℤ := 22

/-- `EFAULT`. -/
def efault : ℤ := 14

/-- `ept_idle_copy_user`, with its return value. -/
def eptIdleCopyUser (copyFails : ℕ → Bool) (eic : EptIdleCtrl) (start stop : ℕ) :
    EptIdleCtrl × ℤ :=
  let lc := decide (eic.pieRead = 0)
  let start := if lc ∧ start < stop then stop else start
  let eic := reportTailHole eic start stop
  if eic.pieRead = 0 then (eic, 1)
  else if copyFails eic.bytesCopied then (eic, -efault)
  else
    let eic := eic.copyToUser
    if (eic.bytesCopied : ℤ) ≥ eic.bufSize then (eic, eptIdleBufFull)
    else if lc then (eic, 1)
    else
      let r := initEptIdleCtrlBuffer eic
      (r.1, r.2)

/-! ### The memory slots -/

/-- `struct kvm_memory_slot`. -/
structure KvmMemorySlot where
  baseGfn : ℕ
  npages : ℕ
  userspaceAddr : ℕ
  deriving DecidableEq, Repr

/-- The end of a slot, in `ept_idle_find_gpa`. -/
def KvmMemorySlot.hvaEnd (slot : KvmMemorySlot) : ℕ := slot.userspaceAddr + slot.npages <<< 12

/-- The loop of `ept_idle_find_gpa`. -/
def findGpaLoop (hva : ℕ) : List KvmMemorySlot → ℕ → Option ℕ × ℕ
  | [], addrRange => (none, addrRange)
  | slot :: slots, addrRange =>
      if hva ≥ slot.userspaceAddr ∧ hva < slot.hvaEnd then
        (some ((slot.baseGfn + (hva - slot.userspaceAddr) >>> 12) <<< 12), slot.hvaEnd - hva)
      else
        findGpaLoop hva slots
          (if slot.userspaceAddr > hva then min addrRange (slot.userspaceAddr - hva) else addrRange)

/-- `ept_idle_find_gpa`: the guest physical address, `none` outside the slots, and
`*addr_range`. -/
def eptIdleFindGpa (slots : List KvmMemorySlot) (hva : ℕ) : Option ℕ × ℕ :=
  findGpaLoop hva slots (2 ^ 64 - 1)

/-- The virtual machine and its host, as far as a scan does not change them. -/
structure Kvm where
  supportsCpu : Bool
  slots : List KvmMemorySlot
  taskSize : ℕ
  copyFails : ℕ → Bool

/-- The state of the loop of `ept_idle_walk_hva_range`. -/
structure HvaWalk where
  start : ℕ
  scan : EptScan

/-- What an iteration does before it copies: the walk, here by `pageRange`, and `va_end`. -/
def walkSlotBy (pageRange : EptScan → ℕ → ℕ → EptScan) (kvm : Kvm) (stop : ℕ) (w : HvaWalk) :
    EptScan × ℕ :=
  match eptIdleFindGpa kvm.slots w.start with
  | (none, addrRange) =>
      let eic := w.scan.eic.setGpaToHva 0
      if addrRange = 2 ^ 64 - 1 then (⟨w.scan.ept, eic.setRestartGpa kvm.taskSize⟩, stop)
      else
        let start := ulong (w.start + addrRange)
        (⟨w.scan.ept, eic.setRestartGpa start⟩, start)
  | (some gpaAddr, addrRange) =>
      let eic := w.scan.eic.setGpaToHva (usub w.start gpaAddr)
      (pageRange ⟨w.scan.ept, eic⟩ gpaAddr (ulong (gpaAddr + addrRange)),
        ulong (eic.gpaToHva + gpaAddr + addrRange))

/-- The same by `ept_page_range`, whose return value is not used. -/
def walkSlot (kvm : Kvm) (stop : ℕ) (w : HvaWalk) : EptScan × ℕ :=
  walkSlotBy (fun s addr stop => (eptPageRange s addr stop).1) kvm stop w

/-- The end of an iteration, with the value of `ret` after it. -/
def copyWalked (kvm : Kvm) (walked : EptScan × ℕ) : HvaWalk × ℤ :=
  let (s, vaEnd) := walked
  let start := ulong (s.eic.restartGpa + s.eic.gpaToHva)
  let (eic, ret) := eptIdleCopyUser kvm.copyFails s.eic start vaEnd
  (⟨start, ⟨s.ept, eic⟩⟩, ret)

/-- An iteration of `ept_idle_walk_hva_range`. -/
def walkHva (kvm : Kvm) (stop : ℕ) (w : HvaWalk) : HvaWalk × ℤ :=
  copyWalked kvm (walkSlot kvm stop w)

/-- The loop of `ept_idle_walk_hva_range`: the state, and `ret` where it has
ended. -/
def walkHvaLoop (kvm : Kvm) (stop : ℕ) : ℕ → HvaWalk → HvaWalk × Option ℤ :=
  loopUntilRet (fun w => w.start < stop) (walkHva kvm stop)

theorem walkHvaLoop_succ (kvm : Kvm) (stop fuel : ℕ) (w : HvaWalk) :
    walkHvaLoop kvm stop (fuel + 1) w =
      if w.start < stop then
        if (walkHva kvm stop w).2 ≠ 0 then ((walkHva kvm stop w).1, some (walkHva kvm stop w).2)
        else walkHvaLoop kvm stop fuel (walkHva kvm stop w).1
      else (w, some 0) :=
  rfl

/-- The result of a read: the return value, the bytes in the buffer of the user,
the new `*ppos` and the page table. -/
structure ReadResult where
  ret : ℤ
  buf : List ℕ
  ppos : ℕ
  ept : Ept

/-- The state in which the loop of `ept_idle_walk_hva_range` starts, and the
return value of `init_ept_idle_ctrl_buffer` before it. -/
def walkStart (eic : EptIdleCtrl) (ept : Ept) (flags : ScanFlags) (count start : ℕ) :
    HvaWalk × ℕ :=
  let r := initEptIdleCtrlBuffer (setupEptIdleCtrl eic count flags)
  (⟨start, ⟨ept, r.1⟩⟩, r.2)

/-- `hva_end` of `ept_idle_read`. -/
def hvaEnd (start count : ℕ) : ℕ := ulong (start + count <<< (3 + 12))

/-- `ept_idle_read` on a virtual machine, with a bound on the iterations. -/
def eptIdleRead (kvm : Kvm) (eic : EptIdleCtrl) (ept : Ept) (flags : ScanFlags) (count ppos : ℕ)
    (fuel : ℕ) : Option ReadResult :=
  if ppos ≥ kvm.taskSize ∨ hvaEnd ppos count ≤ ppos then some ⟨0, [], ppos, ept⟩
  else if ppos &&& (2 ^ 12 - 1) ≠ 0 ∨ count < eptIdleBufMin ∨ !kvm.supportsCpu then
    some ⟨-einval, [], ppos, ept⟩
  else
    let (w, ret) := walkStart eic ept flags count ppos
    if ret ≠ 0 then some ⟨ret, [], ppos, ept⟩
    else
      let (w, ret) := walkHvaLoop kvm (hvaEnd ppos count) fuel w
      if w.scan.eic.Overrun then none
      else
        ret.map fun ret =>
          if w.scan.eic.bytesCopied ≠ 0 then
            ⟨w.scan.eic.bytesCopied, w.scan.eic.buf, w.scan.eic.nextHva, w.scan.ept⟩
          else if ret ≠ 0 then ⟨ret, [], ppos, w.scan.ept⟩
          else ⟨0, [], w.scan.eic.nextHva, w.scan.ept⟩

end MemoryOptimizer
