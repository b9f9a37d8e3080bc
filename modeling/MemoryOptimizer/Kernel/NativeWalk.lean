import MemoryOptimizer.Kernel.EptWalk
import MemoryOptimizer.Lib.Loops

/-!
# The scan of a task

`mm_idle_read` and what it calls in `ept_idle.c` and `ept_idle_native_pagewalk.c`:
where the file belongs to no virtual machine, the scan walks the page table of the
task itself, one VMA after the other, and copies the buffer to the user after each
walk.

* As in `Kernel.EptWalk` a table is a function of the index of the address at its
  level, and an entry is the bits that the scan looks at.
* A bad entry of the two upper levels counts as none: the walk clears it.
* The walk has no `pte_hole`, so that nothing is done outside the VMAs.
* `copy_to_user` fails or not by the offset in the user's buffer that it starts at.
* The loop over the walks has a bound; running out of it is `none`.
-/

namespace MemoryOptimizer

/-- `struct vm_area_struct`; `hugetlb` is `is_vm_hugetlb_page`. -/
structure VmArea where
  vmStart : ℕ
  vmEnd : ℕ
  vmFile : Bool
  vmWrite : Bool
  vmMayshare : Bool
  hugetlb : Bool
  deriving DecidableEq, Repr

/-- An entry of the third level; `huge` is `pud_trans_huge` or `pud_devmap`. -/
structure PudEntry where
  isNone : Bool
  huge : Bool
  deriving DecidableEq, Repr

/-- An entry of the fourth level. -/
structure PmdEntry where
  isNone : Bool
  present : Bool
  large : Bool
  accessed : Bool
  deriving DecidableEq, Repr

/-- An entry of the last level. -/
structure PteEntry where
  present : Bool
  accessed : Bool
  deriving DecidableEq, Repr

/-- The page table of a task; `pgdirShift` is 39 with four levels and 48 with five. -/
structure PageTable where
  pgdirShift : ℕ
  pgdNone : ℕ → Bool
  p4dNone : ℕ → Bool
  pud : ℕ → PudEntry
  pmd : ℕ → PmdEntry
  pte : ℕ → PteEntry

namespace PageTable

/-- Writing an entry of the last level. -/
@[simps]
def setPte (pt : PageTable) (i : ℕ) (entry : PteEntry) : PageTable :=
  { pt with pte := Function.update pt.pte i entry }

/-- Writing an entry of the level above. -/
@[simps]
def setPmd (pt : PageTable) (i : ℕ) (entry : PmdEntry) : PageTable :=
  { pt with pmd := Function.update pt.pmd i entry }

end PageTable

/-- The assignment of `last_va`. -/
@[simps]
def EptIdleCtrl.setLastVa (eic : EptIdleCtrl) (val : ℕ) : EptIdleCtrl :=
  { eic with lastVa := val }

/-- What a walk changes: the page table and the control structure. -/
structure MmScan where
  pt : PageTable
  eic : EptIdleCtrl

/-! ### The callbacks -/

/-- The type of a page of 4K in `mm_idle_pte_range`, and its entry with the bit
cleared. -/
def mmScanPte (entry : PteEntry) : ProcIdlePageType × PteEntry :=
  if !entry.present then (.pteHole, entry)
  else if !entry.accessed then (.pteIdle, entry)
  else (.pteAccessed, { entry with accessed := false })

/-- The type of a region of 2M in `mm_idle_pmd_entry`, `none` where its pages are
walked, and its entry with the bit cleared. -/
def mmScanPmd (flags : ScanFlags) (entry : PmdEntry) : Option ProcIdlePageType × PmdEntry :=
  let ptePageType := if flags.hugePage then some .pmdIdlePtes else none
  if !entry.present then (some .pmdHole, entry)
  else if !entry.large then (ptePageType, entry)
  else if !entry.accessed then (some .pmdIdle, entry)
  else (some .pmdAccessed, { entry with accessed := false })

/-- A call of `eic_add_page` in a walk. -/
def MmScan.addPage (s : MmScan) (addr next : ℕ) (type : ProcIdlePageType) : MmScan × ℕ :=
  let r := eicAddPage s.eic addr next type
  (⟨s.pt, r.1⟩, r.2)

/-- An iteration of `mm_idle_pte_range`. -/
def mmIdlePte (s : MmScan) (addr next : ℕ) : MmScan × ℕ :=
  let r := mmScanPte (s.pt.pte (addr >>> 12))
  MmScan.addPage ⟨s.pt.setPte (addr >>> 12) r.2, s.eic⟩ addr next r.1

/-- `mm_idle_pte_range`. -/
def mmIdlePteRange (s : MmScan) (addr next : ℕ) : MmScan × ℕ :=
  walkRange (fun addr _ => ulong (addr + 2 ^ 12)) mmIdlePte s addr next

/-- `mm_idle_pmd_entry`. -/
def mmIdlePmdEntry (s : MmScan) (addr next : ℕ) : MmScan × ℕ :=
  if roundDown addr (2 ^ 21) = roundDown s.eic.lastVa (2 ^ 21) then (s, 0)
  else
    let r := mmScanPmd s.eic.flags (s.pt.pmd (addr >>> 21))
    let s : MmScan := ⟨s.pt.setPmd (addr >>> 21) r.2, s.eic.setLastVa addr⟩
    match r.1 with
    | some type => s.addPage addr next type
    | none => mmIdlePteRange s addr next

/-- `mm_idle_pud_entry`, which does not look at the return value of `eic_add_page`. -/
def mmIdlePudEntry (s : MmScan) (addr next : ℕ) : MmScan × ℕ :=
  if roundDown addr (2 ^ 30) ≠ roundDown s.eic.lastVa (2 ^ 30) then
    (⟨s.pt, (eicAddPage s.eic addr next .pudPresent).1.setLastVa addr⟩, 1)
  else (s, 1)

/-- `mm_idle_test_walk`. -/
def mmIdleTestWalk (vma : VmArea) : ℕ :=
  if vma.vmFile then
    if vma.vmWrite && !vma.vmMayshare then 0 else 1
  else 0

/-! ### The page walk -/

/-- An iteration of `walk_pmd_range`. -/
def walkPmd (s : MmScan) (addr next : ℕ) : MmScan × ℕ :=
  if (s.pt.pmd (addr >>> 21)).isNone then (s, 0) else mmIdlePmdEntry s addr next

/-- `walk_pmd_range`. -/
def walkPmdRange (s : MmScan) (addr stop : ℕ) : MmScan × ℕ :=
  walkRange (addrEnd 21) walkPmd s addr stop

/-- An iteration of `walk_pud_range`. -/
def walkPud (s : MmScan) (addr next : ℕ) : MmScan × ℕ :=
  let entry := s.pt.pud (addr >>> 30)
  if entry.isNone then (s, 0)
  else if entry.huge then mmIdlePudEntry s addr next
  else walkPmdRange s addr next

/-- `walk_pud_range`. -/
def walkPudRange (s : MmScan) (addr stop : ℕ) : MmScan × ℕ :=
  walkRange (addrEnd 30) walkPud s addr stop

/-- An iteration of `walk_p4d_range`. -/
def walkP4d (s : MmScan) (addr next : ℕ) : MmScan × ℕ :=
  if s.pt.p4dNone (addr >>> 39) then (s, 0) else walkPudRange s addr next

/-- `walk_p4d_range`. -/
def walkP4dRange (s : MmScan) (addr stop : ℕ) : MmScan × ℕ :=
  walkRange (addrEnd 39) walkP4d s addr stop

/-- An iteration of `walk_pgd_range`. -/
def walkPgd (s : MmScan) (addr next : ℕ) : MmScan × ℕ :=
  if s.pt.pgdNone (addr >>> s.pt.pgdirShift) then (s, 0) else walkP4dRange s addr next

/-- `walk_pgd_range`. -/
def walkPgdRange (s : MmScan) (addr stop : ℕ) : MmScan × ℕ :=
  walkRange (addrEnd s.pt.pgdirShift) walkPgd s addr stop

/-- `__walk_page_range`; there is no `hugetlb_entry`. -/
def walkPageRange (vma : VmArea) (s : MmScan) (start stop : ℕ) : MmScan × ℕ :=
  if vma.hugetlb then (s, 0) else walkPgdRange s start stop

/-- The loop of `ept_idle_walk_page_range`, with the VMAs from `vma` on: it goes from
`start` to the next VMA, walks what is left of it unless its test says no, and goes on
behind it. -/
def walkVmas (stop : ℕ) : List VmArea → MmScan → ℕ → MmScan × ℕ
  | [], s, _ => (s, 0)
  | vma :: vmas, s, start =>
      let start := max start vma.vmStart
      if start < stop then
        let next := min stop vma.vmEnd
        if mmIdleTestWalk vma > 0 then walkVmas stop vmas s next
        else
          let r := walkPageRange vma s start next
          if r.2 ≠ 0 then r else walkVmas stop vmas r.1 next
      else (s, 0)

/-! ### The read -/

/-- The VMAs from `find_vma` on: from the first one that ends above an address. -/
def findVma (mmap : List VmArea) (addr : ℕ) : List VmArea :=
  mmap.dropWhile fun vma => vma.vmEnd ≤ addr

/-- The task and its host, as far as a scan does not change them: the VMAs in the
order of their addresses. -/
structure Mm where
  mmap : List VmArea
  taskSize : ℕ
  copyFails : ℕ → Bool

/-- The state of the loop of `mm_idle_walk_range`. -/
structure MmWalk where
  start : ℕ
  scan : MmScan

/-- What an iteration of `mm_idle_walk_range` does before it copies. -/
def MmWalk.walk (mm : Mm) (stop : ℕ) (w : MmWalk) : MmScan :=
  match findVma mm.mmap w.start with
  | vma :: vmas =>
      if stop > vma.vmStart then (walkVmas stop (vma :: vmas) w.scan w.start).1
      else ⟨w.scan.pt, w.scan.eic.setRestartGpa vma.vmStart⟩
  | [] => ⟨w.scan.pt, w.scan.eic.setRestartGpa mm.taskSize⟩

/-- An iteration of `mm_idle_walk_range`, with the value of `ret` after it. -/
def MmWalk.iterate (mm : Mm) (stop : ℕ) (w : MmWalk) : MmWalk × ℤ :=
  let s := w.walk mm stop
  let start := s.eic.restartGpa
  let (eic, ret) := eptIdleCopyUser mm.copyFails s.eic start stop
  (⟨start, ⟨s.pt, eic⟩⟩, ret)

/-- The loop of `mm_idle_walk_range`: the state, and `ret` where it has ended. -/
def mmIdleWalkLoop (mm : Mm) (stop : ℕ) : ℕ → MmWalk → MmWalk × Option ℤ :=
  loopUntilRet (fun w => w.start < stop) (MmWalk.iterate mm stop)

/-- The state in which the loop of `mm_idle_walk_range` starts, and the return value
of `init_ept_idle_ctrl_buffer` before it. -/
def mmWalkStart (eic : EptIdleCtrl) (pt : PageTable) (flags : ScanFlags) (count start : ℕ) :
    MmWalk × ℕ :=
  let r := initEptIdleCtrlBuffer (setupEptIdleCtrl eic count flags)
  (⟨start, ⟨pt, r.1⟩⟩, r.2)

/-- The result of a read: the return value, the bytes in the buffer of the user,
the new `*ppos` and the page table. -/
structure MmReadResult where
  ret : ℤ
  buf : List ℕ
  ppos : ℕ
  pt : PageTable

/-- The result of a read whose loop has ended, in `mm_idle_walk_range` and behind it. -/
def mmReadResult (ppos : ℕ) (w : MmWalk) (ret : ℤ) : MmReadResult :=
  let ret := if w.scan.eic.bytesCopied ≠ 0 then 0 else ret
  if ret ≠ 0 then ⟨ret, w.scan.eic.buf, ppos, w.scan.pt⟩
  else ⟨w.scan.eic.bytesCopied, w.scan.eic.buf, w.scan.eic.nextHva, w.scan.pt⟩

/-- `mm_idle_read`, with a bound on the iterations. -/
def mmIdleRead (mm : Mm) (eic : EptIdleCtrl) (pt : PageTable) (flags : ScanFlags)
    (count ppos : ℕ) (fuel : ℕ) : Option MmReadResult :=
  let vaEnd := hvaEnd ppos count
  if vaEnd ≤ ppos then some ⟨0, [], ppos, pt⟩
  else if ppos &&& (2 ^ 12 - 1) ≠ 0 then some ⟨-einval, [], ppos, pt⟩
  else if count < eptIdleBufMin then some ⟨-einval, [], ppos, pt⟩
  else
    let (w, ret) := mmWalkStart eic pt flags count ppos
    if ret ≠ 0 then some ⟨ret, [], ppos, pt⟩
    else
      let (w, ret) := mmIdleWalkLoop mm vaEnd fuel w
      ret.map (mmReadResult ppos w)

end MemoryOptimizer
