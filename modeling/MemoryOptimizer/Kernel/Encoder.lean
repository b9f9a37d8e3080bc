import MemoryOptimizer.IdlePages.Format
import MemoryOptimizer.Lib.Alignment
import Mathlib.Tactic.Simps.Basic

/-!
# The encoder

`struct ept_idle_ctrl` and `eic_add_page` of `ept_idle.c`: the kernel fills a
buffer with the stream of `IdlePages.Format`, merging a page into the run before
it where it can.

* The buffer is the list of the bytes written since it was initialised, so
  `pie_read` is its length; what has been copied to the user is another list.
* `pie_read_max` and `buf_size` are `int`s and may be negative; where the source
  compares them with a `sizeof`, they are converted to `unsigned long`.
* `peak` is not in the source: it is the largest value `pie_read` has had, over
  all fills of the buffer in a read.
* `kpie` has `EPT_IDLE_KBUF_SIZE` bytes, and `pie_read`, `pie_read_max` and `buf` lie
  behind it: a longer list stands for writes over these (`Overrun`).  What becomes of
  such a read is not defined, and it has no result in the model.
-/

namespace MemoryOptimizer

/-- `EPT_IDLE_KBUF_FULL`. -/
def eptIdleKbufFull : ℕ := 1

/-- `EPT_IDLE_BUF_FULL`. -/
def eptIdleBufFull : ℕ := 2

/-- `EPT_IDLE_BUF_MIN`. -/
def eptIdleBufMin : ℕ := 8 * 2 + 3

/-- `EPT_IDLE_KBUF_SIZE`. -/
def eptIdleKbufSize : ℕ := 8000

/-- The `SCAN_*` flags of an open file. -/
structure ScanFlags where
  hugePage : Bool
  skimIdle : Bool
  dirtyPage : Bool
  deriving DecidableEq, Repr

/-- `struct ept_idle_ctrl`. -/
structure EptIdleCtrl where
  kpie : List ℕ
  pieReadMax : ℤ
  buf : List ℕ
  bufSize : ℤ
  nextHva : ℕ
  gpaToHva : ℕ
  restartGpa : ℕ
  lastVa : ℕ
  flags : ScanFlags
  peak : ℕ
  deriving DecidableEq, Repr

namespace EptIdleCtrl

/-- `pie_read`. -/
def pieRead (eic : EptIdleCtrl) : ℕ := eic.kpie.length

/-- Some byte was written behind `kpie`, in this fill or in one before it. -/
def Overrun (eic : EptIdleCtrl) : Prop := eptIdleKbufSize < eic.peak

instance (eic : EptIdleCtrl) : Decidable eic.Overrun := inferInstanceAs (Decidable (_ < _))

/-- `bytes_copied`. -/
def bytesCopied (eic : EptIdleCtrl) : ℕ := eic.buf.length

/-- `set_restart_gpa`. -/
@[simps]
def setRestartGpa (eic : EptIdleCtrl) (val : ℕ) : EptIdleCtrl := { eic with restartGpa := val }

/-- `set_next_hva`. -/
@[simps]
def setNextHva (eic : EptIdleCtrl) (val : ℕ) : EptIdleCtrl := { eic with nextHva := val }

/-- The assignment of `gpa_to_hva`. -/
@[simps]
def setGpaToHva (eic : EptIdleCtrl) (val : ℕ) : EptIdleCtrl := { eic with gpaToHva := val }

/-- Writing at `pie_read`. -/
@[simps]
def write (eic : EptIdleCtrl) (bytes : List ℕ) : EptIdleCtrl :=
  { eic with
    kpie := eic.kpie ++ bytes
    peak := max eic.peak (eic.pieRead + bytes.length) }

/-- `kpie[pie_read - 1]`. -/
def lastByte (eic : EptIdleCtrl) : ℕ := eic.kpie.getD (eic.pieRead - 1) 0

/-- `kpie[pie_read - 1]++`. -/
@[simps]
def incLastByte (eic : EptIdleCtrl) : EptIdleCtrl :=
  { eic with kpie := eic.kpie.modify (eic.pieRead - 1) fun a => uint8 (a + 1) }

end EptIdleCtrl

/-- The control structure that `ept_idle_open` allocates. -/
def eptIdleOpen : EptIdleCtrl :=
  { kpie := [], pieReadMax := 0, buf := [], bufSize := 0, nextHva := 0, gpaToHva := 0
    restartGpa := 0, lastVa := 0, flags := ⟨false, false, false⟩, peak := 0 }

/-- `init_ept_idle_ctrl_buffer`. -/
def initEptIdleCtrlBuffer (eic : EptIdleCtrl) : EptIdleCtrl × ℕ :=
  let eic := { eic with
    kpie := []
    pieReadMax := min (eptIdleKbufSize : ℤ) (eic.bufSize - eic.bytesCopied) - (8 + 1) }
  (eic, if ulongOfSigned eic.pieReadMax ≤ 8 + 2 then eptIdleKbufFull else 0)

/-- `setup_ept_idle_ctrl`; its `buf_size` is an `int`. -/
def setupEptIdleCtrl (eic : EptIdleCtrl) (count : ℕ) (flags : ScanFlags) : EptIdleCtrl :=
  { eic with
    buf := []
    bufSize := intOfUlong count
    nextHva := 0
    gpaToHva := 0
    restartGpa := 0
    lastVa := 0
    flags := flags
    peak := 0 }

section Setup

variable (eic : EptIdleCtrl) (count : ℕ) (flags : ScanFlags)

@[simp] theorem setupEptIdleCtrl_bufSize :
    (setupEptIdleCtrl eic count flags).bufSize = intOfUlong count := rfl

@[simp] theorem setupEptIdleCtrl_buf : (setupEptIdleCtrl eic count flags).buf = [] := rfl

@[simp] theorem setupEptIdleCtrl_peak : (setupEptIdleCtrl eic count flags).peak = 0 := rfl

end Setup

/-- `eic_report_addr`. -/
def eicReportAddr (eic : EptIdleCtrl) (addr : ℕ) : EptIdleCtrl :=
  eic.write (pipCmdSetHva :: u64ToU8 addr)

/-- The end of `eic_add_page`: a new run of one page. -/
def eicNewItem (eic : EptIdleCtrl) (next : ℕ) (type : ProcIdlePageType) : EptIdleCtrl :=
  ((eic.setNextHva (ulong (next + eic.gpaToHva))).setRestartGpa next).write
    [pipCompose type.code 1]

section NewItem

variable (eic : EptIdleCtrl) (next : ℕ) (type : ProcIdlePageType)

@[simp] theorem eicNewItem_kpie :
    (eicNewItem eic next type).kpie = eic.kpie ++ [pipCompose type.code 1] := rfl

@[simp] theorem eicNewItem_nextHva :
    (eicNewItem eic next type).nextHva = ulong (next + eic.gpaToHva) := rfl

@[simp] theorem eicNewItem_restartGpa : (eicNewItem eic next type).restartGpa = next := rfl

@[simp] theorem eicNewItem_gpaToHva : (eicNewItem eic next type).gpaToHva = eic.gpaToHva := rfl

@[simp] theorem eicReportAddr_kpie (addr : ℕ) :
    (eicReportAddr eic addr).kpie = eic.kpie ++ (pipCmdSetHva :: u64ToU8 addr) := rfl

@[simp] theorem eicReportAddr_pieRead (addr : ℕ) :
    (eicReportAddr eic addr).pieRead = eic.pieRead + 9 := by
  rw [EptIdleCtrl.pieRead, eicReportAddr_kpie, List.length_append]
  rfl

@[simp] theorem eicReportAddr_pieReadMax (addr : ℕ) :
    (eicReportAddr eic addr).pieReadMax = eic.pieReadMax := rfl

@[simp] theorem eicReportAddr_gpaToHva (addr : ℕ) :
    (eicReportAddr eic addr).gpaToHva = eic.gpaToHva := rfl

end NewItem

/-- `eic_add_page`, with its return value. -/
def eicAddPage (eic : EptIdleCtrl) (addr next : ℕ) (type : ProcIdlePageType) : EptIdleCtrl × ℕ :=
  let next := roundUp next type.size
  if eic.pieRead = 0 ∨ ulong (addr + eic.gpaToHva) ≠ eic.nextHva then
    if type = .pteHole ∨ type = .pmdHole then (eic.setRestartGpa next, 0)
    else if eic.pieRead + 8 + 2 ≥ ulongOfSigned eic.pieReadMax then
      (eic.setRestartGpa addr, eptIdleKbufFull)
    else
      (eicNewItem (eicReportAddr eic (ulong (roundDown addr type.size + eic.gpaToHva))) next type,
        0)
  else
    if pipType eic.lastByte = type.code ∧ pipSize eic.lastByte < 0xF then
      (((eic.setNextHva (ulong (next + eic.gpaToHva))).setRestartGpa next).incLastByte, 0)
    else if (eic.pieRead : ℤ) ≥ eic.pieReadMax then
      (eic.setRestartGpa addr, eptIdleKbufFull)
    else (eicNewItem eic next type, 0)

/-! ### What a call does -/

/-- The arguments of a call of `eic_add_page`. -/
structure PageCall where
  addr : ℕ
  next : ℕ
  type : ProcIdlePageType
  deriving DecidableEq, Repr

namespace PageCall

/-- Where the page of a call starts, as a host virtual address. -/
def hva (call : PageCall) (gpaToHva : ℕ) : ℕ :=
  ulong (roundDown call.addr call.type.size + gpaToHva)

/-- A call for a hole. -/
def IsHole (call : PageCall) : Prop := call.type = .pteHole ∨ call.type = .pmdHole

instance (call : PageCall) : Decidable call.IsHole := inferInstanceAs (Decidable (_ ∨ _))

end PageCall

/-- The call is not right behind the last run. -/
def Fresh (eic : EptIdleCtrl) (call : PageCall) : Prop :=
  eic.pieRead = 0 ∨ ulong (call.addr + eic.gpaToHva) ≠ eic.nextHva

instance (eic : EptIdleCtrl) (call : PageCall) : Decidable (Fresh eic call) :=
  inferInstanceAs (Decidable (_ ∨ _))

/-- What a call does: it merges a hole, starts a run behind a new address, extends
the last run, starts a run right behind it, or finds no room for one of these. -/
inductive AddPage (eic : EptIdleCtrl) (call : PageCall) : EptIdleCtrl × ℕ → Prop
  | hole (fresh : Fresh eic call) (hhole : call.IsHole) :
      AddPage eic call (eic.setRestartGpa (roundUp call.next call.type.size), 0)
  | noRoomForAddress (fresh : Fresh eic call) (hhole : ¬call.IsHole)
      (room : eic.pieRead + 8 + 2 ≥ ulongOfSigned eic.pieReadMax) :
      AddPage eic call (eic.setRestartGpa call.addr, eptIdleKbufFull)
  | address (fresh : Fresh eic call) (hhole : ¬call.IsHole)
      (room : eic.pieRead + 8 + 2 < ulongOfSigned eic.pieReadMax) :
      AddPage eic call (eicNewItem (eicReportAddr eic (call.hva eic.gpaToHva))
        (roundUp call.next call.type.size) call.type, 0)
  | extend (fresh : ¬Fresh eic call) (htype : pipType eic.lastByte = call.type.code)
      (hsize : pipSize eic.lastByte < 0xF) :
      AddPage eic call (((eic.setNextHva
        (ulong (roundUp call.next call.type.size + eic.gpaToHva))).setRestartGpa
          (roundUp call.next call.type.size)).incLastByte, 0)
  | noRoomForItem (fresh : ¬Fresh eic call) (room : (eic.pieRead : ℤ) ≥ eic.pieReadMax) :
      AddPage eic call (eic.setRestartGpa call.addr, eptIdleKbufFull)
  | item (fresh : ¬Fresh eic call) (room : (eic.pieRead : ℤ) < eic.pieReadMax) :
      AddPage eic call (eicNewItem eic (roundUp call.next call.type.size) call.type, 0)

theorem eicAddPage_cases (eic : EptIdleCtrl) (call : PageCall) :
    AddPage eic call (eicAddPage eic call.addr call.next call.type) := by
  simp only [eicAddPage]
  by_cases fresh : eic.pieRead = 0 ∨ ulong (call.addr + eic.gpaToHva) ≠ eic.nextHva
  · rw [if_pos fresh]
    by_cases hhole : call.type = .pteHole ∨ call.type = .pmdHole
    · rw [if_pos hhole]
      exact .hole fresh hhole
    · rw [if_neg hhole]
      split
      · exact .noRoomForAddress fresh hhole ‹_›
      · exact .address fresh hhole (not_le.mp ‹_›)
  · rw [if_neg fresh]
    split
    · exact .extend fresh (And.left ‹_›) (And.right ‹_›)
    · split
      · exact .noRoomForItem fresh ‹_›
      · exact .item fresh (not_le.mp ‹_›)

end MemoryOptimizer
