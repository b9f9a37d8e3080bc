import MemoryOptimizer.Kernel.Fill

/-!
# The walk of an iteration

An iteration of `ept_idle_walk_hva_range` finds the memory slot of the position,
and fills the buffer from it.

* `findGpaLoop_of_some`, `findGpaLoop_of_none` — the first slot that holds the
  position, or the distance to the next one above it.
* `Reading.walk_fill`, `walkSlot_hole` — what the walk leaves in the buffer, and
  where it restarts.
-/

namespace MemoryOptimizer

/-! ### Finding the slot -/

namespace KvmMemorySlot

/-- The test of `ept_idle_find_gpa`. -/
def Holds (slot : KvmMemorySlot) (hva : ℕ) : Prop := hva ≥ slot.userspaceAddr ∧ hva < slot.hvaEnd

instance (slot : KvmMemorySlot) (hva : ℕ) : Decidable (slot.Holds hva) :=
  inferInstanceAs (Decidable (_ ∧ _))

/-- `gfn_to_gpa(hva_to_gfn_memslot(hva, memslot))`. -/
def gpa (slot : KvmMemorySlot) (hva : ℕ) : ℕ :=
  (slot.baseGfn + (hva - slot.userspaceAddr) >>> 12) <<< 12

/-- Where the guest physical addresses of a slot end. -/
def gpaEnd (slot : KvmMemorySlot) : ℕ := (slot.baseGfn + slot.npages) <<< 12

end KvmMemorySlot

/-- The distance to the next slot above an address. -/
def holeBelow (hva : ℕ) (slots : List KvmMemorySlot) (addrRange : ℕ) : ℕ :=
  slots.foldl (fun n slot =>
    if slot.userspaceAddr > hva then min n (slot.userspaceAddr - hva) else n) addrRange

theorem findGpaLoop_of_some {hva : ℕ} {slots : List KvmMemorySlot} {slot : KvmMemorySlot}
    (h : slots.find? (fun slot => slot.Holds hva) = some slot) (addrRange : ℕ) :
    findGpaLoop hva slots addrRange = (some (slot.gpa hva), slot.hvaEnd - hva) := by
  induction slots generalizing addrRange with
  | nil => cases h
  | cons head slots ih =>
      rw [findGpaLoop]
      by_cases hhead : head.Holds hva
      · rw [List.find?_cons_of_pos (by simpa using hhead)] at h
        cases h
        exact if_pos hhead
      · rw [List.find?_cons_of_neg (by simpa using hhead)] at h
        exact (if_neg hhead).trans (ih h _)

theorem findGpaLoop_of_none {hva : ℕ} {slots : List KvmMemorySlot}
    (h : slots.find? (fun slot => slot.Holds hva) = none) (addrRange : ℕ) :
    findGpaLoop hva slots addrRange = (none, holeBelow hva slots addrRange) := by
  induction slots generalizing addrRange with
  | nil => rfl
  | cons head slots ih =>
      rw [findGpaLoop]
      by_cases hhead : head.Holds hva
      · rw [List.find?_cons_of_pos (by simpa using hhead)] at h
        cases h
      · rw [List.find?_cons_of_neg (by simpa using hhead)] at h
        exact (if_neg hhead).trans (ih h _)

/-- The hole below a slot ends at a slot, or there is none above. -/
theorem holeBelow_cases (hva : ℕ) (slots : List KvmMemorySlot) (addrRange : ℕ) :
    (holeBelow hva slots addrRange = addrRange ∨
      ∃ slot ∈ slots, hva < slot.userspaceAddr ∧
        holeBelow hva slots addrRange = slot.userspaceAddr - hva) ∧
    holeBelow hva slots addrRange ≤ addrRange ∧
    ∀ slot ∈ slots, hva < slot.userspaceAddr →
      holeBelow hva slots addrRange ≤ slot.userspaceAddr - hva := by
  induction slots generalizing addrRange with
  | nil => exact ⟨Or.inl rfl, le_rfl, by simp⟩
  | cons slot slots ih =>
      rw [holeBelow, List.foldl_cons, ← holeBelow]
      split
      · rename_i habove
        obtain ⟨hcases, hle, hall⟩ := ih (min addrRange (slot.userspaceAddr - hva))
        refine ⟨?_, hle.trans (min_le_left _ _), fun t ht hlt => ?_⟩
        · rcases hcases with h | ⟨t, ht, hlt, h⟩
          · rw [h]
            rcases min_choice addrRange (slot.userspaceAddr - hva) with hm | hm
            · exact Or.inl hm
            · exact Or.inr ⟨slot, List.mem_cons_self, habove, hm⟩
          · exact Or.inr ⟨t, List.mem_cons_of_mem _ ht, hlt, h⟩
        · rcases List.mem_cons.mp ht with rfl | ht
          · exact hle.trans (min_le_right _ _)
          · exact hall t ht hlt
      · rename_i habove
        obtain ⟨hcases, hle, hall⟩ := ih addrRange
        refine ⟨hcases.imp_right fun ⟨t, ht, h⟩ => ⟨t, List.mem_cons_of_mem _ ht, h⟩, hle,
          fun t ht hlt => ?_⟩
        rcases List.mem_cons.mp ht with rfl | ht
        · exact absurd hlt habove
        · exact hall t ht hlt

/-- What KVM and the host keep to: the slots are pages of the address space of the
task, with guest physical addresses of 64 bits, and the task's address space ends
1G below that of the machine. -/
structure Kvm.Ok (kvm : Kvm) : Prop where
  userspaceAddr_dvd : ∀ slot ∈ kvm.slots, 2 ^ 12 ∣ slot.userspaceAddr
  hvaEnd_le : ∀ slot ∈ kvm.slots, slot.hvaEnd ≤ kvm.taskSize
  gpaEnd_lt : ∀ slot ∈ kvm.slots, slot.gpaEnd < 2 ^ 64
  taskSize_lt : kvm.taskSize + 2 ^ 30 < 2 ^ 64

instance (kvm : Kvm) : Decidable kvm.Ok :=
  decidable_of_iff ((∀ slot ∈ kvm.slots, 2 ^ 12 ∣ slot.userspaceAddr) ∧
      (∀ slot ∈ kvm.slots, slot.hvaEnd ≤ kvm.taskSize) ∧
      (∀ slot ∈ kvm.slots, slot.gpaEnd < 2 ^ 64) ∧
      kvm.taskSize + 2 ^ 30 < 2 ^ 64)
    ⟨fun ⟨h1, h2, h3, h4⟩ => ⟨h1, h2, h3, h4⟩, fun ⟨h1, h2, h3, h4⟩ => ⟨h1, h2, h3, h4⟩⟩

/-- The fill of a slot from a position on. -/
def KvmMemorySlot.fillRange (slot : KvmMemorySlot) (hva pgdirShift : ℕ) : FillRange :=
  ⟨slot.gpa hva, slot.gpaEnd, hva, pgdirShift⟩

section Slot

variable {kvm : Kvm} {slot : KvmMemorySlot} {hva pgdirShift : ℕ}

/-- The guest physical address of a page of a slot. -/
theorem KvmMemorySlot.gpa_eq (hslot : 2 ^ 12 ∣ slot.userspaceAddr) (hhva : 2 ^ 12 ∣ hva)
    (hle : slot.userspaceAddr ≤ hva) :
    slot.gpa hva = slot.baseGfn * 2 ^ 12 + (hva - slot.userspaceAddr) := by
  rw [gpa, Nat.shiftLeft_eq, Nat.shiftRight_eq_div_pow]
  omega

theorem KvmMemorySlot.gpa_add (hslot : 2 ^ 12 ∣ slot.userspaceAddr) (hhva : 2 ^ 12 ∣ hva)
    (hholds : slot.Holds hva) :
    slot.gpa hva + (slot.hvaEnd - hva) = slot.gpaEnd := by
  obtain ⟨hge, hlt⟩ := hholds
  rw [gpa_eq hslot hhva hge]
  simp only [hvaEnd, gpaEnd, Nat.shiftLeft_eq] at hlt ⊢
  omega

theorem Kvm.Ok.fillRange (hkvm : kvm.Ok) (hmem : slot ∈ kvm.slots) (hhva : 2 ^ 12 ∣ hva)
    (hholds : slot.Holds hva) (hshift : 39 ≤ pgdirShift ∧ pgdirShift < 64) :
    (slot.fillRange hva pgdirShift).Ok ∧
      (slot.fillRange hva pgdirShift).hva slot.gpaEnd = slot.hvaEnd := by
  have hdvd := hkvm.userspaceAddr_dvd slot hmem
  have hadd := KvmMemorySlot.gpa_add hdvd hhva hholds
  have hend := hkvm.hvaEnd_le slot hmem
  have htask := hkvm.taskSize_lt
  obtain ⟨hge, hlt⟩ := hholds
  have heq : (slot.fillRange hva pgdirShift).hva slot.gpaEnd =
      slot.hvaEnd := by
    simp only [KvmMemorySlot.fillRange, FillRange.hva]
    omega
  refine ⟨⟨?_, ?_, ?_, hkvm.gpaEnd_lt slot hmem, ?_, hshift⟩, heq⟩
  · show 2 ^ 12 ∣ slot.gpa hva
    rw [KvmMemorySlot.gpa, Nat.shiftLeft_eq]
    exact Nat.dvd_mul_left _ _
  · show 2 ^ 12 ∣ slot.gpaEnd
    rw [KvmMemorySlot.gpaEnd, Nat.shiftLeft_eq]
    exact Nat.dvd_mul_left _ _
  · show slot.gpa hva < slot.gpaEnd
    omega
  · refine Nat.lt_of_le_of_lt ?_ htask
    exact Nat.add_le_add_right (heq.trans_le hend) _

end Slot

/-! ### The walk before the copy -/

/-- The position that an iteration goes on from. -/
def EptIdleCtrl.restartHva (eic : EptIdleCtrl) : ℕ := ulong (eic.restartGpa + eic.gpaToHva)

/-- What the walk from `start` leaves for the copy. -/
structure Walked (old : EptIdleCtrl) (va start vaEnd : ℕ) (tokens : List PipToken)
    (eic : EptIdleCtrl) : Prop where
  buf : eic.buf = old.buf
  bufSize : eic.bufSize = old.bufSize
  flags : eic.flags = old.flags
  streams : Streams eic va tokens
  of_nil : tokens = [] → eic.nextHva = old.nextHva ∧ start < max eic.restartHva vaEnd
  of_ne_nil : tokens ≠ [] → start < eic.nextHva ∧ eic.nextHva ≤ eic.restartHva ∧
    2 ^ 12 ∣ eic.restartHva

namespace FillRange

variable {range : FillRange} {old : EptIdleCtrl} {va : ℕ} {s : EptScan} {I J : Pred}

theorem Ok.hva_dvd (hrange : range.Ok) (hbase : 2 ^ 12 ∣ range.base) {x : ℕ} (hx : 2 ^ 12 ∣ x) :
    2 ^ 12 ∣ range.hva x :=
  Nat.dvd_add hbase (Nat.dvd_sub hx hrange.first_dvd)

/-- The walk of the whole range: it restarts at its end or behind it. -/
theorem Walking.ended (hrange : range.Ok) (hbase : 2 ^ 12 ∣ range.base)
    (hgpa : old.gpaToHva = usub range.base range.first) (hw : range.Walking old va I range.stop s) :
    ∃ tokens, Filled old va range.base tokens s.eic ∧ I range.stop s.ept (reported va tokens) ∧
      Walked old va range.base (range.hva range.stop) tokens s.eic ∧
      range.hva range.stop ≤ s.eic.restartHva := by
  obtain ⟨tokens, filled, -, hI⟩ := hw.filled
  obtain ⟨b, hb, hstop, hle, hdvd, hnext⟩ := hw.restart hrange.first_lt
  have hfirst : range.first ≤ b := hrange.first_lt.le.trans hstop
  have hrestart : s.eic.restartHva = range.hva b := by
    rw [EptIdleCtrl.restartHva, hb, filled.gpaToHva, hgpa, ulong_ulong_add,
      hrange.ulong_hva hfirst hle]
  refine ⟨tokens, filled, hI, ⟨filled.buf, filled.bufSize, filled.flags, filled.streams,
    fun h => ⟨filled.nextHva_of_nil h, ?_⟩, fun h => ⟨filled.lt_nextHva h, ?_, ?_⟩⟩, ?_⟩
  · exact (base_lt_hva hrange.first_lt).trans_le (le_max_right _ _)
  · exact hnext.trans_eq hrestart.symm
  · rw [hrestart]
    exact hrange.hva_dvd hbase hdvd
  · rw [hrestart]
    exact hva_mono hstop

/-- The walk that has stopped: it restarts at the page that did not fit. -/
theorem Stopped.ended (hrange : range.Ok) (hbase : 2 ^ 12 ∣ range.base)
    (hgpa : old.gpaToHva = usub range.base range.first) (hw : range.Stopped old va J s) :
    ∃ a tokens, Filled old va range.base tokens s.eic ∧ J a s.ept (reported va tokens) ∧
      Walked old va range.base (range.hva range.stop) tokens s.eic ∧
      range.first < a ∧ a < range.stop ∧ s.eic.restartHva = range.hva a ∧ tokens ≠ [] := by
  obtain ⟨a, tokens, filled, hne, hfirst, hlt, hdvd, ha, hnext, hJ⟩ := hw.stopped
  have hrestart : s.eic.restartHva = range.hva a := by
    rw [EptIdleCtrl.restartHva, ha, filled.gpaToHva, hgpa,
      hrange.ulong_hva hfirst.le (hlt.le.trans (Nat.le_add_right _ _))]
  refine ⟨a, tokens, filled, hJ, ⟨filled.buf, filled.bufSize, filled.flags, filled.streams,
    fun h => absurd h hne, fun h => ⟨filled.lt_nextHva h, ?_, ?_⟩⟩, hfirst, hlt, hrestart, hne⟩
  · exact hnext.trans_eq hrestart.symm
  · rw [hrestart]
    exact hrange.hva_dvd hbase hdvd

end FillRange

/-- What holds between two iterations of a read from `ppos`: the buffer is empty
with room for a first page, and what has been copied is a stream whose cursor is
`next_hva`. -/
structure Reading (pgdirShift ppos : ℕ) (tokens : List PipToken) (w : HvaWalk) : Prop where
  pgdirShift_eq : w.scan.ept.pgdirShift = pgdirShift
  kpie_eq : w.scan.eic.kpie = []
  room : 8 + 2 < ulongOfSigned w.scan.eic.pieReadMax
  start_dvd : 2 ^ 12 ∣ w.start
  nextHva_le : w.scan.eic.nextHva ≤ w.start
  buf_eq : w.scan.eic.buf = pipBytes tokens
  valid : ∀ token ∈ tokens, token.Valid
  cursor : tokens ≠ [] → cursorAfter ppos tokens = w.scan.eic.nextHva

section WalkSlot

variable {kvm : Kvm} {stop pgdirShift ppos va : ℕ} {tokens : List PipToken} {w : HvaWalk}

/-- The state in which the walk of a slot starts. -/
@[simps!]
def HvaWalk.enter (w : HvaWalk) (slot : KvmMemorySlot) : EptIdleCtrl :=
  w.scan.eic.setGpaToHva (usub w.start (slot.gpa w.start))

/-- The walk of what is left of a slot. -/
def HvaWalk.walk (w : HvaWalk) (slot : KvmMemorySlot) : EptScan × ℕ :=
  eptPageRange ⟨w.scan.ept, w.enter slot⟩ (slot.gpa w.start) slot.gpaEnd

theorem walkSlot_of_some (stop : ℕ) (hkvm : kvm.Ok) (hdvd : 2 ^ 12 ∣ w.start)
    {slot : KvmMemorySlot}
    (hfind : kvm.slots.find? (fun slot => slot.Holds w.start) = some slot) :
    walkSlot kvm stop w = ((w.walk slot).1, slot.hvaEnd) := by
  have hholds : slot.Holds w.start := by simpa using List.find?_some hfind
  have hmem := List.mem_of_find?_eq_some hfind
  have hadd := KvmMemorySlot.gpa_add (hkvm.userspaceAddr_dvd slot hmem) hdvd hholds
  have hgpaEnd := hkvm.gpaEnd_lt slot hmem
  have hend := hkvm.hvaEnd_le slot hmem
  have htask := hkvm.taskSize_lt
  have hlt := hholds.2
  have hwalk : walkSlot kvm stop w =
      ((eptPageRange ⟨w.scan.ept, w.enter slot⟩ (slot.gpa w.start)
          (ulong (slot.gpa w.start + (slot.hvaEnd - w.start)))).1,
        ulong (usub w.start (slot.gpa w.start) + slot.gpa w.start +
          (slot.hvaEnd - w.start))) := by
    simp only [walkSlot, walkSlotBy, eptIdleFindGpa, findGpaLoop_of_some hfind, HvaWalk.enter,
      EptIdleCtrl.setGpaToHva_gpaToHva]
  have hvaEnd_eq : ulong (usub w.start (slot.gpa w.start) + slot.gpa w.start +
      (slot.hvaEnd - w.start)) = slot.hvaEnd := by
    unfold usub ulong
    omega
  rw [hwalk, hvaEnd_eq, hadd, ulong_of_lt hgpaEnd]
  rfl

/-- The walk of a slot is a fill. -/
theorem Reading.walk_fill (hw : Reading pgdirShift ppos tokens w) (va : ℕ) {slot : KvmMemorySlot}
    (hrange : (slot.fillRange w.start pgdirShift).Ok) {I J : FillRange.Pred}
    (content : (slot.fillRange w.start pgdirShift).Content w.scan.eic.flags
      (usub w.start (slot.gpa w.start)) I J)
    (hI : I (slot.gpa w.start) w.scan.ept []) :
    Post ((slot.fillRange w.start pgdirShift).Walking (w.enter slot) va I)
      ((slot.fillRange w.start pgdirShift).Stopped (w.enter slot) va J) slot.gpaEnd
      (w.walk slot) :=
  FillRange.eptPageRange_fill (I := I) (J := J)
    (s := ⟨w.scan.ept, w.enter slot⟩) va hrange hw.pgdirShift_eq (HvaWalk.enter_gpaToHva ..)
    (by rw [HvaWalk.enter_pieReadMax]; exact hw.room)
    (by rw [HvaWalk.enter_flags, HvaWalk.enter_gpaToHva]; exact content)
    (by rw [HvaWalk.enter_kpie]; exact hw.kpie_eq)
    (by rw [HvaWalk.enter_nextHva]; exact hw.nextHva_le) hI

theorem walkSlot_of_none
    (hfind : kvm.slots.find? (fun slot => slot.Holds w.start) = none) :
    walkSlot kvm stop w =
      if holeBelow w.start kvm.slots (2 ^ 64 - 1) = 2 ^ 64 - 1 then
        (⟨w.scan.ept, (w.scan.eic.setGpaToHva 0).setRestartGpa kvm.taskSize⟩, stop)
      else
        (⟨w.scan.ept, (w.scan.eic.setGpaToHva 0).setRestartGpa
          (ulong (w.start + holeBelow w.start kvm.slots (2 ^ 64 - 1)))⟩,
          ulong (w.start + holeBelow w.start kvm.slots (2 ^ 64 - 1))) := by
  simp only [walkSlot, walkSlotBy, eptIdleFindGpa, findGpaLoop_of_none hfind]

/-- Outside the slots nothing is walked, up to the next slot or to the end. -/
theorem walkSlot_hole (va : ℕ) (hkvm : kvm.Ok) (hw : Reading pgdirShift ppos tokens w)
    (hlt : w.start < stop)
    (hfind : kvm.slots.find? (fun slot => slot.Holds w.start) = none) :
    (walkSlot kvm stop w).1.ept = w.scan.ept ∧
      Walked w.scan.eic va w.start (walkSlot kvm stop w).2 [] (walkSlot kvm stop w).1.eic ∧
      ∀ slot ∈ kvm.slots, w.start < slot.userspaceAddr →
        max (walkSlot kvm stop w).1.eic.restartHva (walkSlot kvm stop w).2 ≤
          slot.userspaceAddr := by
  have htask := hkvm.taskSize_lt
  have habove : ∀ slot ∈ kvm.slots, w.start < slot.userspaceAddr →
      slot.userspaceAddr < 2 ^ 64 - 1 := by
    intro slot hslot _
    have := hkvm.hvaEnd_le slot hslot
    unfold KvmMemorySlot.hvaEnd at this
    omega
  have hempty : ∀ restart, Streams ((w.scan.eic.setGpaToHva 0).setRestartGpa restart) va [] :=
    fun restart => ⟨hw.kpie_eq, by simp, Or.inl rfl, fun h => absurd rfl h⟩
  have hrestart : ∀ x, x < 2 ^ 64 →
      ((w.scan.eic.setGpaToHva 0).setRestartGpa x).restartHva = x := by
    intro x hx
    rw [EptIdleCtrl.restartHva, EptIdleCtrl.setRestartGpa_restartGpa,
      EptIdleCtrl.setRestartGpa_gpaToHva, EptIdleCtrl.setGpaToHva_gpaToHva, Nat.add_zero,
      ulong_of_lt hx]
  obtain ⟨hcases, -, hall⟩ := holeBelow_cases w.start kvm.slots (2 ^ 64 - 1)
  rw [walkSlot_of_none hfind]
  split
  · rename_i hnone
    refine ⟨rfl, ⟨rfl, rfl, rfl, hempty _, fun _ => ⟨rfl, lt_max_of_lt_right hlt⟩,
      fun h => absurd rfl h⟩, fun slot hslot hslt => ?_⟩
    have := hall slot hslot hslt
    have := habove slot hslot hslt
    omega
  · rename_i hsome
    obtain ⟨slot, hslot, hslt, heq⟩ := hcases.resolve_left hsome
    have hsum : ulong (w.start + holeBelow w.start kvm.slots (2 ^ 64 - 1)) =
        slot.userspaceAddr := by
      have := habove slot hslot hslt
      rw [heq, Nat.add_sub_cancel' hslt.le, ulong_of_lt (by omega)]
    have hx := hrestart slot.userspaceAddr (by have := habove slot hslot hslt; omega)
    rw [hsum]
    refine ⟨rfl, ⟨rfl, rfl, rfl, hempty _, fun _ => ⟨rfl, lt_max_of_lt_right hslt⟩,
      fun h => absurd rfl h⟩, fun t ht htlt => ?_⟩
    have := hall t ht htlt
    dsimp only
    rw [hx, max_self]
    omega

theorem Walked.of_enter {slot : KvmMemorySlot} {start vaEnd : ℕ} {chunk : List PipToken}
    {eic : EptIdleCtrl} (h : Walked (w.enter slot) va start vaEnd chunk eic) :
    Walked w.scan.eic va start vaEnd chunk eic :=
  ⟨h.buf.trans (HvaWalk.enter_buf ..), h.bufSize.trans (HvaWalk.enter_bufSize ..),
    h.flags.trans (HvaWalk.enter_flags ..), h.streams,
    fun hnil => ⟨(h.of_nil hnil).1.trans (HvaWalk.enter_nextHva ..), (h.of_nil hnil).2⟩,
    h.of_ne_nil⟩

/-- Every walk leaves a stream for the copy. -/
theorem walkSlot_walked (va : ℕ) (hkvm : kvm.Ok) (hshift : 39 ≤ pgdirShift ∧ pgdirShift < 64)
    (hw : Reading pgdirShift ppos tokens w) (hlt : w.start < stop) :
    (walkSlot kvm stop w).1.ept.pgdirShift = pgdirShift ∧
      ∃ chunk, Walked w.scan.eic va w.start (walkSlot kvm stop w).2 chunk
        (walkSlot kvm stop w).1.eic := by
  cases hfind : kvm.slots.find? (fun slot => slot.Holds w.start) with
  | none =>
      obtain ⟨hept, hwalked, -⟩ := walkSlot_hole va hkvm hw hlt hfind
      rw [hept]
      exact ⟨hw.pgdirShift_eq, [], hwalked⟩
  | some slot =>
      have hholds : slot.Holds w.start := by simpa using List.find?_some hfind
      obtain ⟨hrange, hhva⟩ :=
        hkvm.fillRange (List.mem_of_find?_eq_some hfind) hw.start_dvd hholds hshift
      have hbase : 2 ^ 12 ∣ (slot.fillRange w.start pgdirShift).base := hw.start_dvd
      have hgpa : (w.enter slot).gpaToHva = usub (slot.fillRange w.start pgdirShift).base
          (slot.fillRange w.start pgdirShift).first := HvaWalk.enter_gpaToHva ..
      have hfill := hw.walk_fill va hrange (FillRange.content_true _ _ _) trivial
      rw [walkSlot_of_some stop hkvm hw.start_dvd hfind]
      dsimp only
      rw [← hhva]
      by_cases hret : (w.walk slot).2 = 0
      · obtain ⟨chunk, -, -, hwalked, -⟩ := (hfill.1 hret).ended hrange hbase hgpa
        exact ⟨(hfill.1 hret).pgdirShift, chunk, hwalked.of_enter⟩
      · obtain ⟨-, chunk, -, -, hwalked, -⟩ := (hfill.2 hret).ended hrange hbase hgpa
        exact ⟨(hfill.2 hret).pgdirShift, chunk, hwalked.of_enter⟩

end WalkSlot

end MemoryOptimizer
