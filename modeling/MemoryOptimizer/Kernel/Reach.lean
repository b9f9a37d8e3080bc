import MemoryOptimizer.Kernel.Accesses
import MemoryOptimizer.Kernel.SlotWalk

/-!
# How far a walk reaches

`eic_add_page` rounds the restart up to the end of the page that it reports, so that
the walk of a slot may restart behind the end of the slot.

* `Ept.reach` — the end of the block that the entry of the last page of a range covers.
* `HvaWalk.walk_reach` — the walk of a slot to its end restarts no later.
-/

namespace MemoryOptimizer

instance (entry : EptEntry) : Decidable entry.IsTable := inferInstanceAs (Decidable (_ ∧ _ ∧ _))

/-- The end of what the entry of the page before `x` covers, or `x` where that is a
page of 4K or a table above is missing. -/
def Ept.reach (ept : Ept) (x : ℕ) : ℕ :=
  if ept.Missing (x - 1) then x
  else if (ept.pud ((x - 1) >>> 30)).large then ((x - 1) / 2 ^ 30 + 1) * 2 ^ 30
  else if (ept.pmd ((x - 1) >>> 21)).IsTable then x
  else ((x - 1) / 2 ^ 21 + 1) * 2 ^ 21

theorem Ept.le_reach (ept : Ept) (x : ℕ) : x ≤ ept.reach x := by
  unfold Ept.reach
  split
  · exact le_rfl
  · split
    · omega
    · split
      · exact le_rfl
      · omega

theorem Ept.reach_le (ept : Ept) (x : ℕ) : ept.reach x ≤ x + 2 ^ 30 := by
  unfold Ept.reach
  split
  · omega
  · split
    · omega
    · split <;> omega

/-- A region of 2M that is not a table reaches to its end at least. -/
theorem Ept.region_le_reach (ept : Ept) {x : ℕ} (hthere : ¬ept.Missing (x - 1))
    (htable : ¬(ept.pmd ((x - 1) >>> 21)).IsTable) :
    ((x - 1) / 2 ^ 21 + 1) * 2 ^ 21 ≤ ept.reach x := by
  rw [Ept.reach, if_neg hthere, if_neg htable]
  split
  · omega
  · exact le_rfl

/-- The reach depends on where the tables are, not on the bits. -/
theorem Ept.reach_congr {old new : Ept} (htables : new.tables = old.tables)
    (htable : ∀ j, (new.pmd j).IsTable ↔ (old.pmd j).IsTable) (x : ℕ) :
    new.reach x = old.reach x := by
  have hpud : new.pud = old.pud := congrArg (fun t => t.2.2.2) htables
  unfold Ept.reach
  rw [hpud]
  simp only [htable, Ept.missing_congr htables]

theorem isTable_setPmd_scanPmd (ept : Ept) (flags : ScanFlags) (i j : ℕ) :
    ((ept.setPmd i (scanPmd flags (ept.pmd i)).2).pmd j).IsTable ↔ (ept.pmd j).IsTable := by
  rw [Ept.setPmd_pmd]
  by_cases hj : j = i
  · subst hj
    obtain ⟨h1, h2, h3⟩ := scanPmd_snd flags (ept.pmd j)
    rw [Function.update_self, EptEntry.IsTable, h1, h2, h3]
    rfl
  · rw [Function.update_of_ne hj]

namespace FillRange

variable {range : FillRange} {old : EptIdleCtrl} {va a next : ℕ} {s : EptScan}

/-- The restart is not behind the reach of the address. -/
structure Reaching (range : FillRange) (old : EptIdleCtrl) (va a : ℕ) (s : EptScan) : Prop where
  walking : range.Walking old va (fun _ _ _ => True) a s
  restart : range.first < a → ∃ b, s.eic.restartGpa = ulong b ∧ a ≤ b ∧ b ≤ s.ept.reach a

/-- An accepted page restarts at the end of its block. -/
theorem restart_addPage (hrange : range.Ok) {type : ProcIdlePageType} (htype : type ≠ .pipCmd)
    (piece : Piece range.first range.stop type.shift a next)
    (hret : (s.addPage a next type).2 = 0) :
    (s.addPage a next type).1.eic.restartGpa = ulong ((a / 2 ^ type.shift + 1) * 2 ^ type.shift) ∧
      (s.addPage a next type).1.ept = s.ept := by
  have hcall := eicAddPage_cases s.eic ⟨a, next, type⟩
  exact ⟨(hcall.cursors hret).1.trans (callOk hrange htype piece).2, rfl⟩

/-- The block of the last page of a piece is the block of its first one. -/
theorem last_block {k : ℕ} (piece : Piece range.first range.stop k a next) :
    (next - 1) / 2 ^ k = a / 2 ^ k := by
  have hlt := piece.lt
  have hindex := piece.index_eq (x := next - 1) (by omega) (by omega)
  rwa [Nat.shiftRight_eq_div_pow, Nat.shiftRight_eq_div_pow] at hindex

/-- Where the entry of a piece is, that of its last page is. -/
theorem last_there (hrange : range.Ok) {ept : Ept} (hshift : ept.pgdirShift = range.pgdirShift)
    {k : ℕ} (hk : k ≤ 30) (piece : Piece range.first range.stop k a next)
    (hthere : ¬ept.Missing a) : ¬ept.Missing (next - 1) := by
  have hshift : 30 ≤ ept.pgdirShift := by
    rw [hshift]
    exact (by decide : 30 ≤ 39).trans hrange.shift.1
  refine mt (Ept.missing_of_index hk hshift ?_).mp hthere
  rw [Nat.shiftRight_eq_div_pow, last_block piece, ← Nat.shiftRight_eq_div_pow]

theorem reaching_steps (hrange : range.Ok) (hgpa : old.gpaToHva = usub range.base range.first)
    (hroom : 8 + 2 < ulongOfSigned old.pieReadMax) (hflags : old.flags = noFlags) :
    WalkSteps range.first range.stop range.pgdirShift (range.Reaching old va) (fun _ => True) := by
  have steps : WalkSteps range.first range.stop range.pgdirShift
      (range.Walking old va fun _ _ _ => True) (range.Stopped old va fun _ _ _ => True) :=
    (content_true range old.flags old.gpaToHva).steps hrange hgpa hroom
  have hscan_flags {a s} (h : range.Reaching old va a s) : s.eic.flags = noFlags := by
    obtain ⟨tokens, filled, -⟩ := h.walking.filled
    exact filled.flags.trans hflags
  refine ⟨fun a s h => h.walking.pgdirShift, fun k a next s hk piece h hmissing => ?_,
    fun a next s piece h hthere hlarge => ⟨fun hret => ?_, fun _ => trivial⟩,
    fun a next s type piece h hthere hscan => ⟨fun hret => ?_, fun _ => trivial⟩,
    fun a next s piece h hscan => ?_,
    fun a next s piece h htable => ⟨fun hret => ?_, fun _ => trivial⟩⟩
  · have hnext := piece.next_le.trans_lt hrange.stop_lt
    exact ⟨steps.skip k a next s hk piece h.walking hmissing,
      fun _ => ⟨next, (ulong_of_lt hnext).symm, le_rfl, s.ept.le_reach next⟩⟩
  · refine ⟨(steps.pud a next s piece h.walking hthere hlarge).1 hret, fun _ => ?_⟩
    obtain ⟨hrestart, hept⟩ :=
      restart_addPage hrange (show ProcIdlePageType.pudPresent ≠ .pipCmd by decide) piece hret
    refine ⟨_, hrestart, piece.block, ?_⟩
    have hindex : (s.ept.pud ((next - 1) >>> 30)).large = true := by
      rw [Nat.shiftRight_eq_div_pow, last_block piece, ← Nat.shiftRight_eq_div_pow]
      exact hlarge
    have hthere := last_there hrange h.walking.pgdirShift le_rfl piece hthere
    rw [hept, Ept.reach, if_neg hthere, if_pos hindex, last_block piece]
    exact le_rfl
  · refine ⟨(steps.pmd a next s type piece h.walking hthere hscan).1 hret, fun _ => ?_⟩
    obtain ⟨hshift, htype⟩ := scanPmd_shift hscan
    obtain ⟨hrestart, hept⟩ := restart_addPage hrange htype (by rwa [hshift]) hret
    -- without flags a table is walked, not reported
    have htable : ¬(((s.scanRegion a).ept.pmd ((next - 1) >>> 21))).IsTable := by
      rw [Nat.shiftRight_eq_div_pow, last_block piece, ← Nat.shiftRight_eq_div_pow,
        EptScan.scanRegion, isTable_setPmd_scanPmd]
      intro htable
      rw [hscan_flags h, scanPmd_of_isTable htable] at hscan
      cases hscan
    refine ⟨_, hrestart, by rw [hshift]; exact piece.block, ?_⟩
    rw [hept, hshift, ← last_block piece]
    have hthere : ¬(s.scanRegion a).ept.Missing (next - 1) :=
      last_there hrange h.walking.pgdirShift (by decide) piece hthere
    exact Ept.region_le_reach _ hthere htable
  · refine ⟨steps.table a next s piece h.walking hscan, fun hlt => ?_⟩
    obtain ⟨b, hb, hle, hreach⟩ := h.restart hlt
    have hsame : (s.scanRegion a).ept.reach a = s.ept.reach a := by
      refine Ept.reach_congr ?_ ?_ a
      · rfl
      · exact isTable_setPmd_scanPmd s.ept s.eic.flags (a >>> 21)
    exact ⟨b, hb, hle, hreach.trans_eq hsame.symm⟩
  · refine ⟨(steps.pte a next s piece h.walking htable).1 hret, fun _ => ?_⟩
    obtain ⟨hshift, htype⟩ := scanPte_shift s.eic.flags (s.ept.pte (a >>> 12))
    obtain ⟨hrestart, hept⟩ := restart_addPage (s := ⟨s.ept.setPte (a >>> 12)
      (scanPte s.eic.flags (s.ept.pte (a >>> 12))).2, s.eic⟩) hrange htype (by rwa [hshift]) hret
    rw [hshift] at hrestart
    have hnext : (a / 2 ^ 12 + 1) * 2 ^ 12 = next := by
      have hdvd := piece.dvd_next hrange.stop_dvd dvd_rfl
      have hblock := piece.block
      have hlt := piece.lt
      omega
    rw [hnext] at hrestart
    exact ⟨next, hrestart, le_rfl, Ept.le_reach _ next⟩

/-- The walk of a range to its end restarts within the reach of its end. -/
theorem eptPageRange_reach (va : ℕ) (hrange : range.Ok)
    (hshift : s.ept.pgdirShift = range.pgdirShift)
    (hgpa : s.eic.gpaToHva = usub range.base range.first)
    (hroom : 8 + 2 < ulongOfSigned s.eic.pieReadMax) (hflags : s.eic.flags = noFlags)
    (hempty : s.eic.kpie = []) (hnext : s.eic.nextHva ≤ range.base)
    (hret : (eptPageRange s range.first range.stop).2 = 0) :
    range.Reaching s.eic va range.stop (eptPageRange s range.first range.stop).1 := by
  have start : range.Walking s.eic va (fun _ _ _ => True) range.first s := by
    refine ⟨hshift, ⟨[], ?_, fun h => absurd rfl h, trivial⟩,
      fun _ => hnext.trans (Nat.le_add_right _ _), fun h => absurd h (lt_irrefl _)⟩
    exact ⟨⟨rfl, rfl, rfl, rfl, rfl⟩, ⟨hempty, by simp, Or.inl rfl, fun h => absurd rfl h⟩,
      fun _ => rfl, fun h => absurd rfl h⟩
  exact (eptPageRange_rule (reaching_steps hrange hgpa hroom hflags) hrange.first_dvd
    hrange.stop_dvd hrange.stop_lt hrange.shift hrange.first_lt
    ⟨start, fun h => absurd h (lt_irrefl _)⟩).1 hret

end FillRange

/-! ### The walk of a slot -/

/-- The host virtual address up to which a walk of the slot may restart. -/
def KvmMemorySlot.reachHva (slot : KvmMemorySlot) (ept : Ept) : ℕ :=
  slot.hvaEnd + (ept.reach slot.gpaEnd - slot.gpaEnd)

section Slot

variable {kvm : Kvm} {pgdirShift ppos : ℕ} {tokens : List PipToken} {w : HvaWalk}

theorem HvaWalk.walk_reach (hw : Reading pgdirShift ppos tokens w)
    (hflags : w.scan.eic.flags = noFlags) {slot : KvmMemorySlot}
    (hrange : (slot.fillRange w.start pgdirShift).Ok)
    (hhva : (slot.fillRange w.start pgdirShift).hva slot.gpaEnd = slot.hvaEnd)
    (hret : (w.walk slot).2 = 0) :
    (w.walk slot).1.eic.restartHva ≤ slot.reachHva (w.walk slot).1.ept := by
  have hreach : (slot.fillRange w.start pgdirShift).Reaching (w.enter slot) 0 slot.gpaEnd
      (w.walk slot).1 :=
    FillRange.eptPageRange_reach (s := ⟨w.scan.ept, w.enter slot⟩) 0 hrange hw.pgdirShift_eq
      (HvaWalk.enter_gpaToHva ..) (by rw [HvaWalk.enter_pieReadMax]; exact hw.room)
      (by rw [HvaWalk.enter_flags]; exact hflags) (by rw [HvaWalk.enter_kpie]; exact hw.kpie_eq)
      (by rw [HvaWalk.enter_nextHva]; exact hw.nextHva_le) hret
  have hlt : slot.gpa w.start < slot.gpaEnd := hrange.first_lt
  obtain ⟨b, hb, hle, hbound⟩ := hreach.restart hlt
  obtain ⟨tokens, filled, -⟩ := hreach.walking.filled
  have hmax := (w.walk slot).1.ept.reach_le slot.gpaEnd
  have hrestart : (w.walk slot).1.eic.restartHva = (slot.fillRange w.start pgdirShift).hva b := by
    rw [EptIdleCtrl.restartHva, hb, filled.gpaToHva, HvaWalk.enter_gpaToHva, ulong_ulong_add]
    exact hrange.ulong_hva (hlt.le.trans hle) (hbound.trans hmax)
  rw [hrestart, KvmMemorySlot.reachHva, ← hhva]
  simp only [FillRange.hva, KvmMemorySlot.fillRange]
  omega

end Slot

end MemoryOptimizer
