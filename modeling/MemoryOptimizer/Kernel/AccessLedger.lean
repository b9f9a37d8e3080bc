import MemoryOptimizer.IdlePages.BackedCounts
import MemoryOptimizer.Kernel.AccessLoss

/-!
# The ledger of the accesses

An access sets the bit of an entry, which is a unit of credit of that entry; a scan
that reports the access clears the bit.  So a read reports no access that there was
not, and none twice, whatever its flags are, whatever the guest does between the
reads, and however the copies to the user fail.

* `Leaf` — an entry that maps a page, `Leaf.credit` — whether its bit is set.
* `accessed_content` — a fill spends the credit of the entries that it reports.
* `walkSlot_backed`, `walkHvaLoop_backed`, `eptIdleRead_backed` — so do a walk, the
  loop and a read.
* `run_backed` — over a run of accesses and reads, each report of an access is backed
  by another access.
-/

namespace MemoryOptimizer

/-- An entry that maps a page: of the last level, or of the level above. -/
inductive Leaf where
  | pte (i : ℕ)
  | pmd (i : ℕ)
  deriving DecidableEq, Repr

namespace Leaf

/-- The level, as the shift of its pages. -/
def shift : Leaf → ℕ
  | pte _ => 12
  | pmd _ => 21

/-- The index in the tables of its level. -/
def index : Leaf → ℕ
  | pte i => i
  | pmd i => i

/-- Where the page starts. -/
def addr (leaf : Leaf) : ℕ := leaf.index * 2 ^ leaf.shift

/-- The types that report an access to the page, one of them for a scan of dirty pages. -/
def Reports (flags : ScanFlags) : Leaf → ProcIdlePageType → Prop
  | pte _, type => type = .pteAccessed ∨ type = .pteDirty ∧ flags.dirtyPage = true
  | pmd _, type => type = .pmdAccessed ∨ type = .pmdDirty ∧ flags.dirtyPage = true

/-- The entry is a leaf, and its accessed bit is set. -/
def Accessed (ept : Ept) : Leaf → Prop
  | pte i => (ept.pte i).IsAccessed
  | pmd i => (ept.pmd i).IsAccessed ∧ (ept.pmd i).large = true

instance (ept : Ept) (leaf : Leaf) : Decidable (leaf.Accessed ept) :=
  match leaf with
  | pte i => inferInstanceAs (Decidable (ept.pte i).IsAccessed)
  | pmd i => inferInstanceAs (Decidable ((ept.pmd i).IsAccessed ∧ (ept.pmd i).large = true))

/-- The access that the bit of an entry stands for. -/
def credit (ept : Ept) (leaf : Leaf) : ℕ := if leaf.Accessed ept then 1 else 0

theorem credit_of_accessed {ept : Ept} {leaf : Leaf} (h : leaf.Accessed ept) :
    leaf.credit ept = 1 := if_pos h

theorem credit_of_not {ept : Ept} {leaf : Leaf} (h : ¬leaf.Accessed ept) :
    leaf.credit ept = 0 := if_neg h

end Leaf

/-- A call reports one access, or none. -/
theorem accessReports_pages (call : PageCall) (gpaToHva : ℕ) :
    accessReports (call.pages gpaToHva) =
      if call.type.IsAccess then [(call.type, call.hva gpaToHva)] else [] := by
  obtain ⟨addr, next, type⟩ := call
  unfold PageCall.pages PageCall.IsHole
  cases type with
  | pmdIdlePtes =>
      refine List.filter_eq_nil_iff.mpr fun page hpage => ?_
      obtain ⟨i, -, rfl⟩ := List.mem_map.mp hpage
      exact Bool.false_ne_true
  | _ => simp [accessReports, ProcIdlePageType.IsAccess]

/-! ### One entry -/

/-- A region that is reported as accessed is a page of 2M whose bit was set. -/
theorem accessed_of_scanPmd {flags : ScanFlags} {entry : EptEntry} {type : ProcIdlePageType}
    (h : (scanPmd flags entry).1 = some type) (haccess : type.IsAccess = true) :
    (entry.IsAccessed ∧ entry.large = true) ∧
      (type = .pmdAccessed ∨ type = .pmdDirty ∧ flags.dirtyPage = true) := by
  obtain ⟨invalid, present, large, accessed, dirty⟩ := entry
  simp only [scanPmd] at h
  unfold EptEntry.IsAccessed
  split_ifs at h <;> cases h <;> simp_all [ProcIdlePageType.IsAccess]

/-- A page that is reported as accessed is one whose bit was set. -/
theorem accessed_of_scanPte {flags : ScanFlags} {entry : EptEntry}
    (haccess : (scanPte flags entry).1.IsAccess = true) :
    entry.IsAccessed ∧ ((scanPte flags entry).1 = .pteAccessed ∨
      (scanPte flags entry).1 = .pteDirty ∧ flags.dirtyPage = true) := by
  obtain ⟨invalid, present, large, accessed, dirty⟩ := entry
  unfold EptEntry.IsAccessed
  revert haccess
  simp only [scanPte]
  split_ifs <;> simp_all [ProcIdlePageType.IsAccess]

section Credit

variable (ept : Ept) (flags : ScanFlags) (i : ℕ) (leaf : Leaf)

/-- A scanned region has no credit left, and the other entries keep theirs. -/
theorem credit_setPmd : leaf.credit (ept.setPmd i (scanPmd flags (ept.pmd i)).2) =
    if leaf = .pmd i then 0 else leaf.credit ept := by
  by_cases hleaf : leaf = .pmd i
  · subst hleaf
    rw [if_pos rfl]
    refine Leaf.credit_of_not fun h => ?_
    have haccessed := h.1
    rw [Ept.setPmd_pmd, Function.update_self] at haccessed
    exact scanPmd_not_isAccessed _ _ haccessed
  · rw [if_neg hleaf]
    cases leaf with
    | pte j => rfl
    | pmd j =>
        have hj : j ≠ i := fun h => hleaf (congrArg Leaf.pmd h)
        refine if_congr ?_ rfl rfl
        simp only [Leaf.Accessed, Ept.setPmd_pmd, Function.update_of_ne hj]

theorem credit_setPte : leaf.credit (ept.setPte i (scanPte flags (ept.pte i)).2) =
    if leaf = .pte i then 0 else leaf.credit ept := by
  by_cases hleaf : leaf = .pte i
  · subst hleaf
    rw [if_pos rfl]
    refine Leaf.credit_of_not fun h => ?_
    have haccessed : ((ept.setPte i (scanPte flags (ept.pte i)).2).pte i).IsAccessed := h
    rw [Ept.setPte_pte, Function.update_self] at haccessed
    exact scanPte_not_isAccessed _ _ haccessed
  · rw [if_neg hleaf]
    cases leaf with
    | pte j =>
        have hj : j ≠ i := fun h => hleaf (congrArg Leaf.pte h)
        refine if_congr ?_ rfl rfl
        simp only [Leaf.Accessed, Ept.setPte_pte, Function.update_of_ne hj]
    | pmd j => rfl

end Credit

/-! ### A fill -/

namespace FillRange

/-- The fill of a range makes the report of the entry, whose page has an address in the
range. -/
def Backs (range : FillRange) (flags : ScanFlags) (gpaToHva : ℕ)
    (report : ProcIdlePageType × ℕ) (leaf : Leaf) : Prop :=
  leaf.Reports flags report.1 ∧ report.2 = ulong (leaf.addr + gpaToHva) ∧
    ∃ x, range.first ≤ x ∧ x < range.stop ∧ x >>> leaf.shift = leaf.index

/-- The accesses reported were those that the entries had in `old`. -/
def Spent (range : FillRange) (flags : ScanFlags) (gpaToHva : ℕ) (old : Ept) : Pred :=
  fun _ ept rep =>
    Backed (range.Backs flags gpaToHva) (Leaf.credit old) 0 (Leaf.credit ept) (accessReports rep)

section Spent

variable {range : FillRange} {flags : ScanFlags} {gpaToHva a next : ℕ} {old ept new : Ept}
variable {rep : List (ProcIdlePageType × ℕ)}

/-- A page of the range, reported as accessed where its entry was. -/
theorem Spent.page (h : range.Spent flags gpaToHva old a ept rep) (hrange : range.Ok) (leaf : Leaf)
    (piece : Piece range.first range.stop leaf.shift a next)
    (hindex : leaf.index = a >>> leaf.shift)
    {type : ProcIdlePageType} (hshift : type.shift = leaf.shift) (htype : type ≠ .pipCmd)
    (hcredit : ∀ other : Leaf, other.credit new = if other = leaf then 0 else other.credit ept)
    (haccess : type.IsAccess = true → leaf.Accessed ept ∧ leaf.Reports flags type) :
    range.Spent flags gpaToHva old next new (rep ++ PageCall.pages ⟨a, next, type⟩ gpaToHva) ∧
      range.Spent flags gpaToHva old a new rep := by
  have hle : ∀ other : Leaf, other.credit new ≤ other.credit ept := by
    intro other
    rw [hcredit]
    split
    · exact Nat.zero_le _
    · exact le_rfl
  refine ⟨?_, h.drop hle⟩
  unfold Spent
  rw [accessReports_append, accessReports_pages]
  dsimp only
  by_cases htrue : type.IsAccess = true
  · obtain ⟨haccessed, hreports⟩ := haccess htrue
    rw [if_pos htrue]
    have hdown : roundDown a type.size = leaf.addr := by
      rw [ProcIdlePageType.size_eq htype, roundDown_eq (piece.lt_stop.trans hrange.stop_lt)
        type.shift_le, hshift, Leaf.addr, hindex, Nat.shiftRight_eq_div_pow]
    have hbacks :
        range.Backs flags gpaToHva (type, PageCall.hva ⟨a, next, type⟩ gpaToHva) leaf := by
      refine ⟨hreports, ?_, a, piece.first_le, piece.lt_stop, hindex.symm⟩
      rw [← hdown]
      rfl
    refine h.append (Backed.single hbacks ?_ fun other _ => hle other)
    rw [hcredit, if_pos rfl, Leaf.credit_of_accessed haccessed]
  · rw [if_neg htrue, List.append_nil]
    exact h.drop hle

/-- A fill spends the credit of the entries that it reports as accessed. -/
theorem accessed_content (hrange : range.Ok) (flags : ScanFlags) (old : Ept) :
    range.Content flags gpaToHva (range.Spent flags gpaToHva old)
      (range.Spent flags gpaToHva old) where
  skip _ _ _ _ _ _ _ _ h := h
  pud a next ept rep _ _ _ h := by
    refine ⟨?_, h⟩
    unfold Spent
    rw [accessReports_append, accessReports_pages]
    exact (List.append_nil (accessReports rep)).symm ▸ h
  pmd a next ept rep type piece hscan h := by
    obtain ⟨hshift, htype⟩ := scanPmd_shift hscan
    exact h.page hrange (.pmd (a >>> 21)) piece rfl hshift htype
      (fun other => credit_setPmd ept flags (a >>> 21) other) (accessed_of_scanPmd hscan)
  table a next ept rep _ _ h := by
    refine h.drop fun leaf => ?_
    rw [credit_setPmd]
    split
    · exact Nat.zero_le _
    · exact le_rfl
  pte a next ept rep piece _ h := by
    obtain ⟨hshift, htype⟩ := scanPte_shift flags (ept.pte (a >>> 12))
    exact h.page hrange (.pte (a >>> 12)) piece rfl hshift htype
      (fun other => credit_setPte ept flags (a >>> 12) other) accessed_of_scanPte

end Spent

end FillRange

/-! ### A read -/

/-- The report of an access to the page of an entry, at its address in a slot that has
the page or a part of it. -/
def Kvm.Backs (kvm : Kvm) (flags : ScanFlags) (report : ProcIdlePageType × ℕ) (leaf : Leaf) :
    Prop :=
  leaf.Reports flags report.1 ∧ ∃ slot ∈ kvm.slots,
    report.2 = ulong (leaf.addr + usub slot.userspaceAddr (slot.baseGfn <<< 12)) ∧
      ∃ x, slot.baseGfn <<< 12 ≤ x ∧ x < slot.gpaEnd ∧ x >>> leaf.shift = leaf.index

section Read

variable {kvm : Kvm} {stop pgdirShift ppos va : ℕ} {tokens : List PipToken} {w : HvaWalk}

theorem FillRange.Backs.slot (hkvm : kvm.Ok) {slot : KvmMemorySlot} (hmem : slot ∈ kvm.slots)
    {start : ℕ} (hstart : 2 ^ 12 ∣ start) (hholds : slot.Holds start)
    {flags : ScanFlags} {report : ProcIdlePageType × ℕ} {leaf : Leaf}
    (h : (slot.fillRange start pgdirShift).Backs flags (usub start (slot.gpa start)) report leaf) :
    kvm.Backs flags report leaf := by
  obtain ⟨hreports, hhva, x, hfirst, hlt, hindex⟩ := h
  have hgpa := KvmMemorySlot.gpa_eq (hkvm.userspaceAddr_dvd slot hmem) hstart hholds.1
  have hle := hholds.1
  refine ⟨hreports, slot, hmem, ?_, x, le_trans ?_ hfirst, hlt, hindex⟩
  · have hend := hkvm.gpaEnd_lt slot hmem
    have hfirst : slot.gpa start ≤ x := hfirst
    have hlt : x < slot.gpaEnd := hlt
    rw [hhva, Nat.shiftLeft_eq]
    unfold usub ulong
    omega
  · show slot.baseGfn <<< 12 ≤ slot.gpa start
    rw [hgpa, Nat.shiftLeft_eq]
    exact Nat.le_add_right _ _

/-- A walk spends the credit of the entries that it reports as accessed. -/
theorem walkSlot_backed (va : ℕ) (hkvm : kvm.Ok) (hshift : 39 ≤ pgdirShift ∧ pgdirShift < 64)
    (hw : Reading pgdirShift ppos tokens w) (hlt : w.start < stop) :
    (walkSlot kvm stop w).1.ept.pgdirShift = pgdirShift ∧
      ∃ reports, Walked w.scan.eic va w.start (walkSlot kvm stop w).2 reports
        (walkSlot kvm stop w).1.eic ∧
      Backed (kvm.Backs w.scan.eic.flags) (Leaf.credit w.scan.ept) 0
        (Leaf.credit (walkSlot kvm stop w).1.ept) (accessReports (reported va reports)) := by
  cases hfind : kvm.slots.find? (fun slot => slot.Holds w.start) with
  | none =>
      obtain ⟨hept, hwalked, -⟩ := walkSlot_hole va hkvm hw hlt hfind
      rw [hept]
      exact ⟨hw.pgdirShift_eq, [], hwalked, Backed.nil _ _⟩
  | some slot =>
      have hholds : slot.Holds w.start := by simpa using List.find?_some hfind
      have hmem := List.mem_of_find?_eq_some hfind
      obtain ⟨hrange, hhva⟩ := hkvm.fillRange hmem hw.start_dvd hholds hshift
      have hbase : 2 ^ 12 ∣ (slot.fillRange w.start pgdirShift).base := hw.start_dvd
      have hgpa : (w.enter slot).gpaToHva = usub (slot.fillRange w.start pgdirShift).base
          (slot.fillRange w.start pgdirShift).first := HvaWalk.enter_gpaToHva ..
      have hfill := hw.walk_fill va hrange
        (FillRange.accessed_content hrange w.scan.eic.flags w.scan.ept) (Backed.nil _ _)
      have hslot : ∀ {ept : Ept} {rep : List (ProcIdlePageType × ℕ)} {a : ℕ},
          (slot.fillRange w.start pgdirShift).Spent w.scan.eic.flags
            (usub w.start (slot.gpa w.start)) w.scan.ept a ept rep →
          Backed (kvm.Backs w.scan.eic.flags) (Leaf.credit w.scan.ept) 0 (Leaf.credit ept)
            (accessReports rep) :=
        fun h => h.imp fun _ _ hbacks => hbacks.slot hkvm hmem hw.start_dvd hholds
      rw [walkSlot_of_some stop hkvm hw.start_dvd hfind]
      dsimp only
      rw [← hhva]
      by_cases hret : (w.walk slot).2 = 0
      · obtain ⟨chunk, -, hspent, hwalked, -⟩ := (hfill.1 hret).ended hrange hbase hgpa
        exact ⟨(hfill.1 hret).pgdirShift, chunk, hwalked.of_enter, hslot hspent⟩
      · obtain ⟨a, chunk, -, hspent, hwalked, -⟩ := (hfill.2 hret).ended hrange hbase hgpa
        exact ⟨(hfill.2 hret).pgdirShift, chunk, hwalked.of_enter, hslot hspent⟩

/-- So does an iteration, for the chunk that it is to deliver. -/
theorem walkHva_backed (hkvm : kvm.Ok) (hshift : 39 ≤ pgdirShift ∧ pgdirShift < 64)
    (hw : Reading pgdirShift ppos tokens w) (hlt : w.start < stop) (hstop : stop < 2 ^ 64) :
    (walkHva kvm stop w).1.scan.ept.pgdirShift = pgdirShift ∧
      ∃ reports chunk, Iteration kvm pgdirShift ppos (walkSlot kvm stop w).2 w tokens reports chunk
        (walkHva kvm stop w) ∧
      Backed (kvm.Backs w.scan.eic.flags) (Leaf.credit w.scan.ept) 0
        (Leaf.credit (walkHva kvm stop w).1.scan.ept)
        (accessReports (reported (cursorAfter ppos tokens) chunk)) := by
  obtain ⟨hpgdir, reports, walked, hbacked⟩ :=
    walkSlot_backed (cursorAfter ppos tokens) hkvm hshift hw hlt
  obtain ⟨chunk, step⟩ := walked.iteration hpgdir hw hstop
  rw [walkHva_ept]
  refine ⟨hpgdir, reports, chunk, step, ?_⟩
  rw [step.reported_eq]
  exact hbacked

/-- A stream that is read from the file position on, by a decoder that stands at `va`: it
goes forward as a whole, and its accesses spend credit. -/
structure StreamBacked (kvm : Kvm) (flags : ScanFlags) (old new : Ept) (pos va : ℕ)
    (tokens : List PipToken) : Prop where
  valid : ∀ token ∈ tokens, token.Valid
  forward : tokens ≠ [] → pos < cursorAfter va tokens
  backed : Backed (kvm.Backs flags) (Leaf.credit old) 0 (Leaf.credit new)
    (accessReports (reported va tokens))

theorem StreamBacked.nil (kvm : Kvm) (flags : ScanFlags) (ept : Ept) (pos va : ℕ) :
    StreamBacked kvm flags ept ept pos va [] :=
  ⟨by simp, fun h => absurd rfl h, Backed.nil _ _⟩

/-- Before an iteration. -/
structure BackedSoFar (kvm : Kvm) (flags : ScanFlags) (ept : Ept) (pos va : ℕ)
    (tokens : List PipToken) (w : HvaWalk) : Prop where
  reading : Reading ept.pgdirShift va tokens w
  flags_eq : w.scan.eic.flags = flags
  pos_le : pos ≤ w.start
  stream : StreamBacked kvm flags ept w.scan.ept pos va tokens

/-- What the loop has delivered is backed, however the copies to the user fail. -/
structure DeliversBacked (kvm : Kvm) (flags : ScanFlags) (ept : Ept) (pos va : ℕ) (w : HvaWalk) :
    Prop where
  pgdirShift : w.scan.ept.pgdirShift = ept.pgdirShift
  delivered : ∃ tokens, w.scan.eic.buf = pipBytes tokens ∧
    StreamBacked kvm flags ept w.scan.ept pos va tokens

section Loop

variable {flags : ScanFlags} {ept : Ept} {pos : ℕ}

/-- An iteration, for the chunk that it is to deliver and without it. -/
theorem BackedSoFar.step (h : BackedSoFar kvm flags ept pos va tokens w) (hkvm : kvm.Ok)
    (hshift : 39 ≤ ept.pgdirShift ∧ ept.pgdirShift < 64) (hlt : w.start < stop)
    (hstop : stop < 2 ^ 64) :
    (walkHva kvm stop w).1.scan.ept.pgdirShift = ept.pgdirShift ∧
      ∃ vaEnd reports chunk, Iteration kvm ept.pgdirShift va vaEnd w tokens reports chunk
        (walkHva kvm stop w) ∧
      StreamBacked kvm flags ept (walkHva kvm stop w).1.scan.ept pos va (tokens ++ chunk) ∧
      StreamBacked kvm flags ept (walkHva kvm stop w).1.scan.ept pos va tokens := by
  obtain ⟨hpgdir, reports, chunk, step, hspent⟩ :=
    walkHva_backed hkvm hshift h.reading hlt hstop
  rw [h.flags_eq] at hspent
  have hvalid : ∀ token ∈ tokens ++ chunk, token.Valid := fun token htoken =>
    (List.mem_append.mp htoken).elim (h.stream.valid token) (step.valid token)
  refine ⟨hpgdir, _, reports, chunk, step, ⟨hvalid, fun _ => ?_, ?_⟩,
    h.stream.valid, h.stream.forward, h.stream.backed.drop hspent.le⟩
  · rw [step.cursor]
    exact h.pos_le.trans_lt step.lt_cursor
  · rw [reported_append, accessReports_append]
    exact h.stream.backed.append hspent

theorem walkHvaLoop_backed (hkvm : kvm.Ok)
    (hshift : 39 ≤ ept.pgdirShift ∧ ept.pgdirShift < 64) (hstop : stop < 2 ^ 64)
    (hw : BackedSoFar kvm flags ept pos va [] w) {n : ℕ} {ret : ℤ}
    (hret : (walkHvaLoop kvm stop n w).2 = some ret) :
    DeliversBacked kvm flags ept pos va (walkHvaLoop kvm stop n w).1 := by
  unfold walkHvaLoop at hret ⊢
  refine loopUntilRet_rule (I := fun w => ∃ tokens, BackedSoFar kvm flags ept pos va tokens w)
    (Q := fun w _ => DeliversBacked kvm flags ept pos va w) ⟨[], hw⟩
    (fun w ⟨tokens, h⟩ _ => ⟨h.reading.pgdirShift_eq, tokens, h.reading.buf_eq, h.stream⟩)
    (fun w ⟨tokens, h⟩ hlt hgo => ?_) (fun w ⟨tokens, h⟩ hlt _ => ?_) hret
  · obtain ⟨-, vaEnd, reports, chunk, step, hmore, -⟩ := h.step hkvm hshift hlt hstop
    have hfails : kvm.copyFails w.scan.eic.bytesCopied = false := by
      by_contra hfails
      have hfault := (step.failed (by simpa using hfails)).1
      rw [hgo] at hfault
      exact absurd hfault (by decide)
    have hnext := (step.next hfails hgo).1
    refine ⟨tokens ++ chunk, hnext, step.flags.trans h.flags_eq, ?_, hmore⟩
    exact h.pos_le.trans (step.lt_cursor.le.trans hnext.nextHva_le)
  · obtain ⟨hpgdir, vaEnd, reports, chunk, step, hmore, hless⟩ := h.step hkvm hshift hlt hstop
    cases hfails : kvm.copyFails w.scan.eic.bytesCopied with
    | true => exact ⟨hpgdir, tokens, (step.failed hfails).2, hless⟩
    | false => exact ⟨hpgdir, tokens ++ chunk, (step.delivered hfails).1, hmore⟩

/-- The accesses that a read reports spend the credit of as many entries, wherever the
decoder starts. -/
structure ReadBacked (kvm : Kvm) (flags : ScanFlags) (ept : Ept) (pos : ℕ) (r : ReadResult) :
    Prop where
  pgdirShift : r.ept.pgdirShift = ept.pgdirShift
  delivered : ∀ va, ∃ tokens, r.buf = pipBytes tokens ∧
    StreamBacked kvm flags ept r.ept pos va tokens

theorem ReadBacked.pages {r : ReadResult} (h : ReadBacked kvm flags ept pos r) (hva : va < 2 ^ 64) :
    Backed (kvm.Backs flags) (Leaf.credit ept) 0 (Leaf.credit r.ept)
      (accessReports (r.pages va)) := by
  obtain ⟨tokens, hbuf, hstream⟩ := h.delivered va
  obtain ⟨calls, hparse, hcalls⟩ := parseIdlepages_delivered hstream.valid hva
  rw [ReadResult.pages, hbuf, hparse, Option.map_some, Option.getD_some, hcalls]
  exact hstream.backed

theorem DeliversBacked.read (h : ∀ va, DeliversBacked kvm flags ept pos va w) (ppos : ℕ)
    (ret : ℤ) : ReadBacked kvm flags ept pos (readResult ppos (w, ret)) := by
  have hnone : ∀ (ret : ℤ) (ppos : ℕ),
      ReadBacked kvm flags ept pos ⟨ret, [], ppos, w.scan.ept⟩ := by
    intro ret ppos
    refine ⟨(h 0).pgdirShift, fun va => ⟨[], rfl, by simp, fun h => absurd rfl h, ?_⟩⟩
    obtain ⟨tokens, -, hstream⟩ := (h va).delivered
    exact hstream.backed.sublist (List.nil_sublist _)
  unfold readResult
  dsimp only
  split
  · exact ⟨(h 0).pgdirShift, fun va => (h va).delivered⟩
  · split
    · exact hnone _ _
    · exact hnone _ _

/-- A read, with any flags and any failures of `copy_to_user`. -/
theorem eptIdleRead_backed {eic : EptIdleCtrl} {count ppos fuel : ℕ} {r : ReadResult}
    (hkvm : kvm.Ok) (hshift : 39 ≤ ept.pgdirShift ∧ ept.pgdirShift < 64) (hfuel : count ≤ fuel)
    (hr : eptIdleRead kvm eic ept flags count ppos fuel = some r) :
    ReadBacked kvm flags ept ppos r := by
  have hread := eptIdleRead_end kvm eic ept flags count ppos fuel hkvm hshift hfuel
  have hnone : ∀ (ret : ℤ), ReadBacked kvm flags ept ppos ⟨ret, [], ppos, ept⟩ :=
    fun _ => ⟨rfl, fun va => ⟨[], rfl, StreamBacked.nil ..⟩⟩
  rw [hr] at hread
  cases hread with
  | outside | invalid | noRoom => exact hnone _
  | loop above cpu below size reading ret ret_eq =>
      -- nothing has been read yet, so that the decoder may start anywhere
      have hstart : ∀ va, BackedSoFar kvm flags ept ppos va []
          (walkStart eic ept flags count ppos).1 := fun va =>
        ⟨⟨reading.pgdirShift_eq, reading.kpie_eq, reading.room, reading.start_dvd,
          reading.nextHva_le, reading.buf_eq, reading.valid, fun h => absurd rfl h⟩, rfl, le_rfl,
          StreamBacked.nil ..⟩
      exact DeliversBacked.read
        (fun va => walkHvaLoop_backed hkvm hshift (ulong_lt _) (hstart va) ret_eq) ppos ret

end Loop

end Read

/-! ### Runs -/

/-- What happens to the page table of a guest: it is accessed, or its host maps other
pages; or the file is read. -/
inductive ScanEvent where
  | guest (ept : Ept)
  | read (kvm : Kvm) (eic : EptIdleCtrl) (flags : ScanFlags) (count ppos : ℕ)

/-- The page table has four levels or five, and the slots are those of a machine. -/
def ScanEvent.Ok : ScanEvent → Prop
  | guest ept => ept.pgdirShift = 39 ∨ ept.pgdirShift = 48
  | read kvm _ _ _ ppos => kvm.Ok ∧ ppos < 2 ^ 64

/-- An event does not overrun the kernel's buffer. -/
def ScanEvent.Fits (ept : Ept) : ScanEvent → Prop
  | guest _ => True
  | read kvm eic flags count ppos =>
      KbufFits kvm (hvaEnd ppos count) (walkStart eic ept flags count ppos).1

/-- `P` holds of the machine that an event reads. -/
def ScanEvent.Of (P : Kvm → Prop) : ScanEvent → Prop
  | guest _ => True
  | read kvm _ _ _ _ => P kvm

/-- The page table, the accesses that have been delivered with the slots at the time,
and how often the bit of an entry was set. -/
structure ScanLog where
  ept : Ept
  delivered : List (Kvm × ProcIdlePageType × ℕ)
  accesses : Leaf → ℕ

/-- The bits that are set anew. -/
def Leaf.touched (old new : Ept) (leaf : Leaf) : ℕ :=
  if ¬leaf.Accessed old ∧ leaf.Accessed new then 1 else 0

theorem Leaf.credit_le_touched (old new : Ept) (leaf : Leaf) :
    leaf.credit new ≤ leaf.credit old + leaf.touched old new := by
  unfold Leaf.credit Leaf.touched
  by_cases hold : leaf.Accessed old <;> by_cases hnew : leaf.Accessed new <;> simp [hold, hnew]

namespace ScanLog

/-- A read that overruns the kernel's buffer is `none`. -/
def step (s : ScanLog) : ScanEvent → Option ScanLog
  | .guest ept => some ⟨ept, s.delivered, s.accesses + Leaf.touched s.ept ept⟩
  | .read kvm eic flags count ppos =>
      (eptIdleRead kvm eic s.ept flags count ppos count).map fun r =>
        ⟨r.ept, s.delivered ++ (accessReports (r.pages ppos)).map fun page => (kvm, page),
          s.accesses⟩

def run (s : ScanLog) (events : List ScanEvent) : Option ScanLog := events.foldlM step s

/-- No read of a run overruns the kernel's buffer. -/
def Fits : ScanLog → List ScanEvent → Prop
  | _, [] => True
  | s, event :: events => event.Fits s.ept ∧ ∀ t, s.step event = some t → t.Fits events

/-- Nothing has been delivered yet. -/
def start (ept : Ept) : ScanLog := ⟨ept, [], 0⟩

/-- What a run from `old` keeps, with machines of which `P` holds. -/
structure Balanced (P : Kvm → Prop) (old : Ept) (s : ScanLog) : Prop where
  pgdirShift : s.ept.pgdirShift = 39 ∨ s.ept.pgdirShift = 48
  backed : Backed (fun report leaf => P report.1 ∧ ∃ flags, report.1.Backs flags report.2 leaf)
    (Leaf.credit old) s.accesses (Leaf.credit s.ept) s.delivered

section Run

variable {P : Kvm → Prop} {old : Ept} {s : ScanLog} {event : ScanEvent} {events : List ScanEvent}

theorem Balanced.step (h : s.Balanced P old) (hok : event.Ok) (hP : event.Of P) {t : ScanLog}
    (hstep : s.step event = some t) : t.Balanced P old := by
  cases event with
  | guest ept =>
      have hbacked := h.backed.trans (Backed.fresh _ (Leaf.credit_le_touched s.ept ept))
      rw [List.append_nil] at hbacked
      obtain rfl := Option.some.inj hstep
      exact ⟨hok, hbacked⟩
  | read kvm eic flags count ppos =>
      have hshift : 39 ≤ s.ept.pgdirShift ∧ s.ept.pgdirShift < 64 := by
        have := h.pgdirShift
        omega
      obtain ⟨r, hr, rfl⟩ := Option.map_eq_some_iff.mp hstep
      have hread := eptIdleRead_backed hok.1 hshift le_rfl hr
      refine ⟨?_, h.backed.append ?_⟩
      · rw [hread.pgdirShift]
        exact h.pgdirShift
      · exact (hread.pages hok.2).map fun report leaf hbacks => ⟨hP, flags, hbacks⟩

theorem Balanced.run (h : s.Balanced P old) (hok : ∀ event ∈ events, event.Ok)
    (hP : ∀ event ∈ events, event.Of P) {t : ScanLog} (hrun : s.run events = some t) :
    t.Balanced P old := by
  induction events generalizing s with
  | nil =>
      obtain rfl := Option.some.inj hrun
      exact h
  | cons event events ih =>
      rw [ScanLog.run, List.foldlM_cons] at hrun
      obtain ⟨s', hstep, hrest⟩ := Option.bind_eq_some_iff.mp hrun
      exact ih (h.step (hok event List.mem_cons_self) (hP event List.mem_cons_self) hstep)
        (fun e he => hok e (List.mem_cons_of_mem _ he))
        (fun e he => hP e (List.mem_cons_of_mem _ he)) hrest

/-- A run whose reads do not overrun the kernel's buffer comes to its end. -/
theorem Balanced.run_isSome (h : s.Balanced P old) (hok : ∀ event ∈ events, event.Ok)
    (hP : ∀ event ∈ events, event.Of P) (hfits : s.Fits events) :
    ∃ t, s.run events = some t := by
  induction events generalizing s with
  | nil => exact ⟨s, rfl⟩
  | cons event events ih =>
      obtain ⟨s', hstep⟩ : ∃ s', s.step event = some s' := by
        cases event with
        | guest ept => exact ⟨_, rfl⟩
        | read kvm eic flags count ppos =>
            have hshift : 39 ≤ s.ept.pgdirShift ∧ s.ept.pgdirShift < 64 := by
              have := h.pgdirShift
              omega
            obtain ⟨r, hr⟩ := eptIdleRead_isSome kvm eic s.ept flags count ppos count
              (hok _ List.mem_cons_self).1 hshift le_rfl hfits.1
            exact ⟨_, congrArg (Option.map _) hr⟩
      obtain ⟨t, hrun⟩ := ih
        (h.step (hok event List.mem_cons_self) (hP event List.mem_cons_self) hstep)
        (fun e he => hok e (List.mem_cons_of_mem _ he))
        (fun e he => hP e (List.mem_cons_of_mem _ he)) (hfits.2 s' hstep)
      refine ⟨t, ?_⟩
      rw [ScanLog.run, List.foldlM_cons, hstep]
      exact hrun

end Run

end ScanLog

/-- No other slot has the host virtual address. -/
def Kvm.OnlySlot (kvm : Kvm) (slot : KvmMemorySlot) (hva : ℕ) : Prop :=
  ∀ other ∈ kvm.slots, other.Holds hva → other = slot

/-- The reports of accesses to the 4K page at a host virtual address. -/
def reportsPage (hva : ℕ) (report : Kvm × ProcIdlePageType × ℕ) : Bool :=
  report.2.2 = hva ∧ (report.2.1 = .pteAccessed ∨ report.2.1 = .pteDirty)

/-- They are those of the entry that maps the page. -/
theorem Kvm.Backs.eq_pte {kvm : Kvm} (hkvm : kvm.Ok) {slot : KvmMemorySlot} {hva : ℕ}
    (honly : kvm.OnlySlot slot hva) {flags : ScanFlags} {type : ProcIdlePageType} {leaf : Leaf}
    (htype : type = .pteAccessed ∨ type = .pteDirty) (h : kvm.Backs flags (type, hva) leaf) :
    leaf = .pte (slot.gpa hva >>> 12) := by
  obtain ⟨hreports, other, hmem, hhva, x, hge, hlt, hindex⟩ := h
  cases leaf with
  | pmd i =>
      have hreports : type = .pmdAccessed ∨ type = .pmdDirty ∧ flags.dirtyPage = true := hreports
      rcases htype with rfl | rfl <;> simp at hreports
  | pte i =>
      have hindex : x >>> 12 = i := hindex
      have hhva : hva = ulong (i * 2 ^ 12 + usub other.userspaceAddr (other.baseGfn <<< 12)) :=
        hhva
      have hgpaEnd := hkvm.gpaEnd_lt other hmem
      have hend := hkvm.hvaEnd_le other hmem
      have htask := hkvm.taskSize_lt
      simp only [KvmMemorySlot.gpaEnd, KvmMemorySlot.hvaEnd, Nat.shiftLeft_eq,
        Nat.shiftRight_eq_div_pow] at hge hlt hindex hhva hgpaEnd hend
      have haddr : hva = other.userspaceAddr + (i - other.baseGfn) * 2 ^ 12 := by
        rw [hhva]
        unfold usub ulong
        omega
      have hholds : other.Holds hva := by
        unfold KvmMemorySlot.Holds KvmMemorySlot.hvaEnd
        rw [Nat.shiftLeft_eq]
        omega
      rw [← honly other hmem hholds, KvmMemorySlot.gpa, Nat.shiftLeft_shiftRight,
        Nat.shiftRight_eq_div_pow]
      congr 1
      omega

/-- **Every access is reported once at most**: over a run of accesses, changes of the
mappings and reads, of any machines, with any flags, at any positions and with any
failures of `copy_to_user`, each report of an access is backed by an access of its own
to an entry of the page.  A 4K page that one slot has is reported no more often than its
entry was accessed.  A run has a result unless a read overruns the kernel's buffer. -/
theorem run_backed (events : List ScanEvent) (ept : Ept)
    (hept : ept.pgdirShift = 39 ∨ ept.pgdirShift = 48) (hok : ∀ event ∈ events, event.Ok) :
    ((ScanLog.start ept).Fits events → ∃ t, (ScanLog.start ept).run events = some t) ∧
    ∀ t, (ScanLog.start ept).run events = some t →
      Backed (fun report leaf => ∃ flags, report.1.Backs flags report.2 leaf) (Leaf.credit ept)
        t.accesses
        (Leaf.credit t.ept) t.delivered ∧
      ∀ (slot : KvmMemorySlot) (hva : ℕ),
        (∀ event ∈ events, event.Of fun kvm => kvm.OnlySlot slot hva) →
        t.delivered.countP (reportsPage hva) + Leaf.credit t.ept (.pte (slot.gpa hva >>> 12)) ≤
          Leaf.credit ept (.pte (slot.gpa hva >>> 12)) +
            t.accesses (.pte (slot.gpa hva >>> 12)) := by
  have hstart : ∀ P, (ScanLog.start ept).Balanced P ept := fun P => ⟨hept, Backed.nil _ _⟩
  have hall : ∀ event ∈ events, event.Of fun _ => True := fun event _ => by
    cases event <;> trivial
  refine ⟨(hstart _).run_isSome hok hall, fun t ht => ?_⟩
  have hbalanced := (hstart _).run hok hall ht
  refine ⟨hbalanced.backed.imp fun _ _ h => h.2, fun slot hva honly => ?_⟩
  have hslot := (hstart fun kvm => kvm.Ok ∧ kvm.OnlySlot slot hva).run hok (fun event hevent => by
    have hslot := honly event hevent
    have hevent := hok event hevent
    cases event with
    | guest => trivial
    | read => exact ⟨hevent.1, hslot⟩) ht
  refine hslot.backed.count_le (reportsPage hva) _ fun report leaf hreport hbacks => ?_
  obtain ⟨kvm, type, addr⟩ := report
  obtain ⟨rfl, htype⟩ := of_decide_eq_true hreport
  obtain ⟨hkvm, flags, hbacks⟩ := hbacks
  exact hbacks.eq_pte hkvm.1 hkvm.2 htype

/-- The page of the guest is accessed, read, read again, and accessed and read once more. -/
theorem run_backed_twoPages :
    ∃ t, (ScanLog.start (accessedPages fun _ => true)).run
        [.read (twoPages fun _ => false) eptIdleOpen noFlags 20 0x7f0000000000,
          .read (twoPages fun _ => false) eptIdleOpen noFlags 20 0x7f0000000000,
          .guest (accessedPages fun _ => true),
          .read (twoPages fun _ => false) eptIdleOpen noFlags 20 0x7f0000000000] = some t ∧
      t.delivered.countP (reportsPage 0x7f0000000000) = 2 ∧
      t.delivered.countP (reportsPage 0x7f0000000000) + Leaf.credit t.ept (.pte 1) ≤
        Leaf.credit (accessedPages fun _ => true) (.pte 1) + t.accesses (.pte 1) := by
  have hok : (twoPages fun _ => false).Ok := by decide
  have honly : (twoPages fun _ => false).OnlySlot ⟨1, 1, 0x7f0000000000⟩ 0x7f0000000000 := by
    unfold Kvm.OnlySlot
    decide
  obtain ⟨-, hresult⟩ := run_backed
    [.read (twoPages fun _ => false) eptIdleOpen noFlags 20 0x7f0000000000,
      .read (twoPages fun _ => false) eptIdleOpen noFlags 20 0x7f0000000000,
      .guest (accessedPages fun _ => true),
      .read (twoPages fun _ => false) eptIdleOpen noFlags 20 0x7f0000000000]
    (accessedPages fun _ => true) (Or.inl rfl) (by
      simp only [List.forall_mem_cons, List.not_mem_nil, false_implies, implies_true, and_true]
      exact ⟨⟨hok, by decide⟩, ⟨hok, by decide⟩, Or.inl rfl, hok, by decide⟩)
  have htwo : ((ScanLog.start (accessedPages fun _ => true)).run
      [.read (twoPages fun _ => false) eptIdleOpen noFlags 20 0x7f0000000000,
        .read (twoPages fun _ => false) eptIdleOpen noFlags 20 0x7f0000000000,
        .guest (accessedPages fun _ => true),
        .read (twoPages fun _ => false) eptIdleOpen noFlags 20 0x7f0000000000]).any
      (fun t => t.delivered.countP (reportsPage 0x7f0000000000) = 2) = true := by
    decide +kernel
  obtain ⟨t, ht, htwo⟩ := (Option.any_eq_true _ _).mp htwo
  refine ⟨t, ht, of_decide_eq_true htwo, (hresult t ht).2 ⟨1, 1, 0x7f0000000000⟩ 0x7f0000000000 ?_⟩
  simp only [List.forall_mem_cons, List.not_mem_nil, false_implies, implies_true, and_true]
  exact ⟨honly, honly, trivial, honly⟩

end MemoryOptimizer
