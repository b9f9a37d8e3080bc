import MemoryOptimizer.Kernel.PageWalk
import MemoryOptimizer.Kernel.Stream

/-!
# One fill of the buffer

The walk of a range `[first, stop)` of guest physical addresses, from a buffer just
initialised.  The range starts at the host virtual address `base`, so that an
address `x` of it is at `base + (x - first)`.

* `Walking` holds at every address reached: the buffer is a stream, its cursor
  `next_hva` is not past the address, and `restart_gpa` is not before it.
* `Stopped` holds where `eic_add_page` found no room: something is in the buffer,
  and the restart is at the page that did not fit.
* What the stream reports is left to a predicate of the address, the page table and
  the reported pages (`Content`).
-/

namespace MemoryOptimizer

/-- The fields that a fill does not change. -/
structure SameRead (old eic : EptIdleCtrl) : Prop where
  buf : eic.buf = old.buf
  bufSize : eic.bufSize = old.bufSize
  pieReadMax : eic.pieReadMax = old.pieReadMax
  gpaToHva : eic.gpaToHva = old.gpaToHva
  flags : eic.flags = old.flags

namespace SameRead

variable {old eic : EptIdleCtrl}

theorem setRestartGpa (h : SameRead old eic) (val : ℕ) : SameRead old (eic.setRestartGpa val) :=
  ⟨h.buf, h.bufSize, h.pieReadMax, h.gpaToHva, h.flags⟩

theorem setNextHva (h : SameRead old eic) (val : ℕ) : SameRead old (eic.setNextHva val) :=
  ⟨h.buf, h.bufSize, h.pieReadMax, h.gpaToHva, h.flags⟩

theorem write (h : SameRead old eic) (bytes : List ℕ) : SameRead old (eic.write bytes) :=
  ⟨h.buf, h.bufSize, h.pieReadMax, h.gpaToHva, h.flags⟩

theorem incLastByte (h : SameRead old eic) : SameRead old eic.incLastByte :=
  ⟨h.buf, h.bufSize, h.pieReadMax, h.gpaToHva, h.flags⟩

theorem addPage (h : SameRead old eic) {call : PageCall} {r : EptIdleCtrl × ℕ}
    (hr : AddPage eic call r) : SameRead old r.1 := by
  cases hr with
  | hole | noRoomForAddress | noRoomForItem => exact h.setRestartGpa _
  | extend => exact ((h.setNextHva _).setRestartGpa _).incLastByte
  | item => exact ((h.setNextHva _).setRestartGpa _).write _
  | address => exact (((h.write _).setNextHva _).setRestartGpa _).write _

end SameRead

/-! ### The cursors of a call -/

/-- Where an accepted call leaves the cursors: the restart is behind its page, and
so is `next_hva`, unless it was a hole that went unreported. -/
theorem AddPage.cursors {eic : EptIdleCtrl} {call : PageCall} {r : EptIdleCtrl × ℕ}
    (hr : AddPage eic call r) (hok : r.2 = 0) :
    r.1.restartGpa = roundUp call.next call.type.size ∧
      (r.1.nextHva = ulong (roundUp call.next call.type.size + eic.gpaToHva) ∨
        r.1.nextHva = eic.nextHva ∧ r.1.kpie = eic.kpie ∧ Fresh eic call ∧ call.IsHole) := by
  cases hr with
  | hole fresh hhole =>
      exact ⟨EptIdleCtrl.setRestartGpa_restartGpa .., Or.inr
        ⟨EptIdleCtrl.setRestartGpa_nextHva .., EptIdleCtrl.setRestartGpa_kpie .., fresh, hhole⟩⟩
  | noRoomForAddress | noRoomForItem => exact absurd hok one_ne_zero
  | address =>
      exact ⟨eicNewItem_restartGpa .., Or.inl (by rw [eicNewItem_nextHva, eicReportAddr_gpaToHva])⟩
  | extend =>
      refine ⟨?_, Or.inl ?_⟩
      · rw [EptIdleCtrl.incLastByte_restartGpa, EptIdleCtrl.setRestartGpa_restartGpa]
      · rw [EptIdleCtrl.incLastByte_nextHva, EptIdleCtrl.setRestartGpa_nextHva,
          EptIdleCtrl.setNextHva_nextHva]
  | item => exact ⟨eicNewItem_restartGpa .., Or.inl (eicNewItem_nextHva ..)⟩

/-- A refused call: something is in the buffer, and only the restart changes. -/
theorem AddPage.refused {eic : EptIdleCtrl} {call : PageCall} {r : EptIdleCtrl × ℕ}
    (hr : AddPage eic call r) (hroom : 8 + 2 < ulongOfSigned eic.pieReadMax) (herr : r.2 ≠ 0) :
    eic.pieRead ≠ 0 ∧ r.1 = eic.setRestartGpa call.addr := by
  cases hr with
  | hole | address | extend | item => exact absurd rfl herr
  | noRoomForAddress _ _ room => exact ⟨by omega, rfl⟩
  | noRoomForItem fresh => exact ⟨fun h => fresh (Or.inl h), rfl⟩

/-! ### The invariant -/

/-- What the buffer holds in a fill that began at `base` with `old`. -/
structure Filled (old : EptIdleCtrl) (va base : ℕ) (tokens : List PipToken) (eic : EptIdleCtrl) :
    Prop extends SameRead old eic where
  streams : Streams eic va tokens
  nextHva_of_nil : tokens = [] → eic.nextHva = old.nextHva
  lt_nextHva : tokens ≠ [] → base < eic.nextHva

/-- A fill of the range `[first, stop)`, which starts at `base`. -/
structure FillRange where
  first : ℕ
  stop : ℕ
  base : ℕ
  pgdirShift : ℕ

namespace FillRange

/-- The host virtual address of an address of the range. -/
def hva (range : FillRange) (x : ℕ) : ℕ := range.base + (x - range.first)

/-- A range of pages, in both address spaces. -/
structure Ok (range : FillRange) : Prop where
  first_dvd : 2 ^ 12 ∣ range.first
  stop_dvd : 2 ^ 12 ∣ range.stop
  first_lt : range.first < range.stop
  stop_lt : range.stop < 2 ^ 64
  hva_lt : range.hva range.stop + 2 ^ 30 < 2 ^ 64
  shift : 39 ≤ range.pgdirShift ∧ range.pgdirShift < 64

/-- A predicate of an address reached, the page table and the pages reported. -/
abbrev Pred := ℕ → Ept → List (ProcIdlePageType × ℕ) → Prop

variable (range : FillRange) (old : EptIdleCtrl) (va : ℕ)

/-- The walk has reached `a`. -/
structure Walking (I : Pred) (a : ℕ) (s : EptScan) : Prop where
  pgdirShift : s.ept.pgdirShift = range.pgdirShift
  filled : ∃ tokens, Filled old va range.base tokens s.eic ∧ (tokens ≠ [] → range.first < a) ∧
    I a s.ept (reported va tokens)
  behind : a < range.stop → s.eic.nextHva ≤ range.hva a
  restart : range.first < a → ∃ b, s.eic.restartGpa = ulong b ∧ a ≤ b ∧
    b ≤ range.stop + 2 ^ 30 ∧ 2 ^ 12 ∣ b ∧ s.eic.nextHva ≤ range.hva b

/-- The walk has stopped at a page that did not fit. -/
structure Stopped (J : Pred) (s : EptScan) : Prop where
  pgdirShift : s.ept.pgdirShift = range.pgdirShift
  stopped : ∃ a tokens, Filled old va range.base tokens s.eic ∧ tokens ≠ [] ∧ range.first < a ∧
    a < range.stop ∧ 2 ^ 12 ∣ a ∧ s.eic.restartGpa = a ∧ s.eic.nextHva ≤ range.hva a ∧
    J a s.ept (reported va tokens)

/-- What every step does to the content: `I` is kept at the address reached, and
gives `J` at a page that does not fit. -/
structure Content (flags : ScanFlags) (gpaToHva : ℕ) (I J : Pred) : Prop where
  skip : ∀ k a next ept rep, Piece range.first range.stop k a next →
    ept.pgdirShift = range.pgdirShift → (∀ x, a ≤ x → x < next → ept.Missing x) →
    I a ept rep → I next ept rep
  pud : ∀ a next ept rep, Piece range.first range.stop 30 a next →
    (ept.pud (a >>> 30)).present = true → (ept.pud (a >>> 30)).large = true → I a ept rep →
    I next ept (rep ++ PageCall.pages ⟨a, next, .pudPresent⟩ gpaToHva) ∧ J a ept rep
  pmd : ∀ a next ept rep type, Piece range.first range.stop 21 a next →
    (scanPmd flags (ept.pmd (a >>> 21))).1 = some type → I a ept rep →
    I next (ept.setPmd (a >>> 21) (scanPmd flags (ept.pmd (a >>> 21))).2)
        (rep ++ PageCall.pages ⟨a, next, type⟩ gpaToHva) ∧
      J a (ept.setPmd (a >>> 21) (scanPmd flags (ept.pmd (a >>> 21))).2) rep
  table : ∀ a next ept rep, Piece range.first range.stop 21 a next →
    (scanPmd flags (ept.pmd (a >>> 21))).1 = none → I a ept rep →
    I a (ept.setPmd (a >>> 21) (scanPmd flags (ept.pmd (a >>> 21))).2) rep
  pte : ∀ a next ept rep, Piece range.first range.stop 12 a next →
    (ept.pmd (a >>> 21)).IsTable → I a ept rep →
    I next (ept.setPte (a >>> 12) (scanPte flags (ept.pte (a >>> 12))).2)
        (rep ++ PageCall.pages ⟨a, next, (scanPte flags (ept.pte (a >>> 12))).1⟩ gpaToHva) ∧
      J a (ept.setPte (a >>> 12) (scanPte flags (ept.pte (a >>> 12))).2) rep

/-- Nothing is asked of the content. -/
theorem content_true (range : FillRange) (flags : ScanFlags) (gpaToHva : ℕ) :
    range.Content flags gpaToHva (fun _ _ _ => True) (fun _ _ _ => True) :=
  ⟨fun _ _ _ _ _ _ _ _ _ => trivial, fun _ _ _ _ _ _ _ _ => ⟨trivial, trivial⟩,
    fun _ _ _ _ _ _ _ _ => ⟨trivial, trivial⟩, fun _ _ _ _ _ _ _ => trivial,
    fun _ _ _ _ _ _ _ => ⟨trivial, trivial⟩⟩

/-! ### One step -/

section Step

variable {range : FillRange} {old : EptIdleCtrl} {va a next : ℕ} {s : EptScan} {I J : Pred}

theorem hva_mono {x y : ℕ} (h : x ≤ y) : range.hva x ≤ range.hva y :=
  Nat.add_le_add_left (Nat.sub_le_sub_right h _) _

theorem base_lt_hva {x : ℕ} (h : range.first < x) : range.base < range.hva x := by
  unfold hva
  omega

/-- `gpa_to_hva` maps the range to where it starts. -/
theorem Ok.ulong_hva (hrange : range.Ok) {x : ℕ} (hx : range.first ≤ x)
    (hle : x ≤ range.stop + 2 ^ 30) :
    ulong (x + usub range.base range.first) = range.hva x := by
  have hstop := hrange.stop_lt
  have hfirst := hrange.first_lt
  have hhva := hrange.hva_lt
  unfold hva at hhva ⊢
  unfold usub ulong
  omega

/-- The end of the block of a piece of at most 1G. -/
theorem block_le {k : ℕ} (hk : 12 ≤ k ∧ k ≤ 30) (piece : Piece range.first range.stop k a next) :
    a < (a / 2 ^ k + 1) * 2 ^ k ∧ (a / 2 ^ k + 1) * 2 ^ k ≤ range.stop + 2 ^ 30 ∧
      2 ^ 12 ∣ (a / 2 ^ k + 1) * 2 ^ k := by
  have hpow : 2 ^ k ≤ 2 ^ 30 := Nat.pow_le_pow_right (by decide) hk.2
  have hdiv := Nat.div_mul_le_self a (2 ^ k)
  have hstop := piece.lt_stop
  refine ⟨(Nat.div_lt_iff_lt_mul (Nat.two_pow_pos k)).mp (Nat.lt_succ_self _), ?_,
    (Nat.pow_dvd_pow 2 hk.1).trans (Nat.dvd_mul_left _ _)⟩
  rw [Nat.add_mul]
  omega

/-- A hole of a whole table. -/
theorem Walking.skip (hrange : range.Ok) {k : ℕ} (piece : Piece range.first range.stop k a next)
    (hk : 12 ≤ k) (hw : range.Walking old va I a s)
    (hI : ∀ rep, I a s.ept rep → I next s.ept rep) :
    range.Walking old va I next (s.skip next).1 := by
  obtain ⟨tokens, filled, hfirst, hcontent⟩ := hw.filled
  have hbehind := (hw.behind piece.lt_stop).trans (hva_mono piece.lt.le)
  refine ⟨hw.pgdirShift, ⟨tokens, ⟨filled.toSameRead.setRestartGpa next,
    filled.streams.setRestartGpa next, filled.nextHva_of_nil, filled.lt_nextHva⟩,
    fun _ => piece.first_lt_next, hI _ hcontent⟩, fun _ => hbehind,
    fun _ => ⟨next, ?_, le_rfl, piece.next_le.trans (Nat.le_add_right _ _),
      piece.dvd_next hrange.stop_dvd (Nat.pow_dvd_pow 2 hk), hbehind⟩⟩
  exact (ulong_of_lt (piece.next_le.trans_lt hrange.stop_lt)).symm

section Call

variable (hrange : range.Ok) {type : ProcIdlePageType} (htype : type ≠ .pipCmd)
variable (piece : Piece range.first range.stop type.shift a next)

include hrange htype piece

/-- The call for a piece is of one page, and rounds up to the end of its block. -/
theorem callOk : PageCall.Ok ⟨a, next, type⟩ ∧
    roundUp next type.size = ulong ((a / 2 ^ type.shift + 1) * 2 ^ type.shift) := by
  have hnext := piece.next_le.trans_lt hrange.stop_lt
  have hsize := ProcIdlePageType.size_eq htype
  have hdown : roundDown a type.size + type.size = (a / 2 ^ type.shift + 1) * 2 ^ type.shift := by
    rw [hsize, roundDown_eq (piece.lt.trans hnext) type.shift_le, Nat.succ_mul]
  have hok : PageCall.Ok ⟨a, next, type⟩ := ⟨htype, piece.lt, hnext, hdown ▸ piece.block⟩
  refine ⟨hok, ?_⟩
  rw [← hdown, hsize]
  exact roundUp_of_mem type.shift_le piece.lt hnext (hsize ▸ hok.next_le)

variable {tokens : List PipToken} (filled : Filled old va range.base tokens s.eic)
variable (hfirst : tokens ≠ [] → range.first < a) (hbehind : s.eic.nextHva ≤ range.hva a)
variable {r : EptIdleCtrl × ℕ} (hcall : AddPage s.eic ⟨a, next, type⟩ r)

include filled hfirst hcall

/-- What the call does to the stream. -/
theorem filled_addPage : SameRead old r.1 ∧ ∃ tokens', Streams r.1 va tokens' ∧
    reported va tokens' = reported va tokens ++
      (if r.2 = 0 then PageCall.pages ⟨a, next, type⟩ old.gpaToHva else []) ∧
    (tokens' = [] → tokens = [] ∧ r.1.nextHva = s.eic.nextHva) := by
  have haligned : ¬Fresh s.eic ⟨a, next, type⟩ → a % type.size = 0 := by
    intro fresh
    have hne : tokens ≠ [] := fun h => fresh (Or.inl (filled.streams.pieRead_eq_zero.mpr h))
    rw [ProcIdlePageType.size_eq htype]
    exact Nat.mod_eq_zero_of_dvd (piece.start.resolve_left (hfirst hne).ne')
  obtain ⟨-, tokens', hstreams, hreported, hnil, -⟩ :=
    eicAddPage_streams filled.streams (callOk hrange htype piece).1 haligned hcall
  rw [filled.gpaToHva] at hreported
  exact ⟨filled.toSameRead.addPage hcall, tokens', hstreams, hreported, hnil⟩

include hbehind

/-- An accepted call: the cursors are behind the block of the page. -/
theorem walking_of_accepted (hgpa : old.gpaToHva = usub range.base range.first) {ept : Ept}
    (hshift : ept.pgdirShift = range.pgdirShift) (hret : r.2 = 0)
    (hI : I next ept (reported va tokens ++ PageCall.pages ⟨a, next, type⟩ old.gpaToHva)) :
    range.Walking old va I next ⟨ept, r.1⟩ := by
  have hshift12 : 12 ≤ type.shift ∧ type.shift ≤ 30 := by
    cases type <;> first | exact absurd rfl htype | decide
  obtain ⟨hsame, tokens', hstreams, hreported, hnil⟩ :=
    filled_addPage hrange htype piece filled hfirst hcall
  rw [if_pos hret] at hreported
  have hround := (callOk hrange htype piece).2
  obtain ⟨hblock, hblockle, hblockdvd⟩ := block_le hshift12 piece
  obtain ⟨hrestart, hcursor⟩ := hcall.cursors hret
  replace hcursor : r.1.nextHva = range.hva ((a / 2 ^ type.shift + 1) * 2 ^ type.shift) ∨
      r.1.nextHva = s.eic.nextHva ∧ r.1.kpie = s.eic.kpie := by
    refine hcursor.imp (fun h => ?_) fun h => ⟨h.1, h.2.1⟩
    rw [h, hround, filled.gpaToHva, hgpa, ulong_ulong_add,
      hrange.ulong_hva (piece.first_le.trans hblock.le) hblockle]
  have hle : r.1.nextHva ≤ range.hva ((a / 2 ^ type.shift + 1) * 2 ^ type.shift) := by
    rcases hcursor with h | h
    · exact h.le
    · exact h.1.trans_le (hbehind.trans (hva_mono hblock.le))
  refine ⟨hshift, ⟨tokens', ⟨hsame, hstreams, fun h => ?_, fun hne => ?_⟩,
    fun _ => piece.first_lt_next, hreported ▸ hI⟩, fun hlt => ?_,
    fun _ => ⟨_, hrestart.trans hround, piece.block, hblockle, hblockdvd, hle⟩⟩
  · obtain ⟨h0, h1⟩ := hnil h
    exact h1.trans (filled.nextHva_of_nil h0)
  · rcases hcursor with h | ⟨h, hkpie⟩
    · exact (base_lt_hva (piece.first_le.trans_lt hblock)).trans_eq h.symm
    · refine (filled.lt_nextHva fun h0 => hne ?_).trans_eq h.symm
      rw [← hstreams.pieRead_eq_zero, EptIdleCtrl.pieRead, hkpie, ← EptIdleCtrl.pieRead]
      exact filled.streams.pieRead_eq_zero.mpr h0
  · rw [piece.block_eq hlt.ne] at hle
    exact hle

/-- A refused call: the restart is at the page. -/
theorem stopped_of_refused (hroom : 8 + 2 < ulongOfSigned old.pieReadMax) {ept : Ept}
    (hshift : ept.pgdirShift = range.pgdirShift) (hret : r.2 ≠ 0)
    (hJ : J a ept (reported va tokens)) : range.Stopped old va J ⟨ept, r.1⟩ := by
  obtain ⟨hsame, tokens', hstreams, hreported, hnil⟩ :=
    filled_addPage hrange htype piece filled hfirst hcall
  rw [if_neg hret, List.append_nil] at hreported
  obtain ⟨hread, hr⟩ := hcall.refused (filled.pieReadMax ▸ hroom) hret
  have hne : tokens ≠ [] := fun h => hread (filled.streams.pieRead_eq_zero.mpr h)
  have hne' : tokens' ≠ [] := fun h => hne (hnil h).1
  have hnextHva : r.1.nextHva = s.eic.nextHva := by
    rw [hr]
    exact EptIdleCtrl.setRestartGpa_nextHva ..
  have hdvd : 2 ^ 12 ∣ 2 ^ type.shift := by
    refine Nat.pow_dvd_pow 2 ?_
    cases type <;> first | exact absurd rfl htype | decide
  refine ⟨hshift, a, tokens', ⟨hsame, hstreams, fun h => absurd h hne', fun _ => ?_⟩, hne',
    hfirst hne, piece.lt_stop, piece.dvd_start hrange.first_dvd hdvd, ?_,
    hnextHva.trans_le hbehind, hreported ▸ hJ⟩
  · exact (filled.lt_nextHva hne).trans_eq hnextHva.symm
  · show r.1.restartGpa = a
    rw [hr]
    exact EptIdleCtrl.setRestartGpa_restartGpa ..

end Call

/-- A call of `eic_add_page` for a piece, after the entry was scanned. -/
theorem Walking.addPage (hrange : range.Ok) (hgpa : old.gpaToHva = usub range.base range.first)
    (hroom : 8 + 2 < ulongOfSigned old.pieReadMax) {type : ProcIdlePageType}
    (htype : type ≠ .pipCmd) (piece : Piece range.first range.stop type.shift a next)
    (hw : range.Walking old va I a s)
    {ept : Ept} (hshift : ept.pgdirShift = range.pgdirShift)
    (hcontent : ∀ rep, I a s.ept rep →
      I next ept (rep ++ PageCall.pages ⟨a, next, type⟩ old.gpaToHva) ∧ J a ept rep) :
    Post (range.Walking old va I) (range.Stopped old va J) next
      (EptScan.addPage ⟨ept, s.eic⟩ a next type) := by
  obtain ⟨tokens, filled, hfirst, hI⟩ := hw.filled
  have hbehind := hw.behind piece.lt_stop
  have hcall := eicAddPage_cases s.eic ⟨a, next, type⟩
  obtain ⟨haccepted, hrefused⟩ := hcontent _ hI
  exact ⟨fun hret => walking_of_accepted hrange htype piece filled hfirst hbehind hcall hgpa hshift
      hret haccepted,
    fun hret => stopped_of_refused hrange htype piece filled hfirst hbehind hcall hroom hshift hret
      hrefused⟩

end Step

/-! ### The whole fill -/

theorem scanPte_shift (flags : ScanFlags) (entry : EptEntry) :
    (scanPte flags entry).1.shift = 12 ∧ (scanPte flags entry).1 ≠ .pipCmd := by
  simp only [scanPte]
  split_ifs <;> simp [ProcIdlePageType.shift]

theorem scanPmd_shift {flags : ScanFlags} {entry : EptEntry} {type : ProcIdlePageType}
    (h : (scanPmd flags entry).1 = some type) : type.shift = 21 ∧ type ≠ .pipCmd := by
  simp only [scanPmd] at h
  split_ifs at h <;> cases h <;> simp [ProcIdlePageType.shift]

section Fill

variable {range : FillRange} {old : EptIdleCtrl} {va : ℕ} {s : EptScan} {I J : Pred}

/-- The steps of a walk keep the invariant of a fill. -/
theorem Content.steps (hrange : range.Ok) (hgpa : old.gpaToHva = usub range.base range.first)
    (hroom : 8 + 2 < ulongOfSigned old.pieReadMax)
    (content : range.Content old.flags old.gpaToHva I J) :
    WalkSteps range.first range.stop range.pgdirShift (range.Walking old va I)
      (range.Stopped old va J) where
  pgdirShift_eq _ _ hw := hw.pgdirShift
  skip k a next s hk piece hw hmissing :=
    hw.skip hrange piece hk fun rep => content.skip k a next s.ept rep piece hw.pgdirShift hmissing
  pud a next s piece hw hthere hlarge :=
    hw.addPage hrange hgpa hroom (show ProcIdlePageType.pudPresent ≠ .pipCmd by decide) piece
      hw.pgdirShift fun rep =>
      content.pud a next s.ept rep piece
        (eq_true_of_ne_false fun h => hthere (Or.inr (Or.inr h))) hlarge
  pmd a next s type piece hw _ hscan := by
    obtain ⟨tokens, filled, -, -⟩ := hw.filled
    obtain ⟨hshift, htype⟩ := scanPmd_shift hscan
    unfold EptScan.scanRegion
    rw [filled.flags] at hscan ⊢
    exact hw.addPage hrange hgpa hroom htype (by rwa [hshift]) hw.pgdirShift fun rep =>
      content.pmd a next s.ept rep type piece hscan
  table a next s piece hw hscan := by
    obtain ⟨tokens, filled, hfirst, hI⟩ := hw.filled
    refine ⟨hw.pgdirShift, ⟨tokens, filled, hfirst, ?_⟩, hw.behind, hw.restart⟩
    unfold EptScan.scanRegion
    rw [filled.flags] at hscan ⊢
    exact content.table a next s.ept _ piece hscan hI
  pte a next s piece hw htable := by
    obtain ⟨tokens, filled, -, -⟩ := hw.filled
    obtain ⟨hshift, htype⟩ := scanPte_shift old.flags (s.ept.pte (a >>> 12))
    unfold eptPte
    rw [filled.flags]
    exact hw.addPage hrange hgpa hroom htype (by rwa [hshift]) hw.pgdirShift fun rep =>
      content.pte a next s.ept rep piece htable

/-- The walk of a range from an empty buffer. -/
theorem eptPageRange_fill (va : ℕ) (hrange : range.Ok)
    (hshift : s.ept.pgdirShift = range.pgdirShift)
    (hgpa : s.eic.gpaToHva = usub range.base range.first)
    (hroom : 8 + 2 < ulongOfSigned s.eic.pieReadMax)
    (content : range.Content s.eic.flags s.eic.gpaToHva I J)
    (hempty : s.eic.kpie = []) (hnext : s.eic.nextHva ≤ range.base) (hI : I range.first s.ept []) :
    Post (range.Walking s.eic va I) (range.Stopped s.eic va J) range.stop
      (eptPageRange s range.first range.stop) := by
  refine eptPageRange_rule (content.steps hrange hgpa hroom) hrange.first_dvd hrange.stop_dvd
    hrange.stop_lt hrange.shift hrange.first_lt ⟨hshift, ⟨[], ?_, fun h => absurd rfl h, hI⟩,
    fun _ => hnext.trans (Nat.le_add_right _ _), fun h => absurd h (lt_irrefl _)⟩
  exact ⟨⟨rfl, rfl, rfl, rfl, rfl⟩, ⟨hempty, by simp, Or.inl rfl, fun h => absurd rfl h⟩,
    fun _ => rfl, fun h => absurd rfl h⟩

end Fill

end FillRange

end MemoryOptimizer
