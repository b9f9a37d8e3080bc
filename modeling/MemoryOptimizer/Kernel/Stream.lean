import MemoryOptimizer.IdlePages.Parse
import MemoryOptimizer.Kernel.Encoder
import Mathlib.Tactic.Ring

/-!
# Encoder and decoder agree

The buffer of the encoder is the stream of a list of tokens that ends in a run,
and the cursor behind it is `next_hva` (`Streams`).  `eicAddPage_streams` says
what one call adds to the stream, and `addPages_parse` that the decoder reports
the pages of the calls that were accepted.
-/

namespace MemoryOptimizer

namespace PageCall

/-- A range inside one page of a page type. -/
structure Ok (call : PageCall) : Prop where
  type_ne : call.type ≠ .pipCmd
  addr_lt : call.addr < call.next
  next_lt : call.next < 2 ^ 64
  next_le : call.next ≤ roundDown call.addr call.type.size + call.type.size

/-- The pages that a call asks to report: its page, none for a hole, and 512 idle
pages for `PMD_IDLE_PTES`. -/
def pages (call : PageCall) (gpaToHva : ℕ) : List (ProcIdlePageType × ℕ) :=
  if call.IsHole then []
  else if call.type = .pmdIdlePtes then
    (List.range 512).map fun i => (.pteIdle, ulong (call.hva gpaToHva + i * 2 ^ 12))
  else [(call.type, call.hva gpaToHva)]

end PageCall

/-! ### Runs -/

theorem ulong_ulong_add (a b : ℕ) : ulong (ulong a + b) = ulong (a + b) := by
  simp only [ulong, Nat.mod_add_mod]

theorem RefCall.pages_add (type : ProcIdlePageType) (m n va : ℕ) :
    RefCall.pages ⟨type, m + n, va⟩ =
      RefCall.pages ⟨type, m, va⟩ ++ RefCall.pages ⟨type, n, ulong (va + m * type.size)⟩ := by
  simp only [RefCall.pages, List.range_add, List.map_append, List.map_map]
  congr 1
  refine List.map_congr_left fun i _ => ?_
  simp only [Function.comp_apply, ulong_ulong_add, Nat.add_mul, Nat.add_assoc]

/-- One more page at the end of a run. -/
theorem refCalls_succ (type : ProcIdlePageType) (nr va : ℕ) :
    (refCalls type (nr + 1) va).flatMap RefCall.pages =
      (refCalls type nr va).flatMap RefCall.pages ++
        (refCalls type 1 (ulong (va + type.size * nr))).flatMap RefCall.pages := by
  unfold refCalls
  split
  · split
    · rename_i htype
      subst htype
      have hsize : nr * 512 * ProcIdlePageType.pteIdle.size =
          ProcIdlePageType.pmdIdlePtes.size * nr := by
        simp only [ProcIdlePageType.size]
        ring
      simp only [List.flatMap_singleton, Nat.add_mul, RefCall.pages_add, hsize]
    · simp only [List.flatMap_singleton, RefCall.pages_add, Nat.mul_comm nr]
  · rfl

/-- A run of one page. -/
theorem refCalls_one {call : PageCall} (hok : call.Ok) (gpaToHva : ℕ) :
    (refCalls call.type 1 (call.hva gpaToHva)).flatMap RefCall.pages = call.pages gpaToHva := by
  have hhva : ulong (call.hva gpaToHva) = call.hva gpaToHva := Nat.mod_mod _ _
  have hone : ∀ type, RefCall.pages ⟨type, 1, call.hva gpaToHva⟩ = [(type, call.hva gpaToHva)] := by
    intro type
    simp [RefCall.pages, hhva]
  have hcode : call.type.code ≤ ProcIdlePageType.pmdIdlePtes.code ↔ ¬call.IsHole := by
    have htype := hok.type_ne
    unfold PageCall.IsHole
    revert htype
    cases call.type <;> simp [ProcIdlePageType.code]
  unfold refCalls PageCall.pages
  by_cases hhole : call.IsHole
  · rw [if_pos hhole, if_neg fun h => hcode.mp h hhole]
    rfl
  · rw [if_neg hhole, if_pos (hcode.mpr hhole)]
    by_cases hptes : call.type = .pmdIdlePtes
    · rw [if_pos hptes, if_pos hptes, List.flatMap_singleton]
      rfl
    · rw [if_neg hptes, if_neg hptes, List.flatMap_singleton, hone]

/-! ### One call -/

/-- The buffer holds a stream that ends in a run, and behind it the cursor of a
decoder that starts at `va` is `next_hva`. -/
structure Streams (eic : EptIdleCtrl) (va : ℕ) (tokens : List PipToken) : Prop where
  kpie_eq : eic.kpie = pipBytes tokens
  valid : ∀ token ∈ tokens, token.Valid
  last : tokens = [] ∨ ∃ before type nr, tokens = before ++ [PipToken.item type nr]
  cursor : tokens ≠ [] → cursorAfter va tokens = eic.nextHva

/-- The range of a call ends with its page. -/
theorem PageCall.Ok.next_eq {call : PageCall} (hok : call.Ok) (gpaToHva : ℕ) :
    ulong (roundUp call.next call.type.size + gpaToHva) =
      ulong (call.hva gpaToHva + call.type.size) := by
  have hle := hok.next_le
  rw [hva, ProcIdlePageType.size_eq hok.type_ne] at *
  rw [roundUp_of_mem call.type.shift_le hok.addr_lt hok.next_lt hle, ulong_ulong_add,
    ulong_ulong_add]
  congr 1
  ring

/-- The page of an aligned call starts at its address. -/
theorem PageCall.Ok.hva_of_aligned {call : PageCall} (hok : call.Ok) (gpaToHva : ℕ)
    (haligned : call.addr % call.type.size = 0) :
    call.hva gpaToHva = ulong (call.addr + gpaToHva) := by
  rw [ProcIdlePageType.size_eq hok.type_ne] at haligned
  rw [hva, ProcIdlePageType.size_eq hok.type_ne,
    roundDown_of_mod_eq_zero (hok.addr_lt.trans hok.next_lt) call.type.shift_le haligned]

section AddPage

variable {eic : EptIdleCtrl} {call : PageCall} {va : ℕ} {tokens : List PipToken}

theorem Streams.pieRead_eq_zero (hs : Streams eic va tokens) : eic.pieRead = 0 ↔ tokens = [] := by
  rw [EptIdleCtrl.pieRead, List.length_eq_zero_iff, hs.kpie_eq, pipBytes_eq_nil]

/-- A new run behind the cursor. -/
theorem streams_newItem (hkpie : eic.kpie = pipBytes tokens)
    (hvalid : ∀ token ∈ tokens, token.Valid) (hok : call.Ok)
    (hcursor : cursorAfter va tokens = call.hva eic.gpaToHva) :
    Streams (eicNewItem eic (roundUp call.next call.type.size) call.type) va
      (tokens ++ [.item call.type 1]) := by
  refine ⟨?_, ?_, Or.inr ⟨tokens, call.type, 1, rfl⟩, fun _ => ?_⟩
  · rw [pipBytes_append, ← hkpie, eicNewItem_kpie]
    simp [PipToken.bytes]
  · intro token htoken
    rcases List.mem_append.mp htoken with h | h
    · exact hvalid token h
    · rw [List.mem_singleton.mp h]
      exact ⟨hok.type_ne, by decide, by decide⟩
  · rw [cursorAfter_append, hcursor, eicNewItem_nextHva, hok.next_eq]
    simp only [cursorAfter, Nat.mul_one]

/-- The run of a call starts where its page does, and reports its pages. -/
theorem reported_newItem (hok : call.Ok) {gpaToHva : ℕ}
    (hcursor : cursorAfter va tokens = call.hva gpaToHva) :
    reported va (tokens ++ [.item call.type 1]) = reported va tokens ++ call.pages gpaToHva := by
  rw [reported_append, hcursor, ← refCalls_one hok]
  simp [reported]

theorem below_newItem {stop gpaToHva : ℕ} (hbelow : Below stop va tokens)
    (hcursor : cursorAfter va tokens = call.hva gpaToHva) (hstop : call.hva gpaToHva < stop) :
    Below stop va (tokens ++ [.item call.type 1]) := by
  rw [below_append, hcursor]
  exact ⟨hbelow, hstop, trivial⟩

/-- The last byte of the buffer is that of the last run. -/
theorem Streams.getD_last {before : List PipToken} {type : ProcIdlePageType} {nr : ℕ}
    (hs : Streams eic va (before ++ [.item type nr])) :
    eic.pieRead = (pipBytes before).length + 1 ∧
    eic.lastByte = pipCompose type.code nr := by
  have hkpie : eic.kpie = pipBytes before ++ [pipCompose type.code nr] := by
    rw [hs.kpie_eq, pipBytes_append]
    rfl
  have hread : eic.pieRead = (pipBytes before).length + 1 := by
    rw [EptIdleCtrl.pieRead, hkpie, List.length_append, List.length_singleton]
  refine ⟨hread, ?_⟩
  rw [EptIdleCtrl.lastByte, hread, hkpie, Nat.add_sub_cancel,
    List.getD_append_right _ _ _ _ le_rfl, Nat.sub_self]
  rfl

theorem Streams.setRestartGpa (hs : Streams eic va tokens) (val : ℕ) :
    Streams (eic.setRestartGpa val) va tokens := ⟨hs.1, hs.2, hs.3, hs.4⟩

/-- One more page in the last run. -/
theorem Streams.extend {before : List PipToken} {type : ProcIdlePageType} {nr : ℕ}
    (hs : Streams eic va (before ++ [.item type nr])) (hnr : nr < 15) {next restart : ℕ}
    (hnext : next = ulong (eic.nextHva + type.size)) :
    Streams ((eic.setNextHva next).setRestartGpa restart).incLastByte va
      (before ++ [.item type (nr + 1)]) := by
  have hcursor := hs.cursor (by simp)
  obtain ⟨hread, hlast⟩ := hs.getD_last
  obtain ⟨htype, -, -⟩ := hs.valid (.item type nr) (by simp)
  have hbyte : uint8 (pipCompose type.code nr + 1) = pipCompose type.code (nr + 1) := by
    have := type.code_lt
    rw [pipCompose_eq (by omega), pipCompose_eq (by omega), uint8]
    omega
  refine ⟨?_, ?_, Or.inr ⟨before, type, nr + 1, rfl⟩, fun _ => ?_⟩
  · rw [EptIdleCtrl.incLastByte_kpie, EptIdleCtrl.setRestartGpa_kpie, EptIdleCtrl.setNextHva_kpie,
      hs.kpie_eq]
    show List.modify _ (eic.pieRead - 1) _ = _
    rw [hread, Nat.add_sub_cancel, pipBytes_append, pipBytes_append]
    simp [PipToken.bytes, List.modify_eq_take_drop, hbyte]
  · intro token htoken
    rcases List.mem_append.mp htoken with h | h
    · exact hs.valid token (List.mem_append_left _ h)
    · rw [List.mem_singleton.mp h]
      exact ⟨htype, Nat.succ_pos _, by omega⟩
  · rw [cursorAfter_append] at hcursor ⊢
    simp only [cursorAfter] at hcursor ⊢
    rw [EptIdleCtrl.incLastByte_nextHva, EptIdleCtrl.setRestartGpa_nextHva,
      EptIdleCtrl.setNextHva_nextHva, hnext, ← hcursor, ulong_ulong_add, Nat.mul_add,
      Nat.mul_one, Nat.add_assoc]

/-- One call: the stream grows by the pages of the call where it is accepted. -/
theorem eicAddPage_streams (hs : Streams eic va tokens) (hok : call.Ok)
    (haligned : ¬Fresh eic call → call.addr % call.type.size = 0)
    {r : EptIdleCtrl × ℕ} (hr : AddPage eic call r) :
    r.1.gpaToHva = eic.gpaToHva ∧ ∃ tokens', Streams r.1 va tokens' ∧
      reported va tokens' = reported va tokens ++
        (if r.2 = 0 then call.pages eic.gpaToHva else []) ∧
      (tokens' = [] → tokens = [] ∧ r.1.nextHva = eic.nextHva) ∧
      ∀ stop, Below stop va tokens → call.hva eic.gpaToHva < stop → Below stop va tokens' := by
  -- where the call is right behind the last run, that is where its page starts
  have hcursor : ¬Fresh eic call → tokens ≠ [] ∧ eic.nextHva = call.hva eic.gpaToHva := by
    intro fresh
    obtain ⟨hread, hnext⟩ := not_or.mp fresh
    exact ⟨mt hs.pieRead_eq_zero.mpr hread,
      by rw [← not_not.mp hnext, hok.hva_of_aligned eic.gpaToHva (haligned fresh)]⟩
  cases hr with
  | hole fresh hhole =>
      refine ⟨EptIdleCtrl.setRestartGpa_gpaToHva .., tokens, hs.setRestartGpa _, ?_,
        fun h => ⟨h, EptIdleCtrl.setRestartGpa_nextHva ..⟩, fun _ h _ => h⟩
      rw [if_pos rfl, PageCall.pages, if_pos hhole, List.append_nil]
  | noRoomForAddress | noRoomForItem =>
      refine ⟨EptIdleCtrl.setRestartGpa_gpaToHva .., tokens, hs.setRestartGpa _, ?_,
        fun h => ⟨h, EptIdleCtrl.setRestartGpa_nextHva ..⟩, fun _ h _ => h⟩
      simp [eptIdleKbufFull]
  | address fresh hhole =>
      have hcursor : cursorAfter va (tokens ++ [.setHva (call.hva eic.gpaToHva)]) =
          call.hva eic.gpaToHva := by
        rw [cursorAfter_append]
        rfl
      have hkpie : (eicReportAddr eic (call.hva eic.gpaToHva)).kpie =
          pipBytes (tokens ++ [.setHva (call.hva eic.gpaToHva)]) := by
        rw [pipBytes_append, ← hs.kpie_eq, eicReportAddr_kpie]
        simp [PipToken.bytes]
      have hvalid : ∀ token ∈ tokens ++ [.setHva (call.hva eic.gpaToHva)], token.Valid := by
        intro token htoken
        rcases List.mem_append.mp htoken with h | h
        · exact hs.valid token h
        · rw [List.mem_singleton.mp h]
          exact ulong_lt _
      refine ⟨by rw [eicNewItem_gpaToHva, eicReportAddr_gpaToHva], _,
        streams_newItem hkpie hvalid hok
          (hcursor.trans (by rw [eicReportAddr_gpaToHva])),
        ?_, by simp, fun stop hbelow hstop => below_newItem ((below_append ..).mpr
          ⟨hbelow, trivial⟩) hcursor hstop⟩
      rw [reported_newItem hok hcursor, reported_append, if_pos rfl]
      simp [reported]
  | item fresh =>
      obtain ⟨hne, hnext⟩ := hcursor fresh
      have hcursor := (hs.cursor hne).trans hnext
      refine ⟨eicNewItem_gpaToHva .., _, streams_newItem hs.kpie_eq hs.valid hok hcursor, ?_,
        by simp, fun stop hbelow hstop => below_newItem hbelow hcursor hstop⟩
      rw [reported_newItem hok hcursor, if_pos rfl]
  | extend fresh htype hsize =>
      obtain ⟨hne, hnext⟩ := hcursor fresh
      obtain ⟨before, type, nr, rfl⟩ := hs.last.resolve_left hne
      obtain ⟨-, hlast⟩ := hs.getD_last
      obtain ⟨-, -, hnr⟩ := hs.valid (.item type nr) (by simp)
      rw [hlast, pipSize_pipCompose hnr] at hsize
      rw [hlast, pipType_pipCompose type.code_lt hnr] at htype
      obtain rfl := ProcIdlePageType.code_injective htype
      have hcursor := (hs.cursor hne).trans hnext
      rw [cursorAfter_append] at hcursor
      refine ⟨by simp only [EptIdleCtrl.incLastByte_gpaToHva, EptIdleCtrl.setRestartGpa_gpaToHva,
        EptIdleCtrl.setNextHva_gpaToHva], before ++ [.item call.type (nr + 1)],
        hs.extend hsize ?_, ?_, by simp, fun stop hbelow hstop => ?_⟩
      · rw [hok.next_eq, hnext]
      · rw [reported_append, reported_append, List.append_assoc, if_pos rfl]
        simp only [reported, List.append_nil]
        rw [refCalls_succ, show ulong (cursorAfter va before + call.type.size * nr) =
          call.hva eic.gpaToHva from hcursor, refCalls_one hok]
      · rw [below_append] at hbelow ⊢
        exact ⟨hbelow.1, hbelow.2.1, trivial⟩

end AddPage

/-! ### A sequence of calls -/

/-- Calls of `eic_add_page`, up to the first one that is refused: the state, and
the calls that were accepted. -/
def addPages (eic : EptIdleCtrl) : List PageCall → EptIdleCtrl × List PageCall
  | [] => (eic, [])
  | call :: calls =>
      let r := eicAddPage eic call.addr call.next call.type
      if r.2 = 0 then
        let rest := addPages r.1 calls
        (rest.1, call :: rest.2)
      else (r.1, [])

/-- A call right behind the last run has an aligned address. -/
def ContiguousAligned : List PageCall → EptIdleCtrl → Prop
  | [], _ => True
  | call :: calls, eic =>
      (¬Fresh eic call → call.addr % call.type.size = 0) ∧
        ContiguousAligned calls (eicAddPage eic call.addr call.next call.type).1

instance : (calls : List PageCall) → DecidablePred (ContiguousAligned calls)
  | [], _ => isTrue trivial
  | call :: calls, eic =>
      have := instDecidablePredEptIdleCtrlContiguousAligned calls
      inferInstanceAs (Decidable ((¬Fresh eic call → call.addr % call.type.size = 0) ∧
        ContiguousAligned calls _))

theorem addPages_streams {calls : List PageCall} {eic : EptIdleCtrl} {va : ℕ}
    {tokens : List PipToken} (hs : Streams eic va tokens) (hok : ∀ call ∈ calls, call.Ok)
    (haligned : ContiguousAligned calls eic) {stop : ℕ} (hbelow : Below stop va tokens)
    (hstop : ∀ call ∈ calls, call.hva eic.gpaToHva < stop) :
    ∃ tokens', Streams (addPages eic calls).1 va tokens' ∧ Below stop va tokens' ∧
      (tokens' = [] → tokens = [] ∧ (addPages eic calls).1.nextHva = eic.nextHva) ∧
      reported va tokens' = reported va tokens ++
        (addPages eic calls).2.flatMap fun call => call.pages eic.gpaToHva := by
  induction calls generalizing eic tokens with
  | nil => exact ⟨tokens, hs, hbelow, fun h => ⟨h, rfl⟩, by simp [addPages]⟩
  | cons call calls ih =>
      obtain ⟨hok, hoks⟩ := List.forall_mem_cons.mp hok
      obtain ⟨hstop, hstops⟩ := List.forall_mem_cons.mp hstop
      obtain ⟨haligned, hrest⟩ := haligned
      obtain ⟨hgpa, tokens₁, hs₁, hreported, hnil, hbelow₁⟩ :=
        eicAddPage_streams hs hok haligned (eicAddPage_cases eic call)
      simp only [addPages]
      split
      · rename_i herr
        obtain ⟨tokens₂, hs₂, hbelow₂, hnil₂, hreported₂⟩ :=
          ih hs₁ hoks hrest (hbelow₁ stop hbelow hstop) (by rw [hgpa]; exact hstops)
        refine ⟨tokens₂, hs₂, hbelow₂, fun h => ?_, ?_⟩
        · obtain ⟨h₁, hnext₂⟩ := hnil₂ h
          obtain ⟨h₀, hnext₁⟩ := hnil h₁
          exact ⟨h₀, hnext₂.trans hnext₁⟩
        · rw [hreported₂, hreported, if_pos herr, hgpa, List.flatMap_cons, List.append_assoc]
      · rename_i herr
        refine ⟨tokens₁, hs₁, hbelow₁ stop hbelow hstop, hnil, ?_⟩
        rw [hreported, if_neg herr, List.flatMap_nil]

/-- On a buffer just initialised: the decoder reports the pages of the calls that
were accepted, in their order, and ends at `next_hva`. -/
theorem addPages_parse {eic : EptIdleCtrl} (hempty : eic.kpie = []) {calls : List PageCall}
    (hok : ∀ call ∈ calls, call.Ok) (haligned : ContiguousAligned calls eic) {stop : ℕ}
    (hstop : ∀ call ∈ calls, call.hva eic.gpaToHva < stop) (va : ℕ) (rest : List ℕ) :
    ∃ va' refs,
      parseIdlepages ((addPages eic calls).1.kpie ++ rest) va stop (addPages eic calls).1.pieRead =
        some (va', refs) ∧
      refs.flatMap RefCall.pages =
        ((addPages eic calls).2.flatMap fun call => call.pages eic.gpaToHva) ∧
      ((addPages eic calls).1.pieRead ≠ 0 ∨ va = eic.nextHva →
        va' = (addPages eic calls).1.nextHva) := by
  have hs : Streams eic va [] := ⟨hempty, by simp, Or.inl rfl, fun h => absurd rfl h⟩
  obtain ⟨tokens, hs', hbelow, hnil, hreported⟩ :=
    addPages_streams hs hok haligned (show Below stop va [] from trivial) hstop
  obtain ⟨hcursor, hpages⟩ := scan_of_below hbelow
  refine ⟨(scan stop va tokens).1, (scan stop va tokens).2, ?_, hpages.trans hreported,
    fun h => ?_⟩
  · rw [EptIdleCtrl.pieRead, hs'.kpie_eq]
    exact parseIdlepages_pipBytes hs'.valid rest va
  · rw [hcursor]
    by_cases htokens : tokens = []
    · have hva := h.resolve_left fun h => h (hs'.pieRead_eq_zero.mpr htokens)
      rw [htokens, (hnil htokens).2, ← hva]
      rfl
    · exact hs'.cursor htokens

/-- Two pages of a run, a hole behind them, and a page table skimmed as a whole;
the address does not fit a second time. -/
theorem addPages_parse_skimmedTable :
    let eic := { eptIdleOpen with pieReadMax := 23, gpaToHva := 0x7f0000000000 }
    let calls : List PageCall :=
      [⟨0x1000, 0x2000, .pteAccessed⟩, ⟨0x2000, 0x3000, .pteAccessed⟩, ⟨0x3000, 0x4000, .pteHole⟩,
        ⟨0x200000, 0x400000, .pmdIdlePtes⟩, ⟨0x800000, 0xa00000, .pmdAccessed⟩]
    ∃ va' refs,
      parseIdlepages ((addPages eic calls).1.kpie ++ []) 0 (2 ^ 47) (addPages eic calls).1.pieRead =
        some (va', refs) ∧
      refs.flatMap RefCall.pages =
        ((addPages eic calls).2.flatMap fun call => call.pages eic.gpaToHva) ∧
      ((addPages eic calls).1.pieRead ≠ 0 ∨ 0 = eic.nextHva →
        va' = (addPages eic calls).1.nextHva) :=
  addPages_parse rfl
    (by
      simp only [List.forall_mem_cons, List.not_mem_nil, false_implies, implies_true, and_true]
      refine ⟨⟨?_, ?_, ?_, ?_⟩, ⟨?_, ?_, ?_, ?_⟩, ⟨?_, ?_, ?_, ?_⟩, ⟨?_, ?_, ?_, ?_⟩,
        ⟨?_, ?_, ?_, ?_⟩⟩ <;> decide)
    (by decide) (by decide) 0 []

end MemoryOptimizer
