import MemoryOptimizer.Kernel.Bounds
import MemoryOptimizer.Kernel.ReadLoop

/-!
# The read protocol

What a reader may conclude from the return value of `ept_idle_read` on a virtual
machine: `TellsTruth` holds where a positive value is the number of bytes
delivered, and `*ppos` is where the decoder of these bytes ends, and any other
value leaves `*ppos` as it was.

* `eptIdleRead_end` — the ways in which a read may end.
* `eptIdleRead_tellsTruth_iff` — a read ends and tells the truth if and only if its
  size leaves room for the first page, no copy to the user fails after another one has
  succeeded, and the kernel's buffer is not overrun.
* `eptIdleRead_untruth` — both can happen: the smallest size that is accepted has no
  room, and a late failure leaves `*ppos` behind a chunk that was never delivered.
-/

namespace MemoryOptimizer

/-- The return value of a read at `ppos` is the number of bytes delivered, and the
decoder of these bytes ends at the new position; or nothing has moved. -/
def TellsTruth (ppos : ℕ) (r : ReadResult) : Prop :=
  (0 < r.ret → r.ret = r.buf.length ∧
    (parseIdlepages r.buf ppos (2 ^ 64) r.buf.length).map Prod.fst = some r.ppos) ∧
  (r.ret ≤ 0 → r.ppos = ppos)

instance (ppos : ℕ) (r : ReadResult) : Decidable (TellsTruth ppos r) :=
  inferInstanceAs (Decidable ((_ → _) ∧ (_ → _)))

/-- No copy to the user fails after one that has succeeded. -/
def NoLateFault (kvm : Kvm) (stop : ℕ) (w : HvaWalk) : Prop :=
  ∀ n, Running kvm stop w n → (walkHvaLoop kvm stop n w).1.scan.eic.bytesCopied ≠ 0 →
    kvm.copyFails (walkHvaLoop kvm stop n w).1.scan.eic.bytesCopied = false

/-! ### What has been delivered -/

/-- Without an end of its own the decoder reads a stream to its end. -/
theorem below_of_valid {tokens : List PipToken} (hvalid : ∀ token ∈ tokens, token.Valid) {va : ℕ}
    (hva : va < 2 ^ 64) : Below (2 ^ 64) va tokens := by
  induction tokens generalizing va with
  | nil => trivial
  | cons token tokens ih =>
      have hrest : ∀ t ∈ tokens, PipToken.Valid t := fun t ht =>
        hvalid t (List.mem_cons_of_mem _ ht)
      cases token with
      | setHva hva' => exact ih hrest (hvalid _ List.mem_cons_self)
      | item type nr => exact ⟨hva, ih hrest (ulong_lt _)⟩

/-- The decoder of a delivered stream ends at its cursor, and calls for the pages
that the stream reports. -/
theorem parseIdlepages_delivered {tokens : List PipToken}
    (hvalid : ∀ token ∈ tokens, token.Valid) {va : ℕ} (hva : va < 2 ^ 64) :
    ∃ calls, parseIdlepages (pipBytes tokens) va (2 ^ 64) (pipBytes tokens).length =
        some (cursorAfter va tokens, calls) ∧
      calls.flatMap RefCall.pages = reported va tokens := by
  have hparse : parseIdlepages (pipBytes tokens ++ []) va (2 ^ 64) (pipBytes tokens).length =
      some (scan (2 ^ 64) va tokens) := parseIdlepages_pipBytes hvalid [] va
  obtain ⟨hcursor, hpages⟩ := scan_of_below (below_of_valid hvalid hva)
  rw [List.append_nil] at hparse
  exact ⟨(scan (2 ^ 64) va tokens).2, by rw [hparse, ← hcursor], hpages⟩

theorem parseIdlepages_cursor {tokens : List PipToken} (hvalid : ∀ token ∈ tokens, token.Valid)
    {va : ℕ} (hva : va < 2 ^ 64) :
    (parseIdlepages (pipBytes tokens) va (2 ^ 64) (pipBytes tokens).length).map Prod.fst =
      some (cursorAfter va tokens) := by
  obtain ⟨calls, hparse, -⟩ := parseIdlepages_delivered hvalid hva
  rw [hparse, Option.map_some]

section Loop

variable {kvm : Kvm} {stop pgdirShift ppos : ℕ} {tokens : List PipToken} {w : HvaWalk}

/-- How the loop may end: all that was moved past has been delivered, or a chunk
that was moved past was not. -/
inductive LoopEnd (kvm : Kvm) (stop ppos : ℕ) (w : HvaWalk) (r : HvaWalk × ℤ) : Prop
  | delivered (late : NoLateFault kvm stop w) (tokens : List PipToken)
      (valid : ∀ token ∈ tokens, token.Valid) (buf_eq : r.1.scan.eic.buf = pipBytes tokens)
      (ret : tokens = [] → r.2 = -efault)
      (cursor : tokens ≠ [] → cursorAfter ppos tokens = r.1.scan.eic.nextHva) :
      LoopEnd kvm stop ppos w r
  | lost (late : ¬NoLateFault kvm stop w) (tokens : List PipToken) (ne_nil : tokens ≠ [])
      (valid : ∀ token ∈ tokens, token.Valid) (buf_eq : r.1.scan.eic.buf = pipBytes tokens)
      (cursor : cursorAfter ppos tokens < r.1.scan.eic.nextHva) : LoopEnd kvm stop ppos w r

/-- The iterations that follow: none behind one that ended the loop. -/
theorem forall_running (kvm : Kvm) (hlt : w.start < stop) (P : HvaWalk → Prop) :
    (∀ n, Running kvm stop w n → P (walkHvaLoop kvm stop n w).1) ↔
      P w ∧ ((walkHva kvm stop w).2 = 0 → ∀ n, Running kvm stop (walkHva kvm stop w).1 n →
        P (walkHvaLoop kvm stop n (walkHva kvm stop w).1).1) :=
  forall_iteration (s := w) hlt P

theorem noLateFault_step (kvm : Kvm) (hlt : w.start < stop) :
    NoLateFault kvm stop w ↔
      (w.scan.eic.bytesCopied ≠ 0 → kvm.copyFails w.scan.eic.bytesCopied = false) ∧
      ((walkHva kvm stop w).2 = 0 → NoLateFault kvm stop (walkHva kvm stop w).1) :=
  forall_running kvm hlt fun w =>
    w.scan.eic.bytesCopied ≠ 0 → kvm.copyFails w.scan.eic.bytesCopied = false

/-- The loop, from the first iteration or from any one after it. -/
theorem walkHvaLoop_end (hkvm : kvm.Ok) (hshift : 39 ≤ pgdirShift ∧ pgdirShift < 64)
    (hstop : stop < 2 ^ 64) {n : ℕ} (hw : Reading pgdirShift ppos tokens w)
    (hgoes : w.start < stop ∨ tokens ≠ []) {ret : ℤ}
    (hret : (walkHvaLoop kvm stop n w).2 = some ret) :
    LoopEnd kvm stop ppos w ((walkHvaLoop kvm stop n w).1, ret) := by
  induction n generalizing tokens w with
  | zero => cases hret
  | succ n ih =>
      rw [walkHvaLoop_succ] at hret ⊢
      by_cases hlt : w.start < stop
      · rw [if_pos hlt] at hret ⊢
        obtain ⟨_, chunk, step⟩ := walkHva_step hkvm hshift hw hlt hstop
        have hlate := noLateFault_step kvm hlt
        have hempty : w.scan.eic.bytesCopied = 0 ↔ tokens = [] := by
          rw [EptIdleCtrl.bytesCopied, hw.buf_eq, List.length_eq_zero_iff, pipBytes_eq_nil]
        have hvalid : ∀ token ∈ tokens ++ chunk, token.Valid := by
          intro token htoken
          rcases List.mem_append.mp htoken with h | h
          · exact hw.valid token h
          · exact step.valid token h
        cases hfails : kvm.copyFails w.scan.eic.bytesCopied with
        | true =>
            -- the copy fails: what was delivered before is all there is
            obtain ⟨hfault, hbuf⟩ := step.failed hfails
            have hne : (walkHva kvm stop w).2 ≠ 0 := by
              rw [hfault]
              decide
            rw [if_pos hne] at hret ⊢
            obtain rfl := Option.some.inj hret
            by_cases hnil : tokens = []
            · refine .delivered (hlate.mpr ⟨fun h => absurd (hempty.mpr hnil) h,
                fun h => absurd h hne⟩) tokens hw.valid hbuf (fun _ => hfault) fun h =>
                absurd hnil h
            · refine .lost (fun h => ?_) tokens hnil hw.valid hbuf ?_
              · have := (hlate.mp h).1 (mt hempty.mp hnil)
                exact Bool.noConfusion (hfails.symm.trans this)
              · rw [hw.cursor hnil]
                exact hw.nextHva_le.trans_lt step.lt_cursor
        | false =>
            obtain ⟨hbuf, hnonneg⟩ := step.delivered hfails
            have hne' : tokens ++ chunk ≠ [] := fun h =>
              step.ne_nil (List.append_eq_nil_iff.mp h).2
            by_cases hgo : (walkHva kvm stop w).2 = 0
            · rw [if_neg (not_not.mpr hgo)] at hret ⊢
              have hlate : NoLateFault kvm stop w ↔
                  NoLateFault kvm stop (walkHva kvm stop w).1 :=
                hlate.trans ⟨fun h => h.2 hgo, fun h => ⟨fun _ => hfails, fun _ => h⟩⟩
              cases ih (step.next hfails hgo).1 (Or.inr hne') hret with
              | delivered late rest valid buf_eq ret cursor =>
                  exact .delivered (hlate.mpr late) rest valid buf_eq ret cursor
              | lost late rest ne_nil valid buf_eq cursor =>
                  exact .lost (mt hlate.mp late) rest ne_nil valid buf_eq cursor
            · rw [if_pos hgo] at hret ⊢
              obtain rfl := Option.some.inj hret
              exact .delivered (hlate.mpr ⟨fun _ => hfails, fun h => absurd h hgo⟩)
                (tokens ++ chunk) hvalid hbuf (fun h => absurd h hne') fun _ => step.cursor
      · rw [if_neg hlt] at hret ⊢
        have hne := hgoes.resolve_left hlt
        refine .delivered (fun m hrun => ?_) tokens hw.valid hw.buf_eq (fun h => absurd h hne)
          hw.cursor
        have hstay : (walkHvaLoop kvm stop m w).1 = w := by
          cases m with
          | zero => rfl
          | succ m => rw [walkHvaLoop_succ, if_neg hlt]
        exact absurd (hstay ▸ hrun.2) hlt

end Loop

/-! ### The read -/

section Read

variable (kvm : Kvm) (eic : EptIdleCtrl) (ept : Ept) (flags : ScanFlags) (count ppos : ℕ)

/-- The loop is entered unless the size, as an `int`, leaves no room for the first
page. -/
theorem walkStart_snd : (walkStart eic ept flags count ppos).2 =
    if 9 ≤ intOfUlong count ∧ intOfUlong count ≤ 19 then 1 else 0 := by
  have hmax : (walkStart eic ept flags count ppos).2 =
      if ulongOfSigned (min 8000 (intOfUlong count - 0) - (8 + 1)) ≤ 8 + 2 then 1 else 0 := rfl
  obtain ⟨hlow, hhigh⟩ := intOfUlong_bounds count
  generalize intOfUlong count = size at *
  rw [hmax]
  unfold ulongOfSigned
  split_ifs <;> omega

theorem walkStart_bufSize :
    (walkStart eic ept flags count ppos).1.scan.eic.bufSize = intOfUlong count := rfl

variable {count ppos}

theorem walkStart_reading (hpos : 2 ^ 12 ∣ ppos)
    (hsize : ¬(9 ≤ intOfUlong count ∧ intOfUlong count ≤ 19)) :
    Reading ept.pgdirShift ppos [] (walkStart eic ept flags count ppos).1 := by
  have hroom := walkStart_snd eic ept flags count ppos
  rw [if_neg hsize] at hroom
  refine ⟨rfl, rfl, ?_, hpos, Nat.zero_le _, rfl, by simp, fun h => absurd rfl h⟩
  by_contra hsmall
  have : (walkStart eic ept flags count ppos).2 = 1 := if_pos (not_lt.mp hsmall)
  exact absurd (hroom.symm.trans this) zero_ne_one

theorem walkStart_reading_of_zero {eic : EptIdleCtrl} {ept : Ept} {flags : ScanFlags}
    (hpos : 2 ^ 12 ∣ ppos) (hret : (walkStart eic ept flags count ppos).2 = 0) :
    Reading ept.pgdirShift ppos [] (walkStart eic ept flags count ppos).1 := by
  refine walkStart_reading eic ept flags hpos fun hsize => ?_
  rw [walkStart_snd, if_pos hsize] at hret
  exact absurd hret one_ne_zero

/-- The result of a read whose loop has ended with `r`. -/
def readResult (ppos : ℕ) (r : HvaWalk × ℤ) : ReadResult :=
  if r.1.scan.eic.bytesCopied ≠ 0 then
    ⟨r.1.scan.eic.bytesCopied, r.1.scan.eic.buf, r.1.scan.eic.nextHva, r.1.scan.ept⟩
  else if r.2 ≠ 0 then ⟨r.2, [], ppos, r.1.scan.ept⟩
  else ⟨0, [], r.1.scan.eic.nextHva, r.1.scan.ept⟩

/-- A read that was moved past everything it delivered tells the truth; one that
was moved past more does not. -/
theorem tellsTruth_of_loopEnd {kvm : Kvm} (hpos : ppos < 2 ^ 64) {stop : ℕ} {w : HvaWalk}
    {r : HvaWalk × ℤ} (hend : LoopEnd kvm stop ppos w r) :
    TellsTruth ppos (readResult ppos r) ↔ NoLateFault kvm stop w := by
  unfold readResult
  have hbytes : ∀ tokens, r.1.scan.eic.buf = pipBytes tokens →
      (r.1.scan.eic.bytesCopied = 0 ↔ tokens = []) := by
    intro tokens h
    rw [EptIdleCtrl.bytesCopied, h, List.length_eq_zero_iff, pipBytes_eq_nil]
  cases hend with
  | delivered late tokens valid buf_eq ret cursor =>
      refine iff_of_true ?_ late
      by_cases hnil : tokens = []
      · have hret := ret hnil
        rw [if_neg (not_not.mpr ((hbytes tokens buf_eq).mpr hnil)),
          if_pos (by rw [hret]; decide), hret]
        exact ⟨fun h => absurd h (show ¬0 < -efault by decide), fun _ => rfl⟩
      · have hcopied := mt (hbytes tokens buf_eq).mp hnil
        rw [if_pos hcopied]
        refine ⟨fun _ => ⟨rfl, ?_⟩, fun h => ?_⟩
        · dsimp only
          rw [buf_eq, parseIdlepages_cursor valid hpos, cursor hnil]
        · exact absurd (Int.natCast_eq_zero.mp (le_antisymm h (Int.natCast_nonneg _))) hcopied
  | lost late tokens ne_nil valid buf_eq cursor =>
      refine iff_of_false (fun htruth => ?_) late
      have hcopied := mt (hbytes tokens buf_eq).mp ne_nil
      rw [if_pos hcopied] at htruth
      obtain ⟨-, hparse⟩ := htruth.1 (by
        show (0 : ℤ) < (r.1.scan.eic.bytesCopied : ℤ)
        exact_mod_cast Nat.pos_of_ne_zero hcopied)
      dsimp only at hparse
      rw [buf_eq, parseIdlepages_cursor valid hpos] at hparse
      exact absurd (Option.some.inj hparse) cursor.ne

/-- How a read may end: three ways before its loop, and with the loop; and where its loop
overruns the kernel's buffer it has no result. -/
inductive ReadEnd (kvm : Kvm) (eic : EptIdleCtrl) (ept : Ept) (flags : ScanFlags)
    (count ppos fuel : ℕ) : Option ReadResult → Prop
  | outside (out : ppos ≥ kvm.taskSize ∨ hvaEnd ppos count ≤ ppos) :
      ReadEnd kvm eic ept flags count ppos fuel (some ⟨0, [], ppos, ept⟩)
  | invalid (above : ppos < hvaEnd ppos count)
      (invalid : ¬2 ^ 12 ∣ ppos ∨ count < eptIdleBufMin ∨ kvm.supportsCpu = false) :
      ReadEnd kvm eic ept flags count ppos fuel (some ⟨-einval, [], ppos, ept⟩)
  | noRoom (above : ppos < hvaEnd ppos count) (cpu : kvm.supportsCpu = true)
      (size : 9 ≤ intOfUlong count ∧ intOfUlong count ≤ 19) :
      ReadEnd kvm eic ept flags count ppos fuel (some ⟨1, [], ppos, ept⟩)
  | loop (above : ppos < hvaEnd ppos count) (cpu : kvm.supportsCpu = true)
      (below : ppos < kvm.taskSize)
      (size : ¬(9 ≤ intOfUlong count ∧ intOfUlong count ≤ 19))
      (reading : Reading ept.pgdirShift ppos [] (walkStart eic ept flags count ppos).1) (ret : ℤ)
      (ret_eq : (walkHvaLoop kvm (hvaEnd ppos count) fuel
        (walkStart eic ept flags count ppos).1).2 = some ret)
      (fits : KbufFits kvm (hvaEnd ppos count) (walkStart eic ept flags count ppos).1) :
      ReadEnd kvm eic ept flags count ppos fuel (some (readResult ppos
        ((walkHvaLoop kvm (hvaEnd ppos count) fuel (walkStart eic ept flags count ppos).1).1,
          ret)))
  | overrun (above : ppos < hvaEnd ppos count) (cpu : kvm.supportsCpu = true)
      (size : ¬(9 ≤ intOfUlong count ∧ intOfUlong count ≤ 19))
      (overruns : ¬KbufFits kvm (hvaEnd ppos count) (walkStart eic ept flags count ppos).1) :
      ReadEnd kvm eic ept flags count ppos fuel none

/-- A read ends unless it overruns the kernel's buffer, whatever its arguments are. -/
theorem eptIdleRead_end (kvm : Kvm) (eic : EptIdleCtrl) (ept : Ept) (flags : ScanFlags)
    (count ppos fuel : ℕ) (hkvm : kvm.Ok)
    (hshift : 39 ≤ ept.pgdirShift ∧ ept.pgdirShift < 64) (hfuel : count ≤ fuel) :
    ReadEnd kvm eic ept flags count ppos fuel
      (eptIdleRead kvm eic ept flags count ppos fuel) := by
  unfold eptIdleRead
  by_cases hout : ppos ≥ kvm.taskSize ∨ hvaEnd ppos count ≤ ppos
  · rw [if_pos hout]
    exact .outside hout
  rw [if_neg hout]
  obtain ⟨hbelow, habove⟩ := not_or.mp hout
  have habove : ppos < hvaEnd ppos count := not_le.mp habove
  have haligned : ppos &&& (2 ^ 12 - 1) ≠ 0 ↔ ¬2 ^ 12 ∣ ppos := by
    rw [Nat.and_two_pow_sub_one_eq_mod, Ne, Nat.dvd_iff_mod_eq_zero]
  by_cases hinvalid : ppos &&& (2 ^ 12 - 1) ≠ 0 ∨ count < eptIdleBufMin ∨
      (!kvm.supportsCpu) = true
  · rw [if_pos hinvalid]
    refine .invalid habove (hinvalid.imp haligned.mp (Or.imp_right fun h => ?_))
    simpa using h
  rw [if_neg hinvalid]
  obtain ⟨hpos, hvalid⟩ := not_or.mp hinvalid
  obtain ⟨hcount, hcpu⟩ := not_or.mp hvalid
  have hcpu : kvm.supportsCpu = true := by simpa using hcpu
  have hdvd : 2 ^ 12 ∣ ppos := not_not.mp (mt haligned.mpr hpos)
  have hstart := walkStart_snd eic ept flags count ppos
  dsimp only
  by_cases hsize : 9 ≤ intOfUlong count ∧ intOfUlong count ≤ 19
  · rw [if_pos hsize] at hstart
    rw [if_pos (by rw [hstart]; decide), hstart]
    exact .noRoom habove hcpu hsize
  rw [if_neg hsize] at hstart
  rw [if_neg (by rw [hstart]; decide)]
  have hreading := walkStart_reading eic ept flags hdvd hsize
  obtain ⟨ret, hret⟩ := walkHvaLoop_isSome (n := fuel) hkvm hshift
    (show hvaEnd ppos count < 2 ^ 64 from ulong_lt _)
    (by unfold eptIdleBufMin at hcount; omega) hreading (by
      rw [walkStart_bufSize]
      exact (intOfUlong_le count).trans (by omega))
  rw [hret]
  by_cases hover : (walkHvaLoop kvm (hvaEnd ppos count) fuel
      (walkStart eic ept flags count ppos).1).1.scan.eic.Overrun
  · rw [if_pos hover]
    exact .overrun habove hcpu hsize fun hfits => hfits fuel hover
  · rw [if_neg hover]
    exact .loop habove hcpu (not_le.mp hbelow) hsize hreading ret hret
      (kbufFits_of_ended hret hover)

theorem eptIdleRead_isSome (kvm : Kvm) (eic : EptIdleCtrl) (ept : Ept) (flags : ScanFlags)
    (count ppos fuel : ℕ) (hkvm : kvm.Ok)
    (hshift : 39 ≤ ept.pgdirShift ∧ ept.pgdirShift < 64) (hfuel : count ≤ fuel)
    (hfits : KbufFits kvm (hvaEnd ppos count) (walkStart eic ept flags count ppos).1) :
    ∃ r, eptIdleRead kvm eic ept flags count ppos fuel = some r := by
  have hread := eptIdleRead_end kvm eic ept flags count ppos fuel hkvm hshift hfuel
  generalize eptIdleRead kvm eic ept flags count ppos fuel = result at hread ⊢
  cases hread with
  | outside | invalid | noRoom | loop => exact ⟨_, rfl⟩
  | overrun above cpu size overruns => exact absurd hfits overruns

/-- Every read at a page-aligned position below `TASK_SIZE`, of at least
`EPT_IDLE_BUF_MIN` bytes, whatever the slots, the page table and the pattern of
failures of `copy_to_user`: it returns and tells the truth if and only if it does not
come to the loop, or its size as an `int` is not between 9 and 19, no copy fails after
one that has succeeded, and no iteration writes behind the kernel's buffer.  None does
where no fill starts with a negative `pie_read_max`. -/
theorem eptIdleRead_tellsTruth_iff (kvm : Kvm) (eic : EptIdleCtrl) (ept : Ept)
    (flags : ScanFlags) (count ppos fuel : ℕ) (hkvm : kvm.Ok)
    (hept : ept.pgdirShift = 39 ∨ ept.pgdirShift = 48) (hpos : 2 ^ 12 ∣ ppos)
    (hlt : ppos < kvm.taskSize) (hcount : eptIdleBufMin ≤ count) (hfuel : count ≤ fuel) :
    ((∃ r, eptIdleRead kvm eic ept flags count ppos fuel = some r ∧ TellsTruth ppos r) ↔
      (kvm.supportsCpu = true → ppos < hvaEnd ppos count →
        ¬(9 ≤ intOfUlong count ∧ intOfUlong count ≤ 19) ∧
          NoLateFault kvm (hvaEnd ppos count) (walkStart eic ept flags count ppos).1 ∧
          KbufFits kvm (hvaEnd ppos count) (walkStart eic ept flags count ppos).1)) ∧
      (FillsNonneg kvm (hvaEnd ppos count) (walkStart eic ept flags count ppos).1 →
        KbufFits kvm (hvaEnd ppos count) (walkStart eic ept flags count ppos).1) := by
  refine ⟨?_, FillsNonneg.kbufFits⟩
  have hunmoved : ∀ ret : ℤ, ret ≤ 0 → TellsTruth ppos ⟨ret, [], ppos, ept⟩ := fun ret h =>
    ⟨fun h' => absurd h' (not_lt.mpr h), fun _ => rfl⟩
  have hpos64 : ppos < 2 ^ 64 := by
    have := hkvm.taskSize_lt
    omega
  have hshift : 39 ≤ ept.pgdirShift ∧ ept.pgdirShift < 64 := by omega
  have hread := eptIdleRead_end kvm eic ept flags count ppos fuel hkvm hshift hfuel
  generalize eptIdleRead kvm eic ept flags count ppos fuel = result at hread ⊢
  cases hread with
  | outside out =>
      have hend := out.resolve_left (not_le.mpr hlt)
      exact iff_of_true ⟨_, rfl, hunmoved 0 le_rfl⟩ fun _ h => absurd h (not_lt.mpr hend)
  | invalid above invalid =>
      have hcpu : kvm.supportsCpu = false :=
        (invalid.resolve_left (not_not.mpr hpos)).resolve_left (not_lt.mpr hcount)
      refine iff_of_true ⟨_, rfl, hunmoved (-einval) (by decide)⟩ fun h => ?_
      exact Bool.noConfusion (hcpu.symm.trans h)
  | noRoom above cpu size =>
      refine iff_of_false ?_ fun h => (h cpu above).1 size
      rintro ⟨r, hr, htruth⟩
      obtain rfl := Option.some.inj hr
      exact absurd (htruth.1 Int.one_pos).1 (show ¬(1 : ℤ) = (0 : ℕ) by decide)
  | overrun above cpu size overruns =>
      refine iff_of_false ?_ fun h => overruns (h cpu above).2.2
      rintro ⟨r, hr, -⟩
      cases hr
  | loop above cpu below size reading ret ret_eq fits =>
      have hloop := walkHvaLoop_end hkvm hshift (ulong_lt _) reading (Or.inl above) ret_eq
      have htruth := tellsTruth_of_loopEnd hpos64 hloop
      constructor
      · rintro ⟨r, hr, htells⟩ - -
        obtain rfl := Option.some.inj hr
        exact ⟨size, htruth.mp htells, fits⟩
      · intro h
        exact ⟨_, rfl, htruth.mpr (h cpu above).2.1⟩

/-- A machine with one page of a guest, and another one 1M above it; copies fail
where `copyFails` says. -/
def twoPages (copyFails : ℕ → Bool) : Kvm :=
  ⟨true, [⟨1, 1, 0x7f0000000000⟩, ⟨2, 1, 0x7f0000100000⟩], 0x7ffffffff000, copyFails⟩

/-- The first page fills the twenty bytes, and the loop ends. -/
theorem eptIdleRead_tellsTruth_twoPages :
    ∃ r, eptIdleRead (twoPages fun _ => false) eptIdleOpen firstGib ⟨false, false, false⟩ 20
      0x7f0000000000 20 = some r ∧ TellsTruth 0x7f0000000000 r := by
  obtain ⟨hiff, hfits⟩ := eptIdleRead_tellsTruth_iff (twoPages fun _ => false) eptIdleOpen firstGib
    ⟨false, false, false⟩ 20 0x7f0000000000 20 (by decide) (Or.inl rfl) (by decide) (by decide)
    (by decide) le_rfl
  have hlt : (walkStart eptIdleOpen firstGib ⟨false, false, false⟩ 20
      0x7f0000000000).1.start < hvaEnd 0x7f0000000000 20 := by decide +kernel
  have hends : (walkHva (twoPages fun _ => false) (hvaEnd 0x7f0000000000 20)
      (walkStart eptIdleOpen firstGib ⟨false, false, false⟩ 20 0x7f0000000000).1).2 ≠ 0 := by
    decide +kernel
  refine hiff.mpr fun _ _ => ⟨by decide +kernel, ?_, hfits ?_⟩
  · exact (noLateFault_step _ hlt).mpr ⟨fun _ => rfl, fun h => absurd h hends⟩
  · exact (forall_running _ hlt fun w => 0 ≤ w.scan.eic.pieReadMax).mpr
      ⟨by decide +kernel, fun h => absurd h hends⟩

/-- Of `EPT_IDLE_BUF_MIN` bytes a read returns 1 and delivers nothing; and where the
second copy fails, a read returns the ten bytes of the first one, but is moved past
the hole as well. -/
theorem eptIdleRead_untruth :
    (∃ r, eptIdleRead (twoPages fun _ => false) eptIdleOpen firstGib ⟨false, false, false⟩ 19
        0x7f0000000000 19 = some r ∧ ¬TellsTruth 0x7f0000000000 r) ∧
      ∃ r, eptIdleRead (twoPages (· ≠ 0)) eptIdleOpen firstGib ⟨false, false, false⟩ 64
        0x7f0000000000 64 = some r ∧ ¬TellsTruth 0x7f0000000000 r := by
  have hsmall : (eptIdleRead (twoPages fun _ => false) eptIdleOpen firstGib ⟨false, false, false⟩
      19 0x7f0000000000 19).any (fun r => ¬TellsTruth 0x7f0000000000 r) = true := by
    decide +kernel
  have hlate : (eptIdleRead (twoPages (· ≠ 0)) eptIdleOpen firstGib ⟨false, false, false⟩
      64 0x7f0000000000 64).any (fun r => ¬TellsTruth 0x7f0000000000 r) = true := by
    decide +kernel
  obtain ⟨r, hr, hsmall⟩ := (Option.any_eq_true _ _).mp hsmall
  obtain ⟨r', hr', hlate⟩ := (Option.any_eq_true _ _).mp hlate
  exact ⟨⟨r, hr, of_decide_eq_true hsmall⟩, ⟨r', hr', of_decide_eq_true hlate⟩⟩

end Read

end MemoryOptimizer
