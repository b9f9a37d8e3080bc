import MemoryOptimizer.Kernel.SlotWalk

/-!
# The read loop

`ept_idle_copy_user` and the loop of `ept_idle_walk_hva_range`.

* `eptIdleCopyUser_spec` — the chunk that is copied is what the walk reported, with
  a command behind a hole at the end.
* `walkHva_step` — an iteration moves `next_hva` forward by the chunk, and delivers
  it unless `copy_to_user` fails.
* `walkHvaLoop_isSome` — the loop ends: every iteration that goes on has copied at
  least one byte more.
-/

namespace MemoryOptimizer

/-! ### The copy to the user -/

section Copy

variable {eic : EptIdleCtrl} {va start vaEnd : ℕ} {tokens : List PipToken}

/-- The command for a hole at the end is one more token. -/
theorem reportTailHole_tokens (streams : Streams eic va tokens) (hstart : start < 2 ^ 64)
    (stop : ℕ) :
    ∃ chunk, (reportTailHole eic start stop).kpie = pipBytes chunk ∧
      (∀ token ∈ chunk, token.Valid) ∧ reported va chunk = reported va tokens ∧
      (chunk ≠ [] → cursorAfter va chunk = (reportTailHole eic start stop).nextHva) ∧
      (tokens ≠ [] → chunk ≠ []) ∧
      (start ≥ stop ∧ start > eic.nextHva →
        chunk ≠ [] ∧ (reportTailHole eic start stop).nextHva = start) ∧
      (¬(start ≥ stop ∧ start > eic.nextHva) →
        (reportTailHole eic start stop).nextHva = eic.nextHva) := by
  unfold reportTailHole
  split
  · rename_i htail
    refine ⟨tokens ++ [.setHva start], ?_, ?_, ?_, fun _ => ?_, fun _ => by simp,
      fun _ => ⟨by simp, rfl⟩, fun h => absurd htail h⟩
    · rw [eicReportAddr_kpie, EptIdleCtrl.setNextHva_kpie, streams.kpie_eq, pipBytes_append]
      simp [PipToken.bytes]
    · intro token htoken
      rcases List.mem_append.mp htoken with h | h
      · exact streams.valid token h
      · rw [List.mem_singleton.mp h]
        exact hstart
    · rw [reported_append]
      simp [reported]
    · rw [cursorAfter_append]
      rfl
  · rename_i htail
    exact ⟨tokens, streams.kpie_eq, streams.valid, rfl, streams.cursor, id,
      fun h => absurd h htail, fun _ => rfl⟩

theorem reportTailHole_same (eic : EptIdleCtrl) (start stop : ℕ) :
    (reportTailHole eic start stop).buf = eic.buf ∧
      (reportTailHole eic start stop).bufSize = eic.bufSize ∧
      (reportTailHole eic start stop).flags = eic.flags := by
  unfold reportTailHole
  split <;> exact ⟨rfl, rfl, rfl⟩

/-- What `ept_idle_copy_user` does with what a walk has left: it copies a chunk,
and goes on only where the walk had something to report. -/
structure CopyUser (copyFails : ℕ → Bool) (old : EptIdleCtrl) (va start vaEnd : ℕ)
    (tokens chunk : List PipToken) (r : EptIdleCtrl × ℤ) : Prop where
  ne_nil : chunk ≠ []
  valid : ∀ token ∈ chunk, token.Valid
  reported_eq : reported va chunk = reported va tokens
  cursor : cursorAfter va chunk = r.1.nextHva
  le_cursor : old.nextHva ≤ r.1.nextHva
  cursor_of_nil : tokens = [] → r.1.nextHva = max start vaEnd
  cursor_le : tokens ≠ [] → old.nextHva ≤ start → r.1.nextHva ≤ start
  flags : r.1.flags = old.flags
  bufSize : r.1.bufSize = old.bufSize
  failed : copyFails old.bytesCopied = true → r.2 = -efault ∧ r.1.buf = old.buf
  delivered : copyFails old.bytesCopied = false → r.1.buf = old.buf ++ pipBytes chunk ∧ 0 ≤ r.2
  next : copyFails old.bytesCopied = false → r.2 = 0 → tokens ≠ [] ∧
    (r.1.bytesCopied : ℤ) < r.1.bufSize ∧ r.1.kpie = [] ∧ 8 + 2 < ulongOfSigned r.1.pieReadMax

theorem eptIdleCopyUser_spec (copyFails : ℕ → Bool) (streams : Streams eic va tokens)
    (hstart : start < 2 ^ 64) (hend : vaEnd < 2 ^ 64)
    (hnil : tokens = [] → eic.nextHva < max start vaEnd) :
    ∃ chunk, CopyUser copyFails eic va start vaEnd tokens chunk
      (eptIdleCopyUser copyFails eic start vaEnd) := by
  unfold eptIdleCopyUser
  dsimp only
  have hlc : decide (eic.pieRead = 0) = decide (tokens = []) :=
    decide_eq_decide.mpr streams.pieRead_eq_zero
  rw [hlc]
  -- the position that the copy ends at: `va_end` at least, where nothing was reported
  obtain ⟨start', hstart'⟩ : ∃ x,
      (if decide (tokens = []) = true ∧ start < vaEnd then vaEnd else start) = x := ⟨_, rfl⟩
  have hlt : start' < 2 ^ 64 := by
    rw [← hstart']
    split <;> assumption
  have hreport : tokens = [] → start' ≥ vaEnd ∧ start' > eic.nextHva := by
    intro h
    have := hnil h
    rw [← hstart']
    simp only [h, decide_true, true_and]
    split <;> omega
  have hsame : tokens ≠ [] → start' = start := by
    intro h
    rw [← hstart']
    simp [h]
  rw [hstart']
  obtain ⟨chunk, hkpie, hvalid, hreported, hcursor, hkeeps, htail, hnotail⟩ :=
    reportTailHole_tokens streams hlt vaEnd
  obtain ⟨hbuf, hsize, hflags⟩ := reportTailHole_same eic start' vaEnd
  generalize reportTailHole eic start' vaEnd = eic' at *
  have hne : chunk ≠ [] := by
    by_cases h : tokens = []
    · exact (htail (hreport h)).1
    · exact hkeeps h
  have hread : eic'.pieRead ≠ 0 := by
    rw [EptIdleCtrl.pieRead, hkpie]
    simpa [pipBytes_eq_nil] using hne
  have hcopied : eic'.bytesCopied = eic.bytesCopied := by
    rw [EptIdleCtrl.bytesCopied, hbuf]
    rfl
  have hle : eic.nextHva ≤ eic'.nextHva := by
    by_cases h : start' ≥ vaEnd ∧ start' > eic.nextHva
    · exact h.2.le.trans_eq (htail h).2.symm
    · exact (hnotail h).ge
  have hend : tokens = [] → eic'.nextHva = max start vaEnd := by
    intro h
    rw [(htail (hreport h)).2, ← hstart']
    simp only [h, decide_true, true_and]
    split <;> omega
  have hbound : tokens ≠ [] → eic.nextHva ≤ start → eic'.nextHva ≤ start := by
    intro h hstart
    by_cases ht : start' ≥ vaEnd ∧ start' > eic.nextHva
    · exact ((htail ht).2.trans (hsame h)).le
    · exact (hnotail ht).trans_le hstart
  have hdelivered : eic'.copyToUser.buf = eic.buf ++ pipBytes chunk := by
    rw [EptIdleCtrl.copyToUser_buf, hbuf, hkpie]
  -- what is the same however the copy ends
  have hcommon : ∀ r : EptIdleCtrl × ℤ, r.1.nextHva = eic'.nextHva → r.1.flags = eic'.flags →
      r.1.bufSize = eic'.bufSize →
      (copyFails eic.bytesCopied = true → r.2 = -efault ∧ r.1.buf = eic.buf) →
      (copyFails eic.bytesCopied = false → r.1.buf = eic.buf ++ pipBytes chunk ∧ 0 ≤ r.2) →
      (copyFails eic.bytesCopied = false → r.2 = 0 → tokens ≠ [] ∧
        (r.1.bytesCopied : ℤ) < r.1.bufSize ∧ r.1.kpie = [] ∧
        8 + 2 < ulongOfSigned r.1.pieReadMax) →
      CopyUser copyFails eic va start vaEnd tokens chunk r := by
    intro r hnext hf hb hfailed hdone hgo
    exact ⟨hne, hvalid, hreported, (hcursor hne).trans hnext.symm, hle.trans_eq hnext.symm,
      fun h => hnext.trans (hend h), fun h h' => hnext.trans_le (hbound h h'), hf.trans hflags,
      hb.trans hsize, hfailed, hdone, hgo⟩
  rw [if_neg hread, hcopied]
  refine ⟨chunk, ?_⟩
  split
  · rename_i hfails
    exact hcommon _ rfl rfl rfl (fun _ => ⟨rfl, hbuf⟩)
      (fun h => Bool.noConfusion (hfails.symm.trans h))
      fun h => Bool.noConfusion (hfails.symm.trans h)
  · rename_i hfails
    split
    · exact hcommon _ rfl rfl rfl (fun h => absurd h hfails)
        (fun _ => ⟨hdelivered, Int.natCast_nonneg eptIdleBufFull⟩) fun _ h => absurd h two_ne_zero
    · rename_i hroom
      split
      · exact hcommon _ rfl rfl rfl (fun h => absurd h hfails)
          (fun _ => ⟨hdelivered, Int.one_nonneg⟩) fun _ h => absurd h one_ne_zero
      · rename_i hlast
        refine hcommon _ rfl rfl rfl (fun h => absurd h hfails)
          (fun _ => ⟨hdelivered, Int.natCast_nonneg _⟩) fun _ h => ?_
        refine ⟨by simpa using hlast, not_le.mp hroom, rfl, ?_⟩
        have hinit : (initEptIdleCtrlBuffer eic'.copyToUser).2 = 0 := Int.natCast_eq_zero.mp h
        unfold initEptIdleCtrlBuffer at hinit ⊢
        dsimp only at hinit ⊢
        by_contra hsmall
        rw [if_pos (not_lt.mp hsmall)] at hinit
        exact one_ne_zero hinit

end Copy

/-! ### An iteration -/

/-- What an iteration does after `tokens` have been delivered: `next_hva` moves past
the position by the chunk, and the chunk is delivered unless its copy fails.  The
walk of the iteration has left `reports`, up to `vaEnd`. -/
structure Iteration (kvm : Kvm) (pgdirShift ppos vaEnd : ℕ) (w : HvaWalk)
    (tokens reports chunk : List PipToken) (r : HvaWalk × ℤ) : Prop where
  ne_nil : chunk ≠ []
  valid : ∀ token ∈ chunk, token.Valid
  cursor : cursorAfter ppos (tokens ++ chunk) = r.1.scan.eic.nextHva
  lt_cursor : w.start < r.1.scan.eic.nextHva
  cursor_le : reports ≠ [] → r.1.scan.eic.nextHva ≤ r.1.start
  cursor_of_nil : reports = [] → r.1.scan.eic.nextHva = max r.1.start vaEnd
  reported_eq :
    reported (cursorAfter ppos tokens) chunk = reported (cursorAfter ppos tokens) reports
  bufSize : r.1.scan.eic.bufSize = w.scan.eic.bufSize
  flags : r.1.scan.eic.flags = w.scan.eic.flags
  failed : kvm.copyFails w.scan.eic.bytesCopied = true →
    r.2 = -efault ∧ r.1.scan.eic.buf = pipBytes tokens
  delivered : kvm.copyFails w.scan.eic.bytesCopied = false →
    r.1.scan.eic.buf = pipBytes (tokens ++ chunk) ∧ 0 ≤ r.2
  next : kvm.copyFails w.scan.eic.bytesCopied = false → r.2 = 0 →
    Reading pgdirShift ppos (tokens ++ chunk) r.1 ∧
      (r.1.scan.eic.bytesCopied : ℤ) < r.1.scan.eic.bufSize

section Step

variable {kvm : Kvm} {stop pgdirShift ppos : ℕ} {tokens : List PipToken} {w : HvaWalk}

theorem walkSlot_vaEnd_lt (kvm : Kvm) (w : HvaWalk) (hstop : stop < 2 ^ 64) :
    (walkSlot kvm stop w).2 < 2 ^ 64 := by
  unfold walkSlot walkSlotBy
  split
  · dsimp only
    split
    · exact hstop
    · exact ulong_lt _
  · exact ulong_lt _

theorem walkHva_start (kvm : Kvm) (stop : ℕ) (w : HvaWalk) :
    (walkHva kvm stop w).1.start = (walkSlot kvm stop w).1.eic.restartHva := rfl

theorem walkHva_ept (kvm : Kvm) (stop : ℕ) (w : HvaWalk) :
    (walkHva kvm stop w).1.scan.ept = (walkSlot kvm stop w).1.ept := rfl

/-- The iteration, from what its walk has left. -/
theorem Walked.iteration {reports : List PipToken}
    (walked : Walked w.scan.eic (cursorAfter ppos tokens) w.start (walkSlot kvm stop w).2 reports
      (walkSlot kvm stop w).1.eic)
    (hpgdir : (walkSlot kvm stop w).1.ept.pgdirShift = pgdirShift)
    (hw : Reading pgdirShift ppos tokens w) (hstop : stop < 2 ^ 64) :
    ∃ chunk, Iteration kvm pgdirShift ppos (walkSlot kvm stop w).2 w tokens reports chunk
      (walkHva kvm stop w) := by
  have hend := walkSlot_vaEnd_lt kvm w hstop
  unfold walkHva
  generalize walkSlot kvm stop w = r at *
  obtain ⟨s, vaEnd⟩ := r
  dsimp only at *
  obtain ⟨chunk, copied⟩ := eptIdleCopyUser_spec kvm.copyFails walked.streams
    (show s.eic.restartHva < 2 ^ 64 from ulong_lt _) hend
    fun h => ((walked.of_nil h).1.trans_le hw.nextHva_le).trans_lt (walked.of_nil h).2
  show ∃ chunk, Iteration kvm pgdirShift ppos vaEnd w tokens reports chunk
    (⟨s.eic.restartHva, ⟨s.ept, (eptIdleCopyUser kvm.copyFails s.eic s.eic.restartHva vaEnd).1⟩⟩,
      (eptIdleCopyUser kvm.copyFails s.eic s.eic.restartHva vaEnd).2)
  generalize eptIdleCopyUser kvm.copyFails s.eic s.eic.restartHva vaEnd = r at copied ⊢
  have hbytes : s.eic.bytesCopied = w.scan.eic.bytesCopied := by
    rw [EptIdleCtrl.bytesCopied, walked.buf]
    rfl
  have hcursor : cursorAfter ppos (tokens ++ chunk) = r.1.nextHva := by
    rw [cursorAfter_append, copied.cursor]
  have hvalid : ∀ token ∈ tokens ++ chunk, token.Valid := by
    intro token htoken
    rcases List.mem_append.mp htoken with h | h
    · exact hw.valid token h
    · exact copied.valid token h
  have hbuf : s.eic.buf = pipBytes tokens := walked.buf.trans hw.buf_eq
  have hle : reports ≠ [] → r.1.nextHva ≤ s.eic.restartHva := fun h =>
    copied.cursor_le h (walked.of_ne_nil h).2.1
  have hdone : kvm.copyFails s.eic.bytesCopied = false →
      r.1.buf = pipBytes (tokens ++ chunk) ∧ 0 ≤ r.2 := by
    intro h
    obtain ⟨h1, h2⟩ := copied.delivered h
    exact ⟨by rw [h1, hbuf, pipBytes_append], h2⟩
  refine ⟨chunk, copied.ne_nil, copied.valid, hcursor, ?_, hle, copied.cursor_of_nil,
    copied.reported_eq, copied.bufSize.trans walked.bufSize, copied.flags.trans walked.flags, ?_,
    ?_, ?_⟩
  · dsimp only
    by_cases h : reports = []
    · exact (walked.of_nil h).2.trans_eq (copied.cursor_of_nil h).symm
    · exact (walked.of_ne_nil h).1.trans_le copied.le_cursor
  · rw [← hbytes]
    exact fun h => ⟨(copied.failed h).1, (copied.failed h).2.trans hbuf⟩
  · rw [← hbytes]
    exact hdone
  · rw [← hbytes]
    intro h hret
    obtain ⟨hne, hroom, hempty, hmax⟩ := copied.next h hret
    exact ⟨⟨hpgdir, hempty, hmax, (walked.of_ne_nil hne).2.2, hle hne, (hdone h).1, hvalid,
      fun _ => hcursor⟩, hroom⟩

theorem walkHva_step (hkvm : kvm.Ok) (hshift : 39 ≤ pgdirShift ∧ pgdirShift < 64)
    (hw : Reading pgdirShift ppos tokens w) (hlt : w.start < stop) (hstop : stop < 2 ^ 64) :
    ∃ reports chunk, Iteration kvm pgdirShift ppos (walkSlot kvm stop w).2 w tokens reports chunk
      (walkHva kvm stop w) := by
  obtain ⟨hpgdir, reports, walked⟩ :=
    walkSlot_walked (cursorAfter ppos tokens) hkvm hshift hw hlt
  exact ⟨reports, walked.iteration hpgdir hw hstop⟩

/-- Every iteration that goes on has copied at least one byte more, and the buffer
of the user is not full yet. -/
theorem walkHvaLoop_isSome (hkvm : kvm.Ok) (hshift : 39 ≤ pgdirShift ∧ pgdirShift < 64)
    (hstop : stop < 2 ^ 64) {n : ℕ} (hn : 0 < n) (hw : Reading pgdirShift ppos tokens w)
    (hfuel : w.scan.eic.bufSize ≤ w.scan.eic.bytesCopied + n) :
    ∃ ret, (walkHvaLoop kvm stop n w).2 = some ret := by
  unfold walkHvaLoop
  refine loopUntilRet_isSome (I := fun w => ∃ tokens, Reading pgdirShift ppos tokens w)
    (fun w => (w.scan.eic.bufSize - w.scan.eic.bytesCopied).toNat - 1) ⟨tokens, hw⟩
    (fun w ⟨tokens, hw⟩ hlt hret => ?_) (by omega)
  obtain ⟨_, chunk, step⟩ := walkHva_step hkvm hshift hw hlt hstop
  have hfails : kvm.copyFails w.scan.eic.bytesCopied = false := by
    by_contra h
    have := (step.failed (by simpa using h)).1
    rw [hret] at this
    exact absurd this (by decide)
  obtain ⟨hnext, hroom⟩ := step.next hfails hret
  refine ⟨⟨_, hnext⟩, ?_⟩
  have hbytes : w.scan.eic.bytesCopied < (walkHva kvm stop w).1.scan.eic.bytesCopied := by
    have hpos : 0 < (pipBytes chunk).length :=
      List.length_pos_iff.mpr (mt pipBytes_eq_nil.mp step.ne_nil)
    simp only [EptIdleCtrl.bytesCopied, hw.buf_eq, (step.delivered hfails).1,
      pipBytes_append, List.length_append]
    omega
  have hsize := step.bufSize
  omega

end Step

end MemoryOptimizer
