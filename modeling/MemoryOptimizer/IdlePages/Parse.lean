import MemoryOptimizer.IdlePages.Format

/-!
# The decoder

`ProcIdlePages::parse_idlepages`: a cursor `va` moves through the stream, and
every run of pages that are present is handed to `inc_page_refs`.  The decoder
stops at the first run at or above `end`; a byte of no page type makes it loop
for ever, which is `none` here.

On the bytes of a list of tokens it does what `scan` says the tokens mean
(`parseIdlepages_pipBytes`).
-/

namespace MemoryOptimizer

/-- The arguments of a call of `inc_page_refs`; its last one is the `end` of the
decoder. -/
structure RefCall where
  type : ProcIdlePageType
  nr : ℕ
  va : ℕ
  deriving DecidableEq, Repr

/-- The pages a call of `inc_page_refs` is about. -/
def RefCall.pages (call : RefCall) : List (ProcIdlePageType × ℕ) :=
  (List.range call.nr).map fun i => (call.type, ulong (call.va + i * call.type.size))

/-- The call for a run: none for a hole, single pages for `PMD_IDLE_PTES`. -/
def refCalls (type : ProcIdlePageType) (nr va : ℕ) : List RefCall :=
  if type.code ≤ ProcIdlePageType.pmdIdlePtes.code then
    if type = .pmdIdlePtes then [⟨.pteIdle, nr * 512, va⟩] else [⟨type, nr, va⟩]
  else []

/-- The loop of `parse_idlepages` from index `i` on: the index and the cursor at the
end, and the calls of `inc_page_refs`. -/
def parseLoop (readBuf : List ℕ) (stop bytes : ℕ) :
    ℕ → ℕ → ℕ → Option (ℕ × ℕ × List RefCall)
  | 0, _, _ => none
  | fuel + 1, i, va =>
      if i < bytes then
        let a := readBuf.getD i 0
        if a = pipCmdSetHva then
          parseLoop readBuf stop bytes fuel (i + 1 + 8) (u8ToU64 (readBuf.drop (i + 1)))
        else
          match ProcIdlePageType.ofCode (pipType a) with
          | none => parseLoop readBuf stop bytes fuel i va
          | some type =>
              if va ≥ stop then some (i, va, [])
              else
                let nr := pipSize a
                (parseLoop readBuf stop bytes fuel (i + 1) (ulong (va + type.size * nr))).map
                  fun r => (r.1, r.2.1, refCalls type nr va ++ r.2.2)
      else some (i, va, [])

/-- `parse_idlepages`. -/
def parseIdlepages (readBuf : List ℕ) (va stop bytes : ℕ) : Option (ℕ × List RefCall) :=
  (parseLoop readBuf stop bytes (bytes + 1) 0 va).map Prod.snd

/-- What a list of tokens means to the decoder. -/
def scan (stop : ℕ) : ℕ → List PipToken → ℕ × List RefCall
  | va, [] => (va, [])
  | _, .setHva hva :: tokens => scan stop hva tokens
  | va, .item type nr :: tokens =>
      if va ≥ stop then (va, [])
      else
        let r := scan stop (ulong (va + type.size * nr)) tokens
        (r.1, refCalls type nr va ++ r.2)

theorem parseLoop_pipBytes (stop : ℕ) {fuel : ℕ} {tokens : List PipToken}
    (hvalid : ∀ token ∈ tokens, token.Valid) (before rest : List ℕ) (va : ℕ)
    (hfuel : tokens.length < fuel) :
    ∃ i, parseLoop (before ++ pipBytes tokens ++ rest) stop
      (before.length + (pipBytes tokens).length) fuel before.length va =
        some (i, scan stop va tokens) := by
  induction tokens generalizing before va fuel with
  | nil =>
      obtain ⟨fuel, rfl⟩ := Nat.exists_eq_succ_of_ne_zero (Nat.ne_zero_of_lt hfuel)
      simp [parseLoop, scan]
  | cons token tokens ih =>
      obtain ⟨fuel, rfl⟩ := Nat.exists_eq_succ_of_ne_zero (Nat.ne_zero_of_lt hfuel)
      obtain ⟨htoken, hvalid⟩ := List.forall_mem_cons.mp hvalid
      have hin : before.length < before.length + (pipBytes (token :: tokens)).length := by
        have := token.length_bytes_pos
        rw [pipBytes_cons, List.length_append]
        omega
      -- the rest of the stream, read behind this token
      have hstep := fun va => ih hvalid (before ++ token.bytes) va (Nat.lt_of_succ_lt_succ hfuel)
      rw [List.length_append, Nat.add_assoc, ← List.length_append, ← pipBytes_cons,
        List.append_assoc before, ← pipBytes_cons] at hstep
      rw [parseLoop, if_pos hin]
      cases token with
      | setHva hva =>
          have hget : (before ++ pipBytes (.setHva hva :: tokens) ++ rest).getD before.length 0 =
              pipCmdSetHva := by
            simp [PipToken.bytes]
          have haddr : u8ToU64 ((before ++ pipBytes (.setHva hva :: tokens) ++ rest).drop
              (before.length + 1)) = hva := by
            rw [List.append_assoc, ← List.drop_drop, List.drop_left]
            exact u8ToU64_u64ToU8 htoken _
          simp only [hget, haddr, if_true]
          exact hstep hva
      | item type nr =>
          obtain ⟨htype, -, hnr⟩ := htoken
          have hget : (before ++ pipBytes (.item type nr :: tokens) ++ rest).getD before.length 0 =
              pipCompose type.code nr := by
            simp [PipToken.bytes]
          simp only [hget, if_neg (PipToken.pipCompose_ne_setHva htype hnr),
            pipType_pipCompose type.code_lt hnr, pipSize_pipCompose hnr,
            ProcIdlePageType.ofCode_code, scan]
          split
          · exact ⟨_, rfl⟩
          · obtain ⟨i, hloop⟩ := hstep (ulong (va + type.size * nr))
            rw [show before.length + 1 =
                before.length + (PipToken.item type nr).bytes.length from rfl,
              hloop]
            exact ⟨i, rfl⟩

/-- The decoder does what the tokens mean, whatever follows them in the buffer. -/
theorem parseIdlepages_pipBytes {stop : ℕ} {tokens : List PipToken}
    (hvalid : ∀ token ∈ tokens, token.Valid) (rest : List ℕ) (va : ℕ) :
    parseIdlepages (pipBytes tokens ++ rest) va stop (pipBytes tokens).length =
      some (scan stop va tokens) := by
  have hlength : tokens.length ≤ (pipBytes tokens).length := by
    induction tokens with
    | nil => exact le_rfl
    | cons token tokens ih =>
        have := ih fun t ht => hvalid t (List.mem_cons_of_mem _ ht)
        have := token.length_bytes_pos
        rw [pipBytes_cons, List.length_append, List.length_cons]
        omega
  obtain ⟨i, hloop⟩ := parseLoop_pipBytes stop hvalid [] rest va (Nat.lt_succ_of_le hlength)
  rw [List.nil_append, List.length_nil, Nat.zero_add] at hloop
  rw [parseIdlepages, hloop]
  rfl

/-! ### Streams that stay below the end -/

/-- The cursor behind a list of tokens. -/
def cursorAfter : ℕ → List PipToken → ℕ
  | va, [] => va
  | _, .setHva hva :: tokens => cursorAfter hva tokens
  | va, .item type nr :: tokens => cursorAfter (ulong (va + type.size * nr)) tokens

/-- The pages that a list of tokens reports. -/
def reported : ℕ → List PipToken → List (ProcIdlePageType × ℕ)
  | _, [] => []
  | _, .setHva hva :: tokens => reported hva tokens
  | va, .item type nr :: tokens =>
      (refCalls type nr va).flatMap RefCall.pages ++
        reported (ulong (va + type.size * nr)) tokens

/-- Every run starts below `stop`. -/
def Below (stop : ℕ) : ℕ → List PipToken → Prop
  | _, [] => True
  | _, .setHva hva :: tokens => Below stop hva tokens
  | va, .item type nr :: tokens => va < stop ∧ Below stop (ulong (va + type.size * nr)) tokens

theorem scan_of_below {stop va : ℕ} {tokens : List PipToken} (below : Below stop va tokens) :
    (scan stop va tokens).1 = cursorAfter va tokens ∧
      (scan stop va tokens).2.flatMap RefCall.pages = reported va tokens := by
  induction tokens generalizing va with
  | nil => exact ⟨rfl, rfl⟩
  | cons token tokens ih =>
      cases token with
      | setHva hva => exact ih below
      | item type nr =>
          obtain ⟨hva, below⟩ := below
          obtain ⟨hcursor, hpages⟩ := ih below
          rw [scan, if_neg (not_le.mpr hva), List.flatMap_append, hpages]
          exact ⟨hcursor, rfl⟩

section Append

variable (stop va : ℕ) (tokens tokens' : List PipToken)

theorem cursorAfter_append :
    cursorAfter va (tokens ++ tokens') = cursorAfter (cursorAfter va tokens) tokens' := by
  induction tokens generalizing va with
  | nil => rfl
  | cons token tokens ih => cases token <;> exact ih _

theorem reported_append :
    reported va (tokens ++ tokens') =
      reported va tokens ++ reported (cursorAfter va tokens) tokens' := by
  induction tokens generalizing va with
  | nil => rfl
  | cons token tokens ih =>
      cases token with
      | setHva hva => exact ih _
      | item type nr =>
          rw [List.cons_append, reported, ih, ← List.append_assoc]
          rfl

theorem below_append :
    Below stop va (tokens ++ tokens') ↔
      Below stop va tokens ∧ Below stop (cursorAfter va tokens) tokens' := by
  induction tokens generalizing va with
  | nil => exact (iff_of_eq (true_and _)).symm
  | cons token tokens ih =>
      cases token with
      | setHva hva => exact ih _
      | item type nr =>
          rw [List.cons_append, Below, ih, Below, and_assoc]
          rfl

end Append

end MemoryOptimizer
