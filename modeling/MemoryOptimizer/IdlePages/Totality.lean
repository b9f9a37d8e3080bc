import MemoryOptimizer.IdlePages.Parse

/-!
# Which streams the decoder can take

`parse_idlepages` on any bytes at all, not only on those an encoder wrote.

* `Complete` — up to the first run at or above `end`, the bytes are runs of a page
  type and commands with all eight bytes of their address.
* `parseIdlepages_total_iff` — on these, and on no others, the decoder ends inside
  the bytes it was given and depends on nothing behind them.
-/

namespace MemoryOptimizer

/-- The decoder ends, at an index that is not behind the bytes it was given, and
what is behind them does not matter. -/
structure Total (readBuf : List ℕ) (va stop bytes : ℕ) : Prop where
  ends : ∃ fuel i r, parseLoop readBuf stop bytes fuel 0 va = some (i, r) ∧ i ≤ bytes
  ends_locally : ∀ readBuf', readBuf'.take bytes = readBuf.take bytes → ∀ fuel,
    parseLoop readBuf' stop bytes fuel 0 va = parseLoop readBuf stop bytes fuel 0 va

/-- Up to the first run at or above `stop`, the bytes are complete commands and runs
of a page type. -/
inductive Complete (stop : ℕ) : List ℕ → ℕ → Prop
  | done (va : ℕ) : Complete stop [] va
  | setHva {addr rest : List ℕ} (va : ℕ) (length_addr : addr.length = 8)
      (h : Complete stop rest (u8ToU64 addr)) : Complete stop (pipCmdSetHva :: (addr ++ rest)) va
  | past {a va : ℕ} {type : ProcIdlePageType} (rest : List ℕ) (run : a ≠ pipCmdSetHva)
      (htype : ProcIdlePageType.ofCode (pipType a) = some type) (hva : stop ≤ va) :
      Complete stop (a :: rest) va
  | run {a va : ℕ} {type : ProcIdlePageType} {rest : List ℕ} (run : a ≠ pipCmdSetHva)
      (htype : ProcIdlePageType.ofCode (pipType a) = some type) (hva : va < stop)
      (h : Complete stop rest (ulong (va + type.size * pipSize a))) : Complete stop (a :: rest) va

/-! ### What is left of the bytes -/

theorem u8ToU64_congr {a b : List ℕ} (h : ∀ j < 8, a.getD j 0 = b.getD j 0) :
    u8ToU64 a = u8ToU64 b := by
  simp only [u8ToU64]
  rw [h 0 (by decide), h 1 (by decide), h 2 (by decide), h 3 (by decide), h 4 (by decide),
    h 5 (by decide), h 6 (by decide), h 7 (by decide)]

section Left

variable {readBuf : List ℕ} {stop bytes i : ℕ}

/-- The bytes from an index on. -/
def bytesFrom (readBuf : List ℕ) (bytes i : ℕ) : List ℕ := (readBuf.take bytes).drop i

theorem getD_bytesFrom {j : ℕ} (h : i + j < bytes) :
    (bytesFrom readBuf bytes i).getD j 0 = readBuf.getD (i + j) 0 := by
  rw [bytesFrom, List.getD_eq_getElem?_getD, List.getElem?_drop, List.getElem?_take_of_lt h,
    List.getD_eq_getElem?_getD]

theorem length_bytesFrom (hbytes : bytes ≤ readBuf.length) :
    (bytesFrom readBuf bytes i).length = bytes - i := by
  rw [bytesFrom, List.length_drop, List.length_take, Nat.min_eq_left hbytes]

theorem bytesFrom_of_le (hi : bytes ≤ i) : bytesFrom readBuf bytes i = [] :=
  List.drop_eq_nil_of_le ((List.length_take_le _ _).trans hi)

/-- The byte at an index, and the bytes behind it. -/
theorem bytesFrom_eq_cons {a : ℕ} {rest : List ℕ} (h : bytesFrom readBuf bytes i = a :: rest) :
    i < bytes ∧ readBuf.getD i 0 = a ∧ bytesFrom readBuf bytes (i + 1) = rest := by
  have hi : i < bytes := by
    by_contra hge
    rw [bytesFrom_of_le (not_lt.mp hge)] at h
    cases h
  refine ⟨hi, ?_, ?_⟩
  · have hget : (bytesFrom readBuf bytes i).getD 0 0 = readBuf.getD (i + 0) 0 :=
      getD_bytesFrom hi
    rw [h] at hget
    exact hget.symm
  · rw [bytesFrom, ← List.drop_drop, ← bytesFrom, h, List.drop_one, List.tail_cons]

/-- A command is complete where eight bytes are left behind it. -/
theorem u8ToU64_bytesFrom (hi : i + 8 ≤ bytes) :
    u8ToU64 (readBuf.drop i) = u8ToU64 ((bytesFrom readBuf bytes i).take 8) := by
  refine u8ToU64_congr fun j hj => ?_
  have htake : ((bytesFrom readBuf bytes i).take 8).getD j 0 =
      (bytesFrom readBuf bytes i).getD j 0 := by
    rw [List.getD_eq_getElem?_getD, List.getElem?_take_of_lt hj, List.getD_eq_getElem?_getD]
  rw [htake, getD_bytesFrom (by omega), List.getD_eq_getElem?_getD, List.getElem?_drop,
    List.getD_eq_getElem?_getD]

end Left

/-! ### Complete streams -/

section Loop

variable {readBuf : List ℕ} {stop bytes i va : ℕ}

/-- A command with its address: the loop goes on behind it. -/
theorem bytesFrom_eq_setHva {addr rest : List ℕ} (hlen : addr.length = 8)
    (h : bytesFrom readBuf bytes i = pipCmdSetHva :: (addr ++ rest)) :
    i < bytes ∧ readBuf.getD i 0 = pipCmdSetHva ∧
      u8ToU64 (readBuf.drop (i + 1)) = u8ToU64 addr ∧
      bytesFrom readBuf bytes (i + 1 + 8) = rest ∧ i + 1 + 8 ≤ bytes := by
  obtain ⟨hi, ha, hrest⟩ := bytesFrom_eq_cons h
  have hle : i + 1 + 8 ≤ bytes := by
    have hlength := congrArg List.length hrest
    have htake := List.length_take_le bytes readBuf
    rw [bytesFrom, List.length_drop, List.length_append, hlen] at hlength
    omega
  refine ⟨hi, ha, ?_, ?_, hle⟩
  · rw [u8ToU64_bytesFrom hle, hrest, ← hlen, List.take_left]
  · rw [bytesFrom, ← List.drop_drop, ← bytesFrom, hrest, ← hlen, List.drop_left]

theorem not_lt_of_bytesFrom_eq_nil (hbytes : bytes ≤ readBuf.length)
    (h : bytesFrom readBuf bytes i = []) : ¬i < bytes := by
  have hlength := length_bytesFrom (i := i) hbytes
  rw [h, List.length_nil] at hlength
  omega

/-- On a complete stream the loop ends, and not behind it. -/
theorem Complete.ends {l : List ℕ} (h : Complete stop l va) (hbytes : bytes ≤ readBuf.length)
    (hl : bytesFrom readBuf bytes i = l) (hi : i ≤ bytes) {fuel : ℕ} (hfuel : l.length < fuel) :
    ∃ j r, parseLoop readBuf stop bytes fuel i va = some (j, r) ∧ j ≤ bytes := by
  obtain ⟨fuel, rfl⟩ := Nat.exists_eq_succ_of_ne_zero (Nat.ne_zero_of_lt hfuel)
  induction h generalizing i fuel with
  | done va =>
      rw [parseLoop, if_neg (not_lt_of_bytesFrom_eq_nil hbytes hl)]
      exact ⟨i, _, rfl, hi⟩
  | setHva va length_addr _ ih =>
      obtain ⟨hlt, ha, haddr, hrest, hle⟩ := bytesFrom_eq_setHva length_addr hl
      rw [List.length_cons, List.length_append] at hfuel
      obtain ⟨fuel, rfl⟩ := Nat.exists_eq_succ_of_ne_zero (by omega : fuel ≠ 0)
      rw [parseLoop, if_pos hlt]
      simp only [ha, if_true, haddr]
      exact ih hrest hle fuel (by omega)
  | past rest run htype hva =>
      obtain ⟨hlt, ha, -⟩ := bytesFrom_eq_cons hl
      rw [parseLoop, if_pos hlt]
      simp only [ha, if_neg run, htype, if_pos hva]
      exact ⟨i, _, rfl, hi⟩
  | run run htype hva _ ih =>
      obtain ⟨hlt, ha, hrest⟩ := bytesFrom_eq_cons hl
      rw [List.length_cons] at hfuel
      obtain ⟨fuel, rfl⟩ := Nat.exists_eq_succ_of_ne_zero (by omega : fuel ≠ 0)
      obtain ⟨j, r, hloop, hj⟩ := ih hrest hlt fuel (by omega)
      rw [parseLoop, if_pos hlt]
      simp only [ha, if_neg run, htype, if_neg (not_le.mpr hva), hloop]
      exact ⟨j, _, rfl, hj⟩

/-- On a complete stream the loop does not depend on the bytes behind it. -/
theorem Complete.ends_locally {l : List ℕ} (h : Complete stop l va) {readBuf' : List ℕ}
    (hbytes : bytes ≤ readBuf.length) (htake : readBuf'.take bytes = readBuf.take bytes)
    (hl : bytesFrom readBuf bytes i = l) (fuel : ℕ) :
    parseLoop readBuf' stop bytes fuel i va = parseLoop readBuf stop bytes fuel i va := by
  have hsame : ∀ i, bytesFrom readBuf' bytes i = bytesFrom readBuf bytes i := fun i =>
    congrArg (List.drop i) htake
  induction h generalizing i fuel with
  | done va =>
      have hge := not_lt_of_bytesFrom_eq_nil hbytes hl
      cases fuel with
      | zero => rfl
      | succ fuel => rw [parseLoop, parseLoop, if_neg hge, if_neg hge]
  | setHva va length_addr _ ih =>
      obtain ⟨hlt, ha, haddr, hrest, -⟩ := bytesFrom_eq_setHva length_addr hl
      obtain ⟨-, ha', haddr', -, -⟩ := bytesFrom_eq_setHva length_addr ((hsame i).trans hl)
      cases fuel with
      | zero => rfl
      | succ fuel =>
          rw [parseLoop, parseLoop, if_pos hlt, if_pos hlt]
          simp only [ha, ha', if_true, haddr, haddr']
          exact ih hrest fuel
  | past rest run htype hva =>
      obtain ⟨hlt, ha, -⟩ := bytesFrom_eq_cons hl
      obtain ⟨-, ha', -⟩ := bytesFrom_eq_cons ((hsame i).trans hl)
      cases fuel with
      | zero => rfl
      | succ fuel =>
          rw [parseLoop, parseLoop, if_pos hlt, if_pos hlt]
          simp only [ha, ha', if_neg run, htype, if_pos hva]
  | run run htype hva _ ih =>
      obtain ⟨hlt, ha, hrest⟩ := bytesFrom_eq_cons hl
      obtain ⟨-, ha', -⟩ := bytesFrom_eq_cons ((hsame i).trans hl)
      cases fuel with
      | zero => rfl
      | succ fuel =>
          rw [parseLoop, parseLoop, if_pos hlt, if_pos hlt]
          simp only [ha, ha', if_neg run, htype, if_neg (not_le.mpr hva), ih hrest fuel]

/-- A stream on which the loop ends, and not behind it, is complete. -/
theorem complete_of_ends (hbytes : bytes ≤ readBuf.length) {fuel j : ℕ} {r : ℕ × List RefCall}
    (h : parseLoop readBuf stop bytes fuel i va = some (j, r)) (hj : j ≤ bytes) :
    Complete stop (bytesFrom readBuf bytes i) va := by
  induction fuel generalizing i va r with
  | zero => cases h
  | succ fuel ih =>
      rw [parseLoop] at h
      dsimp only at h
      by_cases hlt : i < bytes
      · rw [if_pos hlt] at h
        have hcons : bytesFrom readBuf bytes i =
            readBuf.getD i 0 :: bytesFrom readBuf bytes (i + 1) := by
          cases hl : bytesFrom readBuf bytes i with
          | nil => exact absurd hlt (not_lt_of_bytesFrom_eq_nil hbytes hl)
          | cons a rest =>
              obtain ⟨-, rfl, rfl⟩ := bytesFrom_eq_cons hl
              rfl
        rw [hcons]
        by_cases hcmd : readBuf.getD i 0 = pipCmdSetHva
        · rw [if_pos hcmd] at h
          -- a truncated command ends the loop behind the bytes
          have hle : i + 1 + 8 ≤ bytes := by
            by_contra hgt
            cases fuel with
            | zero => cases h
            | succ fuel =>
                rw [parseLoop, if_neg (by omega)] at h
                cases h
                omega
          have hrest := ih h
          rw [u8ToU64_bytesFrom hle] at hrest
          have hlength : ((bytesFrom readBuf bytes (i + 1)).take 8).length = 8 := by
            rw [List.length_take, length_bytesFrom hbytes]
            omega
          have hdrop : bytesFrom readBuf bytes (i + 1 + 8) =
              (bytesFrom readBuf bytes (i + 1)).drop 8 := by
            rw [bytesFrom, ← List.drop_drop, ← bytesFrom]
          have hcomplete := Complete.setHva va hlength hrest
          rw [hdrop, List.take_append_drop] at hcomplete
          rw [hcmd]
          exact hcomplete
        · rw [if_neg hcmd] at h
          cases htype : ProcIdlePageType.ofCode (pipType (readBuf.getD i 0)) with
          | none =>
              simp only [htype] at h
              have hsame := ih h
              rw [hcons] at hsame
              exact hsame
          | some type =>
              simp only [htype] at h
              by_cases hva : va ≥ stop
              · exact .past _ hcmd htype hva
              · rw [if_neg hva] at h
                obtain ⟨⟨j', r'⟩, hloop, heq⟩ := Option.map_eq_some_iff.mp h
                cases heq
                exact .run hcmd htype (not_le.mp hva) (ih hloop)
      · rw [bytesFrom_of_le (not_lt.mp hlt)]
        exact .done va

end Loop

theorem Total.complete {readBuf : List ℕ} {va stop bytes : ℕ} (hbytes : bytes ≤ readBuf.length)
    (h : Total readBuf va stop bytes) : Complete stop (readBuf.take bytes) va := by
  obtain ⟨fuel, i, r, hloop, hi⟩ := h.ends
  exact complete_of_ends (i := 0) hbytes hloop hi

/-- The decoder, on every buffer: it ends inside the bytes that it was given, whatever
is behind them, if and only if these are a complete stream. -/
theorem parseIdlepages_total_iff (readBuf : List ℕ) (va stop bytes : ℕ)
    (hbytes : bytes ≤ readBuf.length) :
    Total readBuf va stop bytes ↔ Complete stop (readBuf.take bytes) va := by
  refine ⟨fun h => h.complete hbytes, fun h => ?_⟩
  have hlength : (readBuf.take bytes).length < bytes + 1 :=
    Nat.lt_succ_of_le (List.length_take_le _ _)
  obtain ⟨j, r, hloop, hj⟩ := h.ends (i := 0) hbytes rfl (Nat.zero_le _) hlength
  exact ⟨⟨bytes + 1, j, r, hloop, hj⟩, fun readBuf' htake fuel =>
    h.ends_locally (i := 0) hbytes htake rfl fuel⟩

theorem parseIdlepages_total_twoRuns :
    Total [0x02, 0x51, 0xb1] 0 (2 ^ 47) 2 ↔ Complete (2 ^ 47) ([0x02, 0x51, 0xb1].take 2) 0 :=
  parseIdlepages_total_iff [0x02, 0x51, 0xb1] 0 (2 ^ 47) 2 (by decide)

/-- A byte of no page type. -/
theorem not_complete_of_none {stop a va : ℕ} {rest : List ℕ} (hcmd : a ≠ pipCmdSetHva)
    (htype : ProcIdlePageType.ofCode (pipType a) = none) : ¬Complete stop (a :: rest) va := by
  intro h
  generalize hl : a :: rest = l at h
  cases h with
  | done => cases hl
  | setHva _ _ _ => exact hcmd (List.cons.inj hl).1
  | past _ _ htype' _ | run _ htype' _ _ =>
      obtain ⟨rfl, -⟩ := List.cons.inj hl
      rw [htype] at htype'
      cases htype'

/-- A command whose address is cut off. -/
theorem not_complete_of_truncated {stop va : ℕ} {rest : List ℕ} (hlen : rest.length < 8) :
    ¬Complete stop (pipCmdSetHva :: rest) va := by
  intro h
  generalize hl : pipCmdSetHva :: rest = l at h
  cases h with
  | done => cases hl
  | setHva _ length_addr _ =>
      obtain ⟨-, rfl⟩ := List.cons.inj hl
      rw [List.length_append] at hlen
      omega
  | past _ hcmd _ _ | run hcmd _ _ _ => exact hcmd (List.cons.inj hl).1.symm

/-- The decoder does not get past a byte of no page type; and it takes the address of
a command from behind the bytes that it was given. -/
theorem parseIdlepages_not_total :
    ¬Total [0xb1] 0 (2 ^ 47) 1 ∧ ¬Total [0xa0, 0, 0, 0, 0, 0, 0, 0, 0] 0 (2 ^ 47) 1 := by
  refine ⟨fun h => ?_, fun h => ?_⟩
  · exact not_complete_of_none (by decide) rfl (h.complete (by decide))
  · have hlen : ([] : List ℕ).length < 8 := by decide
    exact not_complete_of_truncated hlen (h.complete (by decide))

end MemoryOptimizer
