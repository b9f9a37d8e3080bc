import Mathlib.Algebra.Order.Group.Nat
import Mathlib.Data.List.Basic
import Mathlib.Logic.Function.Basic

/-!
# Counting the references of `page-refs`

After each scan `account_refs` goes through the words of the idle bitmap, counts every page
whose idle bit is clear, and counts a 2M block once, at its first such page: a flag says
whether the block of the next page still has to be counted, and the flag is set again at the
end of a word when the next word is in a later block than the one counted last.

* `Inv` — the counts, the flag and the block counted last, at a position of the scan.
* `accountRefs_spec` — one scan.
* `accountRefs_counts` — all scans.
-/

namespace MemoryOptimizer

namespace PageRefs

/-! ### `account_refs` -/

/-- `g_idlebuf`, with the words of a bitmap; its bytes are counted by an `int`,
`g_idlebuf_len`. -/
structure IdleBuf where
  words : List (BitVec 64)
  len_lt : 8 * words.length < 2 ^ 31

/-- `g_refs_count` and `g_refs_2m_count`. -/
structure Refs where
  refsCount : ℕ → ℕ
  refs2mCount : ℕ → ℕ

/-- `calloc`. -/
def Refs.zero : Refs := ⟨fun _ => 0, fun _ => 0⟩

/-- `count++` of an `unsigned short`. -/
def incShort (count : ℕ) : ℕ := (count + 1) % 2 ^ 16

/-- The counts, `pfn_2m` and `count_2m`. -/
structure Account extends Refs where
  pfn2m : ℕ
  count2m : Bool

/-- A page that is not idle. -/
def accountPfn (pfn : ℕ) (s : Account) : Account :=
  let s := { s with
    refsCount := Function.update s.refsCount pfn (incShort (s.refsCount pfn)) }
  -- only count once in a 2M page
  if s.count2m then
    let pfn2m := pfn / 512
    { s with
      pfn2m := pfn2m
      refs2mCount := Function.update s.refs2mCount pfn2m (incShort (s.refs2mCount pfn2m))
      count2m := false }
  else s

/-- The loop over the bits of a word; the first clear bit from `g_num_pfn` on ends it. -/
def accountBits (numPfn : ℕ) (idlebits : BitVec 64) (basePfn : ℕ) :
    List ℕ → Account → Account
  | [], s => s
  | bit :: bits, s =>
      if idlebits.getLsbD bit then accountBits numPfn idlebits basePfn bits s
      else if numPfn ≤ basePfn + bit then s
      else accountBits numPfn idlebits basePfn bits (accountPfn (basePfn + bit) s)

/-- The loop over the words, from byte `len` of the bitmap on. -/
def accountWords (numPfn : ℕ) : List (BitVec 64) → ℕ → Account → Account
  | [], _, s => s
  | idlebits :: words, len, s =>
      let s := accountBits numPfn idlebits (len / 8 * 64) (List.range 64) s
      let len := len + 8
      let basePfn2m := len / 8 * 64 / 512
      accountWords numPfn words len
        (if s.pfn2m < basePfn2m then { s with count2m := true } else s)

/-- `account_refs`. -/
def accountRefs (numPfn : ℕ) (refs : Refs) (buf : IdleBuf) : Refs :=
  (accountWords numPfn buf.words 0 ⟨refs, 0, true⟩).toRefs

/-! ### What a scan finds -/

/-- The idle bit of the page is clear. -/
def accessed (words : List (BitVec 64)) (pfn : ℕ) : Bool :=
  (words[pfn / 64]?).any fun idlebits => !idlebits.getLsbD (pfn % 64)

/-- The page is one of those that are watched, and was accessed. -/
def hit (numPfn : ℕ) (words : List (BitVec 64)) (pfn : ℕ) : Bool :=
  pfn < numPfn && accessed words pfn

/-- A page of the block in front of a position was accessed. -/
def blockHit (numPfn : ℕ) (words : List (BitVec 64)) (p block : ℕ) : Bool :=
  decide (∃ pfn, pfn < p ∧ pfn / 512 = block ∧ hit numPfn words pfn = true)

section Scan

variable {numPfn : ℕ} {words : List (BitVec 64)} {before : Refs} {block p : ℕ} {s : Account}

/-- What holds when the scan of a block has come to page `p`: the pages in front are
counted, and their blocks once; the flag says whether the block is still to be counted, and
if not it is the one counted last. -/
structure Inv (numPfn : ℕ) (words : List (BitVec 64)) (before : Refs) (block p : ℕ)
    (s : Account) : Prop where
  refsCount_eq : ∀ pfn, s.refsCount pfn =
    if pfn < p ∧ hit numPfn words pfn then incShort (before.refsCount pfn)
    else before.refsCount pfn
  refs2mCount_eq : ∀ b, s.refs2mCount b =
    if blockHit numPfn words p b then incShort (before.refs2mCount b) else before.refs2mCount b
  count2m_eq : s.count2m = !blockHit numPfn words p block
  last_eq : s.count2m = false → s.pfn2m = block
  last_le : s.pfn2m ≤ block

theorem blockHit_succ (p block : ℕ) : blockHit numPfn words (p + 1) block =
    (blockHit numPfn words p block || (p / 512 = block && hit numPfn words p)) := by
  rw [Bool.eq_iff_iff]
  simp only [blockHit, decide_eq_true_eq, Bool.or_eq_true, Bool.and_eq_true,
    Nat.lt_succ_iff_lt_or_eq]
  constructor
  · rintro ⟨pfn, hlt | rfl, hblock, hhit⟩
    · exact Or.inl ⟨pfn, hlt, hblock, hhit⟩
    · exact Or.inr ⟨hblock, hhit⟩
  · rintro (⟨pfn, hlt, hblock, hhit⟩ | ⟨hblock, hhit⟩)
    · exact ⟨pfn, Or.inl hlt, hblock, hhit⟩
    · exact ⟨p, Or.inr rfl, hblock, hhit⟩

/-- A page that was not accessed. -/
theorem Inv.skip (h : Inv numPfn words before block p s) (hhit : hit numPfn words p = false) :
    Inv numPfn words before block (p + 1) s := by
  have hblock : ∀ b, blockHit numPfn words (p + 1) b = blockHit numPfn words p b := by
    intro b
    rw [blockHit_succ, hhit, Bool.and_false, Bool.or_false]
  refine ⟨fun pfn => ?_, fun b => ?_, ?_, h.last_eq, h.last_le⟩
  · rw [h.refsCount_eq]
    congr 1
    rw [Nat.lt_succ_iff_lt_or_eq, or_and_right, eq_iff_iff]
    refine (or_iff_left ?_).symm
    rintro ⟨rfl, hpfn⟩
    rw [hhit] at hpfn
    cases hpfn
  · rw [hblock, h.refs2mCount_eq]
  · rw [hblock, h.count2m_eq]

/-- Pages that were not accessed. -/
theorem Inv.skipTo {n : ℕ} (h : Inv numPfn words before block p s)
    (hhit : ∀ i < n, hit numPfn words (p + i) = false) :
    Inv numPfn words before block (p + n) s := by
  induction n with
  | zero => exact h
  | succ n ih => exact (ih fun i hi => hhit i (Nat.lt_succ_of_lt hi)).skip (hhit n n.lt_succ_self)

/-- **A page that was accessed.** -/
theorem Inv.accountPfn (h : Inv numPfn words before block p s) (hhit : hit numPfn words p = true)
    (hblock : p / 512 = block) :
    Inv numPfn words before block (p + 1) (accountPfn p s) := by
  have hcount : ∀ pfn, Function.update s.refsCount p (incShort (s.refsCount p)) pfn =
      if pfn < p + 1 ∧ hit numPfn words pfn then incShort (before.refsCount pfn)
      else before.refsCount pfn := by
    intro pfn
    rcases eq_or_ne pfn p with rfl | hne
    · rw [Function.update_self, h.refsCount_eq, if_neg fun hc => lt_irrefl _ hc.1,
        if_pos ⟨pfn.lt_succ_self, hhit⟩]
    · rw [Function.update_of_ne hne, h.refsCount_eq]
      congr 1
      rw [Nat.lt_succ_iff_lt_or_eq, or_iff_left hne]
  have hsucc : ∀ b, blockHit numPfn words (p + 1) b =
      (blockHit numPfn words p b || decide (block = b)) := by
    intro b
    rw [blockHit_succ, hhit, Bool.and_true, hblock]
  unfold PageRefs.accountPfn
  dsimp only
  split
  · next hflag =>
    -- the first one of the block
    have hfirst : blockHit numPfn words p block = false := by
      rw [← Bool.not_eq_true', ← h.count2m_eq, hflag]
    refine ⟨hcount, fun b => ?_, ?_, fun _ => hblock, hblock.le⟩
    · dsimp only
      rw [hblock, hsucc]
      rcases eq_or_ne b block with rfl | hne
      · rw [Function.update_self, h.refs2mCount_eq, hfirst]
        simp
      · rw [Function.update_of_ne hne, h.refs2mCount_eq]
        simp [hne.symm]
    · rw [hsucc]
      simp
  · next hflag =>
    -- the block is counted
    have hold : blockHit numPfn words p block = true := by
      have hflag' : s.count2m = false := by simpa using hflag
      rw [h.count2m_eq] at hflag'
      simpa using hflag'
    refine ⟨hcount, fun b => ?_, ?_, h.last_eq, h.last_le⟩
    · dsimp only
      rw [hsucc, h.refs2mCount_eq]
      rcases eq_or_ne block b with rfl | hne
      · simp [hold]
      · simp [hne]
    · dsimp only
      rw [hsucc, h.count2m_eq, hold]
      rfl

/-- **A word**, from some bit on: after it every page of it is accounted for, also
where the loop ends early. -/
theorem accountBits_inv {w : ℕ} {idlebits : BitVec 64} (hword : words[w]? = some idlebits)
    (n j : ℕ) (hj : j + n = 64)
    (h : Inv numPfn words before (w * 64 / 512) (w * 64 + j) s) :
    Inv numPfn words before (w * 64 / 512) (w * 64 + 64)
      (accountBits numPfn idlebits (w * 64) (List.range' j n) s) := by
  have hbit : ∀ i, i < 64 → accessed words (w * 64 + i) = !idlebits.getLsbD i := by
    intro i hi
    have hdiv : (w * 64 + i) / 64 = w := by omega
    have hmod : (w * 64 + i) % 64 = i := by omega
    rw [accessed, hdiv, hmod, hword]
    rfl
  induction n generalizing j s with
  | zero =>
      obtain rfl : j = 64 := by omega
      exact h
  | succ n ih =>
      have hj64 : j < 64 := by omega
      rw [List.range'_succ, accountBits]
      split
      · next hidle =>
        refine ih (j + 1) (by omega) (h.skip ?_)
        rw [hit, hbit j hj64, hidle]
        simp
      · next hidle =>
        split
        · next hend =>
          -- no page from here on is watched
          have hrest : w * 64 + j + (n + 1) = w * 64 + 64 := by omega
          rw [← hrest]
          refine h.skipTo fun i _ => ?_
          have hout : decide (w * 64 + j + i < numPfn) = false := decide_eq_false (by omega)
          rw [hit, hout, Bool.false_and]
        · next hend =>
          refine ih (j + 1) (by omega) (h.accountPfn ?_ (by omega))
          have hin : decide (w * 64 + j < numPfn) = true := decide_eq_true (not_le.mp hend)
          rw [hit, hin, hbit j hj64]
          simpa using hidle

/-- **The end of a word.** The flag is set where the next word is in a later block. -/
theorem Inv.nextWord {w : ℕ} (h : Inv numPfn words before (w * 64 / 512) (w * 64 + 64) s) :
    Inv numPfn words before ((w + 1) * 64 / 512) ((w + 1) * 64)
      (if s.pfn2m < (w + 1) * 64 / 512 then { s with count2m := true } else s) := by
  rw [← Nat.succ_mul, Nat.succ_eq_add_one] at h
  have hle := h.last_le
  rcases eq_or_ne ((w + 1) * 64 / 512) (w * 64 / 512) with hsame | hnext
  · -- the same block: where the flag is set, it was set before
    rw [hsame]
    split
    · next hlast =>
      have hflag : s.count2m = true := by
        by_contra hflag
        exact hlast.ne (h.last_eq (by simpa using hflag))
      have hs : { s with count2m := true } = s := by rw [← hflag]
      rwa [hs]
    · exact h
  · -- a new block starts here
    have hfresh : blockHit numPfn words ((w + 1) * 64) ((w + 1) * 64 / 512) = false := by
      refine decide_eq_false ?_
      rintro ⟨pfn, hlt, hblock, -⟩
      omega
    rw [if_pos (by omega)]
    refine ⟨h.refsCount_eq, h.refs2mCount_eq, ?_, nofun, ?_⟩
    · rw [hfresh]
      rfl
    · exact hle.trans (by omega)

/-- **All words** from one on. -/
theorem accountWords_inv {rest : List (BitVec 64)} {w : ℕ} (hrest : words.drop w = rest)
    (h : Inv numPfn words before (w * 64 / 512) (w * 64) s) :
    Inv numPfn words before ((w + rest.length) * 64 / 512) ((w + rest.length) * 64)
      (accountWords numPfn rest (w * 8) s) := by
  induction rest generalizing w s with
  | nil => exact h
  | cons idlebits rest ih =>
      have hword : words[w]? = some idlebits := by
        rw [← List.head?_drop, hrest, List.head?_cons]
      have htail : words.drop (w + 1) = rest := by
        rw [← List.drop_drop, hrest, List.drop_one, List.tail_cons]
      have hbits := accountBits_inv hword 64 0 rfl h
      have hlen : w * 8 / 8 = w := by omega
      have hnext : (w * 8 + 8) / 8 = w + 1 := by omega
      have hstep := ih htail hbits.nextWord
      rw [List.length_cons, accountWords, hlen, hnext, List.range_eq_range', ← Nat.succ_mul]
      rw [Nat.add_assoc, Nat.add_comm 1] at hstep
      exact hstep

end Scan

/-- The block was accessed in a scan of the watched pages. -/
def blockAccessed (numPfn : ℕ) (words : List (BitVec 64)) (block : ℕ) : Bool :=
  decide (∃ pfn, pfn < numPfn ∧ pfn / 512 = block ∧ accessed words pfn = true)

/-- **One scan.** -/
theorem accountRefs_spec (numPfn : ℕ) (refs : Refs) (buf : IdleBuf) :
    (∀ pfn, (accountRefs numPfn refs buf).refsCount pfn =
      if hit numPfn buf.words pfn then incShort (refs.refsCount pfn) else refs.refsCount pfn) ∧
    ∀ block, (accountRefs numPfn refs buf).refs2mCount block =
      if blockAccessed numPfn buf.words block then incShort (refs.refs2mCount block)
      else refs.refs2mCount block := by
  have hstart : Inv numPfn buf.words refs (0 * 64 / 512) (0 * 64) ⟨refs, 0, true⟩ := by
    constructor <;> simp [blockHit]
  have hwords : buf.words.drop 0 = buf.words := rfl
  have h := accountWords_inv hwords hstart
  rw [Nat.zero_add, Nat.zero_mul] at h
  -- a page behind the bitmap is not accessed
  have hlt : ∀ pfn, hit numPfn buf.words pfn = true → pfn < buf.words.length * 64 := by
    intro pfn hpfn
    obtain ⟨idlebits, hword, -⟩ := (Option.any_eq_true ..).mp (Bool.and_eq_true_iff.mp hpfn).2
    have := (List.getElem?_eq_some_iff.mp hword).1
    omega
  refine ⟨fun pfn => ?_, fun block => ?_⟩
  · refine (h.refsCount_eq pfn).trans ?_
    congr 1
    exact propext ⟨And.right, fun hpfn => ⟨hlt pfn hpfn, hpfn⟩⟩
  · refine (h.refs2mCount_eq block).trans ?_
    congr 2
    unfold blockHit blockAccessed
    refine decide_eq_decide.mpr ⟨?_, ?_⟩
    · rintro ⟨pfn, -, hblock, hpfn⟩
      obtain ⟨hin, hacc⟩ := Bool.and_eq_true_iff.mp hpfn
      exact ⟨pfn, of_decide_eq_true hin, hblock, hacc⟩
    · rintro ⟨pfn, hin, hblock, hacc⟩
      have hpfn : hit numPfn buf.words pfn = true :=
        Bool.and_eq_true_iff.mpr ⟨decide_eq_true hin, hacc⟩
      exact ⟨pfn, hlt pfn hpfn, hblock, hpfn⟩

/-! ### All scans -/

/-- The counts after some scans. -/
def accountScans (numPfn : ℕ) (scans : List IdleBuf) : Refs :=
  scans.foldl (accountRefs numPfn) Refs.zero

/-- A count that a scan increments or leaves alone. -/
theorem count_foldl (count : Refs → ℕ) {P : IdleBuf → Bool} {numPfn : ℕ}
    (hstep : ∀ refs buf, count (accountRefs numPfn refs buf) =
      if P buf then incShort (count refs) else count refs) (scans : List IdleBuf) (refs : Refs)
    (hlt : count refs + scans.length < 2 ^ 16) :
    count (scans.foldl (accountRefs numPfn) refs) = count refs + scans.countP P := by
  induction scans generalizing refs with
  | nil => rfl
  | cons buf scans ih =>
      rw [List.length_cons] at hlt
      have hnext : count (accountRefs numPfn refs buf) =
          count refs + if P buf then 1 else 0 := by
        rw [hstep]
        split
        · exact Nat.mod_eq_of_lt (by omega)
        · rfl
      rw [List.foldl_cons, ih, hnext, List.countP_cons]
      · omega
      · rw [hnext]
        split <;> omega

/-- Every number of pages and every sequence of fewer than 65536 scans of bitmaps of any
content: the count of a page is the number of scans in which its idle bit was clear, and
that of a block the number of scans in which that of at least one watched page of it was. -/
theorem accountRefs_counts (numPfn : ℕ) (scans : List IdleBuf) (hscans : scans.length < 65536) :
    (∀ pfn < numPfn, (accountScans numPfn scans).refsCount pfn =
      scans.countP fun buf => accessed buf.words pfn) ∧
    ∀ block, (accountScans numPfn scans).refs2mCount block =
      scans.countP fun buf => blockAccessed numPfn buf.words block := by
  refine ⟨fun pfn hpfn => ?_, fun block => ?_⟩
  · have hstep : ∀ refs buf, (accountRefs numPfn refs buf).refsCount pfn =
        if accessed buf.words pfn then incShort (refs.refsCount pfn)
        else refs.refsCount pfn := by
      intro refs buf
      rw [(accountRefs_spec numPfn refs buf).1, hit, decide_eq_true hpfn, Bool.true_and]
    exact (count_foldl (fun refs => refs.refsCount pfn) hstep scans .zero (by
      simpa [Refs.zero] using hscans)).trans (Nat.zero_add _)
  · have hstep : ∀ refs buf, (accountRefs numPfn refs buf).refs2mCount block =
        if blockAccessed numPfn buf.words block then incShort (refs.refs2mCount block)
        else refs.refs2mCount block :=
      fun refs buf => (accountRefs_spec numPfn refs buf).2 block
    exact (count_foldl (fun refs => refs.refs2mCount block) hstep scans .zero (by
      simpa [Refs.zero] using hscans)).trans (Nat.zero_add _)

/-- Two words of which the second one has two clear bits, in a scan of 100 pages. -/
theorem accountRefs_counts_twoWords :
    (accountScans 100 [⟨[-1, -1 - 3], by decide⟩]).refsCount 65 = 1 ∧
      (accountScans 100 [⟨[-1, -1 - 3], by decide⟩]).refs2mCount 0 = 1 := by
  obtain ⟨hcount, hcount2m⟩ :=
    accountRefs_counts 100 [⟨[-1, -1 - 3], by decide⟩] (by decide)
  exact ⟨(hcount 65 (by decide)).trans (by decide +kernel),
    (hcount2m 0).trans (by decide +kernel)⟩

end PageRefs

end MemoryOptimizer
