import MemoryOptimizer.AddrSequence.Visit

/-!
# No count above the calls

The reference list of a run is for walks whose addresses ascend.  A walk whose calls come
in another order can miss addresses, as its cursor does not go back, but it counts none
that it is not called for: no address has a count above the number of the calls that
count it (`Tallied`).
-/

namespace MemoryOptimizer.AddrSequence

variable {s : AddrSequence}

/-- The find cursor stands somewhere in the stored list. -/
structure Standing (s : AddrSequence) : Prop where
  ok : IterOk s s.findIter
  suffix : remaining s s.findIter <:+ allStored s

/-- One call of a later walk, wherever the cursor stands. -/
theorem updateAddr_standing (lay : Layout s) (cur : Standing s) (addr n : ℕ) :
    Layout (s.updateAddr addr n true).1 ∧ Standing (s.updateAddr addr n true).1 ∧
      (s.updateAddr addr n true).1.nrWalks = s.nrWalks ∧
      (contents (s.updateAddr addr n true).1 = contents s ∨
        contents (s.updateAddr addr n true).1 = (contents s).map (bump addr n)) := by
  have hfuel : (remaining s s.findIter).length < s.addrSize + 1 := by
    rw [lay.addrSize_eq]
    exact Nat.lt_succ_of_le cur.suffix.length_le
  obtain ⟨iter, ok, hdrop, hloop⟩ := findLoop_eq addr
    (fun s => s.doWalkUpdatePayload s.findIter n true) lay.size_pos cur.ok hfuel
  have lay' : Layout { s with findIter := iter } := lay.withIters s.walkIter iter _
  have hsuffix : remaining s iter <:+ allStored s := by
    rw [hdrop]
    exact (List.dropWhile_suffix _).trans cur.suffix
  have cur' : Standing { s with findIter := iter } :=
    ⟨⟨ok.1, ok.2, ok.3, ok.4, ok.5⟩, hsuffix⟩
  unfold updateAddr
  rw [hloop]
  split
  · rename_i hfound
    cases hrem : remaining s iter with
    | nil => simp [hrem] at hfound
    | cons x rest =>
        have hx : x ∈ allStored s := hsuffix.subset (hrem ▸ List.mem_cons_self)
        have haddr : x.addr = addr := by simpa [hrem] using hfound
        have hrem' : remaining { s with findIter := iter } iter = x :: rest := hrem
        obtain ⟨same, hlay, hcont⟩ := doWalkUpdatePayload_spec lay' cur'.ok n hrem' hx
        obtain ⟨hfind, hwalks, -⟩ :=
          doWalkUpdatePayload_findIter { s with findIter := iter } iter n true
        refine ⟨hlay, ⟨?_, ?_⟩, hwalks, Or.inr (haddr ▸ hcont)⟩
        · rw [hfind]
          exact same.iterOk cur'.ok
        · rw [hfind, same.allStored_eq, same.remaining_eq]
          exact hsuffix
  · exact ⟨lay', cur', rfl, Or.inl rfl⟩

/-- The calls of a later walk, in any order. -/
theorem foldl_updateAddr_le (lay : Layout s) (cur : Standing s) (hwalks : 2 ≤ s.nrWalks)
    {calls : List (ℕ × ℕ)} (hn : ∀ call ∈ calls, call.2 ≤ 1) (bound : ℕ → ℕ)
    (hbound : ∀ p ∈ contents s, p.2 ≤ bound p.1) :
    Layout (calls.foldl (fun s call => (s.incPayload Alloc.ok call.1 call.2).1) s) ∧
      (calls.foldl (fun s call => (s.incPayload Alloc.ok call.1 call.2).1) s).nrWalks =
        s.nrWalks ∧
      ∀ p ∈ contents (calls.foldl (fun s call => (s.incPayload Alloc.ok call.1 call.2).1) s),
        p.2 ≤ bound p.1 + calls.count (p.1, 1) := by
  induction calls generalizing s bound with
  | nil => exact ⟨lay, rfl, hbound⟩
  | cons call calls ih =>
      have hinc : s.incPayload Alloc.ok call.1 call.2 = s.updateAddr call.1 call.2 true := by
        simp [incPayload, inAppendPeriod, Nat.not_lt.mpr hwalks]
      obtain ⟨lay', cur', hwalks', hcont⟩ := updateAddr_standing lay cur call.1 call.2
      have hstep : ∀ p ∈ contents (s.updateAddr call.1 call.2 true).1,
          p.2 ≤ bound p.1 + [call].count (p.1, 1) := by
        intro p hp
        rcases hcont with heq | heq
        · rw [heq] at hp
          exact (hbound p hp).trans (Nat.le_add_right _ _)
        · rw [heq] at hp
          obtain ⟨q, hq, rfl⟩ := List.mem_map.mp hp
          have hle := hbound q hq
          unfold bump
          split
          · rename_i hcall
            have hone : call = (q.1, 1) :=
              Prod.ext hcall.1.symm (by have := hn call List.mem_cons_self; omega)
            rw [hone, List.count_singleton_self]
            exact (Nat.mod_le _ _).trans (Nat.succ_le_succ hle)
          · exact hle.trans (Nat.le_add_right _ _)
      obtain ⟨h1, h2, h3⟩ := ih lay' cur' (hwalks' ▸ hwalks)
        (fun c hc => hn c (List.mem_cons_of_mem _ hc))
        (fun addr => bound addr + [call].count (addr, 1)) hstep
      rw [List.foldl_cons, hinc]
      refine ⟨h1, h2.trans hwalks', fun p hp => (h3 p hp).trans ?_⟩
      rw [Nat.add_assoc, ← List.count_append, List.singleton_append]

/-- A cleared sequence after walks that made these calls: no address has a count above the
calls that count it. -/
structure Tallied (s : AddrSequence) (calls : List (ℕ × ℕ)) : Prop where
  layout : Layout s
  start : s.nrWalks = 0 → ∃ (t : AddrSequence) (shift : ℕ), s = t.clear.setPageshift shift
  le : ∀ p ∈ contents s, p.2 ≤ calls.count (p.1, 1)

theorem Tallied.clear (s : AddrSequence) (shift : ℕ) :
    Tallied (s.clear.setPageshift shift) [] :=
  ⟨clear_layout s shift, fun _ => ⟨s, shift, rfl⟩, fun _ hp => nomatch hp⟩

/-- One walk more, in any order. -/
theorem Tallied.walk {calls walk : List (ℕ × ℕ)} (h : Tallied s calls)
    (haddr : ∀ call ∈ walk, call.1 < 2 ^ 64) (hn : ∀ call ∈ walk, call.2 ≤ 1) :
    Tallied (s.walk walk) (calls ++ walk) := by
  rcases Nat.eq_zero_or_pos s.nrWalks with hzero | hpos
  · -- the first walk stores some of its calls
    obtain ⟨t, shift, rfl⟩ := h.start hzero
    obtain ⟨hlay, hwalks, hcont⟩ := walk_first t shift haddr hn
    refine ⟨hlay, fun hnr => absurd (hwalks.symm.trans hnr) one_ne_zero, fun p hp => ?_⟩
    rw [hcont] at hp
    have hcall := rising_subset [] walk hp
    have hle := hn p hcall
    rw [List.count_append]
    rcases Nat.eq_zero_or_pos p.2 with hp0 | hp1
    · rw [hp0]
      exact Nat.zero_le _
    · have hone : p = (p.1, 1) := Prod.ext rfl (by omega)
      have hcount : 0 < walk.count (p.1, 1) := List.count_pos_iff.mpr (hone ▸ hcall)
      omega
  · have cur : Standing s.rewind := by
      obtain ⟨h1, h2, h3, h4, h5⟩ := iterOk_resetIterator h.layout.size_pos s.findIter
      refine ⟨⟨h1, h2, h3, h4, h5⟩, ?_⟩
      have hall : remaining s.rewind s.rewind.findIter = allStored s.rewind :=
        remaining_resetIterator s.findIter
      exact ⟨[], hall⟩
    obtain ⟨h1, h2, h3⟩ := foldl_updateAddr_le (rewind_layout h.layout) cur
      (Nat.succ_le_succ hpos) hn (fun addr => calls.count (addr, 1)) h.le
    refine ⟨h1, fun hnr => absurd (h2.symm.trans hnr) (Nat.succ_ne_zero _), fun p hp => ?_⟩
    rw [List.count_append]
    exact h3 p hp

end MemoryOptimizer.AddrSequence
