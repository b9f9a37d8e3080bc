import MemoryOptimizer.IdlePages.Counted
import MemoryOptimizer.IdlePages.ReadAhead

/-!
# Counting accesses

A walk over an idle-page file that keeps its contract (`ScannedFile`): a read
reports the present pages of the range it goes over, each with its accessed bit,
and clears the bits.
-/

namespace MemoryOptimizer.ProcIdlePages

/-- The stream of a read from `pos` to `reach`: it sets page addresses, goes forward, and
ends with the cursor at `reach`; its 4K pages are the present ones in between, each with its
accessed bit. -/
structure ReportsPages (present accessed : Set ℕ) (pos reach : ℕ) (tokens : List PipToken) :
    Prop where
  valid : ∀ token ∈ tokens, token.Valid
  aligned : ∀ hva, PipToken.setHva hva ∈ tokens → 2 ^ 12 ∣ hva
  forward : Forward pos tokens
  cursor_eq : cursorAfter pos tokens = reach
  page : ∀ p ∈ reported pos tokens, p.1.index = .pteAccessed →
    p.2 ∈ present ∧ (p.1 = .pteAccessed ∧ p.2 ∈ accessed ∨ p.1 = .pteIdle ∧ p.2 ∉ accessed)
  every : ∀ addr ∈ present, pos ≤ addr → addr < reach →
    ∃ p ∈ reported pos tokens, p.1.index = .pteAccessed ∧ p.2 = addr

/-- An idle-page file over the pages of a process.  `pos` is the file position. -/
structure ScannedFile (σ : Type) extends IdleFile σ where
  pos : σ → ℕ
  present : σ → Set ℕ
  accessed : σ → Set ℕ
  aligned : ∀ w, ∀ addr ∈ present w, 2 ^ 12 ∣ addr
  accessed_subset : ∀ w, accessed w ⊆ present w
  openFile_same : ∀ w w', openFile w = some w' → accessed w' = accessed w
  seekSet_eq : ∀ w va, va < 2 ^ 63 → ∃ w', seekSet w va = some w' ∧ pos w' = va ∧
    accessed w' = accessed w
  seekCur_eq : ∀ w, seekCur w = some (pos w)
  read_eq : ∀ w size, 2 ^ 12 ∣ pos w → 0 < size → pos w + size * 2 ^ 15 < 2 ^ 63 → ∃ w' tokens,
    read w size = (w', .data (pipBytes tokens)) ∧
    ReportsPages (present w) (accessed w) (pos w) (pos w + size * 2 ^ 15) tokens ∧
    pos w' = pos w + size * 2 ^ 15 ∧
    accessed w' = accessed w \ Set.Ico (pos w) (pos w + size * 2 ^ 15)

theorem ReportsPages.countsPages {present accessed : Set ℕ} {pos reach : ℕ}
    {tokens : List PipToken} (h : ReportsPages present accessed pos reach tokens)
    (hsub : accessed ⊆ present) (stop : ℕ) :
    CountsPages accessed pos (min stop reach) (refCounts stop (reported pos tokens)) := by
  obtain ⟨hasc, hrange⟩ := h.forward.reported
  rw [h.cursor_eq] at hrange
  have hmem : ∀ c, c ∈ refCounts stop (reported pos tokens) ↔
      ∃ p ∈ reported pos tokens, p.1.index = .pteAccessed ∧ p.2 < stop ∧ (p.2, p.1.weight) = c := by
    intro c
    simp only [refCounts, List.mem_map, List.mem_filter, decide_eq_true_eq, and_assoc]
  refine ⟨?_, ?_, ?_, fun addr => ?_⟩
  · rw [refCounts, List.pairwise_map]
    exact hasc.filter _
  · intro c hc
    obtain ⟨p, hp, -, hlt, rfl⟩ := (hmem c).mp hc
    exact ⟨(hrange p hp).1, lt_min hlt (hrange p hp).2⟩
  · intro c hc
    obtain ⟨p, hp, hindex, -, rfl⟩ := (hmem c).mp hc
    rcases (h.page p hp hindex).2 with ⟨htype, -⟩ | ⟨htype, -⟩ <;> simp only [htype] <;> decide
  · rw [hmem]
    constructor
    · rintro ⟨p, hp, hindex, hlt, heq⟩
      obtain ⟨rfl, hweight⟩ := Prod.mk.injEq .. ▸ heq
      rcases (h.page p hp hindex).2 with ⟨-, hacc⟩ | ⟨htype, -⟩
      · exact ⟨hacc, (hrange p hp).1, lt_min hlt (hrange p hp).2⟩
      · rw [htype] at hweight
        exact absurd hweight (by decide)
    · rintro ⟨hacc, hle, hlt⟩
      obtain ⟨p, hp, hindex, rfl⟩ := h.every addr (hsub hacc) hle (hlt.trans_le (min_le_right _ _))
      refine ⟨p, hp, hindex, hlt.trans_le (min_le_left _ _), ?_⟩
      rcases (h.page p hp hindex).2 with ⟨htype, -⟩ | ⟨-, hidle⟩
      · rw [htype]
        rfl
      · exact absurd hacc hidle

/-! ### The sizes of the reads -/

section ReadSize

variable {minReadSize va stop : ℕ} (hpos : 0 < minReadSize) (hmin : minReadSize ≤ 2 ^ 20)
  (hva : va < stop) (hstop : stop ≤ 2 ^ 47)
include hva hstop

theorem readSize_eq :
    readSize minReadSize va stop =
      min (max minReadSize ((stop - va + 7 * 2 ^ 12) / 2 ^ 15)) (2 ^ 20) := by
  have hword : stop - va + 7 * 2 ^ 12 < 2 ^ 64 := by omega
  have hsize : ulong (usub stop va + 7 <<< 12) >>> 15 = (stop - va + 7 * 2 ^ 12) / 2 ^ 15 := by
    rw [usub_of_le hva.le (by omega), Nat.shiftLeft_eq, ulong_of_lt hword,
      Nat.shiftRight_eq_div_pow]
  have hbuf : readBufSize = 2 ^ 20 := rfl
  simp only [readSize, hsize, hbuf]
  split_ifs <;> omega

include hpos in
theorem readSize_bounds :
    0 < readSize minReadSize va stop ∧ readSize minReadSize va stop ≤ 2 ^ 20 := by
  rw [readSize_eq hva hstop]
  omega

include hmin

/-- A read that does not go to the end is one of the whole buffer. -/
theorem readBytes_step (halign : 2 ^ 12 ∣ stop - va)
    (hend : va + readSize minReadSize va stop * 2 ^ 15 < stop) :
    readBytes minReadSize (stop - va) =
      readSize minReadSize va stop * 2 ^ 15 +
        readBytes minReadSize (stop - (va + readSize minReadSize va stop * 2 ^ 15)) := by
  have hsize : readSize minReadSize va stop = _ := readSize_eq hva hstop
  have hfull : readSize minReadSize va stop = 2 ^ 20 := by omega
  rw [hfull] at hend ⊢
  simp only [readBytes]
  omega

/-- A read that goes to the end is the last one. -/
theorem readBytes_last (halign : 2 ^ 12 ∣ stop - va)
    (hend : stop ≤ va + readSize minReadSize va stop * 2 ^ 15) :
    readBytes minReadSize (stop - va) = readSize minReadSize va stop * 2 ^ 15 := by
  rw [readSize_eq hva hstop] at hend ⊢
  simp only [readBytes]
  omega

end ReadSize

/-! ### The loop -/

section Loop

variable {σ : Type} (file : ScannedFile σ)

/-- How the loop of `walk_vma` leaves things that starts at `va`: the pages up to
`stop` are counted, and the bits are clear as far as the reads go. -/
structure Scanned (va stop : ℕ) (w w' : σ) (s s' : ProcIdlePages) (counts : List (ℕ × ℕ)) :
    Prop where
  frame : s' = { s with readBuf := s'.readBuf, pageRefs := s'.pageRefs, nextVa := s'.nextVa }
  pageRefs_eq : s'.pageRefs .pteAccessed = countAll (s.pageRefs .pteAccessed) counts
  countsPages : CountsPages (file.accessed w) va stop counts
  accessed_eq : file.accessed w' =
    file.accessed w \ Set.Ico va (va + readBytes s.minReadSize (stop - va))
  nextVa_aligned : 2 ^ 12 ∣ s'.nextVa
  stop_le : stop ≤ s'.nextVa
  nextVa_le : s'.nextVa ≤ va + readBytes s.minReadSize (stop - va)

theorem walkVmaLoop_scanned {stop fuel va : ℕ} {w : σ} {s : ProcIdlePages}
    (hmin : 0 < s.minReadSize ∧ s.minReadSize ≤ 2 ^ 20) (hpos : file.pos w = va)
    (halign : 2 ^ 12 ∣ va ∧ 2 ^ 12 ∣ stop) (hva : va < stop) (hstop : stop ≤ 2 ^ 47)
    (hfuel : stop - va < fuel) :
    ∃ w' s' counts, walkVmaLoop file.toIdleFile stop fuel va w s = some (w', s', 0) ∧
      Scanned file va stop w w' s s' counts := by
  induction fuel generalizing va w s with
  | zero => exact absurd hfuel (Nat.not_lt_zero _)
  | succ fuel ih =>
      obtain ⟨hsize, hbuf⟩ := readSize_bounds hmin.1 hva hstop
      have hdvd : 2 ^ 12 ∣ stop - va := Nat.dvd_sub halign.2 halign.1
      have hstep := readBytes_step hmin.2 hva hstop hdvd
      have hlast := readBytes_last hmin.2 hva hstop hdvd
      obtain ⟨w₁, tokens, hread, hreports, hpos₁, haccessed⟩ :=
        file.read_eq w (readSize s.minReadSize va stop) (hpos ▸ halign.1) hsize (by omega)
      rw [hpos] at hreports hpos₁ haccessed
      have hcounts := hreports.countsPages (file.accessed_subset w) stop
      have hpages : ∀ p ∈ reported va tokens, p.1.index = .pteAccessed → 2 ^ 12 ∣ p.2 :=
        fun p hp hindex => file.aligned w p.2 (hreports.page p hp hindex).1
      obtain ⟨hpte, hcursor⟩ := @scan_counts stop va tokens hreports.forward hpages s.pageRefs
      have hcursor_aligned := scan_aligned stop halign.1 hreports.aligned
      rw [hreports.cursor_eq] at hcursor
      have hbytes : (pipBytes tokens).length ≠ 0 := by
        intro h
        have hnil := pipBytes_eq_nil.mp (List.length_eq_zero_iff.mp h)
        have hcur := hreports.cursor_eq
        rw [hnil, cursorAfter] at hcur
        omega
      have hparse := @parseIdlepages_pipBytes stop tokens hreports.valid
        (s.readBuf.drop (pipBytes tokens).length) va
      rw [walkVmaLoop, if_pos hva]
      simp only [file.seekCur_eq, hpos, lt_irrefl, if_false, hread, hbytes, hparse]
      generalize readSize s.minReadSize va stop = size at *
      rcases Nat.lt_or_ge (va + size * 2 ^ 15) stop with hend | hend
      · -- the decoder has used up the stream: the next read goes on at its end
        have hnext : (scan stop va tokens).1 = va + size * 2 ^ 15 := by omega
        rw [hnext] at hcursor_aligned ⊢
        rw [min_eq_right hend.le] at hcounts
        obtain ⟨w', s', counts, hloop, hscan⟩ := @ih (va + size * 2 ^ 15) w₁
          { s with
            readBuf := pipBytes tokens ++ s.readBuf.drop (pipBytes tokens).length
            pageRefs := (scan stop va tokens).2.foldl (incPageRefs stop) s.pageRefs }
          hmin hpos₁ ⟨hcursor_aligned, halign.2⟩ hend (by omega)
        have hrest := hscan.countsPages
        have hreach := (hend.le.trans hscan.stop_le).trans hscan.nextVa_le
        have haccessed' := hscan.accessed_eq
        have hnextVa := hscan.nextVa_le
        rw [haccessed] at hrest
        rw [Nat.add_assoc, ← hstep hend] at hreach haccessed' hnextVa
        refine ⟨w', s', _, hloop, hscan.frame, ?_, hcounts.append hrest (by omega) hend.le, ?_,
          hscan.nextVa_aligned, hscan.stop_le, hnextVa⟩
        · rw [countAll_append, ← hpte]
          exact hscan.pageRefs_eq
        · rw [haccessed', haccessed, Set.sdiff_sdiff, Set.Ico_union_Ico_eq_Ico (by omega) hreach]
      · -- the cursor is behind the mapping
        obtain ⟨fuel, rfl⟩ := Nat.exists_eq_succ_of_ne_zero (show fuel ≠ 0 by omega)
        have hge : ¬ (scan stop va tokens).1 < stop := by omega
        rw [min_eq_left hend] at hcounts
        rw [← hlast hend] at hcursor haccessed
        rw [walkVmaLoop, if_neg hge]
        refine ⟨_, _, _, rfl, rfl, hpte, hcounts, haccessed, hcursor_aligned, not_lt.mp hge, ?_⟩
        show (scan stop va tokens).1 ≤ _
        omega

/-- A mapping that is not behind `next_va` is read from `next_va` or its start on. -/
theorem walkVma_scanned {fuel : ℕ} {w : σ} {s : ProcIdlePages} {vma : Vma}
    (hmin : 0 < s.minReadSize ∧ s.minReadSize ≤ 2 ^ 20) (hnext : 2 ^ 12 ∣ s.nextVa)
    (halign : 2 ^ 12 ∣ vma.start ∧ 2 ^ 12 ∣ vma.stop) (hlt : vma.start < vma.stop)
    (hanonymous : vma.isAnonymous = true) (hinside : s.vaStart ≤ vma.start ∧ vma.stop ≤ s.vaEnd)
    (hstop : vma.stop ≤ 2 ^ 47) (hfuel : 2 ^ 47 < fuel) (hahead : s.nextVa < vma.stop) :
    ∃ w' s' counts, walkVma file.toIdleFile fuel w s vma = some (w', s', 0) ∧
      Scanned file (max vma.start s.nextVa) vma.stop w w' s s' counts := by
  have hva : max vma.start s.nextVa < vma.stop := max_lt hlt hahead
  have hdvd : 2 ^ 12 ∣ max vma.start s.nextVa := by
    rcases max_choice vma.start s.nextVa with h | h <;> rw [h]
    exacts [halign.1, hnext]
  obtain ⟨w₁, hseek, hpos, haccessed⟩ := file.seekSet_eq w (max vma.start s.nextVa) (by omega)
  have hleft : vma.stop - max vma.start s.nextVa < fuel := by omega
  obtain ⟨w', s', counts, hloop, hscan⟩ := walkVmaLoop_scanned file hmin hpos
    ⟨hdvd, halign.2⟩ hva hstop hleft
  have hcounts := hscan.countsPages
  have hcleared := hscan.accessed_eq
  rw [haccessed] at hcounts hcleared
  refine ⟨w', s', counts, ?_, { hscan with countsPages := hcounts, accessed_eq := hcleared }⟩
  have hstart : (if vma.start < s.nextVa then s.nextVa else vma.start) =
      max vma.start s.nextVa := by
    rw [max_def_lt]
  have hlow : ¬ max vma.start s.nextVa < s.vaStart := by omega
  rw [walkVma, if_neg (by omega), if_neg (by omega), if_neg (by omega), hanonymous]
  simp only [Bool.not_true, Bool.false_eq_true, if_false, hstart, if_neg hlow,
    if_neg (not_lt.mpr hinside.2), hseek]
  exact hloop

/-- Anonymous mappings inside a range, as `/proc/PID/maps` lists them. -/
structure AnonymousVmas (vaStart vaEnd : ℕ) (vmas : List Vma) : Prop where
  nonempty : ∀ vma ∈ vmas, vma.start < vma.stop
  aligned : ∀ vma ∈ vmas, 2 ^ 12 ∣ vma.start ∧ 2 ^ 12 ∣ vma.stop
  ascending : vmas.Pairwise fun vma vma' => vma.stop ≤ vma'.start
  anonymous : ∀ vma ∈ vmas, vma.isAnonymous = true
  inside : ∀ vma ∈ vmas, vaStart ≤ vma.start ∧ vma.stop ≤ vaEnd

theorem AnonymousVmas.tail {vaStart vaEnd : ℕ} {vma : Vma} {vmas : List Vma}
    (h : AnonymousVmas vaStart vaEnd (vma :: vmas)) : AnonymousVmas vaStart vaEnd vmas where
  nonempty v hv := h.nonempty v (List.mem_cons_of_mem _ hv)
  aligned v hv := h.aligned v (List.mem_cons_of_mem _ hv)
  ascending := (List.pairwise_cons.mp h.ascending).2
  anonymous v hv := h.anonymous v (List.mem_cons_of_mem _ hv)
  inside v hv := h.inside v (List.mem_cons_of_mem _ hv)

/-- The mappings one after the other. -/
theorem walkVmas_walked {fuel : ℕ} (hfuel : 2 ^ 47 < fuel) {vmas : List Vma} (err : ℤ) {w : σ}
    {s : ProcIdlePages} (hmin : 0 < s.minReadSize ∧ s.minReadSize ≤ 2 ^ 20)
    (hnext : 2 ^ 12 ∣ s.nextVa) (hend : s.vaEnd ≤ 2 ^ 47)
    (hvmas : AnonymousVmas s.vaStart s.vaEnd vmas) :
    ∃ w' s' err' counts, walkVmas file.toIdleFile fuel vmas err w s = some (w', s', err') ∧
      s'.pageRefs .pteAccessed = countAll (s.pageRefs .pteAccessed) counts ∧
      Walked s.minReadSize (file.accessed w) s.nextVa vmas counts := by
  induction vmas generalizing w s err with
  | nil => exact ⟨w, s, err, [], rfl, rfl, .nil⟩
  | cons vma vmas ih =>
      have hmem := List.mem_cons_self (a := vma) (l := vmas)
      rcases Nat.lt_or_ge s.nextVa vma.stop with hahead | hpassed
      · obtain ⟨w₁, s₁, counts, hvma, hscan⟩ := walkVma_scanned file (w := w) hmin hnext
          (hvmas.aligned vma hmem) (hvmas.nonempty vma hmem) (hvmas.anonymous vma hmem)
          (hvmas.inside vma hmem) ((hvmas.inside vma hmem).2.trans hend) hfuel hahead
        have hframe := hscan.frame
        have hsize : s₁.minReadSize = s.minReadSize := by rw [hframe]
        have hvaEnd : s₁.vaEnd = s.vaEnd := by rw [hframe]
        have hvaStart : s₁.vaStart = s.vaStart := by rw [hframe]
        obtain ⟨w', s', err', counts', hrest, hrefs, hwalked⟩ := ih 0 (w := w₁) (s := s₁)
          (hsize ▸ hmin) hscan.nextVa_aligned (hvaEnd ▸ hend)
          (by rw [hvaStart, hvaEnd]; exact hvmas.tail)
        rw [hsize, hscan.accessed_eq] at hwalked
        refine ⟨w', s', err', counts ++ counts', ?_, ?_,
          .read rfl hscan.nextVa_le hscan.countsPages hwalked⟩
        · rw [walkVmas, hvma]
          simpa using hrest
        · rw [hrefs, hscan.pageRefs_eq, countAll_append]
      · obtain ⟨w', s', err', counts, hrest, hrefs, hwalked⟩ := ih 0 (w := w) hmin hnext hend
          hvmas.tail
        refine ⟨w', s', err', counts, ?_, hrefs, .passed hpassed hwalked⟩
        rw [walkVmas, walkVma, if_pos hpassed]
        simpa using hrest

end Loop

end MemoryOptimizer.ProcIdlePages
