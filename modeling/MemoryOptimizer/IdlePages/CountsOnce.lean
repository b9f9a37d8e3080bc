import MemoryOptimizer.IdlePages.AccessCounts

/-!
# Which mappings a walk counts right

A walk counts every accessed page of the mappings once, whatever their page tables
hold, just when the mappings are spaced (`countsOnce_iff`).  In others a process
with one page shows the loss: the reads for a mapping in front of it clear its
accessed bit, and the counts of that mapping have ended by then.
-/

namespace MemoryOptimizer.ProcIdlePages

open AddrSequence

/-! ### The counts after one more walk -/

theorem reference_concat {walks : List (List (ℕ × ℕ))} (hne : walks ≠ [])
    (counts : List (ℕ × ℕ)) :
    reference (walks ++ [counts]) = (reference walks).map (tally counts) := by
  obtain ⟨first, later, rfl⟩ := List.exists_cons_of_ne_nil hne
  simp [reference, tally, Function.comp_def, List.count_append, Nat.add_assoc]

section Counts

variable (s : AddrSequence) (shift : ℕ) {walks : List (List (ℕ × ℕ))} {counts : List (ℕ × ℕ)}
  (hne : walks ≠ []) (hcalls : Calls walks) (hlt : ∀ c ∈ counts, c.1 < 2 ^ 64)
  (hle : ∀ c ∈ counts, c.2 ≤ 1) (hasc : counts.Pairwise fun c d => c.1 < d.1)
include hne hcalls hlt hle hasc

theorem contents_walk :
    contents ((s.run shift walks).walk counts) =
      ((reference walks).map (tally counts)).map wrap := by
  have hcalls' : Calls (walks ++ [counts]) := by
    refine ⟨?_, ?_, ?_⟩
    · exact List.forall_mem_append.mpr ⟨hcalls.addr_lt, List.forall_mem_singleton.mpr hlt⟩
    · exact List.forall_mem_append.mpr ⟨hcalls.n_le, List.forall_mem_singleton.mpr hle⟩
    · rw [List.tail_append_of_ne_nil hne]
      exact List.forall_mem_append.mpr ⟨hcalls.ascending, List.forall_mem_singleton.mpr hasc⟩
  have hrun : (s.run shift walks).walk counts = s.run shift (walks ++ [counts]) := by
    rw [run, run, List.foldl_append]
    rfl
  rw [hrun, (run_contents_wrap s shift hcalls').2, reference_concat hne]

/-- One more walk adds one to the payloads that its counts name. -/
theorem mem_contents_walk {addr n : ℕ} (hmem : (addr, n) ∈ contents (s.run shift walks))
    (hn : n < 255) :
    (addr, if (addr, 1) ∈ counts then n + 1 else n) ∈
      contents ((s.run shift walks).walk counts) := by
  rw [(run_contents_wrap s shift hcalls).2] at hmem
  obtain ⟨p, hp, hwrap⟩ := List.mem_map.mp hmem
  obtain ⟨rfl, hpayload⟩ := Prod.mk.injEq .. ▸ hwrap
  rw [contents_walk s shift hne hcalls hlt hle hasc, List.map_map]
  refine List.mem_map.mpr ⟨p, hp, Prod.ext rfl ?_⟩
  have hcount := count_le_one hasc (p.1, 1)
  simp only [Function.comp_apply, wrap, tally, uint8] at hpayload ⊢
  split
  · have hpos := List.count_pos_iff.mpr ‹(p.1, 1) ∈ counts›
    omega
  · have hzero := List.count_eq_zero.mpr ‹(p.1, 1) ∉ counts›
    omega

end Counts

/-! ### The walk -/

section Walk

variable {vaStart vaEnd : ℕ} {vmas : List Vma} (maxThreads : ℤ)

theorem minReadSizeOf_bounds :
    0 < minReadSizeOf maxThreads ∧ minReadSizeOf maxThreads ≤ 2 ^ 20 := by
  unfold minReadSizeOf
  split <;> decide

/-- A walk that is not refused counts as `Walked` says. -/
theorem walk_walked {σ : Type} (file : ScannedFile σ) {fuel : ℕ} (hfuel : 2 ^ 47 < fuel)
    {w w₀ : σ} (hopen : file.openFile w = some w₀) {s : ProcIdlePages}
    (hplacement : s.placement ≠ .dram) (hne : vmas ≠ []) (hend : s.vaEnd ≤ 2 ^ 47)
    (hvmas : AnonymousVmas s.vaStart s.vaEnd vmas) :
    ∃ w' s' err counts, walk file.toIdleFile fuel maxThreads vmas w s = some (w', s', err) ∧
      s'.pageRefs .pteAccessed = (s.pageRefs .pteAccessed).walk counts ∧
      Walked (minReadSizeOf maxThreads) (file.accessed w) 0 vmas counts := by
  obtain ⟨w', s', err, counts, hwalk, hrefs, hwalked⟩ := walkVmas_walked file hfuel (-1) (w := w₀)
    (s := s.startWalk maxThreads) (minReadSizeOf_bounds maxThreads) (dvd_zero _) hend hvmas
  rw [file.openFile_same w w₀ hopen] at hwalked
  refine ⟨w', s', err, counts, ?_, hrefs, hwalked⟩
  rw [walk, if_neg hplacement, if_neg hne, hopen]
  exact hwalk

/-- One walk over the mappings, after the first walk: for every page table and every
file that keeps its contract, the count of a stored 4K page of the mappings goes up by
one if the page was accessed when the walk started, and stays otherwise. -/
def CountsOnce (maxThreads : ℤ) (vaStart vaEnd : ℕ) (vmas : List Vma) : Prop :=
  ∀ (σ : Type) (file : ScannedFile σ) (w : σ) (s : ProcIdlePages) (fuel : ℕ),
    (∃ w₀, file.openFile w = some w₀) → s.placement ≠ .dram →
    s.vaStart = vaStart → s.vaEnd = vaEnd → 2 ^ 47 < fuel →
    (∃ s₀ walks, walks ≠ [] ∧ Calls walks ∧ s.pageRefs .pteAccessed = run s₀ 12 walks) →
    ∃ w' s' err, walk file.toIdleFile fuel maxThreads vmas w s = some (w', s', err) ∧
      ∀ vma ∈ vmas, ∀ addr n, vma.start ≤ addr → addr < vma.stop →
        (addr, n) ∈ contents (s.pageRefs .pteAccessed) → n < 255 →
          (addr ∈ file.accessed w → (addr, n + 1) ∈ contents (s'.pageRefs .pteAccessed)) ∧
          (addr ∉ file.accessed w → (addr, n) ∈ contents (s'.pageRefs .pteAccessed))

theorem countsOnce_of_spaced (hend : vaEnd ≤ 2 ^ 47) (hvmas : AnonymousVmas vaStart vaEnd vmas)
    (hspaced : Spaced (minReadSizeOf maxThreads) vmas) :
    CountsOnce maxThreads vaStart vaEnd vmas := by
  rintro σ file w s fuel ⟨w₀, hopen⟩ hplacement rfl rfl hfuel ⟨s₀, walks, hwalks, hcalls, hrefs⟩
  by_cases hne : vmas = []
  · subst hne
    exact ⟨w, { s with ioError := -esrch }, -esrch, by rw [walk, if_neg hplacement, if_pos rfl],
      by simp⟩
  · obtain ⟨w', s', err, counts, hwalk, hrefs', hwalked⟩ :=
      walk_walked maxThreads file hfuel hopen hplacement hne hend hvmas
    refine ⟨w', s', err, hwalk, fun vma hvma addr n hlow hhigh hmem hn => ?_⟩
    have hlt : ∀ c ∈ counts, c.1 < 2 ^ 64 := by
      intro c hc
      obtain ⟨v, hv, -, hstop⟩ := hwalked.within c hc
      have := (hvmas.inside v hv).2
      omega
    rw [hrefs] at hmem
    have hafter := mem_contents_walk s₀ 12 hwalks hcalls hlt hwalked.le_one
      (hwalked.ascending hvmas.ascending) hmem hn
    rw [hrefs', hrefs]
    constructor
    · intro hacc
      have hcount := hwalked.counted hvmas.nonempty hspaced (fun _ _ => Nat.zero_le _) vma hvma
        addr hacc hlow hhigh
      rwa [if_pos hcount] at hafter
    · intro hacc
      rwa [if_neg fun h => hacc (hwalked.mem_accessed addr h)] at hafter

end Walk

/-! ### A process with one page -/

/-- A `read` of the file of a process with one page: the state is the file position and
the accessed bit. -/
def readPage (page : ℕ) (w : ℕ × Bool) (size : ℕ) : (ℕ × Bool) × IdleRead :=
  let reach := w.1 + size * 2 ^ 15
  if w.1 ≤ page ∧ page < reach then
    ((reach, false), .data (pipBytes
      [.setHva page, .item (if w.2 then .pteAccessed else .pteIdle) 1, .setHva reach]))
  else ((reach, w.2), .data (pipBytes [.setHva reach]))

theorem reported_page {page reach : ℕ} (type : ProcIdlePageType)
    (htype : refCalls type 1 page = [⟨type, 1, page⟩]) (hlt : page < 2 ^ 64) (pos : ℕ) :
    reported pos [.setHva page, .item type 1, .setHva reach] = [(type, page)] := by
  simp [reported, htype, RefCall.pages, ulong_of_lt hlt]

theorem reportsPages_page {page pos reach : ℕ} (accessed : Bool) (hpage : 2 ^ 12 ∣ page)
    (hreach : 2 ^ 12 ∣ reach) (hlt : reach < 2 ^ 63) (hin : pos ≤ page ∧ page < reach) :
    ReportsPages {page} {addr | addr = page ∧ accessed = true} pos reach
      [.setHva page, .item (if accessed then .pteAccessed else .pteIdle) 1, .setHva reach] := by
  have hnext : page + 2 ^ 12 ≤ reach := by omega
  have hreported : reported pos
      [.setHva page, .item (if accessed then .pteAccessed else .pteIdle) 1, .setHva reach] =
      [(if accessed then .pteAccessed else .pteIdle, page)] := by
    cases accessed <;> exact reported_page _ rfl (by omega) pos
  have hsize : (if accessed then ProcIdlePageType.pteAccessed else .pteIdle).size = 2 ^ 12 := by
    cases accessed <;> rfl
  refine ⟨?_, ?_, ?_, rfl, ?_, ?_⟩
  · cases accessed <;> simp [PipToken.Valid] <;> omega
  · simp only [List.mem_cons, PipToken.setHva.injEq, reduceCtorEq, false_or, List.not_mem_nil,
      or_false]
    rintro hva (rfl | rfl)
    exacts [hpage, hreach]
  · rw [Forward, Forward, Forward, Forward, hsize, ulong_of_lt (by omega)]
    exact ⟨hin.1, by omega, by omega, trivial⟩
  · rw [hreported]
    cases accessed <;> simp
  · rw [hreported]
    rintro addr rfl - -
    exact ⟨_, List.mem_singleton_self _, by cases accessed <;> rfl, rfl⟩

theorem reportsPages_none {page pos reach : ℕ} (accessed : Set ℕ) (hreach : 2 ^ 12 ∣ reach)
    (hlt : reach < 2 ^ 63) (hle : pos ≤ reach) (hout : ¬(pos ≤ page ∧ page < reach)) :
    ReportsPages {page} accessed pos reach [.setHva reach] := by
  refine ⟨?_, ?_, ⟨hle, trivial⟩, rfl, by simp [reported], ?_⟩
  · simp only [List.mem_singleton, forall_eq, PipToken.Valid]
    omega
  · simp only [List.mem_singleton, PipToken.setHva.injEq, forall_eq, hreach]
  · rintro addr rfl hlow hhigh
    exact absurd ⟨hlow, hhigh⟩ hout

/-- The file of a process with one page. -/
def onePage (page : ℕ) (hpage : 2 ^ 12 ∣ page) : ScannedFile (ℕ × Bool) where
  openFile w := some (0, w.2)
  seekSet w va := some (va, w.2)
  seekCur w := some w.1
  read := readPage page
  pos := Prod.fst
  present _ := {page}
  accessed w := {addr | addr = page ∧ w.2 = true}
  aligned _ _ haddr := haddr ▸ hpage
  accessed_subset _ _ haddr := haddr.1
  openFile_same w w' h := by
    cases h
    rfl
  seekSet_eq w va _ := ⟨(va, w.2), rfl, rfl, rfl⟩
  seekCur_eq _ := rfl
  read_eq w size hpos hsize hlt := by
    have hreach : 2 ^ 12 ∣ w.1 + size * 2 ^ 15 := by omega
    rw [readPage]
    split
    · rename_i hin
      refine ⟨_, _, rfl, reportsPages_page w.2 hpage hreach hlt hin, rfl, ?_⟩
      ext addr
      simp only [Set.mem_ofPred_eq, Set.mem_sdiff, Set.mem_Ico]
      constructor
      · rintro ⟨-, h⟩
        exact absurd h Bool.false_ne_true
      · rintro ⟨⟨rfl, -⟩, hout⟩
        exact absurd hin hout
    · rename_i hout
      refine ⟨_, _, rfl, reportsPages_none _ hreach hlt (by omega) hout, rfl, ?_⟩
      ext addr
      simp only [Set.mem_ofPred_eq, Set.mem_sdiff, Set.mem_Ico]
      constructor
      · rintro ⟨rfl, h⟩
        exact ⟨⟨rfl, h⟩, hout⟩
      · exact And.left

/-- The counts after a first walk that found the page idle. -/
theorem calls_page {page : ℕ} (hpage : page < 2 ^ 64) : Calls [[(page, 0)]] :=
  ⟨by simpa using hpage, by simp, by simp⟩

theorem spaced_of_countsOnce (maxThreads : ℤ) {vaStart vaEnd : ℕ} {vmas : List Vma}
    (hend : vaEnd ≤ 2 ^ 47) (hvmas : AnonymousVmas vaStart vaEnd vmas)
    (h : CountsOnce maxThreads vaStart vaEnd vmas) : Spaced (minReadSizeOf maxThreads) vmas := by
  by_contra hspaced
  obtain ⟨vma, hvma, hlost⟩ := exists_lost hvmas.nonempty hvmas.ascending hspaced
  have hlt := hvmas.nonempty vma hvma
  have hin := (hvmas.inside vma hvma).2
  have hcalls : Calls [[(vma.start, 0)]] := calls_page (by omega)
  let file := onePage vma.start (hvmas.aligned vma hvma).1
  let s : ProcIdlePages :=
    { placement := .none
      vaStart := vaStart
      vaEnd := vaEnd
      ioError := 0
      nrWalks := 1
      pageRefs := fun _ => run AddrSequence.init 12 [[(vma.start, 0)]]
      readBuf := []
      minReadSize := 0
      nextVa := 0 }
  have hne : vmas ≠ [] := List.ne_nil_of_mem hvma
  obtain ⟨w', s', err, counts, hwalk, hrefs, hwalked⟩ := walk_walked maxThreads file
    (Nat.lt_succ_self _) (w := (0, true)) rfl (s := s) nofun hne hend hvmas
  obtain ⟨w₁, s₁, err₁, hwalk₁, hcount⟩ := h _ file (0, true) s (2 ^ 47 + 1) ⟨_, rfl⟩ nofun
    rfl rfl (Nat.lt_succ_self _) ⟨_, _, by simp, hcalls, rfl⟩
  rw [hwalk, Option.some.injEq, Prod.mk.injEq, Prod.mk.injEq] at hwalk₁
  obtain ⟨-, rfl, -⟩ := hwalk₁
  -- the page had count 0 and was accessed, so it should have count 1 now
  have hbefore : (vma.start, 0) ∈ contents (s.pageRefs .pteAccessed) := by
    rw [(run_contents_wrap AddrSequence.init 12 hcalls).2]
    simp [reference, rising, wrap, uint8]
  have hafter := (hcount vma hvma vma.start 0 le_rfl hlt hbefore (by decide)).1 ⟨rfl, rfl⟩
  -- but the walk has not counted it
  have hcontents : contents (s'.pageRefs .pteAccessed) = [(vma.start, 0)] := by
    have hword : ∀ c ∈ counts, c.1 < 2 ^ 64 := by
      intro c hc
      obtain ⟨v, hv, -, hstop⟩ := hwalked.within c hc
      have := (hvmas.inside v hv).2
      omega
    have hzero := List.count_eq_zero.mpr (hlost _ _ _ (fun _ _ => Nat.zero_le _) hwalked)
    rw [hrefs, contents_walk _ 12 (by simp) hcalls hword hwalked.le_one
      (hwalked.ascending hvmas.ascending)]
    simp [reference, rising, tally, wrap, uint8, hzero]
  rw [hcontents] at hafter
  simp at hafter

/-- The mappings that a walk counts right: those in which the reads of each end before the
next ones. -/
theorem countsOnce_iff (maxThreads : ℤ) {vaStart vaEnd : ℕ} {vmas : List Vma}
    (hend : vaEnd ≤ Process.taskSizeMax) (hvmas : AnonymousVmas vaStart vaEnd vmas) :
    CountsOnce maxThreads vaStart vaEnd vmas ↔ Spaced (minReadSizeOf maxThreads) vmas := by
  have hend' : vaEnd ≤ 2 ^ 47 := hend.trans (by decide)
  exact ⟨spaced_of_countsOnce maxThreads hend' hvmas, countsOnce_of_spaced maxThreads hend' hvmas⟩

/-- Two mappings of one page each, the second 1 GiB behind the first. -/
def farVmas : List Vma :=
  [⟨⟨0x10000, 0x11000⟩, true, false, false, 0⟩, ⟨⟨0x40010000, 0x40011000⟩, true, false, false, 0⟩]

/-- The same, the second right behind the first but for a page. -/
def nearVmas : List Vma :=
  [⟨⟨0x10000, 0x11000⟩, true, false, false, 0⟩, ⟨⟨0x12000, 0x13000⟩, true, false, false, 0⟩]

theorem countsOnce_iff_far :
    AnonymousVmas 0 Process.taskSizeMax farVmas ∧
      (CountsOnce 1 0 Process.taskSizeMax farVmas ↔ Spaced (minReadSizeOf 1) farVmas) := by
  have hvmas : AnonymousVmas 0 Process.taskSizeMax farVmas := by
    constructor <;> decide
  exact ⟨hvmas, countsOnce_iff 1 le_rfl hvmas⟩

theorem not_countsOnce_near : ¬ CountsOnce 1 0 Process.taskSizeMax nearVmas := by
  have hvmas : AnonymousVmas 0 Process.taskSizeMax nearVmas := by
    constructor <;> decide
  exact fun h => absurd (spaced_of_countsOnce 1 (by decide) hvmas h) (by decide)

end MemoryOptimizer.ProcIdlePages
