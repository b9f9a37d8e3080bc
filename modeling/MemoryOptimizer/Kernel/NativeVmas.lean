import MemoryOptimizer.Kernel.NativeCallbacks
import Mathlib.Data.List.TakeWhile

/-!
# One walk of the VMAs

`ept_idle_walk_page_range` goes over the VMAs from `find_vma` on.  `walk_left` says
what an iteration of `mm_idle_walk_range` has left when it comes to its copy.
-/

namespace MemoryOptimizer

namespace MmWalk

/-! ### The VMAs -/

section Vmas

variable {mm : Mm} {stop va : ℕ} {w : MmWalk} {page : MmPage}

/-- No page that is tracked lies in a VMA that is not walked. -/
theorem Walking.unwalked (hmm : mm.Ok) {vma : VmArea} (hmem : vma ∈ mm.mmap)
    (hnot : ¬vma.Walked) {a b : ℕ} {tokens : List PipToken} {s : MmScan}
    (h : w.Walking mm stop va page a tokens s) (hstart : vma.vmStart ≤ a) (hab : a ≤ b)
    (hend : b ≤ vma.vmEnd) : w.Walking mm stop va page b tokens s := by
  refine h.mono hab fun tracked ahead => ?_
  by_contra hlt
  have hin : vma.vmStart ≤ page.addr ∧ page.addr < vma.vmEnd :=
    ⟨hstart.trans ahead.le_addr, (not_le.mp hlt).trans_le hend⟩
  exact hnot (hmm.eq_of_mem tracked.mem hmem tracked.present.mem_vma hin ▸ tracked.walked)

/-- The loop over the VMAs from the position on. -/
theorem walkVmas_walking (hmm : mm.Ok) (hw : w.Ready) (hstop : 2 ^ 12 ∣ stop)
    (hshift : 39 ≤ w.scan.pt.pgdirShift ∧ w.scan.pt.pgdirShift < 64) {vmas : List VmArea}
    (hsub : ∀ vma ∈ vmas, vma ∈ mm.mmap)
    (hascending : vmas.Pairwise fun vma vma' => vma.vmEnd ≤ vma'.vmStart) {a : ℕ}
    (hle : a ≤ stop) (hend : ∀ vma ∈ vmas, w.start < vma.vmEnd)
    (hfirst : a = w.start ∨ ∀ vma ∈ vmas, a ≤ vma.vmStart)
    (hpage : w.Tracked mm stop page → a ≤ page.addr → a < stop → page.vma ∈ vmas)
    {tokens : List PipToken} {s : MmScan} (h : w.Walking mm stop va page a tokens s) :
    Post (fun x t => ∃ tokens, w.Walking mm stop va page x tokens t)
      (fun t => ∃ tokens, w.Left mm stop va page tokens t) stop (walkVmas stop vmas s a) := by
  induction vmas generalizing a tokens s with
  | nil =>
      refine Post.ok ⟨tokens, h.mono hle fun tracked ahead => ?_⟩
      by_contra hlt
      have := hpage tracked ahead.le_addr (ahead.le_addr.trans_lt (not_le.mp hlt))
      exact List.not_mem_nil this
  | cons vma vmas ih =>
      obtain ⟨hhead, hascending⟩ := List.pairwise_cons.mp hascending
      obtain ⟨hmem, hsub⟩ := List.forall_mem_cons.mp hsub
      obtain ⟨hstart_lt, hend⟩ := List.forall_mem_cons.mp hend
      have hstart := h.start_le
      have hvma := hmm.vmStart_lt vma hmem
      -- the page is in this VMA or behind it
      have hwhere : w.Tracked mm stop page → a ≤ page.addr → a < stop →
          page.vma = vma ∨ page.vma ∈ vmas ∧ vma.vmEnd ≤ page.addr := by
        intro tracked hle hlt
        refine (List.mem_cons.mp (hpage tracked hle hlt)).imp_right fun h => ⟨h, ?_⟩
        exact (hhead page.vma h).trans tracked.present.start_le
      have habove : w.Tracked mm stop page → a ≤ page.addr → a < stop →
          vma.vmStart ≤ page.addr := by
        intro tracked hle hlt
        rcases hwhere tracked hle hlt with h | ⟨-, h⟩
        · exact h ▸ tracked.present.start_le
        · omega
      rw [walkVmas]
      dsimp only
      by_cases hlt : max a vma.vmStart < stop
      · rw [if_pos hlt]
        have ha_lt : a < stop := (le_max_left _ _).trans_lt hlt
        obtain ⟨first, hfirst_eq⟩ : ∃ x, max a vma.vmStart = x := ⟨_, rfl⟩
        obtain ⟨next, hnext_eq⟩ : ∃ x, min stop vma.vmEnd = x := ⟨_, rfl⟩
        have hpart_first : first = max w.start vma.vmStart := by
          rcases hfirst with h | h
          · rw [← hfirst_eq, h]
          · have := h vma List.mem_cons_self
            omega
        have hne : first < next := by omega
        rw [hfirst_eq, hnext_eq]
        have hwalking : w.Walking mm stop va page first tokens s :=
          h.mono (by omega) fun tracked ahead => by
            have := habove tracked ahead.le_addr ha_lt
            have := ahead.le_addr
            omega
        -- the loop goes on behind the VMA
        have hrest : ∀ tokens t, w.Walking mm stop va page next tokens t →
            Post (fun x t => ∃ tokens, w.Walking mm stop va page x tokens t)
              (fun t => ∃ tokens, w.Left mm stop va page tokens t) stop
              (walkVmas stop vmas t next) := by
          intro tokens t ht
          refine ih hsub hascending (by omega) hend (Or.inr fun vma' hvma' => ?_)
            (fun tracked hle' hlt' => ?_) ht
          · have := hhead vma' hvma'
            omega
          · rcases hwhere tracked (by omega) ha_lt with h | ⟨h, -⟩
            · have := tracked.present.mem_vma
              rw [h] at this
              omega
            · exact h
        by_cases htest : mmIdleTestWalk vma > 0
        · rw [if_pos htest]
          exact hrest tokens s (hwalking.unwalked hmm hmem (fun h => absurd h.1 htest.ne')
            (by omega) hne.le (by omega))
        rw [if_neg htest]
        have hwalk : Post (fun x t => ∃ tokens, w.Walking mm stop va page x tokens t)
            (fun t => ∃ tokens, w.Left mm stop va page tokens t) next
            (walkPageRange vma s first next) := by
          unfold walkPageRange
          split
          · rename_i hhugetlb
            exact Post.ok ⟨tokens, hwalking.unwalked hmm hmem
              (fun h => Bool.noConfusion (hhugetlb.symm.trans h.2)) (by omega) hne.le (by omega)⟩
          · rename_i hhugetlb
            exact hwalking.part hmm hw hstop hshift ⟨hmem, ⟨Nat.eq_zero_of_not_pos htest,
              Bool.eq_false_iff.mpr hhugetlb⟩, hpart_first, hnext_eq.symm, hne⟩
        by_cases hret : (walkPageRange vma s first next).2 ≠ 0
        · rw [if_pos hret]
          exact ⟨fun h => absurd h hret, hwalk.2⟩
        · rw [if_neg hret]
          obtain ⟨tokens', hwalking'⟩ := hwalk.1 (not_not.mp hret)
          exact hrest tokens' _ hwalking'
      · rw [if_neg hlt]
        refine Post.ok ⟨tokens, h.mono hle fun tracked ahead => ?_⟩
        by_contra hpage_lt
        have hpage_lt := not_le.mp hpage_lt
        have := ahead.le_addr
        have := habove tracked ahead.le_addr (by omega)
        omega

/-! ### The walk before the copy -/

theorem mem_findVma {mmap : List VmArea} {addr : ℕ} {vma : VmArea} (hmem : vma ∈ mmap)
    (hlt : addr < vma.vmEnd) : vma ∈ findVma mmap addr := by
  rw [← List.takeWhile_append_dropWhile (p := fun vma : VmArea => vma.vmEnd ≤ addr) (l := mmap)]
    at hmem
  refine (List.mem_append.mp hmem).resolve_left fun h => ?_
  have := List.mem_takeWhile_imp h
  simp only [decide_eq_true_eq] at this
  omega

/-- The VMAs from `find_vma` on are in ascending order, and end above the address. -/
theorem findVma_spec (hmm : mm.Ok) (addr : ℕ) :
    (∀ vma ∈ findVma mm.mmap addr, vma ∈ mm.mmap ∧ addr < vma.vmEnd) ∧
      (findVma mm.mmap addr).Pairwise fun vma vma' => vma.vmEnd ≤ vma'.vmStart := by
  have hsub : (findVma mm.mmap addr).Sublist mm.mmap := List.dropWhile_sublist _
  have hascending := hmm.ascending.sublist hsub
  refine ⟨fun vma hmem => ⟨hsub.subset hmem, ?_⟩, hascending⟩
  have hnot : ∀ vma vmas, findVma mm.mmap addr = vma :: vmas → addr < vma.vmEnd := by
    intro vma vmas h
    have := List.head?_dropWhile_not (fun vma : VmArea => decide (vma.vmEnd ≤ addr)) mm.mmap
    unfold findVma at h
    rw [h] at this
    simpa using this
  cases hfind : findVma mm.mmap addr with
  | nil =>
      rw [hfind] at hmem
      exact absurd hmem List.not_mem_nil
  | cons head vmas =>
      have hhead := hnot head vmas hfind
      rw [hfind] at hmem hascending
      rcases List.mem_cons.mp hmem with rfl | hmem'
      · exact hhead
      · have := (List.pairwise_cons.mp hascending).1 vma hmem'
        have := hmm.vmStart_lt vma (hsub.subset (hfind ▸ hmem))
        omega

/-- What an iteration leaves for its copy. -/
theorem walk_left (va : ℕ) (page : MmPage) (hmm : mm.Ok) (hw : w.Ready) (hstop : 2 ^ 12 ∣ stop)
    (hstop_lt : stop < 2 ^ 64)
    (hshift : 39 ≤ w.scan.pt.pgdirShift ∧ w.scan.pt.pgdirShift < 64) (hlt : w.start < stop) :
    ∃ tokens, w.Left mm stop va page tokens (w.walk mm stop) := by
  have hstart := hlt.trans hstop_lt
  obtain ⟨hfound, hascending⟩ := findVma_spec hmm w.start
  have htracked : w.Tracked mm stop page → page.vma ∈ findVma mm.mmap w.start := fun tracked =>
    mem_findVma tracked.mem (tracked.start_le.trans_lt tracked.present.mem_vma.2)
  have hwalking : w.Walking mm stop va page w.start [] w.scan := hw.walking
  have hfilled := hwalking.filled
  -- nothing is walked in front of the next VMA
  have hnothing : ∀ val, val < 2 ^ 64 →
      (w.Tracked mm stop page → val ≤ page.addr ∧ stop ≤ page.addr) →
      w.Left mm stop va page [] ⟨w.scan.pt, w.scan.eic.setRestartGpa val⟩ := by
    intro val hval hpage
    refine ⟨.refl _, ⟨hfilled.toSameRead.setRestartGpa val, hfilled.streams.setRestartGpa val,
      fun _ => rfl, fun h => absurd rfl h⟩, hval, hw.lastVa_lt, fun h => absurd rfl h,
      fun tracked => Or.inr ⟨(hpage tracked).1, fun _ => (hpage tracked).2⟩⟩
  unfold walk
  cases hfind : findVma mm.mmap w.start with
  | nil =>
      have := hmm.taskSize_lt
      refine ⟨[], hnothing _ (by omega) fun tracked => ?_⟩
      have := htracked tracked
      rw [hfind] at this
      exact absurd this List.not_mem_nil
  | cons vma vmas =>
      rw [hfind] at hfound hascending htracked
      obtain ⟨hhead, -⟩ := List.pairwise_cons.mp hascending
      dsimp only
      split
      · have hwalk := walkVmas_walking hmm hw hstop hshift (fun vma h => (hfound vma h).1)
          hascending hlt.le (fun vma h => (hfound vma h).2) (Or.inl rfl)
          (fun tracked _ _ => htracked tracked) hwalking
        by_cases hret : (walkVmas stop (vma :: vmas) w.scan w.start).2 = 0
        · obtain ⟨tokens, hwalking⟩ := hwalk.1 hret
          exact ⟨tokens, hwalking.leave hmm hw hstart fun _ ahead _ => ahead.le_addr⟩
        · exact hwalk.2 hret
      · rename_i hbelow
        obtain ⟨hmem, -⟩ := hfound vma List.mem_cons_self
        have := hmm.vmEnd_le vma hmem
        have hvma := hmm.vmStart_lt vma hmem
        have := hmm.taskSize_lt
        refine ⟨[], hnothing _ (by omega) fun tracked => ?_⟩
        have hpage : vma.vmStart ≤ page.addr := by
          have hstart_le := tracked.present.start_le
          rcases List.mem_cons.mp (htracked tracked) with h | h
          · exact h ▸ hstart_le
          · have := hhead page.vma h
            omega
        omega

end Vmas

end MmWalk

end MemoryOptimizer
