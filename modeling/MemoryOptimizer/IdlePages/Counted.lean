import MemoryOptimizer.AddrSequence.Reference
import MemoryOptimizer.IdlePages.Walk

/-!
# What a read adds to the counts

A stream whose cursor never goes back (`Forward`) reports its pages in ascending
order, and `parse_idlepages` with `inc_page_refs` turns it into updates of the 4K
counts: one for each 4K page reported below `end` (`scan_counts`).
-/

namespace MemoryOptimizer

open ProcIdlePageType

/-- The cursor never goes back. -/
def Forward : ℕ → List PipToken → Prop
  | _, [] => True
  | va, .setHva hva :: tokens => va ≤ hva ∧ Forward hva tokens
  | va, .item type nr :: tokens =>
      va + type.size * nr < 2 ^ 64 ∧ Forward (ulong (va + type.size * nr)) tokens

theorem Forward.le_cursorAfter {va : ℕ} {tokens : List PipToken} (h : Forward va tokens) :
    va ≤ cursorAfter va tokens := by
  induction tokens generalizing va with
  | nil => exact le_rfl
  | cons token tokens ih =>
      cases token with
      | setHva hva => exact h.1.trans (ih h.2)
      | item type nr =>
          have hle := ih h.2
          rw [ulong_of_lt h.1] at hle
          rw [cursorAfter, ulong_of_lt h.1]
          omega

/-- A run makes one call at most, for pages that fill the run. -/
theorem refCalls_cases (type : ProcIdlePageType) (nr va : ℕ) :
    refCalls type nr va = [] ∨
      ∃ type' nr', refCalls type nr va = [⟨type', nr', va⟩] ∧
        type'.size * nr' = type.size * nr ∧ 0 < type'.size ∧
        (type'.index = .pteAccessed → type'.size = 2 ^ 12) := by
  cases type with
  | pteHole | pmdHole | pipCmd => exact Or.inl rfl
  | pmdIdlePtes =>
      refine Or.inr ⟨pteIdle, nr * 512, rfl, ?_, by decide, fun _ => rfl⟩
      simp only [ProcIdlePageType.size]
      omega
  | pteAccessed | pteDirty | pteIdle =>
      exact Or.inr ⟨_, nr, rfl, rfl, by decide, fun _ => rfl⟩
  | pmdAccessed | pmdDirty | pmdIdle | pudPresent =>
      exact Or.inr ⟨_, nr, rfl, rfl, by decide, fun h => absurd h (by decide)⟩

/-- The pages of a call that does not wrap. -/
theorem RefCall.pages_eq {call : RefCall}
    (hlt : call.va + call.type.size * call.nr < 2 ^ 64) :
    call.pages = (List.range call.nr).map fun i => (call.type, call.va + i * call.type.size) := by
  refine List.map_congr_left fun i hi => ?_
  have hmul := Nat.mul_le_mul_right call.type.size (List.mem_range.mp hi).le
  rw [Nat.mul_comm call.nr] at hmul
  rw [ulong_of_lt (by omega)]

/-- A stream that goes forward reports ascending pages, between the cursor before
and the cursor after it. -/
theorem Forward.reported {va : ℕ} {tokens : List PipToken} (h : Forward va tokens) :
    (reported va tokens).Pairwise (fun p q => p.2 < q.2) ∧
      ∀ p ∈ reported va tokens, va ≤ p.2 ∧ p.2 < cursorAfter va tokens := by
  induction tokens generalizing va with
  | nil => simp [MemoryOptimizer.reported]
  | cons token tokens ih =>
      cases token with
      | setHva hva =>
          obtain ⟨hasc, hmem⟩ := ih h.2
          exact ⟨hasc, fun p hp => ⟨h.1.trans (hmem p hp).1, (hmem p hp).2⟩⟩
      | item type nr =>
          obtain ⟨hlt, h⟩ := h
          obtain ⟨hasc, hmem⟩ := ih h
          have hle := h.le_cursorAfter
          rw [MemoryOptimizer.reported, cursorAfter]
          rw [ulong_of_lt hlt] at hasc hmem hle ⊢
          rcases refCalls_cases type nr va with hnil | ⟨type', nr', hcalls, hsize, hpos, -⟩
          · rw [hnil]
            exact ⟨hasc, fun p hp => ⟨by have := hmem p hp; omega, (hmem p hp).2⟩⟩
          · have hpages := @RefCall.pages_eq ⟨type', nr', va⟩ (hsize ▸ hlt)
            have hrun : ∀ p ∈ (⟨type', nr', va⟩ : RefCall).pages,
                va ≤ p.2 ∧ p.2 < va + type.size * nr := by
              intro p hp
              rw [hpages] at hp
              obtain ⟨i, hi, rfl⟩ := List.mem_map.mp hp
              have hmul := Nat.mul_le_mul_right type'.size
                (Nat.succ_le_of_lt (List.mem_range.mp hi))
              rw [Nat.succ_mul, Nat.mul_comm nr', hsize] at hmul
              exact ⟨Nat.le_add_right _ _, by simp only; omega⟩
            rw [hcalls, List.flatMap_singleton]
            refine ⟨List.pairwise_append.mpr ⟨?_, hasc, fun p hp q hq => ?_⟩, fun p hp => ?_⟩
            · rw [hpages, List.pairwise_map]
              refine List.pairwise_lt_range.imp fun {i j} hij => ?_
              exact Nat.add_lt_add_left (Nat.mul_lt_mul_of_pos_right hij hpos) va
            · exact (hrun p hp).2.trans_le (hmem q hq).1
            · rcases List.mem_append.mp hp with hp | hp
              · have := hrun p hp
                omega
              · have := hmem p hp
                omega

namespace ProcIdlePages

/-- Updates of the counts, one after the other. -/
def countAll (pageRefs : AddrSequence) (counts : List (ℕ × ℕ)) : AddrSequence :=
  counts.foldl (fun s call => (s.incPayload Alloc.ok call.1 call.2).1) pageRefs

theorem countAll_append (pageRefs : AddrSequence) (counts counts' : List (ℕ × ℕ)) :
    countAll pageRefs (counts ++ counts') = countAll (countAll pageRefs counts) counts' :=
  List.foldl_append

/-- The updates of the 4K counts for a list of pages: those below `stop`. -/
def refCounts (stop : ℕ) (pages : List (ProcIdlePageType × ℕ)) : List (ℕ × ℕ) :=
  (pages.filter fun p => p.1.index = .pteAccessed ∧ p.2 < stop).map fun p => (p.2, p.1.weight)

theorem refCounts_append (stop : ℕ) (pages pages' : List (ProcIdlePageType × ℕ)) :
    refCounts stop (pages ++ pages') = refCounts stop pages ++ refCounts stop pages' := by
  simp [refCounts]

theorem incLoop_eq {type : ProcIdlePageType} {stop nr va : ℕ}
    (hva : va < stop) (hlt : va + type.size * nr < 2 ^ 64) (pageRefs : AddrSequence) :
    incLoop type stop nr va pageRefs =
      countAll pageRefs (((List.range nr).map fun i => (va + i * type.size, type.weight)).filter
        (·.1 < stop)) := by
  induction nr generalizing va pageRefs with
  | zero => rfl
  | succ nr ih =>
      rw [Nat.mul_succ] at hlt
      have hnext : ulong (va + type.size) = va + type.size := ulong_of_lt (by omega)
      have hrest : ((List.range nr).map fun i => (va + (i + 1) * type.size, type.weight)) =
          (List.range nr).map fun i => (va + type.size + i * type.size, type.weight) :=
        List.map_congr_left fun i _ => by rw [Nat.succ_mul]; ac_rfl
      rw [List.range_succ_eq_map, List.map_cons, List.map_map, Nat.zero_mul, Nat.add_zero,
        List.filter_cons_of_pos (by simpa using hva)]
      show _ = countAll _ (((List.range nr).map fun i =>
        (va + (i + 1) * type.size, type.weight)).filter (·.1 < stop))
      rw [hrest, incLoop, hnext]
      split
      · rename_i hge
        rw [List.filter_eq_nil_iff.mpr]
        · rfl
        · intro p hp
          obtain ⟨i, -, rfl⟩ := List.mem_map.mp hp
          simp only [decide_eq_true_eq, not_lt]
          omega
      · rename_i hge
        exact ih (not_le.mp hge) (by omega) _

/-- A call of `inc_page_refs` updates the 4K counts of its pages below `stop`. -/
theorem incPageRefs_pte {stop : ℕ} {call : RefCall} (hva : call.va < stop)
    (hlt : call.va + call.type.size * call.nr < 2 ^ 64)
    (hpte : call.type.index = .pteAccessed → call.type.size = 2 ^ 12)
    (halign : ∀ p ∈ call.pages, p.1.index = .pteAccessed → 2 ^ 12 ∣ p.2)
    (pageRefs : ProcIdlePageType → AddrSequence) :
    incPageRefs stop pageRefs call .pteAccessed =
      countAll (pageRefs .pteAccessed) (refCounts stop call.pages) := by
  rw [RefCall.pages_eq hlt] at halign ⊢
  by_cases hindex : call.type.index = .pteAccessed
  · have hcounts : refCounts stop
        ((List.range call.nr).map fun i => (call.type, call.va + i * call.type.size)) =
        ((List.range call.nr).map fun i => (call.va + i * call.type.size, call.type.weight)).filter
          (·.1 < stop) := by
      simp [refCounts, List.filter_map, Function.comp_def, hindex]
    rw [hcounts, ← incLoop_eq hva hlt, incPageRefs]
    split
    · rename_i hmod
      -- an unaligned run has no pages here
      cases hnr : call.nr with
      | zero => rfl
      | succ nr =>
          have hdvd := halign (call.type, call.va)
            (List.mem_map.mpr ⟨0, List.mem_range.mpr (by omega), by simp⟩) hindex
          rw [hpte hindex, Nat.and_two_pow_sub_one_eq_mod] at hmod
          exact absurd (Nat.mod_eq_zero_of_dvd hdvd) hmod
    · rw [hindex, Function.update_self]
  · have hcounts : refCounts stop
        ((List.range call.nr).map fun i => (call.type, call.va + i * call.type.size)) = [] := by
      simp [refCounts, hindex]
    rw [hcounts, incPageRefs]
    split
    · rfl
    · rw [Function.update_of_ne (Ne.symm hindex)]
      rfl

/-- What the decoder does with a stream that goes forward: the 4K counts get the
pages reported below `stop`, and the cursor ends behind the stream or at `stop` or
above. -/
theorem scan_counts {stop va : ℕ} {tokens : List PipToken} (h : Forward va tokens)
    (halign : ∀ p ∈ reported va tokens, p.1.index = .pteAccessed → 2 ^ 12 ∣ p.2)
    (pageRefs : ProcIdlePageType → AddrSequence) :
    ((scan stop va tokens).2.foldl (incPageRefs stop) pageRefs) .pteAccessed =
        countAll (pageRefs .pteAccessed) (refCounts stop (reported va tokens)) ∧
      ((scan stop va tokens).1 = cursorAfter va tokens ∨
        stop ≤ (scan stop va tokens).1 ∧ (scan stop va tokens).1 ≤ cursorAfter va tokens) := by
  induction tokens generalizing va pageRefs with
  | nil => exact ⟨rfl, Or.inl rfl⟩
  | cons token tokens ih =>
      cases token with
      | setHva hva => exact ih h.2 halign pageRefs
      | item type nr =>
          by_cases hge : va ≥ stop
          · -- everything from here on is at `stop` or above
            have hnone : refCounts stop (reported va (.item type nr :: tokens)) = [] := by
              rw [refCounts, List.filter_eq_nil_iff.mpr, List.map_nil]
              intro p hp
              have := (h.reported.2 p hp).1
              simp only [decide_eq_true_eq, not_and, not_lt]
              omega
            rw [scan, if_pos hge, hnone]
            exact ⟨rfl, Or.inr ⟨hge, h.le_cursorAfter⟩⟩
          · obtain ⟨hlt, h⟩ := h
            rw [reported, List.forall_mem_append] at halign
            obtain ⟨hcount, hcursor⟩ := ih h halign.2
              ((refCalls type nr va).foldl (incPageRefs stop) pageRefs)
            rw [scan, if_neg hge, reported, refCounts_append, countAll_append]
            refine ⟨?_, hcursor⟩
            rw [List.foldl_append, hcount]
            congr 1
            rcases refCalls_cases type nr va with hnil | ⟨type', nr', hcalls, hsize, -, hpte⟩
            · rw [hnil]
              rfl
            · have hrun := halign.1
              rw [hcalls, List.flatMap_singleton] at hrun
              rw [hcalls, List.flatMap_singleton]
              exact incPageRefs_pte (not_le.mp hge) (hsize ▸ hlt) hpte hrun pageRefs

/-- A stream that sets page addresses leaves the decoder at one. -/
theorem scan_aligned (stop : ℕ) {va : ℕ} {tokens : List PipToken} (hva : 2 ^ 12 ∣ va)
    (h : ∀ hva, PipToken.setHva hva ∈ tokens → 2 ^ 12 ∣ hva) :
    2 ^ 12 ∣ (scan stop va tokens).1 := by
  induction tokens generalizing va with
  | nil => exact hva
  | cons token tokens ih =>
      have hrest := fun hva hmem => h hva (List.mem_cons_of_mem _ hmem)
      cases token with
      | setHva hva => exact ih (h hva (List.mem_cons_self ..)) hrest
      | item type nr =>
          rw [scan]
          split
          · exact hva
          · have hsize : 2 ^ 12 ∣ type.size := by cases type <;> decide
            have hmul : 2 ^ 12 ∣ type.size * nr := hsize.mul_right nr
            refine ih ?_ hrest
            unfold ulong
            omega

end ProcIdlePages

end MemoryOptimizer
