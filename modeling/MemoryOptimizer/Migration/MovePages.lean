import Mathlib.Algebra.Order.Group.Nat
import Mathlib.Algebra.Ring.Int.Defs
import Mathlib.Data.List.Defs
import Mathlib.Logic.Function.Basic

/-!
# Moving batches of pages

`MovePages` keeps the array of statuses from one batch to the next, and
`MoveStats` counts a page as moved when its entry holds the target node. The
kernel writes an entry or leaves it alone, for every page on its own: a call that
succeeds writes all of them, one that fails or returns a positive number none, and
after a positive return the entries are asked for again.

* `movePages_getElem?` — the entries after a batch.
* `statusAfter_eq` — the entries after a run of batches, from what the kernel
  wrote.
* `countedMoved_wrote_iff` — when every page that a run counts as moved was
  moved by its own batch.
-/

namespace MemoryOptimizer

namespace MovePages

/-! ### The batches -/

/-- A call of `move_pages(2)`: its result, and the statuses it writes. -/
structure Syscall where
  ret : ℤ
  written : ℕ → Option ℤ

/-- The pages of a batch, each with the node it is on and its target node, and the
kernel's answers to the move and, after a positive return, to the query. -/
structure Batch where
  pages : List (ℤ × ℤ)
  move : Syscall
  query : Syscall

/-- `MoveStats::default_failed`. -/
def defaultFailed : ℤ := -128

/-- `vector::resize`. -/
def resize (status : List ℤ) (size : ℕ) (value : ℤ) : List ℤ :=
  status.take size ++ List.replicate (size - status.length) value

/-- What a call leaves in the array. -/
def Syscall.store (call : Syscall) (status : List ℤ) : List ℤ :=
  status.mapIdx fun i s => (call.written i).getD s

/-- `MovePages::move_pages(addrs, target_nid, size)`, on `status_after_move`. -/
def movePages (status : List ℤ) (b : Batch) : List ℤ × ℤ :=
  let status := b.move.store (resize status b.pages.length defaultFailed)
  if 0 < b.move.ret then (b.query.store status, b.move.ret) else (status, b.move.ret)

/-! ### The statistics -/

/-- `struct MoveStats`; the map counts bytes by the key of `box_movestate`. -/
structure MoveStats where
  toMoveKb : ℕ
  skipKb : ℕ
  moveKb : ℕ
  movePageStatus : ℤ → ℕ

/-- `box_movestate`. -/
def boxMovestate (status targetNode result : ℤ) : ℤ :=
  status + targetNode * 2 ^ 8 + result * 2 ^ 16

/-- `save_move_states`. -/
def saveMoveStates (stats : MoveStats) (status targetNode statusAfterMove : ℤ) (pageShift : ℕ) :
    MoveStats :=
  let key := boxMovestate status targetNode statusAfterMove
  { stats with
    movePageStatus :=
      Function.update stats.movePageStatus key (stats.movePageStatus key + 2 ^ pageShift) }

/-- The test of `save_migrate_states`: the page is on its target node, and was
not before. -/
def isMoved (page : ℤ × ℤ) (result : ℤ) : Bool := result = page.2 && page.1 ≠ page.2

/-- `save_migrate_states`. -/
def saveMigrateStates (stats : MoveStats) (pageShift : ℕ) (pages : List (ℤ × ℤ))
    (migrateResult : List ℤ) : MoveStats :=
  let entries := pages.zip migrateResult
  let moveKb := (entries.countP fun e => isMoved e.1 e.2) * 2 ^ (pageShift - 10)
  let skipKb := (entries.countP fun e => !isMoved e.1 e.2) * 2 ^ (pageShift - 10)
  let stats := entries.foldl
    (fun stats e => saveMoveStates stats e.1.1 e.1.2 e.2 pageShift) stats
  { stats with
    moveKb := stats.moveKb + moveKb
    skipKb := stats.skipKb + skipKb
    toMoveKb := stats.toMoveKb + (moveKb + skipKb) }

/-- The totals do not depend on the map. -/
theorem totals_foldl (entries : List ((ℤ × ℤ) × ℤ)) (pageShift : ℕ) (stats : MoveStats) :
    let stats' := entries.foldl (fun stats e => saveMoveStates stats e.1.1 e.1.2 e.2 pageShift)
      stats
    stats'.moveKb = stats.moveKb ∧ stats'.skipKb = stats.skipKb ∧
      stats'.toMoveKb = stats.toMoveKb := by
  induction entries generalizing stats with
  | nil => exact ⟨rfl, rfl, rfl⟩
  | cons e entries ih => exact ih _

/-- `save_migrate_states` counts page `i` of the batch as moved. -/
def CountedMoved (status : List ℤ) (b : Batch) (i : ℕ) : Prop :=
  ∃ e, (b.pages.zip (movePages status b).1)[i]? = some e ∧ isMoved e.1 e.2 = true

/-- The array after some batches. -/
def statusAfter (status : List ℤ) (batches : List Batch) : List ℤ :=
  batches.foldl (fun status b => (movePages status b).1) status

/-! ### What the kernel wrote -/

/-- What the calls of a batch left in entry `i`. -/
def Batch.written (b : Batch) (i : ℕ) : Option ℤ :=
  if 0 < b.move.ret then (b.query.written i).or (b.move.written i) else b.move.written i

/-- A call of the batch wrote status `s` for page `i`. -/
def Batch.Wrote (b : Batch) (i : ℕ) (s : ℤ) : Prop :=
  b.move.written i = some s ∨ 0 < b.move.ret ∧ b.query.written i = some s

/-- The last status that the kernel wrote in entry `i` since a batch had no such
page; an entry that a batch cuts off starts again. -/
def lastWritten (w : Option ℤ) (batches : List Batch) (i : ℕ) : Option ℤ :=
  batches.foldl (fun w b => if i < b.pages.length then (b.written i).or w else none) w

theorem Batch.wrote_of_written {b : Batch} {i : ℕ} {s : ℤ} (h : b.written i = some s) :
    b.Wrote i s := by
  unfold written at h
  split at h
  · next hret =>
    rcases Option.or_eq_some_iff.mp h with hquery | ⟨-, hmove⟩
    · exact .inr ⟨hret, hquery⟩
    · exact .inl hmove
  · exact .inl h

theorem Batch.written_ne_none {b : Batch} {i : ℕ} {s : ℤ} (h : b.Wrote i s) :
    b.written i ≠ none := by
  unfold written
  rcases h with hmove | ⟨hret, hquery⟩
  · split <;> simp [hmove]
  · simp [hret, hquery]

/-! ### One batch -/

theorem resize_getElem? (status : List ℤ) {size i : ℕ} (value : ℤ) (hi : i < size) :
    (resize status size value)[i]? = some ((status[i]?).getD value) := by
  unfold resize
  rcases lt_or_ge i status.length with hlt | hge
  · rw [List.getElem?_append_left (by rw [List.length_take]; omega), List.getElem?_take_of_lt hi,
      List.getElem?_eq_getElem hlt]
    rfl
  · rw [List.getElem?_append_right (by rw [List.length_take]; omega), List.getElem?_replicate,
      List.length_take, if_pos (by omega), List.getElem?_eq_none hge]
    rfl

theorem length_resize (status : List ℤ) (size : ℕ) (value : ℤ) :
    (resize status size value).length = size := by
  simp only [resize, List.length_append, List.length_take, List.length_replicate]
  omega

theorem length_movePages (status : List ℤ) (b : Batch) :
    (movePages status b).1.length = b.pages.length := by
  unfold movePages
  dsimp only
  split <;> simp [Syscall.store, length_resize]

/-- **One batch.** An entry that no call writes keeps the status of the batches
before, or has the default where the array has grown. -/
theorem movePages_getElem? (status : List ℤ) (b : Batch) {i : ℕ} (hi : i < b.pages.length) :
    (movePages status b).1[i]? =
      some ((b.written i).getD ((status[i]?).getD defaultFailed)) := by
  unfold movePages Batch.written
  dsimp only
  split
  · simp only [Syscall.store, List.getElem?_mapIdx, resize_getElem? status _ hi, Option.map_some]
    cases b.query.written i <;> rfl
  · simp only [Syscall.store, List.getElem?_mapIdx, resize_getElem? status _ hi, Option.map_some]

/-! ### Runs of batches -/

theorem movePages_getD (status : List ℤ) (b : Batch) {w : Option ℤ} {i : ℕ}
    (h : (status[i]?).getD defaultFailed = w.getD defaultFailed) :
    ((movePages status b).1[i]?).getD defaultFailed =
      (if i < b.pages.length then (b.written i).or w else none).getD defaultFailed := by
  split
  · next hi =>
    rw [movePages_getElem? status b hi, h]
    cases b.written i <;> rfl
  · next hi =>
    rw [List.getElem?_eq_none (by rw [length_movePages]; omega)]

/-- The array after a run of batches: the last status that the kernel wrote, or
the default. -/
theorem statusAfter_eq (batches : List Batch) {status : List ℤ} {w : Option ℤ} {i : ℕ}
    (h : (status[i]?).getD defaultFailed = w.getD defaultFailed) :
    ((statusAfter status batches)[i]?).getD defaultFailed =
      (lastWritten w batches i).getD defaultFailed := by
  induction batches generalizing status w with
  | nil => exact h
  | cons b batches ih => exact ih (movePages_getD status b h)

/-- When a page is counted as moved, by what the kernel wrote. -/
theorem countedMoved_iff (before : List Batch) (b : Batch) (i : ℕ) :
    CountedMoved (statusAfter [] before) b i ↔
      ∃ page, b.pages[i]? = some page ∧ page.1 ≠ page.2 ∧
        ((b.written i).or (lastWritten none before i)).getD defaultFailed = page.2 := by
  have hstale : ((statusAfter [] before)[i]?).getD defaultFailed =
      (lastWritten none before i).getD defaultFailed := statusAfter_eq before rfl
  have hentry : ∀ page, b.pages[i]? = some page →
      (movePages (statusAfter [] before) b).1[i]? =
        some (((b.written i).or (lastWritten none before i)).getD defaultFailed) := by
    intro page hpage
    rw [movePages_getElem? _ b (List.getElem?_eq_some_iff.mp hpage).1, hstale]
    cases b.written i <;> rfl
  constructor
  · rintro ⟨⟨page, result⟩, hzip, hmoved⟩
    obtain ⟨hpage, hresult⟩ := List.getElem?_zip_eq_some.mp hzip
    rw [hentry page hpage, Option.some_inj] at hresult
    simp only [isMoved, Bool.and_eq_true, decide_eq_true_eq] at hmoved
    exact ⟨page, hpage, hmoved.2, hresult.trans hmoved.1⟩
  · rintro ⟨page, hpage, hne, heq⟩
    have hresult := hentry page hpage
    rw [heq] at hresult
    exact ⟨(page, page.2), List.getElem?_zip_eq_some.mpr ⟨hpage, hresult⟩, by simp [isMoved, hne]⟩

/-- Every sequence of batches through one `MovePages` object, with every answer
of the kernel: each page that is counted as moved had its target node written as
its status by a call for its own batch, if and only if no page on its way to
another node that the calls of its batch leave untouched has, at its index, its
target node as the last status from the batches before (or as the default). -/
theorem countedMoved_wrote_iff (batches : List Batch) :
    (∀ before b after, batches = before ++ b :: after → ∀ i,
        CountedMoved (statusAfter [] before) b i →
          ∃ page, b.pages[i]? = some page ∧ b.Wrote i page.2) ↔
      ∀ before b after, batches = before ++ b :: after → ∀ i page,
        b.pages[i]? = some page → page.1 ≠ page.2 → b.written i = none →
          (lastWritten none before i).getD defaultFailed ≠ page.2 := by
  constructor
  · intro h before b after hsplit i page hpage hne hnone heq
    have hcounted : CountedMoved (statusAfter [] before) b i :=
      (countedMoved_iff before b i).mpr ⟨page, hpage, hne, by rw [hnone]; exact heq⟩
    obtain ⟨page', -, hwrote⟩ := h before b after hsplit i hcounted
    exact Batch.written_ne_none hwrote hnone
  · intro h before b after hsplit i hcounted
    obtain ⟨page, hpage, hne, heq⟩ := (countedMoved_iff before b i).mp hcounted
    refine ⟨page, hpage, Batch.wrote_of_written ?_⟩
    cases hwritten : b.written i with
    | none =>
        rw [hwritten] at heq
        exact absurd heq (h before b after hsplit i page hpage hne hwritten)
    | some s =>
        rw [hwritten] at heq
        exact congrArg some heq

/-- Two batches of one page on its way from node 1 to node 0. The first is moved;
the process is gone before the second, and its page is counted all the same. -/
theorem countedMoved_staleStatus :
    let first : Batch := ⟨[(1, 0)], ⟨0, fun _ => some 0⟩, ⟨0, fun _ => none⟩⟩
    let second : Batch := ⟨[(1, 0)], ⟨-3, fun _ => none⟩, ⟨0, fun _ => none⟩⟩
    CountedMoved (statusAfter [] [first]) second 0 ∧
      (saveMigrateStates ⟨0, 0, 0, fun _ => 0⟩ 12 second.pages
        (movePages (statusAfter [] [first]) second).1).moveKb = 4 ∧
      ∀ s, ¬second.Wrote 0 s := by
  refine ⟨⟨((1, 0), 0), by decide, by decide⟩, by decide, ?_⟩
  rintro s (h | ⟨h, -⟩)
  · cases h
  · exact absurd h (by decide)

end MovePages

end MemoryOptimizer
