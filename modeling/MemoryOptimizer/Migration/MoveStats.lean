import Mathlib.Algebra.BigOperators.Group.Finset.Piecewise
import Mathlib.Algebra.Ring.Int.Defs
import MemoryOptimizer.Lib.Words
import MemoryOptimizer.Migration.MovePages

/-!
# The two accounts of moved memory

`save_migrate_states` counts the pages it finds moved, in KB, and adds the bytes of
every page to the map under a key made of its node, its target node and its status.
`get_moved_bytes` goes through that map, takes the keys apart and decides again which
pages were moved.

* `unboxMovestate_boxMovestate` — a key gives back what it was made of.
* `movePageStatus_eq` — what the map holds after a run of calls.
* `accounts_agree` — the two accounts agree.
-/

namespace MemoryOptimizer

namespace MovePages

/-! ### Reading the statistics -/

/-- `unbox_movestate`. -/
def unboxMovestate (key : ℤ) : ℤ × ℤ × ℤ :=
  (signedChar (key % 2 ^ 8), signedChar (key / 2 ^ 8 % 2 ^ 8), signedChar (key / 2 ^ 16 % 2 ^ 8))

/-- `is_page_moved`. -/
def isPageMoved (source target moveState : ℤ) : Bool :=
  source ≥ 0 && source ≠ target && target = moveState

/-- The pages with this key were moved, in `get_moved_bytes`. -/
def keyMoved (key : ℤ) : Bool :=
  let (source, target, result) := unboxMovestate key
  isPageMoved source target result

/-- `get_moved_bytes`, on the entries of the map in the order of the iteration. -/
def getMovedBytes (entries : List (ℤ × ℕ)) : ℕ :=
  entries.foldl (fun totalMoved i => if keyMoved i.1 then totalMoved + i.2 else totalMoved) 0

/-- The entries of a map, in some order: a key occurs once, and one that does not
occur has counted nothing. -/
structure EntriesOf (map : ℤ → ℕ) (entries : List (ℤ × ℕ)) : Prop where
  nodup : (entries.map Prod.fst).Nodup
  value : ∀ i ∈ entries, i.2 = map i.1
  total : ∀ key, map key ≠ 0 → key ∈ entries.map Prod.fst

/-! ### Runs of calls -/

/-- A page as it is recorded: its node, its target node and its status. -/
structure Recorded where
  source : ℤ
  target : ℤ
  result : ℤ
  deriving DecidableEq

/-- The values the three parts of a key are made for. -/
structure Recorded.InRange (e : Recorded) : Prop where
  source : 0 ≤ e.source ∧ e.source ≤ 127
  target : 0 ≤ e.target ∧ e.target ≤ 127
  result : -128 ≤ e.result ∧ e.result ≤ 127

/-- A call of `save_migrate_states`, for pages of 4 KB or 2 MB. -/
structure MigrateCall where
  pageShift : ℕ
  pages : List (ℤ × ℤ)
  migrateResult : List ℤ
  shift : pageShift = 12 ∨ pageShift = 21
  inRange : ∀ e ∈ pages.zip migrateResult, Recorded.InRange ⟨e.1.1, e.1.2, e.2⟩

/-- `MoveStats::clear`. -/
def MoveStats.clear : MoveStats := ⟨0, 0, 0, fun _ => 0⟩

/-- The statistics after some calls. -/
def statsAfter (stats : MoveStats) (calls : List MigrateCall) : MoveStats :=
  calls.foldl (fun stats call =>
    saveMigrateStates stats call.pageShift call.pages call.migrateResult) stats

/-- The pages of a call, each with its size. -/
def MigrateCall.recorded (call : MigrateCall) : List (Recorded × ℕ) :=
  (call.pages.zip call.migrateResult).map fun e => (⟨e.1.1, e.1.2, e.2⟩, 2 ^ call.pageShift)

/-- The key of a page. -/
def Recorded.key (e : Recorded) : ℤ := boxMovestate e.source e.target e.result

/-- `save_migrate_states` counts the page as moved. -/
def Recorded.moved (e : Recorded) : Bool := isMoved (e.source, e.target) e.result

/-- The bytes of the pages with a property. -/
def bytesOf (P : Recorded → Bool) (recorded : List (Recorded × ℕ)) : ℕ :=
  (recorded.map fun e => if P e.1 then e.2 else 0).sum

@[simp] theorem bytesOf_nil (P : Recorded → Bool) : bytesOf P [] = 0 := rfl

theorem bytesOf_cons (P : Recorded → Bool) (e : Recorded × ℕ) (recorded : List (Recorded × ℕ)) :
    bytesOf P (e :: recorded) = (if P e.1 then e.2 else 0) + bytesOf P recorded := by
  simp [bytesOf]

theorem bytesOf_append (P : Recorded → Bool) (l₁ l₂ : List (Recorded × ℕ)) :
    bytesOf P (l₁ ++ l₂) = bytesOf P l₁ + bytesOf P l₂ := by
  simp [bytesOf]

/-! ### The keys -/

/-- **A key.** The parts do not disturb each other, whatever the sign of the status. -/
theorem unboxMovestate_key {e : Recorded} (h : e.InRange) :
    unboxMovestate e.key = (e.source, e.target, e.result) := by
  obtain ⟨hsource, htarget, hresult⟩ := h
  have hlow : e.key % 2 ^ 8 = e.source := by
    unfold Recorded.key boxMovestate
    omega
  have hmid : e.key / 2 ^ 8 % 2 ^ 8 = e.target := by
    unfold Recorded.key boxMovestate
    omega
  have hhigh : e.key / 2 ^ 16 % 2 ^ 8 = e.result % 2 ^ 8 := by
    unfold Recorded.key boxMovestate
    omega
  have hresult' : signedChar (e.result % 2 ^ 8) = e.result := by
    rw [signedChar, Int.bmod_def]
    split <;> omega
  rw [unboxMovestate, hlow, hmid, hhigh, hresult',
    signedChar_of_bounds (by omega) hsource.2, signedChar_of_bounds (by omega) htarget.2]

theorem key_injective {e e' : Recorded} (h : e.InRange) (h' : e'.InRange)
    (heq : e.key = e'.key) : e = e' := by
  have hbox := unboxMovestate_key h
  rw [heq, unboxMovestate_key h'] at hbox
  obtain ⟨hsource, htarget, hresult⟩ : _ ∧ _ ∧ _ := by simpa only [Prod.mk.injEq] using hbox
  cases e
  cases e'
  simp_all only

/-- The two tests of a moved page agree. -/
theorem keyMoved_key {e : Recorded} (h : e.InRange) : keyMoved e.key = e.moved := by
  have hsource := h.source.1
  simp only [keyMoved, unboxMovestate_key h, isPageMoved, Recorded.moved, isMoved, hsource,
    decide_true, Bool.true_and, Bool.and_comm, eq_comm (a := e.target)]

/-! ### What a run leaves -/

/-- The map after the loop of one call. -/
theorem movePageStatus_foldl (entries : List ((ℤ × ℤ) × ℤ)) (pageShift : ℕ) (stats : MoveStats)
    (key : ℤ) :
    (entries.foldl (fun stats e => saveMoveStates stats e.1.1 e.1.2 e.2 pageShift)
        stats).movePageStatus key =
      stats.movePageStatus key +
        bytesOf (fun e => e.key = key)
          (entries.map fun e => (⟨e.1.1, e.1.2, e.2⟩, 2 ^ pageShift)) := by
  induction entries generalizing stats with
  | nil => rfl
  | cons e entries ih =>
      rw [List.foldl_cons, ih, List.map_cons, bytesOf_cons, ← Nat.add_assoc]
      congr 1
      by_cases h : boxMovestate e.1.1 e.1.2 e.2 = key
      · simp [saveMoveStates, Recorded.key, h]
      · simp [saveMoveStates, Recorded.key, h, Function.update_of_ne (Ne.symm h)]

/-- The pages counted by `save_migrate_states` and their bytes. -/
theorem countP_mul_eq_bytesOf (call : MigrateCall) (P : Recorded → Bool) :
    (call.pages.zip call.migrateResult).countP (fun e => P ⟨e.1.1, e.1.2, e.2⟩) *
        2 ^ (call.pageShift - 10) * 2 ^ 10 =
      bytesOf P call.recorded := by
  have hpow : 2 ^ (call.pageShift - 10) * 2 ^ 10 = 2 ^ call.pageShift := by
    rcases call.shift with h | h <;> rw [h] <;> rfl
  rw [Nat.mul_assoc, hpow, MigrateCall.recorded]
  induction call.pages.zip call.migrateResult with
  | nil => simp
  | cons e entries ih =>
      rw [List.countP_cons, List.map_cons, bytesOf_cons, ← ih]
      rw [Nat.add_mul, Nat.add_comm]
      split_ifs <;> omega

/-- **One call.** -/
theorem saveMigrateStates_spec (stats : MoveStats) (call : MigrateCall) :
    let stats' := saveMigrateStates stats call.pageShift call.pages call.migrateResult
    (∀ key, stats'.movePageStatus key =
        stats.movePageStatus key + bytesOf (fun e => e.key = key) call.recorded) ∧
      stats'.moveKb * 2 ^ 10 = stats.moveKb * 2 ^ 10 + bytesOf Recorded.moved call.recorded ∧
      (stats.toMoveKb = stats.moveKb + stats.skipKb →
        stats'.toMoveKb = stats'.moveKb + stats'.skipKb) := by
  obtain ⟨hmove, hskip, htoMove⟩ :=
    totals_foldl (call.pages.zip call.migrateResult) call.pageShift stats
  refine ⟨fun key => movePageStatus_foldl _ _ _ key, ?_, fun h => ?_⟩
  · simp only [saveMigrateStates, hmove]
    rw [Nat.add_mul, ← countP_mul_eq_bytesOf]
    rfl
  · simp only [saveMigrateStates, hmove, hskip, htoMove]
    omega

/-- **A run of calls.** -/
theorem statsAfter_spec (calls : List MigrateCall) (stats : MoveStats)
    (hstats : stats.toMoveKb = stats.moveKb + stats.skipKb) :
    (∀ key, (statsAfter stats calls).movePageStatus key = stats.movePageStatus key +
        bytesOf (fun e => e.key = key) (calls.flatMap MigrateCall.recorded)) ∧
      (statsAfter stats calls).moveKb * 2 ^ 10 =
        stats.moveKb * 2 ^ 10 + bytesOf Recorded.moved (calls.flatMap MigrateCall.recorded) ∧
      (statsAfter stats calls).toMoveKb =
        (statsAfter stats calls).moveKb + (statsAfter stats calls).skipKb := by
  induction calls generalizing stats with
  | nil => exact ⟨fun _ => rfl, (Nat.add_zero _).symm, hstats⟩
  | cons call calls ih =>
      obtain ⟨hstatus, hmove, htotal⟩ := saveMigrateStates_spec stats call
      obtain ⟨hstatus', hmove', htotal'⟩ := ih _ (htotal hstats)
      refine ⟨fun key => ?_, ?_, htotal'⟩
      · rw [statsAfter, List.foldl_cons, ← statsAfter, hstatus', hstatus, List.flatMap_cons,
          bytesOf_append, Nat.add_assoc]
      · rw [statsAfter, List.foldl_cons, ← statsAfter, hmove', hmove, List.flatMap_cons,
          bytesOf_append, Nat.add_assoc]

theorem recorded_inRange {calls : List MigrateCall} {e : Recorded × ℕ}
    (he : e ∈ calls.flatMap MigrateCall.recorded) : e.1.InRange ∧ e.2 ≠ 0 := by
  obtain ⟨call, -, he⟩ := List.mem_flatMap.mp he
  obtain ⟨page, hpage, rfl⟩ := List.mem_map.mp he
  exact ⟨call.inRange page hpage, (Nat.two_pow_pos _).ne'⟩

/-! ### The iteration -/

theorem getMovedBytes_eq (entries : List (ℤ × ℕ)) :
    getMovedBytes entries = (entries.map fun i => if keyMoved i.1 then i.2 else 0).sum := by
  have hloop : ∀ total, entries.foldl
      (fun totalMoved i => if keyMoved i.1 then totalMoved + i.2 else totalMoved) total =
        total + (entries.map fun i => if keyMoved i.1 then i.2 else 0).sum := by
    induction entries with
    | nil => exact fun _ => rfl
    | cons i entries ih =>
        intro total
        rw [List.foldl_cons, ih, List.map_cons, List.sum_cons]
        split_ifs <;> omega
  rw [getMovedBytes, hloop, Nat.zero_add]

/-- Going through the keys counts the bytes of every page under its key. -/
theorem sum_keys {keys : Finset ℤ} (P : ℤ → Bool) {recorded : List (Recorded × ℕ)}
    (hkeys : ∀ e ∈ recorded, e.1.key ∈ keys) :
    (∑ key ∈ keys, if P key then bytesOf (fun e => e.key = key) recorded else 0) =
      bytesOf (fun e => P e.key) recorded := by
  induction recorded with
  | nil => simp
  | cons e recorded ih =>
      rw [bytesOf_cons, ← ih fun e' he' => hkeys e' (List.mem_cons_of_mem _ he')]
      have hone : (if P e.1.key then e.2 else 0) =
          ∑ key ∈ keys, if e.1.key = key then if P key then e.2 else 0 else 0 := by
        rw [Finset.sum_ite_eq, if_pos (hkeys e (List.mem_cons_self ..))]
      rw [hone, ← Finset.sum_add_distrib]
      refine Finset.sum_congr rfl fun key _ => ?_
      rw [bytesOf_cons]
      by_cases hkey : e.1.key = key <;> by_cases hP : P key <;> simp [hkey, hP]

theorem EntriesOf.sum_eq {map : ℤ → ℕ} {entries : List (ℤ × ℕ)} (h : EntriesOf map entries)
    (P : ℤ → Bool) :
    (entries.map fun i => if P i.1 then i.2 else 0).sum =
      ∑ key ∈ (entries.map Prod.fst).toFinset, if P key then map key else 0 := by
  rw [List.sum_toFinset _ h.nodup, List.map_map]
  refine congrArg List.sum (List.map_congr_left fun i hi => ?_)
  rw [Function.comp_apply, ← h.value i hi]

theorem bytesOf_congr {P Q : Recorded → Bool} {recorded : List (Recorded × ℕ)}
    (h : ∀ e ∈ recorded, P e.1 = Q e.1) : bytesOf P recorded = bytesOf Q recorded :=
  congrArg List.sum (List.map_congr_left fun e he => by rw [h e he])

/-- Every sequence of calls after `clear`, with any batches: the bytes that the map
counts as moved are the moved KB, every page is moved or skipped, and a key gives
back the recorded page and holds the bytes of the pages recorded like it. -/
theorem accounts_agree (calls : List MigrateCall) {entries : List (ℤ × ℕ)}
    (hentries : EntriesOf (statsAfter .clear calls).movePageStatus entries) :
    getMovedBytes entries = (statsAfter .clear calls).moveKb * 1024 ∧
      (statsAfter .clear calls).toMoveKb =
        (statsAfter .clear calls).moveKb + (statsAfter .clear calls).skipKb ∧
      ∀ e ∈ calls.flatMap MigrateCall.recorded,
        unboxMovestate e.1.key = (e.1.source, e.1.target, e.1.result) ∧
          (e.1.key, bytesOf (fun e' => e' = e.1) (calls.flatMap MigrateCall.recorded)) ∈
            entries := by
  obtain ⟨hstatus, hmove, htotal⟩ := statsAfter_spec calls .clear rfl
  have hmap : ∀ key, (statsAfter .clear calls).movePageStatus key =
      bytesOf (fun e => e.key = key) (calls.flatMap MigrateCall.recorded) := fun key => by
    rw [hstatus, MoveStats.clear, Nat.zero_add]
  have hkey : ∀ e ∈ calls.flatMap MigrateCall.recorded, e.1.key ∈ entries.map Prod.fst := by
    intro e he
    refine hentries.total _ fun hzero => (recorded_inRange he).2 ?_
    rw [hmap] at hzero
    have hpage := List.sum_eq_zero_iff_forall_eq_nat.mp hzero _ (List.mem_map_of_mem he)
    simpa using hpage
  refine ⟨?_, htotal, fun e he => ⟨unboxMovestate_key (recorded_inRange he).1, ?_⟩⟩
  · calc getMovedBytes entries
        = ∑ key ∈ (entries.map Prod.fst).toFinset,
            if keyMoved key then (statsAfter .clear calls).movePageStatus key else 0 := by
          rw [getMovedBytes_eq, hentries.sum_eq]
      _ = bytesOf (fun e => keyMoved e.key) (calls.flatMap MigrateCall.recorded) := by
          simp only [hmap]
          exact sum_keys keyMoved fun e he => List.mem_toFinset.mpr (hkey e he)
      _ = bytesOf Recorded.moved (calls.flatMap MigrateCall.recorded) :=
          bytesOf_congr fun e he => keyMoved_key (recorded_inRange he).1
      _ = (statsAfter .clear calls).moveKb * 1024 := by
          rw [MoveStats.clear, Nat.zero_mul, Nat.zero_add] at hmove
          exact hmove.symm
  · obtain ⟨i, hi, hfst⟩ := List.mem_map.mp (hkey e he)
    have hsame : bytesOf (fun e' => e'.key = e.1.key) (calls.flatMap MigrateCall.recorded) =
        bytesOf (fun e' => e' = e.1) (calls.flatMap MigrateCall.recorded) :=
      bytesOf_congr fun e' he' => decide_eq_decide.mpr
        ⟨key_injective (recorded_inRange he').1 (recorded_inRange he).1, congrArg Recorded.key⟩
    rw [← hsame, ← hmap, ← hfst, ← hentries.value i hi]
    exact hi

/-- One page moved from node 1 to node 0, and one that the kernel did not find. -/
theorem accounts_agree_two :
    let calls : List MigrateCall := [⟨12, [(1, 0), (1, 0)], [0, -14], by decide, by
      intro e he
      simp only [List.zip_cons_cons, List.zip_nil_right, List.mem_cons, List.not_mem_nil,
        or_false] at he
      rcases he with rfl | rfl <;> constructor <;> decide⟩]
    getMovedBytes [(1, 4096), (1 - 14 * 2 ^ 16, 4096)] =
        (statsAfter .clear calls).moveKb * 1024 ∧
      (statsAfter .clear calls).toMoveKb =
        (statsAfter .clear calls).moveKb + (statsAfter .clear calls).skipKb ∧
      ∀ e ∈ calls.flatMap MigrateCall.recorded,
        unboxMovestate e.1.key = (e.1.source, e.1.target, e.1.result) ∧
          (e.1.key, bytesOf (fun e' => e' = e.1) (calls.flatMap MigrateCall.recorded)) ∈
            [(1, 4096), (1 - 14 * 2 ^ 16, 4096)] := by
  refine accounts_agree _ ⟨by decide, by decide, fun key hkey => ?_⟩
  by_contra hnot
  simp only [List.map_cons, List.map_nil, List.mem_cons, List.not_mem_nil, or_false,
    not_or] at hnot
  have hother : key ≠ -917503 := by omega
  exact hkey (by simp [statsAfter, saveMigrateStates, saveMoveStates, MoveStats.clear,
    boxMovestate, hnot.1, hother])

end MovePages

end MemoryOptimizer
