import Mathlib.Algebra.Order.Field.Rat
import Mathlib.Algebra.Order.Field.Basic
import Mathlib.Tactic.FieldSimp
import Mathlib.Tactic.Ring
import MemoryOptimizer.Lib.SortedMap
import MemoryOptimizer.Lib.Words

/-!
# The interval estimate

`IntervalFitting` keeps the latest pairs of a scan interval and the bytes found young in
it, ordered by the interval, and estimates the interval for a target number of bytes:
from the line through the two pairs next to the target, or, with pairs on one side of
the target only, by scaling the interval of the closest one. Its numbers are rationals.

* `Pool` — what `add_pair` keeps of a pool.
* `findClosest_spec` — the selection of the pairs.
* `estimateX_between` — the estimate, for every history.
-/

namespace MemoryOptimizer

/-- `IntervalFitting::DataPair`. -/
structure DataPair where
  x : ℚ
  y : ℕ
  deriving DecidableEq

/-- `class IntervalFitting`. -/
structure IntervalFitting where
  orderPool : SortedMap ℚ DataPair
  dataPool : List ℚ
  targetY : ℕ

namespace IntervalFitting

/-- A new object; the source leaves `target_y` uninitialised. -/
def new : IntervalFitting := ⟨.empty, [], 0⟩

/-- `set_target_y`. -/
def setTargetY (f : IntervalFitting) (newTargetY : ℕ) : IntervalFitting :=
  { f with targetY := newTargetY }

/-- The first part of `add_pair`: the oldest sample makes room. `none` is `front` of an
empty list. -/
def evict (maxSample : ℕ) (f : IntervalFitting) : Option IntervalFitting :=
  if f.dataPool.length ≥ maxSample then
    match f.dataPool with
    | [] => none
    | front :: dataPool =>
        some { f with dataPool := dataPool, orderPool := f.orderPool.erase front }
  else some f

/-- The second part of `add_pair`: the list without `new_x`. `none` is `erase` at the end of
the list. -/
def removeOld (f : IntervalFitting) (newX : ℚ) : Option (List ℚ) :=
  if newX ∈ f.orderPool.entries.map Prod.fst then
    if newX ∈ f.dataPool then some (f.dataPool.erase newX) else none
  else some f.dataPool

/-- `add_pair`; `none` is undefined behaviour. -/
def addPair (maxSample : ℕ) (f : IntervalFitting) (newX : ℚ) (newY : ℕ) :
    Option IntervalFitting := do
  let f ← f.evict maxSample
  let dataPool ← f.removeOld newX
  pure
    { f with
      dataPool := dataPool ++ [newX]
      orderPool := (f.orderPool.erase newX).insert newX ⟨newX, newY⟩ }

/-- The local variables of the loop of `estimate_x`. -/
structure Closest where
  above : Option DataPair
  below : Option DataPair
  minDelta : ℤ × ℤ
  lastFoundPoint : Option DataPair

/-- The body of the loop of `estimate_x`. -/
def findStep (targetY : ℕ) (c : Closest) (each : ℚ × DataPair) : Closest :=
  let delta := longOfUlong (usub each.2.y targetY)
  if delta ≥ 0 then
    if delta ≤ c.minDelta.1 then
      { c with
        above := some each.2, minDelta := (delta, c.minDelta.2), lastFoundPoint := some each.2 }
    else c
  else if delta ≥ c.minDelta.2 then
    { c with
      below := some each.2, minDelta := (c.minDelta.1, delta), lastFoundPoint := some each.2 }
  else c

/-- The loop of `estimate_x`. -/
def findClosest (targetY : ℕ) (entries : List (ℚ × DataPair)) : Closest :=
  entries.foldl (findStep targetY) ⟨none, none, (2 ^ 63 - 1, -2 ^ 63), none⟩

/-- `pure_liner_x`. -/
def pureLinerX (targetY : ℕ) (oldX : ℚ) (newY : ℕ) : ℚ :=
  let ratio := (targetY : ℚ) / (newY + 1)
  let ratio := if ratio > 10 then 10 else if ratio < 1 / 5 then 1 / 5 else ratio
  let estX := oldX * ratio
  let estX := if estX < 1 / 10 ^ 6 then 1 / 10 ^ 6 else estX
  if estX > 100 then 100 else estX

/-- `factor_a` and `factor_b`. -/
def factors (p q : DataPair) : ℚ × ℚ :=
  (((q.y : ℚ) - p.y) / (q.x - p.x), (p.x * q.y - q.x * p.y) / (p.x - q.x))

/-- `fail_default`. -/
def failDefault : ℚ := 1 / 100

/-- `estimate_x`. -/
def estimateX (f : IntervalFitting) : ℚ :=
  let c := findClosest f.targetY f.orderPool.entries
  match c.above, c.below, c.lastFoundPoint with
  | some p, some q, _ => (f.targetY - (factors p q).2) / (factors p q).1
  | _, _, some p => pureLinerX f.targetY p.x p.y
  | _, _, none => failDefault

/-! ### The pool -/

/-- The samples that are kept. -/
def samples (f : IntervalFitting) : List DataPair := f.orderPool.entries.map Prod.snd

/-- The pairs after a history of calls. -/
def addPairs (maxSample : ℕ) (history : List (ℚ × ℕ)) : Option IntervalFitting :=
  history.foldlM (fun f pair => f.addPair maxSample pair.1 pair.2) new

/-- The list holds the keys of the map, each once. -/
structure Keys (f : IntervalFitting) : Prop where
  mem_iff : ∀ x, x ∈ f.dataPool ↔ x ∈ f.orderPool.entries.map Prod.fst
  nodup : f.dataPool.Nodup

/-- The samples that `add_pair` leaves in a pool before it adds one. -/
def kept (maxSample : ℕ) (f : IntervalFitting) : List ℚ :=
  if f.dataPool.length ≥ maxSample then f.dataPool.tail else f.dataPool

theorem kept_sublist (maxSample : ℕ) (f : IntervalFitting) :
    (f.kept maxSample).Sublist f.dataPool := by
  unfold kept
  split
  · exact List.tail_sublist _
  · exact List.Sublist.refl _

theorem Keys.evict {maxSample : ℕ} (hmax : 0 < maxSample) {f : IntervalFitting} (h : Keys f) :
    ∃ f', f.evict maxSample = some f' ∧ f'.dataPool = f.kept maxSample ∧
      ∀ e, e ∈ f'.orderPool.entries ↔ e ∈ f.orderPool.entries ∧ e.1 ∈ f.kept maxSample := by
  have hkey : ∀ e ∈ f.orderPool.entries, e.1 ∈ f.dataPool := fun e he =>
    (h.mem_iff e.1).mpr (List.mem_map_of_mem he)
  unfold IntervalFitting.evict IntervalFitting.kept
  split
  · next hfull =>
    cases hdata : f.dataPool with
    | nil =>
        rw [hdata, List.length_nil] at hfull
        omega
    | cons front rest =>
        have hfront := (List.nodup_cons.mp (hdata ▸ h.nodup)).1
        refine ⟨_, rfl, rfl, fun e => ?_⟩
        rw [SortedMap.mem_erase, List.tail_cons]
        refine and_congr_right fun he => ?_
        have hmem := hkey e he
        rw [hdata, List.mem_cons] at hmem
        exact ⟨hmem.resolve_left, fun hrest heq => hfront (heq ▸ hrest)⟩
  · exact ⟨f, rfl, rfl, fun e => ⟨fun he => ⟨he, hkey e he⟩, And.left⟩⟩

/-- **One call.** -/
theorem Keys.addPair {maxSample : ℕ} (hmax : 0 < maxSample) {f : IntervalFitting} (h : Keys f)
    (x : ℚ) (y : ℕ) : ∃ f', f.addPair maxSample x y = some f' ∧ Keys f' ∧
      f'.dataPool = (f.kept maxSample).erase x ++ [x] ∧
      ∀ e, e ∈ f'.orderPool.entries ↔ e = (x, ⟨x, y⟩) ∨
        e ∈ f.orderPool.entries ∧ e.1 ∈ f.kept maxSample ∧ e.1 ≠ x := by
  obtain ⟨f₁, hevict, hdata₁, hentries₁⟩ := h.evict hmax
  have hnodup : (f.kept maxSample).Nodup := (kept_sublist maxSample f).nodup h.nodup
  have hkeys₁ : ∀ k, k ∈ f₁.dataPool ↔ k ∈ f₁.orderPool.entries.map Prod.fst := by
    intro k
    rw [hdata₁]
    simp only [List.mem_map, hentries₁]
    constructor
    · intro hk
      obtain ⟨e, he, rfl⟩ :=
        List.mem_map.mp ((h.mem_iff k).mp ((kept_sublist maxSample f).subset hk))
      exact ⟨e, ⟨he, hk⟩, rfl⟩
    · rintro ⟨e, ⟨-, hk⟩, rfl⟩
      exact hk
  have hold : f₁.removeOld x = some ((f.kept maxSample).erase x) := by
    unfold IntervalFitting.removeOld
    split
    · next hx => rw [if_pos ((hkeys₁ x).mpr hx), hdata₁]
    · next hx =>
      rw [hdata₁, List.erase_of_not_mem fun hmem => hx ((hkeys₁ x).mp (hdata₁ ▸ hmem))]
  have hinsert : ∀ e, e ∈ ((f₁.orderPool.erase x).insert x ⟨x, y⟩).entries ↔
      e = (x, ⟨x, y⟩) ∨ e ∈ f.orderPool.entries ∧ e.1 ∈ f.kept maxSample ∧ e.1 ≠ x := by
    intro e
    rw [SortedMap.mem_insert fun d hd => (SortedMap.mem_erase.mp hd).2, SortedMap.mem_erase,
      hentries₁, and_assoc]
  refine ⟨_, by simp [IntervalFitting.addPair, hevict, hold]; rfl, ⟨fun k => ?_, ?_⟩, rfl, hinsert⟩
  · simp only [List.mem_append, List.mem_singleton, hnodup.mem_erase_iff, List.mem_map, hinsert]
    constructor
    · rintro (⟨hne, hk⟩ | rfl)
      · obtain ⟨e, he, rfl⟩ := List.mem_map.mp ((hkeys₁ k).mp (hdata₁ ▸ hk))
        exact ⟨e, Or.inr ⟨((hentries₁ e).mp he).1, hk, hne⟩, rfl⟩
      · exact ⟨_, Or.inl rfl, rfl⟩
    · rintro ⟨e, rfl | ⟨-, hk, hne⟩, rfl⟩
      · exact Or.inr rfl
      · exact Or.inl ⟨hne, hk⟩
  · refine List.nodup_append.mpr ⟨hnodup.erase x, List.nodup_singleton x, fun a ha b hb => ?_⟩
    rw [List.mem_singleton] at hb
    exact hb ▸ (hnodup.mem_erase_iff.mp ha).1

/-- What `add_pair` keeps: besides the keys, an entry stands at its own `x`. -/
structure Pool (f : IntervalFitting) : Prop extends Keys f where
  key_eq : ∀ e ∈ f.orderPool.entries, e.1 = e.2.x
  y_lt : ∀ e ∈ f.orderPool.entries, e.2.y < 2 ^ 63

theorem keys_new : Keys new := ⟨by simp [new], List.nodup_nil⟩

theorem pool_new : Pool new := { keys_new with key_eq := by simp [new], y_lt := by simp [new] }

theorem Pool.addPair {maxSample : ℕ} (hmax : 0 < maxSample) {f : IntervalFitting} (h : Pool f)
    (x : ℚ) {y : ℕ} (hy : y < 2 ^ 63) : ∃ f', f.addPair maxSample x y = some f' ∧ Pool f' := by
  obtain ⟨f', hadd, hkeys, -, hentries⟩ := h.toKeys.addPair hmax x y
  refine ⟨f', hadd, { hkeys with key_eq := fun e he => ?_, y_lt := fun e he => ?_ }⟩
  · rcases (hentries e).mp he with rfl | ⟨he, -⟩
    · rfl
    · exact h.key_eq e he
  · rcases (hentries e).mp he with rfl | ⟨he, -⟩
    · exact hy
    · exact h.y_lt e he

/-- **A history.** -/
theorem pool_addPairs {maxSample : ℕ} (hmax : 0 < maxSample) {history : List (ℚ × ℕ)}
    (hy : ∀ pair ∈ history, pair.2 < 2 ^ 63) :
    ∃ f, addPairs maxSample history = some f ∧ Pool f := by
  have hrun : ∀ f, Pool f → ∃ f', history.foldlM
      (fun f pair => IntervalFitting.addPair maxSample f pair.1 pair.2) f = some f' ∧ Pool f' := by
    induction history with
    | nil => exact fun f h => ⟨f, rfl, h⟩
    | cons pair history ih =>
        intro f h
        obtain ⟨f₁, hadd, h₁⟩ := h.addPair hmax pair.1 (hy pair (List.mem_cons_self ..))
        obtain ⟨f', hrest, h'⟩ := ih (fun p hp => hy p (List.mem_cons_of_mem _ hp)) f₁ h₁
        exact ⟨f', by rw [List.foldlM_cons, hadd]; exact hrest, h'⟩
  exact hrun new pool_new

/-! ### The selection -/

/-- What the loop has found at or above the target, among the entries it has passed. -/
structure FoundAbove (targetY : ℕ) (passed : List (ℚ × DataPair)) (above : Option DataPair)
    (minDelta : ℤ) : Prop where
  found : ∀ p, above = some p → (∃ e ∈ passed, e.2 = p) ∧ targetY ≤ p.y ∧
    minDelta = (p.y : ℤ) - targetY ∧ ∀ e ∈ passed, targetY ≤ e.2.y → p.y ≤ e.2.y
  missing : above = none → minDelta = 2 ^ 63 - 1 ∧ ∀ e ∈ passed, e.2.y < targetY

/-- What it has found below the target. -/
structure FoundBelow (targetY : ℕ) (passed : List (ℚ × DataPair)) (below : Option DataPair)
    (minDelta : ℤ) : Prop where
  found : ∀ p, below = some p → (∃ e ∈ passed, e.2 = p) ∧ p.y < targetY ∧
    minDelta = (p.y : ℤ) - targetY ∧ ∀ e ∈ passed, e.2.y < targetY → e.2.y ≤ p.y
  missing : below = none → minDelta = -2 ^ 63 ∧ ∀ e ∈ passed, targetY ≤ e.2.y

/-- What the loop has found on both sides. -/
structure Found (targetY : ℕ) (passed : List (ℚ × DataPair)) (c : Closest) : Prop where
  above : FoundAbove targetY passed c.above c.minDelta.1
  below : FoundBelow targetY passed c.below c.minDelta.2
  last_above : c.below = none → c.lastFoundPoint = c.above
  last_below : c.above = none → c.lastFoundPoint = c.below

section Pass

variable {targetY : ℕ} {passed : List (ℚ × DataPair)} {each : ℚ × DataPair}

theorem forall_mem_pass {P : ℚ × DataPair → Prop} :
    (∀ e ∈ passed ++ [each], P e) ↔ (∀ e ∈ passed, P e) ∧ P each := by
  rw [List.forall_mem_append, List.forall_mem_singleton]

theorem mem_pass {p : DataPair} (h : ∃ e ∈ passed, e.2 = p) : ∃ e ∈ passed ++ [each], e.2 = p := by
  obtain ⟨e, he, hp⟩ := h
  exact ⟨e, List.mem_append_left _ he, hp⟩

theorem each_mem_pass : ∃ e ∈ passed ++ [each], e.2 = each.2 :=
  ⟨each, List.mem_append_right _ (List.mem_singleton_self each), rfl⟩

section Above

variable {above : Option DataPair} {minDelta : ℤ} (h : FoundAbove targetY passed above minDelta)
include h

/-- An entry of the other side. -/
theorem FoundAbove.skip (hlt : each.2.y < targetY) :
    FoundAbove targetY (passed ++ [each]) above minDelta := by
  refine ⟨fun p hp => ?_, fun hnone => ?_⟩
  · obtain ⟨hmem, hge, hmin, hclosest⟩ := h.found p hp
    exact ⟨mem_pass hmem, hge, hmin, forall_mem_pass.mpr ⟨hclosest, fun hle => by omega⟩⟩
  · obtain ⟨hmin, hbelow⟩ := h.missing hnone
    exact ⟨hmin, forall_mem_pass.mpr ⟨hbelow, hlt⟩⟩

/-- An entry that is at least as close. -/
theorem FoundAbove.near (hle : targetY ≤ each.2.y)
    (hnear : (each.2.y : ℤ) - targetY ≤ minDelta) :
    FoundAbove targetY (passed ++ [each]) (some each.2) ((each.2.y : ℤ) - targetY) := by
  refine ⟨?_, nofun⟩
  rintro p ⟨⟩
  refine ⟨each_mem_pass, hle, rfl, forall_mem_pass.mpr ⟨fun e he hge => ?_, fun _ => le_rfl⟩⟩
  cases above with
  | none => exact absurd ((h.missing rfl).2 e he) (not_lt.mpr hge)
  | some p =>
      obtain ⟨-, -, hmin, hclosest⟩ := h.found p rfl
      have := hclosest e he hge
      omega

/-- An entry that is further away. -/
theorem FoundAbove.far (hy : each.2.y < 2 ^ 63) (hfar : minDelta < (each.2.y : ℤ) - targetY) :
    FoundAbove targetY (passed ++ [each]) above minDelta := by
  cases above with
  | none =>
      have := (h.missing rfl).1
      omega
  | some p =>
      refine ⟨?_, nofun⟩
      rintro p ⟨⟩
      obtain ⟨hmem, hge, hmin, hclosest⟩ := h.found p rfl
      exact ⟨mem_pass hmem, hge, hmin, forall_mem_pass.mpr ⟨hclosest, fun _ => by omega⟩⟩

end Above

section Below

variable {below : Option DataPair} {minDelta : ℤ} (h : FoundBelow targetY passed below minDelta)
include h

theorem FoundBelow.skip (hle : targetY ≤ each.2.y) :
    FoundBelow targetY (passed ++ [each]) below minDelta := by
  refine ⟨fun p hp => ?_, fun hnone => ?_⟩
  · obtain ⟨hmem, hlt, hmin, hclosest⟩ := h.found p hp
    exact ⟨mem_pass hmem, hlt, hmin, forall_mem_pass.mpr ⟨hclosest, fun hlt => by omega⟩⟩
  · obtain ⟨hmin, habove⟩ := h.missing hnone
    exact ⟨hmin, forall_mem_pass.mpr ⟨habove, hle⟩⟩

theorem FoundBelow.near (hlt : each.2.y < targetY)
    (hnear : minDelta ≤ (each.2.y : ℤ) - targetY) :
    FoundBelow targetY (passed ++ [each]) (some each.2) ((each.2.y : ℤ) - targetY) := by
  refine ⟨?_, nofun⟩
  rintro p ⟨⟩
  refine ⟨each_mem_pass, hlt, rfl, forall_mem_pass.mpr ⟨fun e he hbelow => ?_, fun _ => le_rfl⟩⟩
  cases below with
  | none => exact absurd ((h.missing rfl).2 e he) (not_le.mpr hbelow)
  | some p =>
      obtain ⟨-, -, hmin, hclosest⟩ := h.found p rfl
      have := hclosest e he hbelow
      omega

theorem FoundBelow.far (htarget : targetY < 2 ^ 63)
    (hfar : (each.2.y : ℤ) - targetY < minDelta) :
    FoundBelow targetY (passed ++ [each]) below minDelta := by
  cases below with
  | none =>
      have := (h.missing rfl).1
      omega
  | some p =>
      refine ⟨?_, nofun⟩
      rintro p ⟨⟩
      obtain ⟨hmem, hlt, hmin, hclosest⟩ := h.found p rfl
      exact ⟨mem_pass hmem, hlt, hmin, forall_mem_pass.mpr ⟨hclosest, fun _ => by omega⟩⟩

end Below

/-- **One entry.** The difference has the sign of `y - target_y`, and only the closest of its
side can change. -/
theorem Found.step (htarget : targetY < 2 ^ 63) {c : Closest} (h : Found targetY passed c)
    (hy : each.2.y < 2 ^ 63) : Found targetY (passed ++ [each]) (findStep targetY c each) := by
  unfold findStep
  simp only [longOfUlong_usub hy htarget]
  split
  · next hsign =>
    have hle : targetY ≤ each.2.y := by omega
    split
    · next hnear => exact ⟨h.above.near hle hnear, h.below.skip hle, fun _ => rfl, nofun⟩
    · next hfar =>
      exact ⟨h.above.far hy (not_le.mp hfar), h.below.skip hle, h.last_above, h.last_below⟩
  · next hsign =>
    have hlt : each.2.y < targetY := by omega
    split
    · next hnear => exact ⟨h.above.skip hlt, h.below.near hlt hnear, nofun, fun _ => rfl⟩
    · next hfar =>
      exact ⟨h.above.skip hlt, h.below.far htarget (not_le.mp hfar), h.last_above, h.last_below⟩

end Pass

theorem findClosest_spec {targetY : ℕ} (htarget : targetY < 2 ^ 63)
    {entries : List (ℚ × DataPair)} (hy : ∀ e ∈ entries, e.2.y < 2 ^ 63) :
    Found targetY entries (findClosest targetY entries) := by
  have hrun : ∀ rest passed c, (∀ e ∈ rest, e.2.y < 2 ^ 63) → Found targetY passed c →
      Found targetY (passed ++ rest) (rest.foldl (findStep targetY) c) := by
    intro rest
    induction rest with
    | nil => exact fun passed c _ h => by simpa using h
    | cons each rest ih =>
        intro passed c hrest h
        have hnext := ih (passed ++ [each]) _ (fun e he => hrest e (List.mem_cons_of_mem _ he))
          (h.step htarget (hrest each (List.mem_cons_self ..)))
        simpa using hnext
  refine hrun entries [] _ hy ⟨⟨nofun, fun _ => ⟨rfl, nofun⟩⟩, ⟨nofun, fun _ => ⟨rfl, nofun⟩⟩,
    fun _ => rfl, fun _ => rfl⟩

/-! ### The estimate -/

/-- `p` is, among the samples on one side of the target, a closest one. -/
def IsClosest (f : IntervalFitting) (side : ℕ → Prop) (p : DataPair) : Prop :=
  p ∈ f.samples ∧ side p.y ∧
    ∀ s ∈ f.samples, side s.y → |(p.y : ℤ) - f.targetY| ≤ |(s.y : ℤ) - f.targetY|

/-- The point stands on the line through the two samples. -/
def OnLine (p q : DataPair) (x y : ℚ) : Prop :=
  (y - p.y) * (q.x - p.x) = (q.y - p.y) * (x - p.x)

/-- Where the line through `p` and `q` reaches `t`, from `p`. -/
theorem line_eq {p q : DataPair} (hx : q.x - p.x ≠ 0) (hy : (q.y : ℚ) - p.y ≠ 0) (t : ℚ) :
    (t - (factors p q).2) / (factors p q).1 =
      p.x + (t - p.y) / (q.y - p.y) * (q.x - p.x) := by
  have hx' : p.x - q.x ≠ 0 := fun h => hx (by linarith)
  simp only [factors]
  field_simp
  ring

theorem line_between {p q : DataPair} (hx : q.x - p.x ≠ 0) {t : ℚ} (hp : t ≤ p.y)
    (hq : (q.y : ℚ) < t) :
    OnLine p q ((t - (factors p q).2) / (factors p q).1) t ∧
      min p.x q.x ≤ (t - (factors p q).2) / (factors p q).1 ∧
      (t - (factors p q).2) / (factors p q).1 ≤ max p.x q.x := by
  have hneg : (q.y : ℚ) - p.y < 0 := by linarith
  rw [line_eq hx hneg.ne]
  set r := (t - p.y) / ((q.y : ℚ) - p.y) with hr
  have hr0 : 0 ≤ r := div_nonneg_of_nonpos (by linarith) hneg.le
  have hr1 : r ≤ 1 := (div_le_one_of_neg hneg).mpr (by linarith)
  have hmul : r * ((q.y : ℚ) - p.y) = t - p.y := div_mul_cancel₀ _ hneg.ne
  refine ⟨?_, ?_, ?_⟩
  · unfold OnLine
    rw [← hmul]
    ring
  · rcases le_total p.x q.x with hle | hle
    · rw [min_eq_left hle]
      nlinarith
    · rw [min_eq_right hle]
      nlinarith
  · rcases le_total p.x q.x with hle | hle
    · rw [max_eq_right hle]
      nlinarith
    · rw [max_eq_left hle]
      nlinarith

theorem pureLinerX_scales (targetY : ℕ) (oldX : ℚ) (newY : ℕ) :
    ∃ factor : ℚ, 1 / 5 ≤ factor ∧ factor ≤ 10 ∧
      pureLinerX targetY oldX newY = min 100 (max (1 / 10 ^ 6) (oldX * factor)) := by
  have hclamp : ∀ v : ℚ, (let est := if v < 1 / 10 ^ 6 then 1 / 10 ^ 6 else v
      if est > 100 then 100 else est) = min 100 (max (1 / 10 ^ 6) v) := by
    intro v
    rcases lt_or_ge v (1 / 10 ^ 6) with hlow | hlow
    · rw [if_pos hlow, max_eq_left hlow.le]
      norm_num
    · rw [if_neg hlow.not_gt, max_eq_right hlow]
      dsimp only
      rcases lt_or_ge 100 v with hhigh | hhigh
      · rw [if_pos hhigh, min_eq_left hhigh.le]
      · rw [if_neg hhigh.not_gt, min_eq_right hhigh]
  simp only [pureLinerX]
  split
  · exact ⟨10, by norm_num, le_rfl, hclamp _⟩
  · split
    · exact ⟨1 / 5, le_rfl, by norm_num, hclamp _⟩
    · next hle hge => exact ⟨_, not_lt.mp hge, not_lt.mp hle, hclamp _⟩

theorem IsClosest.of_forall {f : IntervalFitting} {side : ℕ → Prop} {p : DataPair}
    (h : f.IsClosest side p) (hall : ∀ s ∈ f.samples, side s.y) : f.IsClosest (fun _ => True) p :=
  ⟨h.1, trivial, fun s hs _ => h.2.2 s hs (hall s hs)⟩

section Found

variable {f : IntervalFitting} {c : Closest} (h : Found f.targetY f.orderPool.entries c)
include h

theorem Found.isClosest_above {p : DataPair} (hp : c.above = some p) :
    f.IsClosest (f.targetY ≤ ·) p := by
  obtain ⟨⟨d, hd, rfl⟩, hge, -, hclosest⟩ := h.above.found p hp
  refine ⟨List.mem_map_of_mem hd, hge, fun s hs hsy => ?_⟩
  obtain ⟨e, he, rfl⟩ := List.mem_map.mp hs
  have := hclosest e he hsy
  rw [abs_of_nonneg (by omega), abs_of_nonneg (by omega)]
  omega

theorem Found.isClosest_below {p : DataPair} (hp : c.below = some p) :
    f.IsClosest (· < f.targetY) p := by
  obtain ⟨⟨d, hd, rfl⟩, hlt, -, hclosest⟩ := h.below.found p hp
  refine ⟨List.mem_map_of_mem hd, hlt, fun s hs hsy => ?_⟩
  obtain ⟨e, he, rfl⟩ := List.mem_map.mp hs
  have := hclosest e he hsy
  rw [abs_of_neg (by omega), abs_of_neg (by omega)]
  omega

/-- A sample on a side is found. -/
theorem Found.exists_above (hs : ∃ s ∈ f.samples, f.targetY ≤ s.y) : ∃ p, c.above = some p := by
  obtain ⟨s, hs, hsy⟩ := hs
  obtain ⟨e, he, rfl⟩ := List.mem_map.mp hs
  refine Option.ne_none_iff_exists'.mp fun hnone => ?_
  exact absurd hsy (not_le.mpr ((h.above.missing hnone).2 e he))

theorem Found.exists_below (hs : ∃ s ∈ f.samples, s.y < f.targetY) : ∃ p, c.below = some p := by
  obtain ⟨s, hs, hsy⟩ := hs
  obtain ⟨e, he, rfl⟩ := List.mem_map.mp hs
  refine Option.ne_none_iff_exists'.mp fun hnone => ?_
  exact absurd hsy (not_lt.mpr ((h.below.missing hnone).2 e he))

/-- With samples on one side the other one stays empty. -/
theorem Found.above_eq_none (hall : ∀ s ∈ f.samples, s.y < f.targetY) : c.above = none := by
  refine Option.eq_none_iff_forall_ne_some.mpr fun p hp => ?_
  have hclosest := h.isClosest_above hp
  exact absurd (hall p hclosest.1) (not_lt.mpr hclosest.2.1)

theorem Found.below_eq_none (hall : ∀ s ∈ f.samples, f.targetY ≤ s.y) : c.below = none := by
  refine Option.eq_none_iff_forall_ne_some.mpr fun p hp => ?_
  have hclosest := h.isClosest_below hp
  exact absurd (hall p hclosest.1) (not_le.mpr hclosest.2.1)

end Found

theorem Pool.y_lt_of_mem {f : IntervalFitting} (h : Pool f) {p : DataPair} (hp : p ∈ f.samples) :
    p.y < 2 ^ 63 := by
  obtain ⟨d, hd, rfl⟩ := List.mem_map.mp hp
  exact h.y_lt d hd

/-- Two samples at one `x` are one sample. -/
theorem Pool.eq_of_x {f : IntervalFitting} (h : Pool f) {p q : DataPair} (hp : p ∈ f.samples)
    (hq : q ∈ f.samples) (hx : p.x = q.x) : p = q := by
  obtain ⟨d, hd, rfl⟩ := List.mem_map.mp hp
  obtain ⟨e, he, rfl⟩ := List.mem_map.mp hq
  rw [SortedMap.eq_of_mem hd he (by rw [h.key_eq d hd, h.key_eq e he, hx])]

/-- **The estimate, samples on both sides.** -/
theorem Pool.estimateX_both {f : IntervalFitting} (h : Pool f) (htarget : f.targetY < 2 ^ 63)
    (habove : ∃ s ∈ f.samples, f.targetY ≤ s.y) (hbelow : ∃ s ∈ f.samples, s.y < f.targetY) :
    ∃ p q, f.IsClosest (f.targetY ≤ ·) p ∧ f.IsClosest (· < f.targetY) q ∧
      q.x - p.x ≠ 0 ∧ p.x - q.x ≠ 0 ∧ (factors p q).1 ≠ 0 ∧
      OnLine p q f.estimateX f.targetY ∧
      min p.x q.x ≤ f.estimateX ∧ f.estimateX ≤ max p.x q.x := by
  have hfound := findClosest_spec htarget h.y_lt
  obtain ⟨p, hp⟩ := hfound.exists_above habove
  obtain ⟨q, hq⟩ := hfound.exists_below hbelow
  have hpc := hfound.isClosest_above hp
  have hqc := hfound.isClosest_below hq
  have hpy : (f.targetY : ℚ) ≤ p.y := by exact_mod_cast hpc.2.1
  have hqy : (q.y : ℚ) < f.targetY := by exact_mod_cast hqc.2.1
  have hx : q.x - p.x ≠ 0 := by
    intro hzero
    have := h.eq_of_x hqc.1 hpc.1 (by linarith)
    rw [this] at hqy
    exact absurd hqy (not_lt.mpr hpy)
  have hest : f.estimateX = (f.targetY - (factors p q).2) / (factors p q).1 := by
    simp only [estimateX, hp, hq]
  have hline := line_between hx hpy hqy
  rw [← hest] at hline
  exact ⟨p, q, hpc, hqc, hx, fun hzero => hx (by linarith), div_ne_zero (by linarith) hx, hline⟩

/-- **The estimate, samples on one side.** -/
theorem Pool.estimateX_one {f : IntervalFitting} (h : Pool f) (htarget : f.targetY < 2 ^ 63)
    (hne : f.samples ≠ [])
    (hside : (∀ s ∈ f.samples, f.targetY ≤ s.y) ∨ ∀ s ∈ f.samples, s.y < f.targetY) :
    ∃ p factor, f.IsClosest (fun _ => True) p ∧ 1 / 5 ≤ factor ∧ factor ≤ 10 ∧
      f.estimateX = min 100 (max (1 / 10 ^ 6) (p.x * factor)) := by
  have hfound := findClosest_spec htarget h.y_lt
  obtain ⟨s, hs⟩ := List.exists_mem_of_ne_nil _ hne
  obtain ⟨p, hp, hest⟩ : ∃ p, f.IsClosest (fun _ => True) p ∧
      f.estimateX = pureLinerX f.targetY p.x p.y := by
    unfold estimateX
    dsimp only
    rcases hside with hside | hside
    · obtain ⟨p, hp⟩ := hfound.exists_above ⟨s, hs, hside s hs⟩
      have hnone := hfound.below_eq_none hside
      refine ⟨p, (hfound.isClosest_above hp).of_forall hside, ?_⟩
      simp only [hp, hnone, hfound.last_above hnone]
    · obtain ⟨p, hp⟩ := hfound.exists_below ⟨s, hs, hside s hs⟩
      have hnone := hfound.above_eq_none hside
      refine ⟨p, (hfound.isClosest_below hp).of_forall hside, ?_⟩
      simp only [hp, hnone, hfound.last_below hnone]
  obtain ⟨factor, hlow, hhigh, hscale⟩ := pureLinerX_scales f.targetY p.x p.y
  exact ⟨p, factor, hp, hlow, hhigh, hest.trans hscale⟩

/-- **The estimate stays between its samples**: for every history of calls and every target,
with samples on both sides of it the estimate is where the line through a closest sample on
each side reaches the target, between the two; with samples on one side only it is the
interval of a closest sample, scaled and clamped. -/
theorem estimateX_between {maxSample : ℕ} (hmax : 0 < maxSample) {history : List (ℚ × ℕ)}
    (hy : ∀ pair ∈ history, pair.2 < 2 ^ 63) (targetY : ℕ) :
    ∃ f g, addPairs maxSample history = some f ∧ g = f.setTargetY targetY ∧
      ((∃ s ∈ f.samples, targetY ≤ s.y) → (∃ s ∈ f.samples, s.y < targetY) →
        ∃ p q, g.IsClosest (targetY ≤ ·) p ∧ g.IsClosest (· < targetY) q ∧
          q.x - p.x ≠ 0 ∧ p.x - q.x ≠ 0 ∧ (factors p q).1 ≠ 0 ∧
          OnLine p q g.estimateX targetY ∧
          min p.x q.x ≤ g.estimateX ∧ g.estimateX ≤ max p.x q.x) ∧
      (targetY < 2 ^ 63 → f.samples ≠ [] →
        ((∀ s ∈ f.samples, targetY ≤ s.y) ∨ ∀ s ∈ f.samples, s.y < targetY) →
        ∃ p factor, g.IsClosest (fun _ => True) p ∧ 1 / 5 ≤ factor ∧ factor ≤ 10 ∧
          g.estimateX = min 100 (max (1 / 10 ^ 6) (p.x * factor))) := by
  obtain ⟨f, hf, hpool⟩ := pool_addPairs hmax hy
  have hpool' : Pool (f.setTargetY targetY) :=
    ⟨⟨hpool.mem_iff, hpool.nodup⟩, hpool.key_eq, hpool.y_lt⟩
  refine ⟨f, _, hf, rfl, fun habove hbelow => ?_, fun htarget => hpool'.estimateX_one htarget⟩
  -- a sample at or above the target bounds the target
  obtain ⟨s, hs, hle⟩ := habove
  have hlt := hpool.y_lt_of_mem hs
  exact hpool'.estimateX_both (hle.trans_lt hlt) ⟨s, hs, hle⟩ hbelow

theorem estimateX_between_five :
    ∃ f g, addPairs 5 [(1, 30), (2, 50), (1 / 2, 10), (1, 40)] = some f ∧ g = f.setTargetY 25 ∧
      ((∃ s ∈ f.samples, 25 ≤ s.y) → (∃ s ∈ f.samples, s.y < 25) →
        ∃ p q, g.IsClosest (25 ≤ ·) p ∧ g.IsClosest (· < 25) q ∧
          q.x - p.x ≠ 0 ∧ p.x - q.x ≠ 0 ∧ (factors p q).1 ≠ 0 ∧
          OnLine p q g.estimateX (25 : ℕ) ∧
          min p.x q.x ≤ g.estimateX ∧ g.estimateX ≤ max p.x q.x) ∧
      (25 < 2 ^ 63 → f.samples ≠ [] →
        ((∀ s ∈ f.samples, 25 ≤ s.y) ∨ ∀ s ∈ f.samples, s.y < 25) →
        ∃ p factor, g.IsClosest (fun _ => True) p ∧ 1 / 5 ≤ factor ∧ factor ≤ 10 ∧
          g.estimateX = min 100 (max (1 / 10 ^ 6) (p.x * factor))) :=
  estimateX_between (by decide) (by decide) 25

end IntervalFitting

end MemoryOptimizer
