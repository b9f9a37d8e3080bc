import Mathlib.Order.Bounds.Basic
import MemoryOptimizer.Migration.MigrateCount

/-!
# The global hot threshold

`GlobalScan::calc_global_threshold`: for a page type, the reference count from which
on the pages of the system fit into the DRAM. A loop takes the bins off the budget
from the highest down and stops at the first that does not fit; the threshold is one
above it, and at most `nr_walks`.

* `pagesFrom` — the pages with at least a given reference count.
* `calcGlobalThreshold_least` — the threshold is the least one whose pages fit.
-/

namespace MemoryOptimizer

open ProcIdlePageType EPTScan

namespace GlobalScan

/-- `struct threshold`. -/
structure Threshold where
  value : ℤ
  valueMax : ℤ

/-- `page_count`, before the loop: the DRAM a page type may use, in pages. -/
def pageBudget (dramPercent totalMemKb totalDramKb : ℤ) (type : ProcIdlePageType) : ℤ :=
  let pageCount :=
    if dramPercent ≠ 0 then truncate (float64 (float64 (dramPercent * totalMemKb) / 100))
    else totalDramKb
  pageCount / 2 ^ (type.shift - 10)

/-- The loop, with `threshold + 1` bins left: the value of `threshold` behind it. -/
def thresholdLoop (refs : Histogram2d) : ℕ → ℤ → Option ℤ
  | 0, _ => some (-1)
  | threshold + 1, pageCount => do
      let count ← readBin refs refLocAll threshold
      let pageCount := pageCount - count
      if pageCount < 0 then pure threshold else thresholdLoop refs threshold pageCount

/-- `calc_global_threshold`, for one page type. -/
def calcGlobalThreshold (dramPercent : ℤ) (nrWalks : ℕ)
    (sysRefs : ProcIdlePageType → Histogram2d) (totalMemKb totalDramKb : ProcIdlePageType → ℤ)
    (type : ProcIdlePageType) : Option Threshold :=
  if totalMemKb type = 0 then some ⟨-1, -1⟩
  else do
    let threshold ← thresholdLoop (sysRefs type) (nrWalks + 1)
      (pageBudget dramPercent (totalMemKb type) (totalDramKb type) type)
    -- the bin the loop stopped at is not hot as a whole
    pure ⟨min nrWalks (threshold + 1), nrWalks⟩

/-! ### The pages from a threshold on -/

/-- The pages with at least the reference count `t`. -/
def pagesFrom (refs : Histogram2d) (t : ℕ) : ℕ := ((refs refLocAll).drop t).sum

section Pages

variable {n : ℕ} {refs : Histogram2d}

theorem pagesFrom_end (rows : Rows n refs) : pagesFrom refs n = 0 := by
  rw [pagesFrom, List.drop_eq_nil_of_le (rows refLocAll).le, List.sum_nil]

theorem pagesFrom_eq (rows : Rows n refs) {t : ℕ} (ht : t < n) :
    readBin refs refLocAll t = some (refs.bin refLocAll t) ∧
      pagesFrom refs t = refs.bin refLocAll t + pagesFrom refs (t + 1) := by
  have hlt : t < (refs refLocAll).length := (rows refLocAll).symm ▸ ht
  have hbin : (refs refLocAll)[t]? = some (refs.bin refLocAll t) := by
    rw [Histogram2d.bin, List.getElem?_eq_getElem hlt, Option.getD_some]
  constructor
  · rw [readBin, if_pos (Int.natCast_nonneg t), Int.toNat_natCast, hbin]
  · rw [pagesFrom, List.drop_eq_getElem_cons hlt, List.sum_cons, pagesFrom,
      Option.some.inj ((List.getElem?_eq_getElem hlt).symm.trans hbin)]

theorem pagesFrom_antitone (refs : Histogram2d) : Antitone (pagesFrom refs) := by
  refine antitone_nat_of_succ_le fun t => ?_
  rcases lt_or_ge t (refs refLocAll).length with ht | ht
  · rw [pagesFrom, pagesFrom, List.drop_eq_getElem_cons ht, List.sum_cons]
    exact Nat.le_add_left _ _
  · rw [pagesFrom, List.drop_eq_nil_of_le (by omega)]
    exact Nat.zero_le _

end Pages

/-! ### The loop -/

/-- The loop stops at the highest bin that does not fit: what lies above it fits, what
lies from it on does not. -/
theorem thresholdLoop_spec {n : ℕ} {refs : Histogram2d} (rows : Rows n refs) (budget : ℤ) {k : ℕ}
    (hk : k ≤ n) :
    ∃ t, thresholdLoop refs k (budget - pagesFrom refs k) = some t ∧ -1 ≤ t ∧ t < k ∧
      (t + 1 < k → pagesFrom refs (t + 1).toNat ≤ budget) ∧
      (0 ≤ t → budget < pagesFrom refs t.toNat) := by
  induction k with
  | zero => exact ⟨-1, rfl, le_rfl, by decide, by simp, by simp⟩
  | succ k ih =>
      obtain ⟨hread, hcount⟩ := pagesFrom_eq rows (Nat.lt_of_succ_le hk)
      have hleft : budget - pagesFrom refs (k + 1) - refs.bin refLocAll k =
          budget - pagesFrom refs k := by
        rw [hcount]
        push_cast
        ring
      simp only [thresholdLoop, hread, Option.bind_eq_bind, Option.bind_some, hleft]
      rcases lt_or_ge (budget - pagesFrom refs k) 0 with hneg | hpos
      · rw [if_pos hneg]
        refine ⟨k, rfl, by omega, by omega, by omega, fun _ => ?_⟩
        rw [Int.toNat_natCast]
        omega
      · rw [if_neg (not_lt.mpr hpos)]
        obtain ⟨t, hloop, hge, hlt, hfits, hover⟩ := ih (Nat.le_of_succ_le hk)
        refine ⟨t, hloop, hge, by omega, fun _ => ?_, hover⟩
        rcases lt_or_ge (t + 1) k with h | h
        · exact hfits h
        · have : (t + 1).toNat = k := by omega
          rw [this]
          omega

/-- The threshold is the least whose pages fit into the budget, and `nr_walks` when not
even the top bin does. -/
theorem calcGlobalThreshold_least (dramPercent : ℤ) {nrWalks : ℕ}
    {sysRefs : ProcIdlePageType → Histogram2d} {totalMemKb : ProcIdlePageType → ℤ}
    (totalDramKb : ProcIdlePageType → ℤ) {type : ProcIdlePageType}
    (rows : Rows (nrWalks + 1) (sysRefs type)) (htotal : totalMemKb type ≠ 0) :
    ∃ v : ℕ,
      calcGlobalThreshold dramPercent nrWalks sysRefs totalMemKb totalDramKb type =
        some ⟨v, nrWalks⟩ ∧
      ((sysRefs type).bin refLocAll nrWalks ≤
          pageBudget dramPercent (totalMemKb type) (totalDramKb type) type →
        IsLeast {v | v ≤ nrWalks ∧ pagesFrom (sysRefs type) v ≤
          pageBudget dramPercent (totalMemKb type) (totalDramKb type) type} v) ∧
      (pageBudget dramPercent (totalMemKb type) (totalDramKb type) type <
          (sysRefs type).bin refLocAll nrWalks → v = nrWalks) := by
  rw [calcGlobalThreshold, if_neg htotal]
  generalize pageBudget dramPercent (totalMemKb type) (totalDramKb type) type = budget
  obtain ⟨t, hloop, hge, hlt, hfits, hover⟩ := thresholdLoop_spec rows budget le_rfl
  rw [pagesFrom_end rows, Nat.cast_zero, sub_zero] at hloop
  have htop : pagesFrom (sysRefs type) nrWalks = (sysRefs type).bin refLocAll nrWalks := by
    rw [(pagesFrom_eq rows (Nat.lt_succ_self nrWalks)).2, pagesFrom_end rows, Nat.add_zero]
  rw [← htop, hloop]
  have hanti := pagesFrom_antitone (sysRefs type)
  have hle : t ≤ nrWalks := by omega
  rcases lt_or_eq_of_le hle with hbelow | rfl
  · -- the loop went past the top bin
    have hv : min (nrWalks : ℤ) (t + 1) = (t + 1).toNat := by omega
    have hmax : (t + 1).toNat ≤ nrWalks := by omega
    have hfit := hfits (by omega)
    refine ⟨(t + 1).toNat, by simp [hv], fun _ => ⟨⟨hmax, hfit⟩, fun w hw => ?_⟩, fun h => ?_⟩
    · by_contra hlow
      have hover' := hover (by omega)
      have := hanti (show w ≤ t.toNat by omega)
      have := hw.2
      omega
    · have := hanti hmax
      omega
  · have hover' := hover (Int.natCast_nonneg _)
    rw [Int.toNat_natCast] at hover'
    exact ⟨nrWalks, by simp, fun h => by omega, fun _ => rfl⟩

/-- Four pages and a budget of two: the top two bins hold one page each. -/
theorem calcGlobalThreshold_least_three :
    ∃ v : ℕ,
      calcGlobalThreshold 0 3 (fun _ _ => [2, 0, 1, 1]) (fun _ => 16) (fun _ => 8) pteAccessed =
        some ⟨v, 3⟩ ∧
      ((1 : ℤ) ≤ pageBudget 0 16 8 pteAccessed →
        IsLeast {v | v ≤ 3 ∧
          (pagesFrom (fun _ => [2, 0, 1, 1]) v : ℤ) ≤ pageBudget 0 16 8 pteAccessed} v) ∧
      (pageBudget 0 16 8 pteAccessed < (1 : ℤ) → v = 3) :=
  calcGlobalThreshold_least 0 (fun _ => 8) (fun _ => rfl) (by decide)

end GlobalScan

end MemoryOptimizer
