import MemoryOptimizer.AddrSequence.Reference
import MemoryOptimizer.Migration.Histogram

/-!
# The order of the bins

`count_refs_one` puts a page into the bin of its payload, which counts the walks
that found it accessed modulo 256, cut off at the number of walks modulo 256.
Nothing in `main_loop` keeps `nr_scans * nr_scan_rounds` below 256.

* `refBin_page_eq` — the bin of a stored page, for any number of walks.
* `refBin_order_iff` — when the bins of two pages are in the order of the walks
  that found them accessed.
-/

namespace MemoryOptimizer

namespace EPTScan

open AddrSequence

/-- The bin of a stored page, after any number of walks. -/
theorem refBin_page_eq (s : AddrSequence) (shift : ℕ) {walks : List (List (ℕ × ℕ))}
    (hcalls : Calls walks) (honce : ∀ calls ∈ walks, (calls.map Prod.fst).Nodup)
    {p : ℕ × ℕ × ℤ} (hp : p ∈ (s.run shift walks).pages) :
    refBin walks.length p.2.1 = min (uint8 (accessedWalks walks p.1)) (uint8 walks.length) := by
  have hmem : (p.1, p.2.1) ∈ (reference walks).map wrap := by
    rw [← run_pages_wrap s shift hcalls]
    exact List.mem_map_of_mem (f := fun p : ℕ × ℕ × ℤ => (p.1, p.2.1)) hp
  obtain ⟨r, hr, heq⟩ := List.mem_map.mp hmem
  obtain ⟨haddr, hpayload⟩ := Prod.ext_iff.mp heq
  change r.1 = p.1 at haddr
  change uint8 r.2 = p.2.1 at hpayload
  rw [refBin, ← hpayload, reference_eq_accessedWalks hcalls honce r hr, haddr]

/-- Two pages of a sequence after any number of walks, none of which reports a
page twice: the page found accessed at least as often is in a bin at least as high,
if and only if that is so of the two numbers modulo 256, or the higher one is cut
off at the number of walks modulo 256. -/
theorem refBin_order_iff (s : AddrSequence) (shift : ℕ) (walks : List (List (ℕ × ℕ)))
    (hcalls : Calls walks) (honce : ∀ calls ∈ walks, (calls.map Prod.fst).Nodup)
    {p q : ℕ × ℕ × ℤ} (hp : p ∈ (s.run shift walks).pages)
    (hq : q ∈ (s.run shift walks).pages) :
    (accessedWalks walks q.1 ≤ accessedWalks walks p.1 →
        refBin walks.length q.2.1 ≤ refBin walks.length p.2.1) ↔
      (accessedWalks walks q.1 ≤ accessedWalks walks p.1 →
        uint8 (accessedWalks walks q.1) ≤ uint8 (accessedWalks walks p.1) ∨
          uint8 walks.length ≤ uint8 (accessedWalks walks p.1)) := by
  rw [refBin_page_eq s shift hcalls honce hp, refBin_page_eq s shift hcalls honce hq]
  refine imp_congr_right fun _ => ?_
  omega

theorem refBin_order_iff_twoWalks :
    ∃ p ∈ (init.run 12 [[(0x1000, 1), (0x2000, 1)], [(0x1000, 1)]]).pages,
      ∃ q ∈ (init.run 12 [[(0x1000, 1), (0x2000, 1)], [(0x1000, 1)]]).pages,
        p.1 = 0x1000 ∧ q.1 = 0x2000 ∧ refBin 2 q.2.1 ≤ refBin 2 p.2.1 :=
  ⟨(0x1000, 2, -1), by decide +kernel, (0x2000, 1, -1), by decide +kernel, rfl, rfl,
    (refBin_order_iff init 12 [[(0x1000, 1), (0x2000, 1)], [(0x1000, 1)]]
      ⟨by decide, by decide, by decide⟩ (by decide) (by decide +kernel) (by decide +kernel)).mpr
      (by decide) (by decide)⟩

/-- Up to 255 walks the order always holds: no count exceeds the number of
walks. -/
theorem accessedWalks_order_of_lt {walks : List (List (ℕ × ℕ))} (hwalks : walks.length < 256)
    {a b : ℕ} (h : accessedWalks walks a ≤ accessedWalks walks b) :
    uint8 (accessedWalks walks a) ≤ uint8 (accessedWalks walks b) := by
  have hle : accessedWalks walks b ≤ walks.length := List.countP_le_length
  unfold uint8
  omega

/-- 257 walks: the first page is accessed in 256 of them, the second only in the
first. -/
def manyWalks : List (List (ℕ × ℕ)) :=
  [(0x1000, 1), (0x2000, 1)] :: (List.replicate 255 [(0x1000, 1)] ++ [[]])

/-- The count of the page accessed in 256 walks is back at 0, and the page
accessed once is in the higher bin. -/
theorem refBin_order_manyWalks :
    Calls manyWalks ∧ (∀ calls ∈ manyWalks, (calls.map Prod.fst).Nodup) ∧
      ∃ p ∈ (init.run 12 manyWalks).pages, ∃ q ∈ (init.run 12 manyWalks).pages,
        accessedWalks manyWalks p.1 = 256 ∧ accessedWalks manyWalks q.1 = 1 ∧
          refBin manyWalks.length p.2.1 = 0 ∧ refBin manyWalks.length q.2.1 = 1 := by
  have hcalls : Calls manyWalks := ⟨by decide +kernel, by decide +kernel, by decide +kernel⟩
  have hpages := run_pages_wrap init 12 hcalls
  have hreference : (reference manyWalks).map wrap = [(0x1000, 0), (0x2000, 1)] := by
    decide +kernel
  rw [hreference] at hpages
  have hpage : ∀ r ∈ [(0x1000, 0), (0x2000, 1)], ∃ p ∈ (init.run 12 manyWalks).pages,
      (p.1, p.2.1) = r := fun r hr => List.mem_map.mp (hpages ▸ hr)
  obtain ⟨p, hp, hp'⟩ := hpage (0x1000, 0) (by simp)
  obtain ⟨q, hq, hq'⟩ := hpage (0x2000, 1) (by simp)
  refine ⟨hcalls, by decide +kernel, p, hp, q, hq, ?_⟩
  obtain ⟨hp₁, hp₂⟩ := Prod.ext_iff.mp hp'
  obtain ⟨hq₁, hq₂⟩ := Prod.ext_iff.mp hq'
  dsimp only at hp₁ hp₂ hq₁ hq₂
  rw [hp₁, hp₂, hq₁, hq₂]
  decide +kernel

end EPTScan

end MemoryOptimizer
