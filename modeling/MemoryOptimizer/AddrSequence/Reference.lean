import MemoryOptimizer.AddrSequence.Update
import Mathlib.Data.List.Count
import Mathlib.Algebra.Order.BigOperators.Group.List

/-!
# An `AddrSequence` is an ordered map of counts

A run is `clear`, `set_pageshift`, then walks, each a `rewind` followed by calls
of `inc_payload`.  The reference is a plain list: the addresses of the first
walk that exceeded all earlier ones, each with its first `n` plus the number of
later calls with `n = 1`.

The first walk is followed by `foldl_appendAddr`, a later one by
`foldl_updateAddr`; `run_contents` puts the walks together, and `run_pages` is
what a caller of `get_first` and `get_next` sees.
-/

namespace MemoryOptimizer.AddrSequence

/-- One walk: `rewind`, then `inc_payload` for every call. -/
def walk (s : AddrSequence) (calls : List (ℕ × ℕ)) : AddrSequence :=
  calls.foldl (fun s call => (s.incPayload Alloc.ok call.1 call.2).1) s.rewind

/-- `clear`, `set_pageshift`, then the walks. -/
def run (s : AddrSequence) (shift : ℕ) (walks : List (List (ℕ × ℕ))) : AddrSequence :=
  walks.foldl walk (s.clear.setPageshift shift)

/-- The calls whose address exceeds all earlier ones. -/
def rising (seen : List ℕ) : List (ℕ × ℕ) → List (ℕ × ℕ)
  | [] => []
  | call :: calls =>
      if ∀ a ∈ seen, a < call.1 then call :: rising (call.1 :: seen) calls
      else rising (call.1 :: seen) calls

/-- The reference list of a run. -/
def reference : List (List (ℕ × ℕ)) → List (ℕ × ℕ)
  | [] => []
  | first :: later =>
      (rising [] first).map fun p => (p.1, p.2 + later.flatten.count (p.1, 1))

/-! ### The first walk -/

/-- What an append does to the stored list. -/
def appendTo (l : List (ℕ × ℕ)) (call : ℕ × ℕ) : List (ℕ × ℕ) :=
  if ∀ p ∈ l, p.1 < call.1 then l ++ [(call.1, uint8 call.2)] else l

theorem foldl_appendAddr {s : AddrSequence} (lay : Layout s) (app : Appending s)
    (hwalks : s.nrWalks < 2) {calls : List (ℕ × ℕ)} (haddr : ∀ call ∈ calls, call.1 < 2 ^ 64) :
    Layout (calls.foldl (fun s call => (s.incPayload Alloc.ok call.1 call.2).1) s) ∧
      (calls.foldl (fun s call => (s.incPayload Alloc.ok call.1 call.2).1) s).nrWalks =
        s.nrWalks ∧
      contents (calls.foldl (fun s call => (s.incPayload Alloc.ok call.1 call.2).1) s) =
        calls.foldl appendTo (contents s) := by
  induction calls generalizing s with
  | nil => exact ⟨lay, rfl, rfl⟩
  | cons call calls ih =>
      have hinc : s.incPayload Alloc.ok call.1 call.2 = s.appendAddr Alloc.ok call.1 call.2 := by
        simp [incPayload, inAppendPeriod, hwalks]
      obtain ⟨lay', app', -, hwalks', hcont⟩ :=
        appendAddr_spec lay app call.2 (haddr call (List.mem_cons_self ..))
      obtain ⟨h1, h2, h3⟩ := ih lay' app' (by rw [hwalks']; exact hwalks)
        fun c hc => haddr c (List.mem_cons_of_mem _ hc)
      rw [List.foldl_cons, List.foldl_cons, hinc]
      exact ⟨h1, h2.trans hwalks', by rw [h3, hcont]; rfl⟩

/-- The appended list is the list of rising calls: being above everything stored
is the same as being above everything seen. -/
theorem foldl_appendTo {l : List (ℕ × ℕ)} (seen : List ℕ)
    (hseen : ∀ a, (∀ p ∈ l, p.1 < a) ↔ ∀ b ∈ seen, b < a) {calls : List (ℕ × ℕ)}
    (hn : ∀ call ∈ calls, call.2 ≤ 1) :
    calls.foldl appendTo l = l ++ rising seen calls := by
  induction calls generalizing l seen with
  | nil => simp [rising]
  | cons call calls ih =>
      have hcall : uint8 call.2 = call.2 :=
        Nat.mod_eq_of_lt (by have := hn call (List.mem_cons_self ..); omega)
      have hn' : ∀ c ∈ calls, c.2 ≤ 1 := fun c hc => hn c (List.mem_cons_of_mem _ hc)
      rw [List.foldl_cons, appendTo, rising]
      by_cases habove : ∀ b ∈ seen, b < call.1
      · rw [if_pos ((hseen call.1).mpr habove), if_pos habove, ih _ _ hn', List.append_assoc,
          hcall]
        · rfl
        · intro a
          rw [List.forall_mem_append, hseen a]
          simp [and_comm]
      · rw [if_neg (mt (hseen call.1).mp habove), if_neg habove, ih _ _ hn']
        intro a
        rw [hseen a, List.forall_mem_cons]
        refine ⟨fun h => ⟨?_, h⟩, And.right⟩
        obtain ⟨b, hb, hle⟩ : ∃ b ∈ seen, call.1 ≤ b := by
          simpa only [not_forall, not_lt, exists_prop] using habove
        exact hle.trans_lt (h b hb)

theorem rising_subset (seen : List ℕ) (calls : List (ℕ × ℕ)) : rising seen calls ⊆ calls := by
  induction calls generalizing seen with
  | nil => exact List.Subset.refl _
  | cons call calls ih =>
      rw [rising]
      split
      · exact List.cons_subset_cons _ (ih _)
      · exact List.Subset.trans (ih _) (List.subset_cons_self _ _)

/-! ### The later walks -/

/-- What a list of calls adds to a stored entry. -/
def tally (calls : List (ℕ × ℕ)) (p : ℕ × ℕ) : ℕ × ℕ := (p.1, p.2 + calls.count (p.1, 1))

@[simp] theorem tally_nil : tally [] = id := rfl

theorem tally_append (calls calls' : List (ℕ × ℕ)) (p : ℕ × ℕ) :
    tally calls' (tally calls p) = tally (calls ++ calls') p := by
  simp [tally, List.count_append, Nat.add_assoc]

theorem foldl_updateAddr {s : AddrSequence} (lay : Layout s) {b : ℕ} (cur : Cursor s b)
    (hwalks : 2 ≤ s.nrWalks) {calls : List (ℕ × ℕ)} (hb : ∀ call ∈ calls, b ≤ call.1)
    (hasc : calls.Pairwise fun c d => c.1 < d.1) :
    Layout (calls.foldl (fun s call => (s.incPayload Alloc.ok call.1 call.2).1) s) ∧
      (calls.foldl (fun s call => (s.incPayload Alloc.ok call.1 call.2).1) s).nrWalks =
        s.nrWalks ∧
      contents (calls.foldl (fun s call => (s.incPayload Alloc.ok call.1 call.2).1) s) =
        calls.foldl (fun l call => l.map (bump call.1 call.2)) (contents s) := by
  induction calls generalizing s b with
  | nil => exact ⟨lay, rfl, rfl⟩
  | cons call calls ih =>
      obtain ⟨hlt, hasc⟩ := List.pairwise_cons.mp hasc
      have hinc : s.incPayload Alloc.ok call.1 call.2 = s.updateAddr call.1 call.2 true := by
        simp [incPayload, inAppendPeriod, Nat.not_lt.mpr hwalks]
      obtain ⟨lay', cur', -, hwalks', hcont⟩ :=
        updateAddr_spec lay cur (hb call (List.mem_cons_self ..)) call.2
      obtain ⟨h1, h2, h3⟩ := ih lay' cur' (by rw [hwalks']; exact hwalks)
        (fun c hc => (hlt c hc).le) hasc
      rw [List.foldl_cons, List.foldl_cons, hinc]
      exact ⟨h1, h2.trans hwalks', by rw [h3, hcont]⟩

/-- A count as the payload keeps it. -/
def wrap (p : ℕ × ℕ) : ℕ × ℕ := (p.1, uint8 p.2)

theorem wrap_of_lt {p : ℕ × ℕ} (h : p.2 < 2 ^ 8) : wrap p = p :=
  Prod.ext rfl (Nat.mod_eq_of_lt h)

/-- Bumping call by call is adding the tally, up to the wrapping of the payload. -/
theorem foldl_bump {calls : List (ℕ × ℕ)} (hn : ∀ call ∈ calls, call.2 ≤ 1)
    (l : List (ℕ × ℕ)) :
    calls.foldl (fun l call => l.map (bump call.1 call.2)) (l.map wrap) =
      (l.map (tally calls)).map wrap := by
  induction calls generalizing l with
  | nil => simp
  | cons call calls ih =>
      have hcall := hn call (List.mem_cons_self ..)
      have hstep : bump call.1 call.2 ∘ wrap = wrap ∘ tally [call] := by
        funext p
        simp only [Function.comp_apply, bump, tally, List.count_singleton]
        by_cases h : (wrap p).1 = call.1 ∧ call.2 ≠ 0
        · have hfound : call = (p.1, 1) := Prod.ext h.1.symm (by omega)
          rw [if_pos h, if_pos (by rw [hfound, beq_self_eq_true])]
          refine Prod.ext rfl ?_
          simp only [wrap, uint8]
          omega
        · have hother : call ≠ (p.1, 1) := by
            rintro rfl
            exact h ⟨rfl, one_ne_zero⟩
          rw [if_neg h, if_neg (by rwa [beq_iff_eq])]
          rfl
      rw [List.foldl_cons, List.map_map, hstep, ← List.map_map,
        ih (fun c hc => hn c (List.mem_cons_of_mem _ hc)), List.map_map (f := tally [call])]
      refine congrArg (List.map wrap) (List.map_congr_left fun p _ => ?_)
      exact tally_append [call] calls p

/-- A later walk counts an address at most once. -/
theorem count_le_one {calls : List (ℕ × ℕ)} (hasc : calls.Pairwise fun c d => c.1 < d.1)
    (call : ℕ × ℕ) : calls.count call ≤ 1 :=
  List.nodup_iff_count_le_one.mp
    (hasc.imp fun {c d} h heq => by rw [heq] at h; exact lt_irrefl _ h) call

theorem contents_rewind (s : AddrSequence) : contents s.rewind = contents s := rfl

theorem rewind_layout {s : AddrSequence} (lay : Layout s) : Layout s.rewind :=
  ⟨⟨lay.used, lay.slots_nodup, lay.ascending, lay.addrSize_eq, lay.pagesize_eq,
    lay.bufUsedCount_le, lay.bufUsedCount_eq⟩, lay.size_pos⟩

theorem walk_later {s : AddrSequence} (lay : Layout s) (hwalks : 1 ≤ s.nrWalks)
    {calls : List (ℕ × ℕ)} (hn : ∀ call ∈ calls, call.2 ≤ 1)
    (hasc : calls.Pairwise fun c d => c.1 < d.1) {l : List (ℕ × ℕ)}
    (hl : contents s = l.map wrap) :
    Layout (s.walk calls) ∧ 1 ≤ (s.walk calls).nrWalks ∧
      contents (s.walk calls) = (l.map (tally calls)).map wrap := by
  have cur : Cursor s.rewind 0 := by
    obtain ⟨⟨h1, h2, h3, h4, h5⟩, hpassed⟩ := cursor_resetIterator lay.size_pos 0
    exact ⟨⟨h1, h2, h3, h4, h5⟩, hpassed⟩
  obtain ⟨h1, h2, h3⟩ := foldl_updateAddr (rewind_layout lay) cur (Nat.succ_le_succ hwalks)
    (fun _ _ => Nat.zero_le _) hasc
  refine ⟨h1, h2 ▸ Nat.succ_le_succ (Nat.zero_le _), ?_⟩
  rw [walk, h3, contents_rewind, hl, foldl_bump hn]

theorem foldl_walk {s : AddrSequence} (lay : Layout s) (hwalks : 1 ≤ s.nrWalks)
    {later : List (List (ℕ × ℕ))} (hn : ∀ calls ∈ later, ∀ call ∈ calls, call.2 ≤ 1)
    (hasc : ∀ calls ∈ later, calls.Pairwise fun c d => c.1 < d.1) {l : List (ℕ × ℕ)}
    (hl : contents s = l.map wrap) :
    Layout (later.foldl walk s) ∧
      contents (later.foldl walk s) = (l.map (tally later.flatten)).map wrap := by
  induction later generalizing s l with
  | nil => exact ⟨lay, by simpa using hl⟩
  | cons calls later ih =>
      obtain ⟨lay', hwalks', hcont⟩ := walk_later lay hwalks (hn calls (List.mem_cons_self ..))
        (hasc calls (List.mem_cons_self ..)) hl
      obtain ⟨h1, h2⟩ := ih lay' hwalks' (fun c hc => hn c (List.mem_cons_of_mem _ hc))
        (fun c hc => hasc c (List.mem_cons_of_mem _ hc)) hcont
      refine ⟨h1, ?_⟩
      rw [List.foldl_cons, h2, List.map_map (f := tally calls)]
      refine congrArg (List.map wrap) (List.map_congr_left fun p _ => ?_)
      exact tally_append calls later.flatten p

/-! ### Runs -/

/-- The calls a caller can make: 64-bit addresses, counts 0 or 1, and ascending
addresses after the first walk. -/
structure Calls (walks : List (List (ℕ × ℕ))) : Prop where
  addr_lt : ∀ calls ∈ walks, ∀ call ∈ calls, call.1 < 2 ^ 64
  n_le : ∀ calls ∈ walks, ∀ call ∈ calls, call.2 ≤ 1
  ascending : ∀ calls ∈ walks.tail, calls.Pairwise fun c d => c.1 < d.1

theorem clear_layout (s : AddrSequence) (shift : ℕ) : Layout (s.clear.setPageshift shift) := by
  have hall : allStored (s.clear.setPageshift shift) = [] := rfl
  refine ⟨⟨?_, ?_, ?_, ?_, ?_, le_rfl, fun _ => rfl⟩, ?_⟩
  · simp [hall]
  · simp [hall]
  · simp [hall]
  · rw [hall]; rfl
  · simp [setPageshift, Nat.shiftLeft_eq]
  · simp [setPageshift, clear]

theorem rising_wrap {first : List (ℕ × ℕ)} (hn : ∀ call ∈ first, call.2 ≤ 1) :
    (rising [] first).map wrap = rising [] first := by
  rw [List.map_congr_left (g := id), List.map_id]
  intro p hp
  have := hn p (rising_subset [] first hp)
  exact wrap_of_lt (by omega)

/-- The first walk stores the rising calls. -/
theorem walk_first (s : AddrSequence) (shift : ℕ) {first : List (ℕ × ℕ)}
    (haddr : ∀ call ∈ first, call.1 < 2 ^ 64) (hn : ∀ call ∈ first, call.2 ≤ 1) :
    Layout ((s.clear.setPageshift shift).walk first) ∧
      ((s.clear.setPageshift shift).walk first).nrWalks = 1 ∧
      contents ((s.clear.setPageshift shift).walk first) = rising [] first := by
  have app : Appending (s.clear.setPageshift shift).rewind :=
    ⟨by simp [allStored, storedOf, rewind, setPageshift, clear], fun h => absurd rfl h,
      by simp [rewind], fun c hc => by simp [rewind, setPageshift, clear] at hc⟩
  obtain ⟨hlay, hwalks, hcont⟩ := foldl_appendAddr (rewind_layout (clear_layout s shift)) app
    (by simp [rewind, setPageshift, clear]) haddr
  rw [foldl_appendTo [] (by simp [contents, allStored, storedOf, rewind,
    setPageshift, clear]) hn] at hcont
  exact ⟨hlay, hwalks, hcont⟩

/-- A run leaves the reference list in the sequence, each count as the payload
keeps it. -/
theorem run_contents_wrap (s : AddrSequence) (shift : ℕ) {walks : List (List (ℕ × ℕ))}
    (hcalls : Calls walks) :
    Layout (s.run shift walks) ∧
      contents (s.run shift walks) = (reference walks).map wrap := by
  cases walks with
  | nil => exact ⟨clear_layout s shift, rfl⟩
  | cons first later =>
      have hfirst := hcalls.n_le first (List.mem_cons_self ..)
      obtain ⟨lay₁, hwalks₁, hcont₁⟩ :=
        walk_first s shift (hcalls.addr_lt first (List.mem_cons_self ..)) hfirst
      obtain ⟨lay₂, hcont₂⟩ := foldl_walk lay₁ hwalks₁.ge
        (fun calls h => hcalls.n_le calls (List.mem_cons_of_mem _ h)) hcalls.ascending
        (hcont₁.trans (rising_wrap hfirst).symm)
      exact ⟨lay₂, by rw [run, List.foldl_cons, hcont₂]; rfl⟩

/-- An address is counted at most once by every walk. -/
theorem reference_le {walks : List (List (ℕ × ℕ))} (hcalls : Calls walks) :
    ∀ p ∈ reference walks, p.2 ≤ walks.length := by
  cases walks with
  | nil => simp [reference]
  | cons first later =>
      intro p hp
      obtain ⟨call, hcall, rfl⟩ := List.mem_map.mp hp
      have hn := hcalls.n_le first (List.mem_cons_self ..) call (rising_subset [] first hcall)
      have hsum : later.flatten.count (call.1, 1) ≤ later.length * 1 := by
        rw [List.count_flatten, ← List.length_map (List.count (call.1, 1))]
        refine List.sum_le_card_nsmul _ _ fun n hn => ?_
        obtain ⟨calls, hmem, rfl⟩ := List.mem_map.mp hn
        exact count_le_one (hcalls.ascending calls hmem) _
      rw [List.length_cons]
      dsimp only
      omega

/-- Up to 255 walks no count wraps. -/
theorem run_contents (s : AddrSequence) (shift : ℕ) {walks : List (List (ℕ × ℕ))}
    (hwalks : walks.length < 256) (hcalls : Calls walks) :
    Layout (s.run shift walks) ∧ contents (s.run shift walks) = reference walks := by
  obtain ⟨lay, hcont⟩ := run_contents_wrap s shift hcalls
  refine ⟨lay, hcont.trans ?_⟩
  rw [List.map_congr_left (g := id), List.map_id]
  intro p hp
  have := reference_le hcalls p hp
  exact wrap_of_lt (by omega)

/-- The visit loop after a run of any number of walks. -/
theorem run_pages_wrap (s : AddrSequence) (shift : ℕ) {walks : List (List (ℕ × ℕ))}
    (hcalls : Calls walks) :
    ((s.run shift walks).pages.map fun p => (p.1, p.2.1)) = (reference walks).map wrap := by
  obtain ⟨lay, hcont⟩ := run_contents_wrap s shift hcalls
  rw [pages_eq lay, List.map_map, ← hcont]
  rfl

/-- The number of walks that report an address as accessed. -/
def accessedWalks (walks : List (List (ℕ × ℕ))) (addr : ℕ) : ℕ :=
  walks.countP fun calls => calls.contains (addr, 1)

theorem count_flatten_eq_accessedWalks {walks : List (List (ℕ × ℕ))}
    (hnodup : ∀ calls ∈ walks, calls.Nodup) (addr : ℕ) :
    walks.flatten.count (addr, 1) = accessedWalks walks addr := by
  induction walks with
  | nil => rfl
  | cons calls walks ih =>
      have hcalls := hnodup calls (List.mem_cons_self ..)
      rw [List.flatten_cons, List.count_append, ih fun c hc => hnodup c (List.mem_cons_of_mem _ hc),
        accessedWalks, accessedWalks, List.countP_cons, Nat.add_comm]
      by_cases hmem : (addr, 1) ∈ calls
      · rw [List.count_eq_one_of_mem hcalls hmem]
        simp [hmem]
      · rw [List.count_eq_zero_of_not_mem hmem]
        simp [hmem]

/-- Where no walk reports an address twice, the count of a stored address is the
number of walks that report it as accessed. -/
theorem reference_eq_accessedWalks {walks : List (List (ℕ × ℕ))} (hcalls : Calls walks)
    (honce : ∀ calls ∈ walks, (calls.map Prod.fst).Nodup) :
    ∀ p ∈ reference walks, p.2 = accessedWalks walks p.1 := by
  cases walks with
  | nil => simp [reference]
  | cons first later =>
      intro p hp
      obtain ⟨call, hrising, rfl⟩ := List.mem_map.mp hp
      have hcall := rising_subset [] first hrising
      have hn := hcalls.n_le first (List.mem_cons_self ..) call hcall
      have hfirst : (if (call.1, 1) ∈ first then 1 else 0) = call.2 := by
        split
        · next hmem =>
          rw [List.inj_on_of_nodup_map (honce first (List.mem_cons_self ..)) hcall hmem rfl]
        · next hmem =>
          have hne : call.2 ≠ 1 := fun h => hmem (h ▸ hcall)
          omega
      dsimp only
      rw [count_flatten_eq_accessedWalks
        fun c hc => (honce c (List.mem_cons_of_mem _ hc)).of_map Prod.fst]
      rw [accessedWalks, accessedWalks, List.countP_cons, Nat.add_comm]
      simp only [List.contains_iff_mem, hfirst]

/-- The visit loop after a run yields the reference list in ascending order,
`size()` is its length, and the addresses are those of the first walk. -/
theorem run_pages (s : AddrSequence) (shift : ℕ) (walks : List (List (ℕ × ℕ)))
    (hwalks : walks.length < 256) (hcalls : Calls walks) :
    ((s.run shift walks).pages.map fun p => (p.1, p.2.1)) = reference walks ∧
      (reference walks).Pairwise (fun p q => p.1 < q.1) ∧
      (s.run shift walks).size = (reference walks).length ∧
      (s.run shift walks).pages.map (·.1) = (s.run shift (walks.take 1)).pages.map (·.1) := by
  have hpages : ∀ ws : List (List (ℕ × ℕ)), ws.length < 256 → Calls ws →
      ((s.run shift ws).pages.map fun p => (p.1, p.2.1)) = reference ws := by
    intro ws hlen hws
    obtain ⟨lay, hcont⟩ := run_contents s shift hlen hws
    rw [pages_eq lay, List.map_map, ← hcont]
    rfl
  have haddr : ∀ ws : List (List (ℕ × ℕ)), ws.length < 256 → Calls ws →
      (s.run shift ws).pages.map (·.1) = (reference ws).map (·.1) := by
    intro ws hlen hws
    rw [← hpages ws hlen hws, List.map_map]
    rfl
  obtain ⟨lay, hcont⟩ := run_contents s shift hwalks hcalls
  refine ⟨hpages walks hwalks hcalls, ?_, ?_, ?_⟩
  · rw [← hcont, contents, List.pairwise_map]
    exact lay.ascending
  · rw [size, lay.addrSize_eq, ← hcont, contents, List.length_map]
  · have htake : Calls (walks.take 1) := by
      refine ⟨fun c hc => hcalls.addr_lt c (List.mem_of_mem_take hc),
        fun c hc => hcalls.n_le c (List.mem_of_mem_take hc), fun c hc => ?_⟩
      cases walks with
      | nil => simp at hc
      | cons first later => simp at hc
    rw [haddr walks hwalks hcalls, haddr (walks.take 1)
      ((List.length_take_le' 1 walks).trans_lt hwalks) htake]
    cases walks with
    | nil => rfl
    | cons first later => simp [reference, Function.comp_def]

/-- The second call of the first walk is below the first one, the second address
of the second walk is not stored. -/
theorem run_pages_two_walks :
    ((init.run 12 [[(0x5000, 1), (0x3000, 1), (0x6000, 0)], [(0x5000, 1), (0x5800, 1)]]).pages.map
        fun p => (p.1, p.2.1)) = [(0x5000, 2), (0x6000, 0)] ∧
      (init.run 12 [[(0x5000, 1), (0x3000, 1), (0x6000, 0)], [(0x5000, 1), (0x5800, 1)]]).size =
        2 := by
  obtain ⟨hpages, -, hsize, -⟩ := run_pages init 12
    [[(0x5000, 1), (0x3000, 1), (0x6000, 0)], [(0x5000, 1), (0x5800, 1)]]
    (by decide) ⟨by decide, by decide, by decide⟩
  exact ⟨hpages.trans (by decide), hsize.trans (by decide)⟩

end MemoryOptimizer.AddrSequence
