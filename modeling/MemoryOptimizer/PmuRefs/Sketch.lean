import MemoryOptimizer.Lib.CountMin
import MemoryOptimizer.PmuRefs.Interval

/-!
# The sketch misses no hot page

A run of updates, agings and clearings outside hash mode. The cells of `cms` are a
count-min sketch, as long as no 16-bit counter can wrap: at most 65535 updates
since the last `cmsk_clear`.

* `refCount` — the exact count of a page, halved where the sketch is.
* `cmsUpdate_spec` — one update of the rows, as an update of the sketch.
* `Running.step` — a step of the run.
* `sketch_missesNoHotPage` — the value of an update is at least the exact count,
  and a page whose count reaches the threshold is in the table.
-/

namespace MemoryOptimizer.PmuRefs

open CountMin

/-! ### The rows as a sketch -/

/-- A counter. -/
def cell (cms : Cms) (i b : ℕ) : ℕ := (cms.matrix.getD i []).getD b 0

/-- The cell of a page in row `i`. -/
def rowHash (mask i : ℕ) (key : Key) : ℕ := hash key.1 key.2 i &&& mask

/-- The matrix has the size that `cms_init` gave it. -/
structure Shaped (depth widthOrder : ℕ) (cms : Cms) : Prop where
  depth_eq : cms.depth = depth
  widthOrder_eq : cms.widthOrder = widthOrder
  widthMask_eq : cms.widthMask = 2 ^ widthOrder - 1
  length_matrix : cms.matrix.length = depth
  length_row : ∀ row ∈ cms.matrix, row.length = 2 ^ widthOrder

theorem rowHash_lt (widthOrder i : ℕ) (key : Key) :
    rowHash (2 ^ widthOrder - 1) i key < 2 ^ widthOrder := by
  have hle : rowHash (2 ^ widthOrder - 1) i key ≤ 2 ^ widthOrder - 1 := Nat.and_le_right
  have hpos : 0 < 2 ^ widthOrder := Nat.two_pow_pos widthOrder
  omega

/-- Storing a counter. -/
def setCounter (cms : Cms) (i b val : ℕ) : Cms :=
  { cms with matrix := cms.matrix.modify i fun row => row.set b val }

theorem Shaped.setCounter {depth widthOrder : ℕ} {cms : Cms} (h : Shaped depth widthOrder cms)
    (i b val : ℕ) : Shaped depth widthOrder (setCounter cms i b val) := by
  refine ⟨h.1, h.2, h.3, (List.length_modify ..).trans h.length_matrix, fun row hmem => ?_⟩
  obtain ⟨j, hj⟩ := List.mem_iff_getElem?.mp hmem
  simp only [PmuRefs.setCounter, List.getElem?_modify] at hj
  cases hold : cms.matrix[j]? with
  | none => rw [hold] at hj; cases hj
  | some row' =>
      rw [hold] at hj
      have hlen := h.length_row row' (List.mem_of_getElem? hold)
      split at hj <;> cases hj <;> simpa using hlen

theorem Shaped.cell_setCounter {depth widthOrder : ℕ} {cms : Cms} (h : Shaped depth widthOrder cms)
    {i b : ℕ} (hi : i < depth) (hb : b < 2 ^ widthOrder) (val j c : ℕ) :
    cell (PmuRefs.setCounter cms i b val) j c = if j = i ∧ c = b then val else cell cms j c := by
  have hrow : i < cms.matrix.length := by rwa [h.length_matrix]
  have hlen := h.length_row _ (List.getElem_mem hrow)
  simp only [cell, PmuRefs.setCounter, List.getD_eq_getElem?_getD, List.getElem?_modify]
  by_cases hj : j = i
  · subst hj
    by_cases hc : c = b
    · simp [hc, hrow, hlen, hb]
    · simp [hc, hrow, Ne.symm hc]
  · simp [hj, Ne.symm hj]

/-- One turn of the loop in `cms_update`. -/
theorem cmsUpdateRows_succ (key : Key) (cms : Cms) (i : ℕ) :
    let r := cmsUpdateRows key.1 key.2 cms i
    let h := rowHash r.1.widthMask i key
    let val := count16 (cell r.1 i h + 1)
    cmsUpdateRows key.1 key.2 cms (i + 1) =
      (setCounter r.1 i h val, if val < r.2.1 then val else r.2.1, h) := rfl

/-- What the first `i` turns of the loop in `cms_update` do to the counters, and
the smallest new count so far. -/
theorem cmsUpdateRows_spec {depth widthOrder : ℕ} {cms : Cms} (h : Shaped depth widthOrder cms)
    (key : Key) {i : ℕ} (hi : i ≤ depth) :
    Shaped depth widthOrder (cmsUpdateRows key.1 key.2 cms i).1 ∧
      (∀ j b, cell (cmsUpdateRows key.1 key.2 cms i).1 j b =
        if j < i ∧ b = rowHash cms.widthMask j key then count16 (cell cms j b + 1)
        else cell cms j b) ∧
      ∀ r, r ≤ (cmsUpdateRows key.1 key.2 cms i).2.1 ↔
        r ≤ 0xffff ∧ ∀ j < i, r ≤ count16 (cell cms j (rowHash cms.widthMask j key) + 1) := by
  induction i with
  | zero => exact ⟨h, fun j b => by simp [cmsUpdateRows], fun r => by simp [cmsUpdateRows]⟩
  | succ i ih =>
      obtain ⟨hshape, hcells, hmin⟩ := ih (by omega)
      have hcell : cell (cmsUpdateRows key.1 key.2 cms i).1 i (rowHash cms.widthMask i key) =
          cell cms i (rowHash cms.widthMask i key) := by
        rw [hcells, if_neg fun h => lt_irrefl i h.1]
      have hb : rowHash cms.widthMask i key < 2 ^ widthOrder := by
        rw [h.widthMask_eq]
        exact rowHash_lt widthOrder i key
      rw [cmsUpdateRows_succ]
      dsimp only
      rw [(cmsUpdateRows_shape key.1 key.2 cms i).widthMask_eq, hcell]
      refine ⟨hshape.setCounter _ _ _, fun j b => ?_, fun r => ?_⟩
      · rw [hshape.cell_setCounter (by omega) hb, hcells]
        by_cases hj : j = i
        · subst hj
          by_cases hbj : b = rowHash cms.widthMask j key
          · simp [hbj]
          · simp [hbj]
        · have hlt : j < i + 1 ↔ j < i := by omega
          simp [hj, hlt]
      · -- the smaller of the new count and the smallest before it
        have hsplit : (∀ j < i + 1, r ≤ count16 (cell cms j (rowHash cms.widthMask j key) + 1)) ↔
            (∀ j < i, r ≤ count16 (cell cms j (rowHash cms.widthMask j key) + 1)) ∧
              r ≤ count16 (cell cms i (rowHash cms.widthMask i key) + 1) := by
          refine ⟨fun h => ⟨fun j hj => h j (by omega), h i (by omega)⟩, fun h j hj => ?_⟩
          rcases Nat.lt_succ_iff_lt_or_eq.mp hj with hlt | rfl
          · exact h.1 j hlt
          · exact h.2
        rw [hsplit, ← and_assoc, ← hmin]
        split <;> omega

/-- The counters of the rows. -/
def cells (depth : ℕ) (cms : Cms) : Fin depth → ℕ → ℕ := fun i b => cell cms i b

/-- The hash functions of the rows. -/
def hashes (depth widthOrder : ℕ) : Fin depth → Key → ℕ :=
  fun i key => rowHash (2 ^ widthOrder - 1) i key

theorem cmsUpdate_eq {depth widthOrder : ℕ} {cms : Cms} (h : Shaped depth widthOrder cms)
    (key : Key) : cmsUpdate cms key.1 key.2 =
      let r := cmsUpdateRows key.1 key.2 cms depth
      ({ r.1 with total := uint (r.1.total + 1) }, r.2.1, r.2.2) := by
  rw [cmsUpdate, h.depth_eq]

theorem cmsUpdate_shaped {depth widthOrder : ℕ} {cms : Cms} (h : Shaped depth widthOrder cms)
    (key : Key) : Shaped depth widthOrder (cmsUpdate cms key.1 key.2).1 := by
  obtain ⟨⟨h1, h2, h3, h4, h5⟩, -⟩ := cmsUpdateRows_spec h key le_rfl
  rw [cmsUpdate_eq h]
  exact ⟨h1, h2, h3, h4, h5⟩

/-- **One update.** While no counter wraps, `cms_update` counts the page in the
sketch, and returns a bound on what all its cells bound. -/
theorem cmsUpdate_spec {depth widthOrder n : ℕ} {cms : Cms} (h : Shaped depth widthOrder cms)
    (key : Key) (hwithin : Within (cells depth cms) n) (hn : n < 0xffff) :
    cells depth (cmsUpdate cms key.1 key.2).1 =
        add (hashes depth widthOrder) (cells depth cms) key ∧
      ∀ r ≤ 0xffff, (∀ i, r ≤ cells depth (cmsUpdate cms key.1 key.2).1 i
        (hashes depth widthOrder i key)) → r ≤ (cmsUpdate cms key.1 key.2).2.1 := by
  obtain ⟨-, hcells, hmin⟩ := cmsUpdateRows_spec h key le_rfl
  have hfit : ∀ (i : Fin depth) b, count16 (cell cms i b + 1) = cell cms i b + 1 := fun i b =>
    Nat.mod_eq_of_lt (by have := hwithin i b; unfold cells at this; omega)
  have hcells' : cells depth (cmsUpdateRows key.1 key.2 cms depth).1 =
      add (hashes depth widthOrder) (cells depth cms) key := by
    funext i b
    rw [cells, hcells, hfit, h.widthMask_eq]
    unfold add hashes cells
    by_cases hb : b = rowHash (2 ^ widthOrder - 1) i key
    · simp [hb]
    · simp [hb]
  rw [cmsUpdate_eq h]
  refine ⟨hcells', fun r hr hall => ?_⟩
  refine (hmin r).mpr ⟨hr, fun j hj => ?_⟩
  have hrow : r ≤ cells depth (cmsUpdateRows key.1 key.2 cms depth).1 ⟨j, hj⟩
      (hashes depth widthOrder ⟨j, hj⟩ key) := hall ⟨j, hj⟩
  rw [hcells'] at hrow
  simp only [add, hashes, if_true] at hrow
  rw [h.widthMask_eq, hfit ⟨j, hj⟩]
  exact hrow

/-! ### Clearing and aging -/

theorem cell_map (cms : Cms) (f : ℕ → ℕ) (hf : f 0 = 0) (i b : ℕ) :
    cell { cms with matrix := cms.matrix.map fun row => row.map f } i b = f (cell cms i b) := by
  simp only [cell, List.getD_eq_getElem?_getD, List.getElem?_map]
  cases cms.matrix[i]? with
  | none => simp [hf]
  | some row =>
      simp only [Option.map_some, Option.getD_some, List.getElem?_map]
      cases row[b]? <;> simp [hf]

theorem Shaped.map {depth widthOrder : ℕ} {cms : Cms} (h : Shaped depth widthOrder cms)
    (f : ℕ → ℕ) (total : ℕ) : Shaped depth widthOrder
      { cms with matrix := cms.matrix.map fun row => row.map f, total := total } := by
  refine ⟨h.1, h.2, h.3, (List.length_map _).trans h.length_matrix, fun row hmem => ?_⟩
  obtain ⟨row', hrow', rfl⟩ := List.mem_map.mp hmem
  rw [List.length_map]
  exact h.length_row row' hrow'

theorem cells_cmsClear (depth : ℕ) (cms : Cms) : cells depth (cmsClear cms) = fun _ _ => 0 :=
  funext fun i => funext fun b => cell_map cms (fun _ => 0) rfl i b

theorem cells_cmsAge (depth : ℕ) (cms : Cms) :
    cells depth (cmsAge cms) = halve (cells depth cms) := by
  funext i b
  refine (cell_map cms (fun count => count >>> 1) rfl i b).trans ?_
  rw [Nat.shiftRight_eq_div_pow]
  rfl

theorem cmsInit_shaped (depth widthOrder : ℕ) :
    Shaped depth widthOrder (cmsInit widthOrder depth) := by
  refine ⟨rfl, rfl, rfl, by simp [cmsInit], fun row hrow => ?_⟩
  rw [List.eq_of_mem_replicate hrow, List.length_replicate]

theorem cells_cmsInit (depth widthOrder : ℕ) :
    cells depth (cmsInit widthOrder depth) = fun _ _ => 0 := by
  funext i b
  simp only [cells, cell, cmsInit, List.getD_eq_getElem?_getD, List.getElem?_replicate, i.isLt,
    if_true, Option.getD_some]
  split <;> rfl

/-! ### Runs -/

/-- A call of `cmsk_update`, `cmsk_age` or `cmsk_clear`. -/
inductive Op where
  | update (key : Key)
  | age
  | clear

/-- One call; a `cmsk_update` that reports a full table ends the run. -/
def opStep (s : Cmsk) : Op → Option Cmsk
  | .update key => (cmskUpdate s key.1 key.2).bind fun r => if r.2 then none else some r.1
  | .age => some (cmskAge s)
  | .clear => some (cmskClear s)

def opRun (s : Cmsk) (ops : List Op) : Option Cmsk := ops.foldlM opStep s

/-- The exact count of a page since the last `cmsk_clear`, halved with rounding
down at each `CMSK_AGING_HALF`; the other aging clears. -/
def refStep (agingHalf : Bool) (counts : Key → ℕ) : Op → Key → ℕ
  | .update key => count counts key
  | .age => if agingHalf then fun key => counts key / 2 else fun _ => 0
  | .clear => fun _ => 0

def refCount (agingHalf : Bool) (ops : List Op) : Key → ℕ :=
  ops.foldl (refStep agingHalf) fun _ => 0

/-- The number of updates since the last `cmsk_clear`. -/
def clearStep (agingHalf : Bool) (n : ℕ) : Op → ℕ
  | .update _ => n + 1
  | .age => if agingHalf then n else 0
  | .clear => 0

def updatesSinceClear (agingHalf : Bool) (ops : List Op) : ℕ :=
  ops.foldl (clearStep agingHalf) 0

/-- The pages in the table. -/
def Achash.keys (a : Achash) : List Key := a.entries.map Prod.fst

/-- What holds in a run, with the exact counts and the number of updates since the
last `cmsk_clear`. -/
structure Running (agingHalf : Bool) (depth widthOrder : ℕ) (counts : Key → ℕ) (n : ℕ)
    (s : Cmsk) : Prop where
  agingHalf_eq : s.agingHalf = agingHalf
  hashMode_eq : s.achash.hashMode = false
  shaped : Shaped depth widthOrder s.cms
  covers : n ≤ 0xffff → Covers (hashes depth widthOrder) (cells depth s.cms) counts
  within : n ≤ 0xffff → Within (cells depth s.cms) n
  counts_le : ∀ key, counts key ≤ n
  table : Table (bucketOf false s.achash.mask s.cms) s.achash
  room : s.achash.len < s.achash.size

section Running

variable {agingHalf : Bool} {depth widthOrder n : ℕ} {counts : Key → ℕ} {s s' : Cmsk}

theorem Running.init {threshold sizeOrder histMax : ℕ}
    (h : cmskInit agingHalf false widthOrder depth threshold sizeOrder histMax = some s) :
    Running agingHalf depth widthOrder (fun _ => 0) 0 s := by
  have fresh := cmskInit_fresh h
  refine ⟨fresh.agingHalf_eq, fresh.hashMode_eq, fresh.cms_eq ▸ cmsInit_shaped depth widthOrder,
    fun _ => ?_, fun _ => ?_, fun _ => le_rfl, fresh.table, fresh.room⟩
  · rw [fresh.cms_eq, cells_cmsInit]
    exact .clear
  · rw [fresh.cms_eq, cells_cmsInit]
    exact .clear

/-- `cmsk_clear` starts the counts again, whatever was before. -/
theorem Running.clear (h : Running agingHalf depth widthOrder counts n s) :
    Running agingHalf depth widthOrder (fun _ => 0) 0 (cmskClear s) := by
  have hcms : (cmskClear s).cms = cmsClear s.cms := by
    simp [cmskClear, h.hashMode_eq]
  refine ⟨h.agingHalf_eq, h.hashMode_eq, ?_, fun _ => ?_, fun _ => ?_, fun _ => le_rfl,
    achashClear_table h.table.toSized, h.table.size_pos⟩
  · rw [hcms]
    exact h.shaped.map _ _
  · rw [hcms, cells_cmsClear]
    exact .clear
  · rw [hcms, cells_cmsClear]
    exact .clear

theorem Running.age (h : Running agingHalf depth widthOrder counts n s) :
    Running agingHalf depth widthOrder (refStep agingHalf counts .age)
      (clearStep agingHalf n .age) (cmskAge s) := by
  unfold cmskAge refStep clearStep
  rw [h.agingHalf_eq]
  cases agingHalf with
  | false => exact h.clear
  | true =>
      simp only [if_true]
      refine ⟨rfl, h.hashMode_eq, h.shaped.map _ _, fun hn => ?_, fun hn => ?_,
        fun key => (Nat.div_le_self _ _).trans (h.counts_le key),
        achashClear_table h.table.toSized, h.table.size_pos⟩
      · show Covers _ (cells depth (cmsAge s.cms)) _
        rw [cells_cmsAge]
        exact (h.covers hn).halve
      · show Within (cells depth (cmsAge s.cms)) _
        rw [cells_cmsAge]
        exact (h.within hn).halve

/-- The value that `cms_update` returns is at least the exact count. -/
theorem Running.count_le_cmsUpdate (h : Running agingHalf depth widthOrder counts n s)
    (hn : n < 0xffff) (key : Key) :
    count counts key key ≤ (cmsUpdate s.cms key.1 key.2).2.1 := by
  obtain ⟨hcells, hmin⟩ := cmsUpdate_spec h.shaped key (h.within hn.le) hn
  have hle : count counts key key ≤ 0xffff := by
    have hkey := h.counts_le key
    simp only [count, if_true]
    omega
  refine hmin _ hle fun i => ?_
  rw [hcells]
  exact (h.covers hn.le).add key i key

theorem mem_record16 {initial : ℕ} {key k : Key} {l : List (Key × ℕ)} :
    k ∈ (record16 initial key l).map Prod.fst ↔ k ∈ l.map Prod.fst ∨ k = key := by
  unfold record16
  split
  · next hkey =>
    have hkeys : (l.map fun e => if e.1 = key then (e.1, count16 (e.2 + 1)) else e).map Prod.fst =
        l.map Prod.fst := by
      rw [List.map_map]
      refine List.map_congr_left fun e _ => ?_
      simp only [Function.comp_apply]
      split <;> rfl
    rw [hkeys]
    refine ⟨Or.inl, fun h => h.elim id ?_⟩
    rintro rfl
    exact hkey
  · rw [List.map_append, List.mem_append]
    simp

/-- **One update.** It keeps the invariant and the pages of the table, and adds
its page when the value that `cms_update` returns reaches the threshold. -/
theorem Running.update (h : Running agingHalf depth widthOrder counts n s) {key : Key}
    (hpid : key.2 < 2 ^ 24) (hstep : opStep s (.update key) = some s') :
    Running agingHalf depth widthOrder (count counts key) (n + 1) s' ∧
      s'.cms = (cmsUpdate s.cms key.1 key.2).1 ∧ s'.achash.threshold = s.achash.threshold ∧
      (∀ k ∈ s.achash.keys, k ∈ s'.achash.keys) ∧
      ((cmsUpdate s.cms key.1 key.2).2.1 ≥
          hotThreshold false s.achash.threshold (cmsUpdate s.cms key.1 key.2).1 →
        key ∈ s'.achash.keys) := by
  obtain ⟨⟨s₁, full⟩, hupdate, hfull⟩ := Option.bind_eq_some_iff.mp hstep
  cases full with
  | true => cases hfull
  | false =>
      obtain rfl : s₁ = s' := by simpa using hfull
      have hcounts : ∀ k, count counts key k ≤ n + 1 := by
        intro k
        have hk := h.counts_le k
        unfold count
        split <;> omega
      have hcovers : n + 1 ≤ 0xffff → Covers (hashes depth widthOrder)
          (cells depth (cmsUpdate s.cms key.1 key.2).1) (count counts key) := by
        intro hn
        rw [(cmsUpdate_spec h.shaped key (h.within (by omega)) (by omega)).1]
        exact (h.covers (by omega)).add key
      have hwithin : n + 1 ≤ 0xffff →
          Within (cells depth (cmsUpdate s.cms key.1 key.2).1) (n + 1) := by
        intro hn
        rw [(cmsUpdate_spec h.shaped key (h.within (by omega)) (by omega)).1]
        exact (h.within (by omega)).add key
      have hshaped := cmsUpdate_shaped h.shaped key
      have hbuckets := bucketOf_congr (cmsUpdate_shape s.cms key.1 key.2) false s.achash.mask
      obtain ⟨hash, hbucket, heq⟩ := cmskUpdate_eq s key
      rw [h.hashMode_eq] at hbucket
      simp only [h.hashMode_eq, sample, Bool.false_eq_true, if_false] at heq
      rw [heq] at hupdate
      split at hupdate
      · next hhot =>
        obtain ⟨a, ha, table, same, hentries, -⟩ :=
          achashUpdate_spec16 h.table hbucket hpid h.room
        rw [ha] at hupdate
        have hroom : a.len < a.size := by
          simp only [Option.map_some, Option.some_inj, Prod.ext_iff, decide_eq_false_iff_not,
            not_le] at hupdate
          exact hupdate.2
        have hs : s₁ = { s with cms := (cmsUpdate s.cms key.1 key.2).1, achash := a } := by
          simp only [Option.map_some, Option.some_inj, Prod.ext_iff] at hupdate
          exact hupdate.1.symm
        subst hs
        have hkeys : ∀ k, k ∈ a.keys ↔ k ∈ s.achash.keys ∨ k = key := by
          intro k
          rw [Achash.keys, hentries]
          exact mem_record16
        refine ⟨⟨h.agingHalf_eq, same.hashMode_eq.trans h.hashMode_eq, hshaped, hcovers, hwithin,
          hcounts, ?_, hroom⟩, rfl, same.threshold_eq, fun k hk => (hkeys k).mpr (.inl hk),
          fun _ => (hkeys key).mpr (.inr rfl)⟩
        show Table (bucketOf false a.mask (cmsUpdate s.cms key.1 key.2).1) a
        rw [same.mask_eq, hbuckets]
        exact table
      · next hcold =>
        have hs : s₁ = { s with cms := (cmsUpdate s.cms key.1 key.2).1 } := by
          simp only [Option.some_inj, Prod.ext_iff] at hupdate
          exact hupdate.1.symm
        subst hs
        refine ⟨⟨h.agingHalf_eq, h.hashMode_eq, hshaped, hcovers, hwithin, hcounts, ?_, h.room⟩,
          rfl, rfl, fun k hk => hk, fun hhot => absurd (decide_eq_true hhot) hcold⟩
        show Table (bucketOf false s.achash.mask (cmsUpdate s.cms key.1 key.2).1) s.achash
        rw [hbuckets]
        exact h.table

theorem Running.step (h : Running agingHalf depth widthOrder counts n s) {op : Op}
    (hpid : ∀ key, op = .update key → key.2 < 2 ^ 24) (hstep : opStep s op = some s') :
    Running agingHalf depth widthOrder (refStep agingHalf counts op) (clearStep agingHalf n op)
      s' := by
  cases op with
  | update key => exact (h.update (hpid key rfl) hstep).1
  | age => cases hstep; exact h.age
  | clear => cases hstep; exact h.clear

theorem Running.run {ops : List Op} (h : Running agingHalf depth widthOrder counts n s)
    (hpid : ∀ key, .update key ∈ ops → key.2 < 2 ^ 24) (hrun : opRun s ops = some s') :
    Running agingHalf depth widthOrder (ops.foldl (refStep agingHalf) counts)
      (ops.foldl (clearStep agingHalf) n) s' := by
  induction ops generalizing s counts n with
  | nil => cases hrun; exact h
  | cons op ops ih =>
      obtain ⟨s₁, hstep, hrest⟩ := Option.bind_eq_some_iff.mp hrun
      exact ih (h.step (fun key hkey => hpid key (hkey ▸ List.mem_cons_self)) hstep)
        (fun key hkey => hpid key (List.mem_cons_of_mem _ hkey)) hrest

/-- Updates keep the pages of the table. -/
theorem Running.keys_updates {keys : List Key}
    (h : Running agingHalf depth widthOrder counts n s) (hpid : ∀ key ∈ keys, key.2 < 2 ^ 24)
    (hrun : opRun s (keys.map .update) = some s') : ∀ k ∈ s.achash.keys, k ∈ s'.achash.keys := by
  induction keys generalizing s counts n with
  | nil => cases hrun; exact fun k hk => hk
  | cons key keys ih =>
      obtain ⟨s₁, hstep, hrest⟩ := Option.bind_eq_some_iff.mp hrun
      obtain ⟨h₁, -, -, hkeys, -⟩ := h.update (hpid key List.mem_cons_self) hstep
      exact fun k hk => ih h₁ (fun key hkey => hpid key (List.mem_cons_of_mem _ hkey)) hrest k
        (hkeys k hk)

end Running

/-- Every run of updates, agings of either method and clearings outside hash
mode, without a full table, up to an update of a page, with at most 65535 updates
since the last `cmsk_clear`: the value that `cms_update` returns is at least the
exact count of the page; and if that count is at least the threshold plus
`cms_error`, the page is in the table after this and any number of further updates
of the interval. -/
theorem sketch_missesNoHotPage {agingHalf : Bool} {widthOrder depth threshold sizeOrder histMax : ℕ}
    {s₀ : Cmsk}
    (hinit : cmskInit agingHalf false widthOrder depth threshold sizeOrder histMax = some s₀)
    (ops : List Op) (key : Key)
    (hpid : ∀ key', .update key' ∈ ops ++ [.update key] → key'.2 < 2 ^ 24)
    (hlimit : updatesSinceClear agingHalf (ops ++ [.update key]) ≤ 0xffff)
    {s : Cmsk} (hrun : opRun s₀ ops = some s) :
    refCount agingHalf (ops ++ [.update key]) key ≤ (cmsUpdate s.cms key.1 key.2).2.1 ∧
      (s.achash.threshold + cmsError (cmsUpdate s.cms key.1 key.2).1 ≤
          refCount agingHalf (ops ++ [.update key]) key →
        ∀ later : List Key, (∀ key' ∈ later, key'.2 < 2 ^ 24) →
          ∀ s', opRun s (.update key :: later.map .update) = some s' → key ∈ s'.achash.keys) := by
  have h := (Running.init hinit).run
    (fun key' hkey' => hpid key' (List.mem_append_left _ hkey')) hrun
  have hcount : refCount agingHalf (ops ++ [.update key]) =
      count (ops.foldl (refStep agingHalf) fun _ => 0) key := List.foldl_concat ..
  have hupdates : updatesSinceClear agingHalf (ops ++ [.update key]) =
      ops.foldl (clearStep agingHalf) 0 + 1 := List.foldl_concat ..
  rw [hupdates] at hlimit
  rw [hcount]
  have hle := h.count_le_cmsUpdate (by omega) key
  refine ⟨hle, fun hhot later hlater s' hrun' => ?_⟩
  obtain ⟨s₁, hstep, hrest⟩ := Option.bind_eq_some_iff.mp hrun'
  obtain ⟨h₁, -, -, -, hmem⟩ := h.update (hpid key (by simp)) hstep
  refine h₁.keys_updates hlater hrest key (hmem ?_)
  have hmod : hotThreshold false s.achash.threshold (cmsUpdate s.cms key.1 key.2).1 ≤
      s.achash.threshold + cmsError (cmsUpdate s.cms key.1 key.2).1 := Nat.mod_le _ _
  exact hmod.trans (hhot.trans hle)

/-- Three updates, an aging, and the update that brings the halved count to 2. -/
def halvedOnce : List Op :=
  [.update (5, 1), .update (5, 1), .update (5, 1), .age]

theorem sketch_missesNoHotPage_halvedOnce :
    ∃ s₀ s s', cmskInit true false 2 2 1 2 4 = some s₀ ∧ opRun s₀ halvedOnce = some s ∧
      opRun s [.update (5, 1), .update (6, 1)] = some s' ∧
      2 ≤ (cmsUpdate s.cms 5 1).2.1 ∧ (5, 1) ∈ s'.achash.keys := by
  obtain ⟨s₀, hinit⟩ : ∃ s₀, cmskInit true false 2 2 1 2 4 = some s₀ := ⟨_, rfl⟩
  obtain ⟨s, hrun⟩ : ∃ s, opRun s₀ halvedOnce = some s := by cases hinit; exact ⟨_, rfl⟩
  obtain ⟨s', hrun'⟩ : ∃ s', opRun s [.update (5, 1), .update (6, 1)] = some s' := by
    cases hinit
    cases hrun
    exact ⟨_, rfl⟩
  have hpid : ∀ key, Op.update key ∈ halvedOnce ++ [.update (5, 1)] → key.2 < 2 ^ 24 := by
    intro key hkey
    simp only [halvedOnce, List.cons_append, List.nil_append, List.mem_cons, Op.update.injEq,
      List.not_mem_nil, or_false, reduceCtorEq, false_or] at hkey
    obtain rfl : key = (5, 1) := by tauto
    norm_num
  obtain ⟨hle, hmem⟩ :=
    sketch_missesNoHotPage hinit halvedOnce (5, 1) hpid (by decide) hrun
  refine ⟨s₀, s, s', hinit, hrun, hrun', hle, hmem ?_ [(6, 1)] (by decide) s' hrun'⟩
  cases hinit
  cases hrun
  decide +kernel

end MemoryOptimizer.PmuRefs
