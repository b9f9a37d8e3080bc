import MemoryOptimizer.Lib.Trips
import MemoryOptimizer.Migration.MigrateCount
import MemoryOptimizer.Migration.MigratePeriod

/-!
# The progressive profile

`GlobalScan::progressive_profile` goes through the reference counts: for each of them the
pages of ordinary memory with that count are moved to the peers of their nodes, a script
looks at the program, and the pages are moved back.

* `pageMoves_doInterleaveMovePages` — the moves of a call are those of its arrays, in order.
* `promoteAndDemote_profile` — what the second pass collects for a count.
* `progressiveProfile_trips` — the moves of a profile, and what they leave behind.
-/

namespace MemoryOptimizer

open ProcIdlePageType EPTScan GlobalScan

/-! ### The moves of some calls -/

namespace EPTMigrate

open MovePages (Syscall)

/-- The pages that some calls move, each with its target node. -/
def pageMoves (calls : List MoveCall) : List (ℕ × ℤ) :=
  calls.flatMap fun c => c.addrs.zip c.targetNid

theorem pageMoves_append (calls calls' : List MoveCall) :
    pageMoves (calls ++ calls') = pageMoves calls ++ pageMoves calls' := List.flatMap_append

section Calls

variable {batchSize pageShift : ℕ} {arrays : MigrateType → Candidates}
  {kernel : ℕ → Syscall × Syscall}

/-- The calls depend neither on the calls before nor on the kernel's answers. -/
theorem calls_interleaveLoop (hbatch : 0 < batchSize) (i : ℕ) :
    ∃ new, ∀ s, (interleaveLoop batchSize pageShift arrays kernel hbatch i s).calls =
      s.calls ++ new := by
  induction hleft : maxSize arrays - i using Nat.strong_induction_on generalizing i
  next left ih =>
  by_cases hlt : i < maxSize arrays
  · obtain ⟨new, hnew⟩ := ih (maxSize arrays - (i + batchSize)) (by omega) (i + batchSize) rfl
    let callsAt (type : MigrateType) : List MoveCall :=
      if i < (arrays type).addr.length then [callAt batchSize arrays type i] else []
    refine ⟨callsAt .cold ++ callsAt .hot ++ new, fun s => ?_⟩
    rw [interleaveLoop, if_pos hlt, hnew]
    unfold interleaveStep
    rw [List.foldl_cons, List.foldl_cons, List.foldl_nil, calls_migrateStep, calls_migrateStep]
    simp only [callsAt, List.append_assoc]
  · refine ⟨[], fun s => ?_⟩
    rw [interleaveLoop, if_neg hlt, List.append_nil]

/-- **Cold pages only.** Every page is moved once, to its own target and in the order of
the arrays. -/
theorem pageMoves_doInterleaveMovePages (hbatch : 0 < batchSize)
    (hhot : (arrays .hot).addr = []) (s : InterleaveState) :
    pageMoves (doInterleaveMovePages batchSize pageShift arrays kernel hbatch s).calls =
      pageMoves s.calls ++ (arrays .cold).addr.zip (arrays .cold).targetNid := by
  unfold doInterleaveMovePages
  split
  · next hempty => rw [List.eq_nil_of_length_eq_zero hempty.1, List.zip_nil_left, List.append_nil]
  · obtain ⟨new, hnew⟩ : ∃ new, ∀ s,
        (interleaveLoop batchSize pageShift arrays kernel hbatch 0 s).calls = s.calls ++ new :=
      calls_interleaveLoop hbatch 0
    have hstart : Progress batchSize arrays 0 InterleaveState.init.calls :=
      ⟨fun _ => rfl, by simp [InterleaveState.init], fun before c after heq => by
        simp [InterleaveState.init] at heq⟩
    obtain ⟨n, hn, hprogress⟩ := Progress.loop pageShift kernel hbatch hstart
    rw [Nat.zero_mul, hnew] at hprogress
    have hcold : callsOf .cold new = new := by
      refine List.filter_eq_self.mpr fun c hc => ?_
      obtain ⟨type, k, hk⟩ := hprogress.mem c hc
      unfold callsIn at hk
      cases type with
      | cold =>
          split at hk
          · rw [List.mem_singleton.mp hk]
            rfl
          · cases hk
      | hot =>
          rw [hhot, List.length_nil, if_neg (Nat.not_lt_zero _)] at hk
          cases hk
    have hlength : ((arrays .cold).addr.zip (arrays .cold).targetNid).length =
        (arrays .cold).addr.length := by
      rw [List.length_zip, (arrays .cold).length_targetNid, min_self]
    have hmax : (arrays .cold).addr.length ≤ n * batchSize := (le_max_left _ _).trans hn
    rw [hnew, pageMoves_append]
    congr 1
    have hcalls := hprogress.callsOf_eq .cold
    rw [show InterleaveState.init.calls ++ new = new from rfl, hcold] at hcalls
    rw [pageMoves, hcalls, callsIn_flatMap _ _ hlength fun i => ?_,
      flatMap_batchAt_of_le (hlength.trans_le hmax)]
    simp only [callAt, elements, List.zip, List.drop_zipWith, List.take_zipWith]

end Calls

/-! ### What is collected for a count -/

section Collected

variable {numa : NumaNodeCollection} {p : MigrateParameter} {i : ℕ}

/-- The demotion of a page of ordinary memory with count `i`, if its node has a peer. -/
def demotion (numa : NumaNodeCollection) (i : ℕ) (page : ℕ × ℕ × ℤ) : Option Move :=
  if inRow numa refLocDram page.2.2 && page.2.1 == i then
    ((numa.getNode page.2.2).bind NumaNode.getPeerNode).map fun peer =>
      ⟨page.1, page.2.2, peer⟩
  else none

/-- The demotions of the pages with count `i`. -/
def demotions (numa : NumaNodeCollection) (i : ℕ) (pages : List (ℕ × ℕ × ℤ)) : List Move :=
  pages.filterMap (demotion numa i)

/-- A parameter that selects the cold pages of one bin, and no hot ones. -/
structure SelectsBin (p : MigrateParameter) (i : ℕ) : Prop where
  hotThresholdMax : p.hotThresholdMax = p.hotThreshold
  promoteRemain : p.promoteRemain ≤ 0
  coldThreshold : p.coldThreshold = i
  coldThresholdMin : p.coldThresholdMin = i

/-- **All pages**, as long as some of the bin remain. -/
theorem foldl_collectPage_bin (hp : SelectsBin p i) (pages : List (ℕ × ℕ × ℤ)) (m : Moves)
    (hpromote : m.promoteRemain ≤ 0)
    (hdemote : (rowCount numa refLocDram pages fun n => n == i : ℤ) ≤ m.demoteRemain) :
    (pages.foldl (collectPage numa p) m).hot = m.hot ∧
      (pages.foldl (collectPage numa p) m).cold = m.cold ++ demotions numa i pages := by
  induction pages generalizing m with
  | nil => exact ⟨rfl, (List.append_nil _).symm⟩
  | cons page pages ih =>
      obtain ⟨addr, refs, nid⟩ := page
      obtain ⟨hmax, -, hcold, hmin⟩ := hp
      have hcount : (rowCount numa refLocDram ((addr, refs, nid) :: pages) fun n => n == i) =
          (rowCount numa refLocDram pages fun n => n == i) +
            if inRow numa refLocDram nid && refs == i then 1 else 0 := List.countP_cons ..
      have hcons : demotions numa i ((addr, refs, nid) :: pages) =
          (demotion numa i (addr, refs, nid)).toList ++ demotions numa i pages := by
        unfold demotions
        rw [List.filterMap_cons]
        cases demotion numa i (addr, refs, nid) <;> rfl
      rw [hcount] at hdemote
      rw [List.foldl_cons, hcons]
      cases hnode : numa.getNode nid with
      | none =>
          have hpage : demotion numa i (addr, refs, nid) = none := by
            simp [demotion, inRow_dram, hnode]
          simp only [collectPage, hnode, hpage]
          exact ih m hpromote (by omega)
      | some node =>
          cases hpmem : node.isPmem with
          | true =>
              have hpage : demotion numa i (addr, refs, nid) = none := by
                simp [demotion, inRow_dram, hnode, hpmem]
              have hrange : ¬((refs : ℤ) > p.hotThreshold ∧ (refs : ℤ) ≤ p.hotThresholdMax) := by
                omega
              simp only [collectPage, hnode, hpmem, if_true, hpage, if_neg hrange,
                if_neg (not_lt.mpr hpromote)]
              split
              · exact ih _ (by dsimp only; omega) (by dsimp only; omega)
              · exact ih m hpromote (by omega)
          | false =>
              have hrange : ¬((refs : ℤ) < p.coldThreshold ∧ (refs : ℤ) ≥ p.coldThresholdMin) := by
                omega
              have hrow : inRow numa refLocDram nid = true := by
                simp [inRow_dram, hnode, hpmem]
              simp only [collectPage, hnode, hpmem, Bool.false_eq_true, if_false, if_neg hrange]
              split
              · next hat =>
                have hrefs : refs = i := by omega
                have hbeq : (refs == i) = true := beq_iff_eq.mpr hrefs
                simp only [hrow, hbeq, Bool.and_self, if_true] at hdemote
                have hpos : m.demoteRemain > 0 := by omega
                rw [if_pos hpos]
                obtain ⟨hhot', hcold'⟩ := ih
                  { m with
                    cold := saveMigrateParameter numa addr nid m.cold
                    demoteRemain := m.demoteRemain - 1 } hpromote (by dsimp only; omega)
                refine ⟨hhot', hcold'.trans ?_⟩
                simp only [demotion, hrow, hbeq, Bool.and_self, if_true, saveMigrateParameter]
                cases (numa.getNode nid).bind NumaNode.getPeerNode <;> simp
              · next hat =>
                have hbeq : (refs == i) = false := beq_eq_false_iff_ne.mpr fun h => hat (by omega)
                have hpage : demotion numa i (addr, refs, nid) = none := by
                  simp [demotion, hbeq]
                rw [hpage]
                exact ih m hpromote (by omega)

/-- **The second pass** collects the pages of the bin. -/
theorem promoteAndDemote_bin (hp : SelectsBin p i) {pages : List (ℕ × ℕ × ℤ)}
    (hdemote : (rowCount numa refLocDram pages fun n => n == i : ℤ) ≤ p.demoteRemain) :
    (promoteAndDemote numa p pages).hot = [] ∧
      (promoteAndDemote numa p pages).cold = demotions numa i pages := by
  have hfold := foldl_collectPage_bin hp pages ⟨[], [], p.promoteRemain, p.demoteRemain⟩
    hp.promoteRemain hdemote
  rwa [List.nil_append] at hfold

end Collected

/-! ### The moves of a range -/

/-- The way to the peers and the way back. -/
def tripOf (moves : List Move) : List (ℕ × ℤ) :=
  moves.map (fun m => (m.addr, (m.targetNid : ℤ))) ++ moves.map fun m => (m.addr, m.fromNid)

/-- What `migrate` has for a type, if it is some demotions and nothing else. -/
def Demotes (numa : NumaNodeCollection) (p : MigrateParameter) (pages : List (ℕ × ℕ × ℤ))
    (moves : List Move) : Prop :=
  if p.enabled then
    (promoteAndDemote numa p pages).hot = [] ∧ (promoteAndDemote numa p pages).cold = moves
  else moves = []

theorem pageMoves_migrateType {numa : NumaNodeCollection}
    {parameter : ProcIdlePageType → MigrateParameter} {kernel : ℕ → Syscall × Syscall}
    {range : EPTMigrate} {type : ProcIdlePageType} (hbatch : 0 < type.batchSize)
    {moves : List Move}
    (h : Demotes numa (parameter type) (range.pagetypeRefs type).pageRefs.pages moves)
    (s : InterleaveState) :
    pageMoves (range.migrateType numa true parameter kernel type hbatch s).calls =
      pageMoves s.calls ++ tripOf moves := by
  unfold Demotes at h
  unfold migrateType
  dsimp only
  split
  · next henabled =>
    rw [if_pos henabled] at h
    obtain ⟨hhot, hcold⟩ := h
    have haway : (Candidates.ofMoves moves).addr.zip (Candidates.ofMoves moves).targetNid =
        moves.map fun m => (m.addr, (m.targetNid : ℤ)) := List.zip_map' ..
    have hback : (Candidates.ofMoves moves).addr.zip (Candidates.ofMoves moves).fromNid =
        moves.map fun m => (m.addr, m.fromNid) := List.zip_map' ..
    rw [if_pos rfl, pageMoves_doInterleaveMovePages hbatch, pageMoves_doInterleaveMovePages hbatch,
      List.append_assoc]
    · simp only [Moves.arrays, collected, Candidates.back, hcold, haway, hback, tripOf]
    · simp only [Moves.arrays, collected, hhot]
      rfl
    · simp only [Moves.arrays, collected, Candidates.back, hhot]
      rfl
  · next hdisabled =>
    rw [if_neg hdisabled] at h
    rw [h]
    exact (List.append_nil _).symm

/-- **A range.** -/
theorem pageMoves_migrate {numa : NumaNodeCollection}
    {parameter : ProcIdlePageType → MigrateParameter} {kernel : ℕ → Syscall × Syscall}
    {range : EPTMigrate} {moves : ProcIdlePageType → List Move}
    (h : ∀ type ∈ plannedTypes,
      Demotes numa (parameter type) (range.pagetypeRefs type).pageRefs.pages (moves type))
    (placement : OptionParser.Placement) (s : InterleaveState) :
    pageMoves (range.migrate numa true parameter kernel placement s).calls =
      pageMoves s.calls ++ if placement = .dram then []
        else plannedTypes.flatMap fun type => tripOf (moves type) := by
  unfold migrate
  split
  · exact (List.append_nil _).symm
  · rw [pageMoves_migrateType (by decide) (h pmdAccessed (by simp [plannedTypes])),
      pageMoves_migrateType (by decide) (h pteAccessed (by simp [plannedTypes]))]
    simp [plannedTypes]

end EPTMigrate

/-! ### The profile -/

namespace GlobalScan

open EPTMigrate
open MovePages (Syscall)

/-- `total_mem_kb`, of `calc_memory_size`. -/
def totalMemKb (sysRefs : ProcIdlePageType → Histogram2d) (type : ProcIdlePageType) : ℕ :=
  (sysRefs type refLocPmem).sum * 2 ^ (type.shift - 10) +
    (sysRefs type refLocDram).sum * 2 ^ (type.shift - 10)

section Profile

variable (numa : NumaNodeCollection) (nrWalks : ℕ) (ranges : List EPTMigrate)

/-- `calc_progressive_profile_parameter`, for one range and type. -/
def calcProgressiveProfileParameter (h : Histogram2d) (totalKb : ℕ) (fromType pageRefs : ℕ) :
    Option MigrateParameter :=
  let p := initMigrationParameter nrWalks
  if totalKb = 0 then some (p.disable "No HOT or COLD pages")
  else do
    let moveCount ← readBin h fromType pageRefs
    if fromType = refLocDram then
      pure { p with
        nrDemote := moveCount
        demoteRemain := moveCount
        coldThreshold := pageRefs
        coldThresholdMin := pageRefs }.enable
    else if fromType = refLocPmem then
      pure { p with
        nrPromote := moveCount
        promoteRemain := moveCount
        hotThreshold := pageRefs
        hotThresholdMax := pageRefs }.enable
    else pure (p.disable "wrong from_type")

/-- The parameters of a range for a count, of `REF_LOC_DRAM`. -/
def profileParameter (range : EPTMigrate) (pageRefs : ℕ) :
    Option (ProcIdlePageType → MigrateParameter) := do
  let total := totalMemKb (sysRefsCount nrWalks ranges)
  let pte ← calcProgressiveProfileParameter nrWalks (range.pagetypeRefs pteAccessed).histogram2d
    (total pteAccessed) refLocDram pageRefs
  let pmd ← calcProgressiveProfileParameter nrWalks (range.pagetypeRefs pmdAccessed).histogram2d
    (total pmdAccessed) refLocDram pageRefs
  pure fun type => if type = pteAccessed then pte else pmd

variable (placement : ℕ → OptionParser.Placement) (kernel : ℕ → ℕ → Syscall × Syscall)

/-- The loop body of `progressive_profile`; the parameters of a range depend on no migration. -/
def profileStep (states : List InterleaveState) (pageRefs : ℕ) : Option (List InterleaveState) :=
  (ranges.zip states).zipIdx.mapM fun ((range, s), r) => do
    let parameter ← profileParameter nrWalks ranges range pageRefs
    pure (range.migrate numa true parameter (kernel r) (placement r) s)

/-- `progressive_profile`. -/
def progressiveProfile : Option (List InterleaveState) :=
  (List.range nrWalks).foldlM (profileStep numa nrWalks ranges placement kernel)
    (ranges.map fun _ => .init)

end Profile

/-! ### One count -/

section Count

variable {numa : NumaNodeCollection} {nrWalks : ℕ} {ranges : List EPTMigrate}

/-- A range without an error after a period. -/
structure Counted (numa : NumaNodeCollection) (nrWalks : ℕ) (range : EPTMigrate) : Prop where
  histogram : ∀ type ∈ plannedTypes, (range.pagetypeRefs type).histogram2d =
    countRefsOne numa nrWalks (range.pagetypeRefs type).pageRefs.pages
  nid : ∀ type ∈ plannedTypes, ∀ page ∈ (range.pagetypeRefs type).pageRefs.pages,
    page.2.2 ≤ maxNid

/-- The pages of a range and a type. -/
def rangePages (range : EPTMigrate) (type : ProcIdlePageType) : List (ℕ × ℕ × ℤ) :=
  (range.pagetypeRefs type).pageRefs.pages

/-- The moves of a range for a count. -/
def profileTrips (numa : NumaNodeCollection) (range : EPTMigrate) (pageRefs : ℕ) :
    List (ℕ × ℤ) :=
  plannedTypes.flatMap fun type => tripOf (demotions numa pageRefs (rangePages range type))

variable (hsmall : nrWalks < 256) {range : EPTMigrate} (hrange : range ∈ ranges)
  (hcounted : Counted numa nrWalks range) {type : ProcIdlePageType} (htype : type ∈ plannedTypes)
  {i : ℕ} (hi : i < nrWalks)
include hsmall hcounted htype hi

/-- Below `nr_walks` a bin of ordinary memory holds the pages with that very count. -/
theorem bin_eq_count : ((range.pagetypeRefs type).histogram2d).bin refLocDram i =
    rowCount numa refLocDram (rangePages range type) fun n => n == i := by
  have hwalks : uint8 nrWalks = nrWalks := Nat.mod_eq_of_lt hsmall
  rw [hcounted.histogram type htype,
    bin_eq_rowCount nrWalks (hcounted.nid type htype) (.inl rfl) hi.le]
  exact rowCount_refBin_eq (by rwa [hwalks])

include hrange in
/-- Without memory of a type there is no page to move. -/
theorem demotions_of_no_memory (htotal : totalMemKb (sysRefsCount nrWalks ranges) type = 0) :
    demotions numa i (rangePages range type) = [] := by
  have hbin := bin_eq_count hsmall hcounted htype hi
  have hzero : (range.pagetypeRefs type).histogram2d.bin refLocDram i = 0 := by
    obtain ⟨-, hsum⟩ := Nat.add_eq_zero_iff.mp htotal
    have hrow := (Nat.mul_eq_zero.mp hsum).resolve_right (Nat.two_pow_pos _).ne'
    have hsys := List.sum_eq_zero_iff_forall_eq_nat.mp hrow
      (ranges.map fun range => (range.pagetypeRefs type).histogram2d.bin refLocDram i).sum
      (List.mem_map.mpr ⟨i, List.mem_range.mpr (by omega), rfl⟩)
    exact List.sum_eq_zero_iff_forall_eq_nat.mp hsys _ (List.mem_map.mpr ⟨range, hrange, rfl⟩)
  rw [hzero] at hbin
  refine List.filterMap_eq_nil_iff.mpr fun page hpage => ?_
  have hnone := List.countP_eq_zero.mp hbin.symm page hpage
  rw [Bool.not_eq_true] at hnone
  rw [demotion, hnone, if_neg (by decide)]

include hrange in
/-- **A range and a type.** -/
theorem calcProgressiveProfileParameter_spec :
    ∃ p, calcProgressiveProfileParameter nrWalks (range.pagetypeRefs type).histogram2d
        (totalMemKb (sysRefsCount nrWalks ranges) type) refLocDram i = some p ∧
      Demotes numa p (rangePages range type) (demotions numa i (rangePages range type)) := by
  unfold calcProgressiveProfileParameter
  dsimp only
  split
  · next htotal =>
    refine ⟨_, rfl, ?_⟩
    rw [Demotes, if_neg (by simp [MigrateParameter.disable])]
    exact demotions_of_no_memory hsmall hrange hcounted htype hi htotal
  · have rows := hcounted.histogram type htype ▸ countRefsOne_rows numa nrWalks
      (range.pagetypeRefs type).pageRefs.pages
    rw [readBin_of_rows rows refLocDram (Int.natCast_nonneg i) (by omega), Int.toNat_natCast]
    refine ⟨_, rfl, ?_⟩
    rw [Demotes, if_pos (by simp [MigrateParameter.enable])]
    refine promoteAndDemote_bin ⟨rfl, le_rfl, rfl, rfl⟩ ?_
    rw [← bin_eq_count hsmall hcounted htype hi]
    exact le_rfl

end Count

/-! ### The run -/

section Run

variable {numa : NumaNodeCollection} {nrWalks : ℕ} {ranges : List EPTMigrate}
  (hsmall : nrWalks < 256) (hcounted : ∀ range ∈ ranges, Counted numa nrWalks range)
include hsmall hcounted

theorem profileParameter_spec {range : EPTMigrate} (hrange : range ∈ ranges) {i : ℕ}
    (hi : i < nrWalks) :
    ∃ parameter, profileParameter nrWalks ranges range i = some parameter ∧
      ∀ type ∈ plannedTypes, Demotes numa (parameter type) (rangePages range type)
        (demotions numa i (rangePages range type)) := by
  have hpteType : pteAccessed ∈ plannedTypes := by simp [plannedTypes]
  have hpmdType : pmdAccessed ∈ plannedTypes := by simp [plannedTypes]
  have hrange' := hcounted range hrange
  obtain ⟨pte, hpte, hdemotes⟩ :=
    calcProgressiveProfileParameter_spec hsmall hrange hrange' hpteType hi
  obtain ⟨pmd, hpmd, hdemotes'⟩ :=
    calcProgressiveProfileParameter_spec hsmall hrange hrange' hpmdType hi
  refine ⟨fun type => if type = pteAccessed then pte else pmd, ?_, fun type htype => ?_⟩
  · unfold profileParameter
    dsimp only [bind, Option.bind]
    rw [hpte]
    dsimp only
    rw [hpmd]
    rfl
  · simp only [plannedTypes, List.mem_cons, List.not_mem_nil, or_false] at htype
    rcases htype with rfl | rfl
    · exact hdemotes
    · exact hdemotes'

/-- The moves of each range after some counts. -/
def Profiled (numa : NumaNodeCollection) (ranges : List EPTMigrate)
    (placement : ℕ → OptionParser.Placement) (i : ℕ) (states : List InterleaveState) : Prop :=
  states.length = ranges.length ∧ ∀ r range s, ranges[r]? = some range → states[r]? = some s →
    pageMoves s.calls = if placement r = .dram then []
      else (List.range i).flatMap (profileTrips numa range)

/-- **A count.** -/
theorem Profiled.step {placement : ℕ → OptionParser.Placement} (kernel : ℕ → ℕ → Syscall × Syscall)
    {i : ℕ} (hi : i < nrWalks) {states : List InterleaveState}
    (h : Profiled numa ranges placement i states) :
    ∃ states', profileStep numa nrWalks ranges placement kernel states i = some states' ∧
      Profiled numa ranges placement (i + 1) states' := by
  obtain ⟨hlength, hmoves⟩ := h
  obtain ⟨states', hrun, hlength', hstep⟩ := mapM_zipIdx_total
    (f := fun ((range, s), r) => do
      let parameter ← profileParameter nrWalks ranges range i
      pure (range.migrate numa true parameter (kernel r) (placement r) s))
    (P := fun r (a : EPTMigrate × InterleaveState) s' => pageMoves s'.calls =
      pageMoves a.2.calls ++ if placement r = .dram then [] else profileTrips numa a.1 i)
    (ranges.zip states) 0 (by
      rintro ⟨range, s⟩ hmem r
      obtain ⟨parameter, hparameter, hdemotes⟩ :=
        profileParameter_spec hsmall hcounted (List.of_mem_zip hmem).1 hi
      refine ⟨range.migrate numa true parameter (kernel r) (placement r) s, ?_,
        pageMoves_migrate hdemotes (placement r) s⟩
      dsimp only [bind, Option.bind]
      rw [hparameter]
      rfl)
  refine ⟨states', hrun, ?_, fun r range s' hrange hs' => ?_⟩
  · rw [hlength', List.length_zip, hlength, min_self]
  · have hr : r < states.length := hlength ▸ (List.getElem?_eq_some_iff.mp hrange).1
    have hs : states[r]? = some states[r] := List.getElem?_eq_getElem hr
    have hzip : (ranges.zip states)[r]? = some (range, states[r]) := by
      rw [List.getElem?_zip_eq_some]
      exact ⟨hrange, hs⟩
    have hnew := hstep r (range, states[r]) s' hzip hs'
    rw [Nat.zero_add] at hnew
    rw [hnew, hmoves r range _ hrange hs]
    split
    · rfl
    · rw [List.range_succ, List.flatMap_append, List.flatMap_singleton]

/-- **All counts.** -/
theorem progressiveProfile_moves (placement : ℕ → OptionParser.Placement)
    (kernel : ℕ → ℕ → Syscall × Syscall) :
    ∃ states, progressiveProfile numa nrWalks ranges placement kernel = some states ∧
      Profiled numa ranges placement nrWalks states := by
  refine foldlM_range_total (P := Profiled numa ranges placement) ⟨by simp, ?_⟩
    fun i hi states h => h.step hsmall hcounted kernel hi
  intro r range s _ hs
  obtain ⟨-, -, rfl⟩ := List.mem_map.mp (List.mem_of_getElem? hs)
  simp [pageMoves, InterleaveState.init]

end Run

/-! ### What is left behind -/

section Trips

open MemoryOptimizer.Trips

variable {numa : NumaNodeCollection} {range : EPTMigrate}

/-- The node of every page is the one that was recorded for it. -/
def RecordedOn (range : EPTMigrate) (node : ℕ → ℤ) : Prop :=
  ∀ type ∈ plannedTypes, ∀ page ∈ rangePages range type, node page.1 = page.2.2

/-- An address of a page of ordinary memory with count `i`. -/
def CountedPage (numa : NumaNodeCollection) (range : EPTMigrate) (i addr : ℕ) : Prop :=
  ∃ type ∈ plannedTypes, ∃ page ∈ rangePages range type,
    page.1 = addr ∧ page.2.1 = i ∧ inRow numa refLocDram page.2.2 = true

theorem mem_demotions {i : ℕ} {pages : List (ℕ × ℕ × ℤ)} {m : Move}
    (hm : m ∈ demotions numa i pages) :
    ∃ page ∈ pages, page.1 = m.addr ∧ page.2.2 = m.fromNid ∧ page.2.1 = i ∧
      inRow numa refLocDram page.2.2 = true := by
  obtain ⟨page, hpage, hm⟩ := List.mem_filterMap.mp hm
  unfold demotion at hm
  split at hm
  · next hcount =>
    obtain ⟨peer, -, rfl⟩ := Option.map_eq_some_iff.mp hm
    rw [Bool.and_eq_true, beq_iff_eq] at hcount
    exact ⟨page, hpage, rfl, rfl, hcount.2, hcount.1⟩
  · cases hm

/-- The kernel carries out some of the moves, those back to a recorded node among them. -/
structure CarriedOut (node : ℕ → ℤ) (moves : List (ℕ × ℤ)) (writes : List (Write ℕ ℤ)) :
    Prop where
  moves_eq : writes.map (fun w => (w.key, w.value)) = moves
  back : ∀ w ∈ writes, w.value = node w.key → w.done = true

theorem CarriedOut.append {node : ℕ → ℤ} {moves moves' : List (ℕ × ℤ)}
    {writes : List (Write ℕ ℤ)} (h : CarriedOut node (moves ++ moves') writes) :
    ∃ ws ws', writes = ws ++ ws' ∧ CarriedOut node moves ws ∧ CarriedOut node moves' ws' := by
  obtain ⟨ws, ws', rfl, h₁, h₂⟩ := List.map_eq_append_iff.mp h.moves_eq
  exact ⟨ws, ws', rfl, ⟨h₁, fun w hw => h.back w (List.mem_append_left _ hw)⟩,
    ⟨h₂, fun w hw => h.back w (List.mem_append_right _ hw)⟩⟩

/-- **A trip.** -/
theorem CarriedOut.trip {node : ℕ → ℤ} {moves : List Move} {writes : List (Write ℕ ℤ)}
    (h : CarriedOut node (tripOf moves) writes)
    (hrecorded : ∀ m ∈ moves, node m.addr = m.fromNid) :
    ∃ away back, writes = away ++ back ∧ Trip node away back ∧
      back.map Write.key = moves.map Move.addr := by
  obtain ⟨away, back, rfl, haway, hback⟩ := h.append
  have hkeys : ∀ {ws : List (Write ℕ ℤ)} {target : Move → ℤ},
      CarriedOut node (moves.map fun m => (m.addr, target m)) ws →
        ws.map Write.key = moves.map Move.addr := by
    intro ws target hws
    have hfst := congrArg (List.map Prod.fst) hws.moves_eq
    rwa [List.map_map, List.map_map] at hfst
  refine ⟨away, back, rfl, ⟨fun w hw => ?_, fun w hw => ?_⟩, hkeys hback⟩
  · rw [hkeys hback, ← hkeys haway]
    exact List.mem_map_of_mem hw
  · have hmem := List.mem_map_of_mem (f := fun w : Write ℕ ℤ => (w.key, w.value)) hw
    rw [hback.moves_eq] at hmem
    obtain ⟨m, hm, heq⟩ := List.mem_map.mp hmem
    obtain ⟨haddr, hnid⟩ := Prod.mk.inj heq
    have hvalue : w.value = node w.key := by rw [← haddr, ← hnid, hrecorded m hm]
    exact ⟨hvalue, hback.back w hw hvalue⟩

/-- The trips of some counts and types. -/
theorem CarriedOut.trips {node : ℕ → ℤ} (hrecorded : RecordedOn range node)
    (keys : List (ℕ × ProcIdlePageType)) (hkeys : ∀ key ∈ keys, key.2 ∈ plannedTypes)
    {writes : List (Write ℕ ℤ)}
    (h : CarriedOut node
      (keys.flatMap fun key => tripOf (demotions numa key.1 (rangePages range key.2))) writes) :
    ∃ trips : List (List (Write ℕ ℤ) × List (Write ℕ ℤ)),
      writes = trips.flatMap (fun t => t.1 ++ t.2) ∧ ∀ t ∈ trips, Trip node t.1 t.2 ∧
        ∃ key ∈ keys, ∀ addr ∈ t.2.map Write.key, CountedPage numa range key.1 addr := by
  induction keys generalizing writes with
  | nil =>
      have hnil := h.moves_eq
      rw [List.flatMap_nil, List.map_eq_nil_iff] at hnil
      exact ⟨[], hnil, by simp⟩
  | cons key keys ih =>
      obtain ⟨htype, hkeys⟩ := List.forall_mem_cons.mp hkeys
      rw [List.flatMap_cons] at h
      obtain ⟨ws, ws', rfl, hfirst, hrest⟩ := h.append
      obtain ⟨away, back, rfl, htrip, haddrs⟩ := hfirst.trip fun m hm => by
        obtain ⟨page, hpage, haddr, hnid, -⟩ := mem_demotions hm
        rw [← haddr, ← hnid]
        exact hrecorded key.2 htype page hpage
      obtain ⟨trips, rfl, htrips⟩ := ih hkeys hrest
      refine ⟨(away, back) :: trips, by rw [List.flatMap_cons], fun t ht => ?_⟩
      rcases List.mem_cons.mp ht with rfl | ht
      · refine ⟨htrip, key, List.mem_cons_self, fun addr haddr => ?_⟩
        rw [haddrs] at haddr
        obtain ⟨m, hm, rfl⟩ := List.mem_map.mp haddr
        obtain ⟨page, hpage, hpaddr, -, hcount, hrow⟩ := mem_demotions hm
        exact ⟨key.2, htype, page, hpage, hpaddr, hcount, hrow⟩
      · obtain ⟨htrip', key', hkey', hcounted⟩ := htrips t ht
        exact ⟨htrip', key', List.mem_cons_of_mem _ hkey', hcounted⟩

/-- **All trips.** If the moves back are carried out, whatever became of the others, every
page is where it was, and on the way only pages of one count are elsewhere. -/
theorem CarriedOut.restores {node : ℕ → ℤ} (hrecorded : RecordedOn range node) {n : ℕ}
    {writes : List (Write ℕ ℤ)}
    (h : CarriedOut node ((List.range n).flatMap (profileTrips numa range)) writes) :
    written node writes = node ∧ ∀ pre, pre <+: writes → written node pre = node ∨
      ∃ i < n, ∀ addr, written node pre addr ≠ node addr → CountedPage numa range i addr := by
  have hkeys : (List.range n).flatMap (profileTrips numa range) =
      ((List.range n).flatMap fun i => plannedTypes.map fun type => (i, type)).flatMap
        fun key => tripOf (demotions numa key.1 (rangePages range key.2)) := by
    rw [List.flatMap_assoc]
    refine List.flatMap_congr fun i _ => ?_
    rw [List.flatMap_map]
    rfl
  rw [hkeys] at h
  obtain ⟨trips, rfl, htrips⟩ := h.trips hrecorded _ fun key hkey => by
    obtain ⟨i, -, hkey⟩ := List.mem_flatMap.mp hkey
    obtain ⟨type, htype, rfl⟩ := List.mem_map.mp hkey
    exact htype
  obtain ⟨hend, hpre⟩ := written_trips trips fun t ht => (htrips t ht).1
  refine ⟨hend, fun pre hprefix => (hpre pre hprefix).imp id ?_⟩
  rintro ⟨t, ht, hchanged⟩
  obtain ⟨-, key, hkey, hcounted⟩ := htrips t ht
  obtain ⟨i, hi, hkey⟩ := List.mem_flatMap.mp hkey
  obtain ⟨type, -, rfl⟩ := List.mem_map.mp hkey
  exact ⟨i, List.mem_range.mp hi, fun addr haddr => hcounted addr (hchanged addr haddr)⟩

/-- Every profile after a period of fewer than 256 walks without an error: for each count
below the number of walks, in this order, the pages of each range that are in ordinary memory
with that count are moved to the peers of their nodes and back, once each. If these are the
nodes they are on and the kernel moves them back, whatever it did before, then every page of
the range is where it was, and on the way the range never has pages of two counts elsewhere. -/
theorem progressiveProfile_restores (numa : NumaNodeCollection) (ranges : List EPTMigrate)
    (scans : List (ℕ → WalkOutcome)) (hscans : scans.length < 256)
    (herr : ∀ range ∈ scanRanges numa ranges scans, range.ioError = 0)
    (hgathered : ∀ scan ∈ scans, ∀ r, (scan r).Gathered)
    (placement : ℕ → OptionParser.Placement) (kernel : ℕ → ℕ → Syscall × Syscall) :
    ∃ states, progressiveProfile numa scans.length (scanRanges numa ranges scans) placement
        kernel = some states ∧ states.length = ranges.length ∧
      ∀ r range s, (scanRanges numa ranges scans)[r]? = some range → states[r]? = some s →
        pageMoves s.calls = (if placement r = .dram then []
          else (List.range scans.length).flatMap (profileTrips numa range)) ∧
        ∀ node writes, RecordedOn range node → CarriedOut node (pageMoves s.calls) writes →
          written node writes = node ∧ ∀ pre, pre <+: writes → written node pre = node ∨
            ∃ i < scans.length, ∀ addr, written node pre addr ≠ node addr →
              CountedPage numa range i addr := by
  have hcounted : ∀ range ∈ scanRanges numa ranges scans, Counted numa scans.length range := by
    intro range hmem
    refine ⟨fun type htype => ?_, scanRanges_nid_le numa ranges hgathered range hmem⟩
    have herr' := herr range hmem
    obtain ⟨i, hi, rfl⟩ := List.mem_mapIdx.mp hmem
    have hhist := period_histogram numa ranges[i] (scans.map fun scan => scan i)
      (accessed_of_planned htype) herr'
    rwa [List.length_map] at hhist
  obtain ⟨states, hrun, hlength, hmoves⟩ :=
    progressiveProfile_moves hscans hcounted placement kernel
  refine ⟨states, hrun, by rw [hlength, scanRanges, List.length_mapIdx], ?_⟩
  intro r range s hrange hs
  have hcalls := hmoves r range s hrange hs
  refine ⟨hcalls, fun node writes hrecorded hdone => ?_⟩
  rw [hcalls] at hdone
  split at hdone
  · -- a process that is placed in ordinary memory is passed over
    have hnil := List.map_eq_nil_iff.mp hdone.moves_eq
    subst hnil
    exact ⟨rfl, fun pre hpre => .inl (by rw [List.prefix_nil.mp hpre, written_nil])⟩
  · exact hdone.restores hrecorded

/-- Three huge pages, the last of them on persistent memory. -/
def hugePagesFound : AddrSequence :=
  [(0x200000, 3), (0x400000, 1), (0x600000, 2)].foldl
    (fun s page => (s.incPayload Alloc.ok page.1 page.2).1)
    (AddrSequence.init.clear.setPageshift 21).rewind

def hugePages : AddrSequence :=
  (getMemoryTypeOne twoNodes (fun _ _ => ⟨0, fun i => if i < 2 then 0 else 1⟩)
    hugePagesFound).getD hugePagesFound

theorem hugePages_gathered : Gathered hugePages := by
  have hfound : Gathered hugePagesFound := by
    unfold hugePagesFound
    exact ((Gathered.init.clear 21).rewind).foldl_incPayload _ _
  exact hfound.located twoNodes _

/-- Four walks of two ranges, one with the six small pages and one with the huge ones. -/
def twoRangesScans : List (ℕ → WalkOutcome) := List.replicate 4 fun r =>
  .walked (fun
    | pteAccessed => if r = 0 then sixPages else AddrSequence.init
    | pmdAccessed => if r = 0 then AddrSequence.init else hugePages
    | _ => AddrSequence.init) false

theorem twoRangesScans_gathered : ∀ scan ∈ twoRangesScans, ∀ r, (scan r).Gathered := by
  intro scan hscan r
  rw [List.eq_of_mem_replicate hscan]
  intro type
  cases type with
  | pteAccessed =>
      dsimp only
      split
      · exact sixPages_gathered
      · exact .init
  | pmdAccessed =>
      dsimp only
      split
      · exact .init
      · exact hugePages_gathered
  | _ => exact .init

/-- The nodes of the six pages. -/
def sixPagesNode (addr : ℕ) : ℤ := if addr < 0x4000 then 1 else 0

/-- The pages of ordinary memory of both ranges, in the order of their counts. -/
theorem progressiveProfile_restores_twoRanges :
    ∃ states small huge, progressiveProfile twoNodes 4
        (scanRanges twoNodes [newRange, newRange] twoRangesScans) (fun _ => .none)
        (fun _ _ => (⟨0, fun _ => some 0⟩, ⟨0, fun _ => none⟩)) = some states ∧
      states[0]? = some small ∧ states[1]? = some huge ∧
      pageMoves small.calls =
        [(0x4000, 1), (0x4000, 0), (0x5000, 1), (0x5000, 0), (0x6000, 1), (0x6000, 0)] ∧
      pageMoves huge.calls =
        [(0x400000, 1), (0x400000, 0), (0x200000, 1), (0x200000, 0)] ∧
      written sixPagesNode ((pageMoves small.calls).map fun m => ⟨m.1, m.2, true⟩) =
        sixPagesNode := by
  obtain ⟨states, hrun, hlength, hstates⟩ := progressiveProfile_restores twoNodes
    [newRange, newRange] twoRangesScans (by decide) (by decide +kernel) twoRangesScans_gathered
    (fun _ => .none) (fun _ _ => (⟨0, fun _ => some 0⟩, ⟨0, fun _ => none⟩))
  obtain ⟨small, huge, rfl⟩ : ∃ small huge, states = [small, huge] :=
    List.length_eq_two.mp hlength
  obtain ⟨hsmall, hrestores⟩ := hstates 0 _ small rfl rfl
  obtain ⟨hhuge, -⟩ := hstates 1 _ huge rfl rfl
  refine ⟨[small, huge], small, huge, hrun, rfl, rfl, hsmall.trans (by decide +kernel),
    hhuge.trans (by decide +kernel), ?_⟩
  refine (hrestores sixPagesNode _ ?_ ⟨?_, fun _ hw _ => ?_⟩).1
  · unfold RecordedOn
    decide +kernel
  · rw [List.map_map]
    exact List.map_id _
  · obtain ⟨m, -, rfl⟩ := List.mem_map.mp hw
    rfl

end Trips

end GlobalScan

end MemoryOptimizer
