import Mathlib.Algebra.BigOperators.Fin
import Mathlib.Data.List.Indexes
import MemoryOptimizer.Config.Parser
import MemoryOptimizer.Migration.Executor
import MemoryOptimizer.Migration.Gathered
import MemoryOptimizer.Migration.Interleave
import MemoryOptimizer.Migration.MoveStats
import MemoryOptimizer.Migration.PlannerBounds
import MemoryOptimizer.Migration.PromoteBound

/-!
# A period's migration and its limits

`EPTMigrate::migrate` over all ranges of a period: the pages that a plan selects, collected
by a second pass over the counts and handed to the kernel in batches.

* `toMoveKb_doInterleaveMovePages` — the account after a range and type: all pages that
  were handed over, moved or not.
* `length_promoteAndDemote_le` — what is collected, whether the nodes have peers or not.
* `hot_le`, `cold_le` — the second pass collects no more than was planned.
* `migrate_within_limits` — a period promotes no more than its limit, and demotes no more
  unless a parameter that `anti_thrashing` disabled was enabled again.
-/

namespace MemoryOptimizer

open ProcIdlePageType EPTScan GlobalScan

namespace EPTMigrate

open MovePages (Syscall MoveStats saveMigrateStates)

/-! ### Handing the pages over -/

/-- `addr_array_2d`, `from_nid_2d` and `target_nid_2d` of a migrate type. -/
def Candidates.ofMoves (moves : List Move) : Candidates where
  addr := moves.map Move.addr
  fromNid := moves.map Move.fromNid
  targetNid := moves.map fun m => (m.targetNid : ℤ)
  length_fromNid := by simp
  length_targetNid := by simp

/-- The arrays of the way back. -/
def Candidates.back (c : Candidates) : Candidates :=
  ⟨c.addr, c.targetNid, c.fromNid, c.length_targetNid, c.length_fromNid⟩

/-- The arrays of both types. -/
def Moves.arrays (moves : Moves) : MigrateType → Candidates
  | .cold => .ofMoves moves.cold
  | .hot => .ofMoves moves.hot

/-- The pages collected for a migrate type. -/
def Moves.ofType (moves : Moves) : MigrateType → List Move
  | .cold => moves.cold
  | .hot => moves.hot

section Migrate

variable (numa : NumaNodeCollection) (profile : Bool)
  (parameter : ProcIdlePageType → MigrateParameter) (kernel : ℕ → Syscall × Syscall)
  (range : EPTMigrate)

/-- The pages `promote_and_demote` collects for a type. -/
def collected (type : ProcIdlePageType) : Moves :=
  promoteAndDemote numa (parameter type) (range.pagetypeRefs type).pageRefs.pages

/-- The loop body of `migrate`: a type whose parameter is disabled is skipped. `profile`
tells whether `option.progressive_profile` names a script; then the pages are moved back. -/
def migrateType (type : ProcIdlePageType) (hbatch : 0 < type.batchSize) (s : InterleaveState) :
    InterleaveState :=
  if (parameter type).enabled then
    let arrays := (range.collected numa parameter type).arrays
    let s := doInterleaveMovePages type.batchSize type.shift arrays kernel hbatch s
    if profile then
      doInterleaveMovePages type.batchSize type.shift (fun t => (arrays t).back) kernel hbatch s
    else s
  else s

/-- `EPTMigrate::migrate`. The statistics start anew; the statuses of the migrators do not. -/
def migrate (placement : OptionParser.Placement) (s : InterleaveState) : InterleaveState :=
  if placement = .dram then s
  else
    let s := { s with migrator := fun type => { s.migrator type with stats := .clear } }
    let s := range.migrateType numa profile parameter kernel pteAccessed (by decide) s
    range.migrateType numa profile parameter kernel pmdAccessed (by decide) s

end Migrate

/-! ### The account of a range -/

section Account

variable {batchSize pageShift : ℕ} {arrays : MigrateType → Candidates}
  {kernel : ℕ → Syscall × Syscall}

/-- The KB that a state has accounted for a migrate type. -/
def InterleaveState.toMoveKb (s : InterleaveState) (type : MigrateType) : ℕ :=
  (s.migrator type).stats.toMoveKb

theorem toMoveKb_saveMigrateStates (stats : MoveStats) (pageShift : ℕ) (pages : List (ℤ × ℤ))
    {status : List ℤ} (hstatus : status.length = pages.length) :
    (saveMigrateStates stats pageShift pages status).toMoveKb =
      stats.toMoveKb + pages.length * 2 ^ (pageShift - 10) := by
  have htotals := (MovePages.totals_foldl (pages.zip status) pageShift stats).2.2
  have hcount := List.length_eq_countP_add_countP
    (fun e : (ℤ × ℤ) × ℤ => MovePages.isMoved e.1 e.2) (l := pages.zip status)
  have hlength : (pages.zip status).length = pages.length := by
    rw [List.length_zip, hstatus, min_self]
  simp only [saveMigrateStates, htotals]
  rw [← hlength, hcount, Nat.add_mul]
  simp only [Bool.not_eq_true, Bool.decide_eq_false]

theorem toMoveKb_migrateStep (i : ℕ) (s : InterleaveState) (type type' : MigrateType) :
    (migrateStep batchSize pageShift arrays kernel i s type).toMoveKb type' =
      s.toMoveKb type' + if type' = type then
        min batchSize ((arrays type).addr.length - i) * 2 ^ (pageShift - 10) else 0 := by
  have hlength : ((callAt batchSize arrays type i).fromNid.zip
      (callAt batchSize arrays type i).targetNid).length =
        min batchSize ((arrays type).addr.length - i) := by
    simp only [callAt, elements, List.length_zip, List.length_take, List.length_drop,
      (arrays type).length_fromNid, (arrays type).length_targetNid]
    omega
  unfold migrateStep InterleaveState.toMoveKb
  dsimp only
  split
  · dsimp only
    by_cases htype : type' = type
    · subst htype
      rw [Function.update_self, if_pos rfl, ← hlength]
      exact toMoveKb_saveMigrateStates _ _ _ (MovePages.length_movePages _ _)
    · rw [Function.update_of_ne htype, if_neg htype, Nat.add_zero]
  · next hge => simp [Nat.sub_eq_zero_of_le (not_lt.mp hge)]

theorem toMoveKb_interleaveStep (i : ℕ) (s : InterleaveState) (type : MigrateType) :
    (interleaveStep batchSize pageShift arrays kernel i s).toMoveKb type =
      s.toMoveKb type +
        min batchSize ((arrays type).addr.length - i) * 2 ^ (pageShift - 10) := by
  unfold interleaveStep
  rw [List.foldl_cons, List.foldl_cons, List.foldl_nil, toMoveKb_migrateStep,
    toMoveKb_migrateStep]
  cases type <;> simp

theorem toMoveKb_interleaveLoop (hbatch : 0 < batchSize) (type : MigrateType) (i : ℕ)
    (s : InterleaveState) :
    (interleaveLoop batchSize pageShift arrays kernel hbatch i s).toMoveKb type =
      s.toMoveKb type + ((arrays type).addr.length - i) * 2 ^ (pageShift - 10) := by
  induction hleft : maxSize arrays - i using Nat.strong_induction_on generalizing i s
  next left ih =>
  rw [interleaveLoop]
  split
  · next hlt =>
    have hsplit : (arrays type).addr.length - i =
        min batchSize ((arrays type).addr.length - i) +
          ((arrays type).addr.length - (i + batchSize)) := by omega
    have hnext := ih (maxSize arrays - (i + batchSize)) (by omega) (i + batchSize)
      (interleaveStep batchSize pageShift arrays kernel i s) rfl
    rw [hnext, toMoveKb_interleaveStep, Nat.add_assoc, ← Nat.add_mul, ← hsplit]
  · next hge =>
    have hle : (arrays type).addr.length ≤ maxSize arrays := by
      cases type
      · exact le_max_left _ _
      · exact le_max_right _ _
    rw [Nat.sub_eq_zero_of_le (hle.trans (not_lt.mp hge)), Nat.zero_mul, Nat.add_zero]

/-- **A range and a type.** Whatever the kernel answers, every page is accounted for once. -/
theorem toMoveKb_doInterleaveMovePages (hbatch : 0 < batchSize) (type : MigrateType)
    (s : InterleaveState) :
    (doInterleaveMovePages batchSize pageShift arrays kernel hbatch s).toMoveKb type =
      s.toMoveKb type + (arrays type).addr.length * 2 ^ (pageShift - 10) := by
  unfold doInterleaveMovePages
  split
  · next hempty => cases type <;> simp [hempty.1, hempty.2]
  · rw [toMoveKb_interleaveLoop, Nat.sub_zero]

end Account

section Range

variable (numa : NumaNodeCollection) (parameter : ProcIdlePageType → MigrateParameter)
  (kernel : ℕ → Syscall × Syscall) (range : EPTMigrate)

/-- The KB that a range hands over for a type, if its parameter is enabled. -/
def handedKb (migrateType : MigrateType) (type : ProcIdlePageType) : ℕ :=
  if (parameter type).enabled then
    ((range.collected numa parameter type).ofType migrateType).length * 2 ^ (type.shift - 10)
  else 0

theorem toMoveKb_migrateType (t : MigrateType) {type : ProcIdlePageType}
    (hbatch : 0 < type.batchSize) (s : InterleaveState) :
    (range.migrateType numa false parameter kernel type hbatch s).toMoveKb t =
      s.toMoveKb t + range.handedKb numa parameter t type := by
  unfold migrateType handedKb
  dsimp only
  split
  · rw [if_neg (by decide), toMoveKb_doInterleaveMovePages]
    cases t <;> simp [Moves.arrays, Moves.ofType, Candidates.ofMoves]
  · rw [Nat.add_zero]

/-- **A range.** -/
theorem toMoveKb_migrate (placement : OptionParser.Placement) (t : MigrateType) :
    (range.migrate numa false parameter kernel placement .init).toMoveKb t =
      if placement = .dram then 0
      else (plannedTypes.map (range.handedKb numa parameter t)).sum := by
  unfold migrate
  split
  · rfl
  · rw [toMoveKb_migrateType, toMoveKb_migrateType]
    simp [plannedTypes, InterleaveState.toMoveKb, MovePages.MoveStats.clear]

end Range

/-! ### What is collected -/

section Collected

variable {numa : NumaNodeCollection} {loc : ℕ} {pages : List (ℕ × ℕ × ℤ)}

theorem rowCount_mono {q q' : ℕ → Bool} (h : ∀ n, q n = true → q' n = true) :
    rowCount numa loc pages q ≤ rowCount numa loc pages q' := by
  refine List.countP_mono_left fun page _ hpage => ?_
  rw [Bool.and_eq_true] at hpage ⊢
  exact ⟨hpage.1, h _ hpage.2⟩

theorem length_saveMigrateParameter_le (numa : NumaNodeCollection) (addr : ℕ) (nid : ℤ)
    (moves : List Move) : (saveMigrateParameter numa addr nid moves).length ≤ moves.length + 1 := by
  unfold saveMigrateParameter
  split
  · exact Nat.le_succ _
  · rw [List.length_append, List.length_singleton]

/-- The pages of one kind, at the threshold and beyond it, that some pages hold. -/
def atThreshold (numa : NumaNodeCollection) (loc : ℕ) (threshold : ℤ)
    (pages : List (ℕ × ℕ × ℤ)) : ℕ :=
  rowCount numa loc pages fun n => (n : ℤ) = threshold

def aboveThreshold (numa : NumaNodeCollection) (p : MigrateParameter)
    (pages : List (ℕ × ℕ × ℤ)) : ℕ :=
  rowCount numa refLocPmem pages fun n => (n : ℤ) > p.hotThreshold ∧ n ≤ p.hotThresholdMax

def belowThreshold (numa : NumaNodeCollection) (p : MigrateParameter)
    (pages : List (ℕ × ℕ × ℤ)) : ℕ :=
  rowCount numa refLocDram pages fun n => (n : ℤ) < p.coldThreshold ∧ n ≥ p.coldThresholdMin

/-- **One page.** A page whose node has no peer is counted and not saved. -/
theorem collectPage_le (numa : NumaNodeCollection) (p : MigrateParameter) (m : Moves)
    (page : ℕ × ℕ × ℤ) (rest : List (ℕ × ℕ × ℤ)) :
    ((collectPage numa p m page).hot.length +
          min (collectPage numa p m page).promoteRemain.toNat
            (atThreshold numa refLocPmem p.hotThreshold rest) + aboveThreshold numa p rest ≤
        m.hot.length + min m.promoteRemain.toNat
            (atThreshold numa refLocPmem p.hotThreshold (page :: rest)) +
          aboveThreshold numa p (page :: rest)) ∧
      (collectPage numa p m page).cold.length +
          min (collectPage numa p m page).demoteRemain.toNat
            (atThreshold numa refLocDram p.coldThreshold rest) + belowThreshold numa p rest ≤
        m.cold.length + min m.demoteRemain.toNat
            (atThreshold numa refLocDram p.coldThreshold (page :: rest)) +
          belowThreshold numa p (page :: rest) := by
  obtain ⟨addr, refs, nid⟩ := page
  unfold atThreshold aboveThreshold belowThreshold rowCount
  rw [List.countP_cons, List.countP_cons, List.countP_cons, List.countP_cons]
  cases hnode : numa.getNode nid with
  | none => simp [collectPage, hnode, inRow_pmem, inRow_dram]
  | some node =>
      have hhot := length_saveMigrateParameter_le numa addr nid m.hot
      have hcold := length_saveMigrateParameter_le numa addr nid m.cold
      cases hpmem : node.isPmem with
      | true =>
          simp only [collectPage, hnode, hpmem, inRow_pmem, inRow_dram, if_true,
            Option.any_some, Bool.not_true, Bool.false_and, Bool.true_and,
            Bool.false_eq_true, if_false, Nat.add_zero, decide_eq_true_eq]
          by_cases hat : (refs : ℤ) = p.hotThreshold
          · have hout : ¬((refs : ℤ) > p.hotThreshold ∧ refs ≤ p.hotThresholdMax) := by omega
            simp only [if_pos hat, if_neg hout, apply_ite List.length]
            split <;> omega
          · by_cases hin : (refs : ℤ) > p.hotThreshold ∧ refs ≤ p.hotThresholdMax
            · simp only [if_neg hat, if_pos hin]
              omega
            · simp only [if_neg hat, if_neg hin]
              omega
      | false =>
          simp only [collectPage, hnode, hpmem, inRow_pmem, inRow_dram,
            Option.any_some, Bool.not_false, Bool.false_and, Bool.true_and,
            Bool.false_eq_true, if_false, Nat.add_zero, decide_eq_true_eq]
          by_cases hat : (refs : ℤ) = p.coldThreshold
          · have hout : ¬((refs : ℤ) < p.coldThreshold ∧ refs ≥ p.coldThresholdMin) := by
              omega
            simp only [if_pos hat, if_neg hout, apply_ite List.length]
            split <;> omega
          · by_cases hin : (refs : ℤ) < p.coldThreshold ∧ refs ≥ p.coldThresholdMin
            · simp only [if_neg hat, if_pos hin]
              omega
            · simp only [if_neg hat, if_neg hin]
              omega

/-- **All pages.** -/
theorem length_promoteAndDemote_le (numa : NumaNodeCollection) (p : MigrateParameter)
    (pages : List (ℕ × ℕ × ℤ)) :
    (promoteAndDemote numa p pages).hot.length ≤
        min p.promoteRemain.toNat (atThreshold numa refLocPmem p.hotThreshold pages) +
          aboveThreshold numa p pages ∧
      (promoteAndDemote numa p pages).cold.length ≤
        min p.demoteRemain.toNat (atThreshold numa refLocDram p.coldThreshold pages) +
          belowThreshold numa p pages := by
  have hfold : ∀ m : Moves,
      (pages.foldl (collectPage numa p) m).hot.length ≤ m.hot.length +
          min m.promoteRemain.toNat (atThreshold numa refLocPmem p.hotThreshold pages) +
            aboveThreshold numa p pages ∧
        (pages.foldl (collectPage numa p) m).cold.length ≤ m.cold.length +
          min m.demoteRemain.toNat (atThreshold numa refLocDram p.coldThreshold pages) +
            belowThreshold numa p pages := by
    induction pages with
    | nil => intro m; simp only [List.foldl_nil]; omega
    | cons page pages ih =>
        intro m
        obtain ⟨hhot, hcold⟩ := collectPage_le numa p m page pages
        obtain ⟨ihHot, ihCold⟩ := ih (collectPage numa p m page)
        exact ⟨ihHot.trans hhot, ihCold.trans hcold⟩
  simpa [promoteAndDemote] using hfold ⟨[], [], p.promoteRemain, p.demoteRemain⟩

/-! ### Against the plan -/

variable {nrWalks : ℕ} (hsmall : nrWalks < 256) (hnid : ∀ page ∈ pages, page.2.2 ≤ maxNid)
  {p : MigrateParameter}
include hsmall hnid

/-- Below 256 walks a bin holds the pages with that very count, and the last one those
counted more often as well. -/
theorem atThreshold_le_bin (hloc : loc = refLocDram ∨ loc = refLocPmem) {t : ℕ}
    (ht : t ≤ nrWalks) :
    atThreshold numa loc t pages ≤ (countRefsOne numa nrWalks pages).bin loc t := by
  have hwalks : uint8 nrWalks = nrWalks := Nat.mod_eq_of_lt hsmall
  rw [bin_eq_rowCount nrWalks hnid hloc ht]
  refine rowCount_mono fun n hn => ?_
  rw [decide_eq_true_eq, Nat.cast_inj] at hn
  rw [beq_iff_eq, refBin]
  omega

/-- **Promotion.** Whether `anti_thrashing` altered the parameter or not. -/
theorem hot_le (form : HotForm nrWalks (countRefsOne numa nrWalks pages) p) :
    ((promoteAndDemote numa p pages).hot.length : ℤ) ≤ p.nrPromote := by
  have hwalks : uint8 nrWalks = nrWalks := Nat.mod_eq_of_lt hsmall
  have hle := (length_promoteAndDemote_le numa p pages).1
  rcases form with ⟨hhot, hmax, hnr, hremain⟩ | ⟨t, ht, hhot, hmax, h0, hsel⟩
  · have habove : aboveThreshold numa p pages = 0 := by
      refine rowCount_eq_zero fun page _ => ?_
      rw [decide_eq_false_iff_not]
      omega
    omega
  · have hat : atThreshold numa refLocPmem t pages ≤
        (countRefsOne numa nrWalks pages).bin refLocPmem t :=
      atThreshold_le_bin hsmall hnid (.inr rfl) ht
    have habove : aboveThreshold numa p pages ≤
        hotter (countRefsOne numa nrWalks pages) (t + 1) := by
      rw [hotter_eq_rowCount nrWalks hnid (by omega)]
      refine rowCount_mono fun n hn => ?_
      rw [decide_eq_true_eq] at hn ⊢
      unfold refBin
      omega
    rw [hhot] at hle
    omega

/-- **Demotion.** -/
theorem cold_le (form : DemoteForm nrWalks (countRefsOne numa nrWalks pages) p) :
    ((promoteAndDemote numa p pages).cold.length : ℤ) ≤ p.nrDemote := by
  have hwalks : uint8 nrWalks = nrWalks := Nat.mod_eq_of_lt hsmall
  have hle := (length_promoteAndDemote_le numa p pages).2
  rcases form with ⟨hcold, hnr, hremain⟩ | ⟨t, ht, hcold, hmin, hbin, h0, hremain, hnr⟩
  · have hbelow : belowThreshold numa p pages = 0 := by
      refine rowCount_eq_zero fun page _ => ?_
      rw [decide_eq_false_iff_not]
      omega
    omega
  · have hbelow : belowThreshold numa p pages ≤
        colder (countRefsOne numa nrWalks pages) t := by
      rw [colder_eq_rowCount nrWalks hnid (by omega)]
      refine rowCount_mono fun n hn => ?_
      rw [decide_eq_true_eq] at hn ⊢
      unfold refBin
      omega
    omega

end Collected

end EPTMigrate

/-! ### The period -/

namespace GlobalScan

open EPTMigrate
open MovePages (Syscall)

/-- `GlobalScan::migrate`. The ranges are collected anew for every period, and the jobs
share nothing; `kernel r` answers the calls for range `r`. -/
def migrate (numa : NumaNodeCollection) (placement : ℕ → OptionParser.Placement)
    (kernel : ℕ → ℕ → Syscall × Syscall) (ranges : List EPTMigrate) (plan : Plan) :
    List InterleaveState :=
  ranges.mapIdx fun r range =>
    range.migrate numa false (plan.parameter r) (kernel r) (placement r) .init

/-- The KB that a period has accounted for a migrate type. -/
def toMoveKb (t : MigrateType) (states : List InterleaveState) : ℕ :=
  (states.map fun s => s.toMoveKb t).sum

variable {cfg : PlanConfig} {numa : NumaNodeCollection} {ranges : List EPTMigrate}

/-- A period hands over no more than some counts of its parameters, if every range and
type does not. -/
theorem toMoveKb_migrate_le (placement : ℕ → OptionParser.Placement)
    (kernel : ℕ → ℕ → Syscall × Syscall) {plan : Plan} {t : MigrateType}
    (count : MigrateParameter → ℤ)
    (hle : ∀ r range type, ranges[r]? = some range → type ∈ plannedTypes →
      (range.handedKb numa (plan.parameter r) t type : ℤ) ≤
        count (plan.parameter r type) * 2 ^ (type.shift - 10)) :
    (toMoveKb t (migrate numa placement kernel ranges plan) : ℤ) ≤
      plannedKb count ranges plan := by
  unfold toMoveKb migrate plannedKb
  rw [List.mapIdx_eq_ofFn, List.map_ofFn, List.sum_ofFn, Finset.sum_range]
  push_cast
  refine Finset.sum_le_sum fun i _ => ?_
  have hrange : ranges[(i : ℕ)]? = some ranges[i] := List.getElem?_eq_getElem i.isLt
  have hhanded : ((ranges[i].migrate numa false (plan.parameter i) (kernel i) (placement i)
      .init).toMoveKb t) ≤
        (plannedTypes.map (ranges[i].handedKb numa (plan.parameter i) t)).sum := by
    rw [toMoveKb_migrate]
    split
    · exact Nat.zero_le _
    · exact le_rfl
  have hpte := hle i ranges[i] pteAccessed hrange (by simp [plannedTypes])
  have hpmd := hle i ranges[i] pmdAccessed hrange (by simp [plannedTypes])
  simp only [plannedTypes, List.map_cons, List.map_nil, List.sum_cons, List.sum_nil] at hhanded ⊢
  refine (Int.ofNat_le.mpr hhanded).trans ?_
  push_cast
  omega

theorem accessed_of_planned {type : ProcIdlePageType} (htype : type ∈ plannedTypes) :
    type ∈ accessedTypes := by
  simp only [plannedTypes, accessedTypes, List.mem_cons] at htype ⊢
  tauto

/-- No page of a period has a node id above `MAX_NID`. -/
theorem scanRanges_nid_le (numa : NumaNodeCollection) (ranges : List EPTMigrate)
    {scans : List (ℕ → WalkOutcome)} (hgathered : ∀ scan ∈ scans, ∀ r, (scan r).Gathered) :
    ∀ range ∈ scanRanges numa ranges scans, ∀ type ∈ plannedTypes,
      ∀ page ∈ (range.pagetypeRefs type).pageRefs.pages, page.2.2 ≤ maxNid := by
  intro range hmem type htype
  obtain ⟨i, hi, rfl⟩ := List.mem_mapIdx.mp hmem
  refine period_nid_le numa ranges[i] (fun outcome houtcome => ?_) (accessed_of_planned htype)
  obtain ⟨scan, hscan, rfl⟩ := List.mem_map.mp houtcome
  exact hgathered scan hscan i

/-- A parameter of a period's plan: its range has no bins and the parameter was left as it
was initialised, or its histogram is that of the pages that the migration goes through. -/
theorem scanRanges_cases {scans : List (ℕ → WalkOutcome)} (hwalks : cfg.nrWalks = scans.length)
    {plan : Plan} (hplan : calcMigrateParameter cfg (scanRanges numa ranges scans) = some plan)
    {r : ℕ} {range : EPTMigrate} {type : ProcIdlePageType}
    (hrange : (scanRanges numa ranges scans)[r]? = some range) (htype : type ∈ plannedTypes) :
    plan.parameter r type = initMigrationParameter cfg.nrWalks ∨
      (range.pagetypeRefs type).histogram2d =
        countRefsOne numa cfg.nrWalks (range.pagetypeRefs type).pageRefs.pages := by
  have hmem := List.mem_of_getElem? hrange
  have hrows := rowsOfPeriod_scanRanges cfg numa ranges scans range hmem type htype
  by_cases herr : range.ioError = 0
  · refine .inr ?_
    obtain ⟨i, hi, rfl⟩ := List.mem_mapIdx.mp hmem
    have hhist := period_histogram numa ranges[i] (scans.map fun scan => scan i)
      (accessed_of_planned htype) herr
    rwa [List.length_map, ← hwalks] at hhist
  · rw [if_neg herr] at hrows
    exact .inl (plan_untouched hrange htype rfl hrows hplan)

/-- A plan over ranges whose histograms are those of their pages, below 256 walks. -/
theorem within_limits {plan : Plan} (hplan : calcMigrateParameter cfg ranges = some plan)
    (hsmall : cfg.nrWalks < 256)
    (hnid : ∀ range ∈ ranges, ∀ type ∈ plannedTypes,
      ∀ page ∈ (range.pagetypeRefs type).pageRefs.pages, page.2.2 ≤ maxNid)
    (hcases : ∀ r range type, ranges[r]? = some range → type ∈ plannedTypes →
      plan.parameter r type = initMigrationParameter cfg.nrWalks ∨
        (range.pagetypeRefs type).histogram2d =
          countRefsOne numa cfg.nrWalks (range.pagetypeRefs type).pageRefs.pages)
    (placement : ℕ → OptionParser.Placement) (kernel : ℕ → ℕ → Syscall × Syscall) :
    (toMoveKb .hot (migrate numa placement kernel ranges plan) : ℤ) ≤ max cfg.promoteLimitKb 0 ∧
      ((∀ key ∈ plan.notices, (plan.parameter key.1 key.2).enabled = false) →
        (toMoveKb .cold (migrate numa placement kernel ranges plan) : ℤ) ≤
          max cfg.demoteLimitKb 0) := by
  obtain ⟨hpromoted, hdemoted⟩ := planned_le hplan
  refine ⟨(toMoveKb_migrate_le placement kernel MigrateParameter.nrPromote ?_).trans hpromoted,
    fun hnotices =>
      (toMoveKb_migrate_le placement kernel MigrateParameter.nrDemote ?_).trans hdemoted⟩
  · intro r range type hrange htype
    unfold handedKb
    rcases hcases r range type hrange htype with hinit | hhist
    · simp [hinit, initMigrationParameter]
    · have rows := countRefsOne_rows numa cfg.nrWalks (range.pagetypeRefs type).pageRefs.pages
      have hle := hot_le hsmall (hnid range (List.mem_of_getElem? hrange) type htype)
        (plan_hotForm hrange htype hhist rows hplan)
      have hpow : (0 : ℤ) ≤ 2 ^ (type.shift - 10) := by positivity
      split
      · push_cast
        exact mul_le_mul_of_nonneg_right hle hpow
      · exact mul_nonneg ((Int.natCast_nonneg _).trans hle) hpow
  · intro r range type hrange htype
    have hpow : (0 : ℤ) ≤ 2 ^ (type.shift - 10) := by positivity
    unfold handedKb
    split
    · next henabled =>
      rcases hcases r range type hrange htype with hinit | hhist
      · rw [hinit] at henabled
        cases henabled
      · have rows := countRefsOne_rows numa cfg.nrWalks (range.pagetypeRefs type).pageRefs.pages
        have hnot : (r, type) ∉ plan.notices := fun hin => by
          rw [hnotices _ hin] at henabled
          cases henabled
        have hle := cold_le hsmall (hnid range (List.mem_of_getElem? hrange) type htype)
          (plan_forms hrange htype hhist rows hplan hnot).2
        push_cast
        exact mul_le_mul_of_nonneg_right hle hpow
    · exact mul_nonneg (plan_nrDemote_nonneg hrange htype hplan) hpow

/-- Every period of fewer than 256 walks, whatever each of them meets, with any limits,
nodes and answers of the kernel, that has a plan: the pages handed over to be promoted are
within the limit, whatever `anti_thrashing` altered. Those to be demoted are within theirs,
if no parameter that it altered was enabled again. -/
theorem migrate_within_limits (cfg : PlanConfig) (numa : NumaNodeCollection)
    (ranges : List EPTMigrate) (scans : List (ℕ → WalkOutcome)) (hscans : scans.length < 256)
    (hgathered : ∀ scan ∈ scans, ∀ r, (scan r).Gathered)
    {plan : Plan} (hplan : planPeriod cfg numa ranges scans = some plan)
    (placement : ℕ → OptionParser.Placement) (kernel : ℕ → ℕ → Syscall × Syscall) :
    let states := migrate numa placement kernel (scanRanges numa ranges scans) plan
    (toMoveKb .hot states : ℤ) ≤ max cfg.promoteLimitKb 0 ∧
      ((∀ key ∈ plan.notices, (plan.parameter key.1 key.2).enabled = false) →
        (toMoveKb .cold states : ℤ) ≤ max cfg.demoteLimitKb 0) := by
  unfold planPeriod at hplan
  have hcases : ∀ r range type, (scanRanges numa ranges scans)[r]? = some range →
      type ∈ plannedTypes → plan.parameter r type = initMigrationParameter scans.length ∨
        (range.pagetypeRefs type).histogram2d =
          countRefsOne numa scans.length (range.pagetypeRefs type).pageRefs.pages :=
    fun _ _ _ hrange htype => scanRanges_cases rfl hplan hrange htype
  exact within_limits hplan hscans (scanRanges_nid_le numa ranges hgathered) hcases placement
    kernel

/-- A range that is collected for a period. -/
def newRange : EPTMigrate := ⟨0, 0, fun _ => ⟨AddrSequence.init, fun _ => []⟩⟩

/-- A walk that finds pages of 4 KB only. -/
def walkedSmall (seq : AddrSequence) : WalkOutcome :=
  .walked (fun type => if type = pteAccessed then seq else AddrSequence.init) false

/-- Three pages accessed in 4, 2 and 1 walks, and three accessed in 0, 1 and 2. -/
def sixPagesFound : AddrSequence :=
  [(0x1000, 4), (0x2000, 2), (0x3000, 1), (0x4000, 0), (0x5000, 1), (0x6000, 2)].foldl
    (fun s page => (s.incPayload Alloc.ok page.1 page.2).1)
    (AddrSequence.init.clear.setPageshift 12).rewind

/-- The first three of them are on persistent memory. -/
def sixPages : AddrSequence :=
  (getMemoryTypeOne twoNodes (fun _ _ => ⟨0, fun i => if i < 3 then 1 else 0⟩)
    sixPagesFound).getD sixPagesFound

theorem sixPages_gathered : Gathered sixPages := by
  have hfound : Gathered sixPagesFound := by
    unfold sixPagesFound
    exact ((Gathered.init.clear 12).rewind).foldl_incPayload _ _
  exact hfound.located twoNodes _

theorem walkedSmall_gathered {seq : AddrSequence} (h : Gathered seq) :
    (walkedSmall seq).Gathered := by
  intro type
  dsimp only
  split
  · exact h
  · exact .init

/-- Four walks of a range with these pages. -/
def sixPagesScans : List (ℕ → WalkOutcome) := List.replicate 4 fun _ => walkedSmall sixPages

theorem sixPagesScans_gathered : ∀ scan ∈ sixPagesScans, ∀ r, (scan r).Gathered := by
  intro scan hscan _
  rw [List.eq_of_mem_replicate hscan]
  exact walkedSmall_gathered sixPages_gathered

/-- No gap between the thresholds is asked for, and two pages may be demoted. -/
theorem migrate_within_limits_sixPages :
    ∃ plan, planPeriod ⟨0, 1000, 8, 0, false⟩ twoNodes [newRange] sixPagesScans = some plan ∧
      let states := migrate twoNodes (fun _ => .none)
        (fun _ _ => (⟨0, fun _ => some 0⟩, ⟨0, fun _ => none⟩))
        (scanRanges twoNodes [newRange] sixPagesScans) plan
      (toMoveKb .hot states : ℤ) ≤ 1000 ∧ (toMoveKb .cold states : ℤ) ≤ 8 := by
  have hnotices : (planPeriod ⟨0, 1000, 8, 0, false⟩ twoNodes [newRange] sixPagesScans).map
      Plan.notices = some [] := by decide +kernel
  obtain ⟨plan, hplan, hnone⟩ := Option.map_eq_some_iff.mp hnotices
  obtain ⟨hhot, hcold⟩ := migrate_within_limits ⟨0, 1000, 8, 0, false⟩ twoNodes [newRange]
    sixPagesScans (by decide) sixPagesScans_gathered hplan (fun _ => .none)
    (fun _ _ => (⟨0, fun _ => some 0⟩, ⟨0, fun _ => none⟩))
  exact ⟨plan, hplan, hhot, hcold (by simp [hnone])⟩

/-- With a gap of 10 the first cold page disables the parameter, the second one is passed
over, and the hot pages accessed in 2 walks and in 1 enable it again: three pages are demoted,
although two were planned and the limit is two. -/
theorem migrate_resumed_exceeds (kernel : ℕ → ℕ → Syscall × Syscall) :
    ∃ plan, planPeriod ⟨0, 1000, 8, 10, false⟩ twoNodes [newRange] sixPagesScans = some plan ∧
      (plan.parameter 0 pteAccessed).nrDemote = 2 ∧
      toMoveKb .cold (migrate twoNodes (fun _ => .none) kernel
        (scanRanges twoNodes [newRange] sixPagesScans) plan) = 12 := by
  have hrun : (planPeriod ⟨0, 1000, 8, 10, false⟩ twoNodes [newRange] sixPagesScans).map
      (fun plan => ((plan.parameter 0 pteAccessed).nrDemote,
        plannedTypes.map ((newRange.period twoNodes (sixPagesScans.map fun scan => scan 0)).handedKb
          twoNodes (plan.parameter 0) .cold))) = some (2, [12, 0]) := by decide +kernel
  obtain ⟨plan, hplan, hvalues⟩ := Option.map_eq_some_iff.mp hrun
  obtain ⟨hdemote, hhanded⟩ := Prod.mk.inj hvalues
  refine ⟨plan, hplan, hdemote, ?_⟩
  rw [toMoveKb, migrate, scanRanges, List.mapIdx_cons, List.mapIdx_nil, List.mapIdx_cons,
    List.mapIdx_nil, List.map_cons, List.map_nil, List.sum_cons, List.sum_nil, toMoveKb_migrate,
    if_neg (by decide), hhanded]
  rfl

end GlobalScan

end MemoryOptimizer
