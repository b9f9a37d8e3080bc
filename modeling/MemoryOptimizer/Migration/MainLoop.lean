import MemoryOptimizer.Migration.Budget
import MemoryOptimizer.Migration.MigratePeriod
import MemoryOptimizer.Migration.Profile

/-!
# The main loop

`GlobalScan::main_loop` scans the processes for several rounds and then plans and
migrates. The configuration is loaded again and the processes are collected only before
the first round; what was found is counted only after the last one.

* `Scanning`, `Between` — the invariant between two iterations.
* `PeriodOf` — what a period has found: all scans of its rounds.
* `mainLoop_periods` — every period of every run.
* `mainLoop_within_limits` — every migration of every run stays within its limits.
-/

namespace MemoryOptimizer

open ProcIdlePageType EPTScan EPTMigrate

namespace GlobalScan

open MovePages (Syscall)

/-! ### The loop -/

/-- The options that the loop reads. -/
structure ScanOptions extends LimitOptions where
  nrScans : ℤ
  nrScanRounds : ℤ
  antiThrashThreshold : ℤ
  exitOnConverged : Bool
  /-- whether `progressive_profile` names a script -/
  progressiveProfile : Bool

/-- `global_dram_ratio`. Without any memory the division is undefined, and nothing is
planned. -/
def globalDramRatio (pmemKb dramKb : ℤ) : ℤ :=
  truncate (float64 (float64 (100 * float64 dramKb) / float64 (pmemKb + dramKb : ℤ)))

/-- `in_adjust_ratio_stage`. -/
def inAdjustRatioStage (dramPercent pmemKb dramKb : ℤ) : Bool :=
  dramPercent ≠ 0 && globalDramRatio pmemKb dramKb ≠ dramPercent

/-- What the planner is given, after `calc_memory_size` and `calc_migrate_count`. -/
def ScanOptions.config (option : ScanOptions) (nrWalks : ℕ) (ranges : List EPTMigrate) :
    PlanConfig :=
  let sysRefs := sysRefsCount nrWalks ranges
  PlanOptions.config
    { toLimitOptions := option.toLimitOptions
      antiThrashThreshold := option.antiThrashThreshold
      inAdjustRatioStage := inAdjustRatioStage option.dramPercent
        (globalTotalKb sysRefs refLocPmem) (globalTotalKb sysRefs refLocDram) }
    nrWalks ranges

/-- The test of `exit_on_converged` for one parameter. -/
def convergedParameter (cfg : PlanConfig) (p : MigrateParameter) : Bool :=
  if p.hotThreshold ≤ cfg.nrWalks ∧ p.coldThreshold ≥ 0 then
    if p.enabled then p.hotThreshold - p.coldThreshold ≤ cfg.antiThrashThreshold else true
  else true

/-- `exit_on_converged`. -/
def exitOnConverged (cfg : PlanConfig) (ranges : List EPTMigrate) (plan : Plan) : Bool :=
  !cfg.inAdjustRatioStage && (List.range ranges.length).all fun r =>
    plannedTypes.all fun type => convergedParameter cfg (plan.parameter r type)

/-- How a period ends. -/
inductive PeriodAct where
  | migrate (plan : Plan) (states : List InterleaveState)
  | profile (states : List InterleaveState)

/-- The period that an iteration has ended. -/
structure Period where
  option : ScanOptions
  numa : NumaNodeCollection
  nrWalks : ℕ
  ranges : List EPTMigrate
  act : PeriodAct

/-- The variables of the loop; `running` until it is left. -/
structure MainState where
  option : ScanOptions
  numa : NumaNodeCollection
  confReloadFlag : Bool
  running : Bool
  nround : ℕ
  nrScanRounds : ℕ
  nrWalks : ℕ
  idleRanges : List EPTMigrate

/-- What an iteration meets: whether a reload was requested since the last one, what the
configuration file holds, the processes there are, the walks and the migration. -/
structure Round where
  requested : Bool
  reparse : ScanOptions → ScanOptions
  numa : NumaNodeCollection
  collected : List EPTMigrate
  scans : ℕ → ℕ → WalkOutcome
  placement : ℕ → OptionParser.Placement
  kernel : ℕ → ℕ → Syscall × Syscall

namespace MainState

/-- Before the first iteration. -/
def start (option : ScanOptions) (numa : NumaNodeCollection) : MainState :=
  ⟨option, numa, false, true, 0, 0, 0, []⟩

/-- `request_reload_conf`, from the signal handler. -/
def request (s : MainState) (e : Round) : MainState :=
  { s with confReloadFlag := s.confReloadFlag || e.requested }

/-- `reload_conf`, with `apply_option`. -/
def reloadConf (s : MainState) (e : Round) : MainState :=
  if s.confReloadFlag then
    { s with confReloadFlag := false, option := e.reparse s.option, numa := e.numa }
  else s

/-- `collect`; it leaves no range behind an error. -/
def collect (s : MainState) (e : Round) : MainState := { s with idleRanges := e.collected }

/-- `prepare_walk_multi`. -/
def prepareWalkMulti (s : MainState) : MainState :=
  { s with nrWalks := 0, idleRanges := s.idleRanges.map prepareWalks }

/-- `walk_multi`, a `walk_once` for each scan. -/
def walkMulti (s : MainState) (e : Round) : MainState :=
  let scans := s.option.nrScans.toNat
  { s with
    nrWalks := s.nrWalks + scans
    idleRanges := (List.range scans).foldl
      (fun ranges k => ranges.mapIdx fun r range => range.walk (e.scans k r)) s.idleRanges }

/-- `count_refs`. -/
def countRefs (s : MainState) : MainState :=
  { s with idleRanges := s.idleRanges.map (EPTMigrate.countRefs s.numa) }

/-- `++nround`, of an unsigned int. -/
def next (s : MainState) : MainState := { s with nround := (s.nround + 1) % 2 ^ 32 }

/-- `break`. -/
def leave (s : MainState) : MainState := { s with running := false }

/-- The period of a state. -/
def period (s : MainState) (act : PeriodAct) : Period :=
  ⟨s.option, s.numa, s.nrWalks, s.idleRanges, act⟩

/-- The end of a period. -/
def endPeriod (s : MainState) (e : Round) : Option (MainState × List Period) :=
  if s.option.progressiveProfile then do
    let states ← progressiveProfile s.numa s.nrWalks s.idleRanges e.placement e.kernel
    pure (s.leave, [s.period (.profile states)])
  else do
    let cfg := s.option.config s.nrWalks s.idleRanges
    let plan ← calcMigrateParameter cfg s.idleRanges
    let states := migrate s.numa e.placement e.kernel s.idleRanges plan
    let converged := s.option.exitOnConverged && exitOnConverged cfg s.idleRanges plan
    pure (if converged then s.leave else s.next, [s.period (.migrate plan states)])

/-- A round of scans, and the end of the period after the last one. -/
def scanRound (s : MainState) (e : Round) : Option (MainState × List Period) :=
  let s := s.walkMulti e
  let s := { s with nrScanRounds := s.nrScanRounds + 1 }
  if (s.nrScanRounds : ℤ) < s.option.nrScanRounds then some (s.next, [])
  else ({ s with nrScanRounds := 0 }.countRefs).endPeriod e

/-- The loop body. -/
def iteration (s : MainState) (e : Round) : Option (MainState × List Period) :=
  let s := s.request e
  if s.nrScanRounds = 0 then
    let s := (s.reloadConf e).collect e
    if s.idleRanges = [] then some (s.next, []) else s.prepareWalkMulti.scanRound e
  else s.scanRound e

end MainState

/-- `main_loop` for some iterations, with the periods that they end. It has no further
iteration when it has been left or `nround` has passed `max_round`. -/
def mainLoop (maxRound : ℕ) (s : MainState) : List Round → Option (MainState × List Period)
  | [] => some (s, [])
  | e :: es =>
      if s.running ∧ s.nround ≤ maxRound then do
        let (s, periods) ← s.iteration e
        let (s, periods') ← mainLoop maxRound s es
        pure (s, periods ++ periods')
      else none

/-! ### The walks of a period -/

/-- The ranges after some scans. -/
def walked (collected : List EPTMigrate) (scans : List (ℕ → WalkOutcome)) : List EPTMigrate :=
  collected.mapIdx fun r range => (scans.map fun scan => scan r).foldl walk range.prepareWalks

theorem walked_nil (collected : List EPTMigrate) :
    walked collected [] = collected.map prepareWalks := by
  apply List.ext_getElem?
  intro r
  simp [walked]

theorem walked_concat (collected : List EPTMigrate) (scans : List (ℕ → WalkOutcome))
    (scan : ℕ → WalkOutcome) :
    ((walked collected scans).mapIdx fun r range => range.walk (scan r)) =
      walked collected (scans ++ [scan]) := by
  apply List.ext_getElem?
  intro r
  simp [walked, Function.comp_def]

theorem walked_append (collected : List EPTMigrate) (scans : List (ℕ → WalkOutcome))
    (f : ℕ → ℕ → WalkOutcome) (n : ℕ) :
    (List.range n).foldl (fun ranges k => ranges.mapIdx fun r range => range.walk (f k r))
        (walked collected scans) =
      walked collected (scans ++ (List.range n).map f) := by
  induction n with
  | zero => simp
  | succ n ih =>
      rw [List.range_succ, List.foldl_append, ih, List.foldl_cons, List.foldl_nil, walked_concat,
        List.map_append, List.append_assoc]
      rfl

theorem countRefs_walked (numa : NumaNodeCollection) (collected : List EPTMigrate)
    (scans : List (ℕ → WalkOutcome)) :
    (walked collected scans).map (EPTMigrate.countRefs numa) =
      scanRanges numa collected scans := by
  apply List.ext_getElem?
  intro r
  simp [walked, scanRanges, EPTMigrate.period, Function.comp_def]

/-- The scans of some rounds. -/
def scansOf (option : ScanOptions) (rounds : List Round) : List (ℕ → WalkOutcome) :=
  rounds.flatMap fun e => (List.range option.nrScans.toNat).map e.scans

theorem length_scansOf (option : ScanOptions) (rounds : List Round) :
    (scansOf option rounds).length = rounds.length * option.nrScans.toNat := by
  simp [scansOf, List.length_flatMap]

theorem scansOf_concat (option : ScanOptions) (rounds : List Round) (e : Round) :
    scansOf option (rounds ++ [e]) =
      scansOf option rounds ++ (List.range option.nrScans.toNat).map e.scans := by
  simp [scansOf]

/-! ### The invariant -/

/-- Within a period: the ranges that were collected have been through all scans of the
rounds so far, under the options that are still in force. -/
structure Scanning (s : MainState) (collected : List EPTMigrate) (rounds : List Round) :
    Prop where
  idleRanges : s.idleRanges = walked collected (scansOf s.option rounds)
  nrWalks : s.nrWalks = rounds.length * s.option.nrScans.toNat
  nrScanRounds : s.nrScanRounds = rounds.length
  more : rounds = [] ∨ (rounds.length : ℤ) < s.option.nrScanRounds

/-- Before an iteration: the rounds of the period so far, the first of which has collected
the processes. -/
inductive Between (s : MainState) : List Round → Prop where
  | start (hzero : s.nrScanRounds = 0) : Between s []
  | more {e : Round} {rounds : List Round} (hscanning : Scanning s e.collected (e :: rounds)) :
      Between s (e :: rounds)

/-- A period: the ranges as they were collected, after all scans of its rounds. -/
structure PeriodOf (p : Period) (collected : List EPTMigrate) (rounds : List Round) : Prop where
  ranges : p.ranges = scanRanges p.numa collected (scansOf p.option rounds)
  nrWalks : p.nrWalks = rounds.length * p.option.nrScans.toNat
  length : rounds.length = max 1 p.option.nrScanRounds.toNat

/-- What a period has ended with comes from its own ranges and options. -/
def EndsWith (p : Period) : PeriodAct → Prop
  | .migrate plan states =>
      calcMigrateParameter (p.option.config p.nrWalks p.ranges) p.ranges = some plan ∧
        ∃ placement kernel, states = migrate p.numa placement kernel p.ranges plan
  | .profile states => ∃ placement kernel,
      progressiveProfile p.numa p.nrWalks p.ranges placement kernel = some states

/-- A period of the loop and its rounds. -/
def IsPeriod (p : Period) (rounds : List Round) : Prop :=
  EndsWith p p.act ∧ ∃ e ∈ rounds.head?, PeriodOf p e.collected rounds

/-- **The end of a period.** -/
theorem endPeriod_spec {s s' : MainState} {e : Round} {periods : List Period}
    (hend : s.endPeriod e = some (s', periods)) :
    s'.nrScanRounds = s.nrScanRounds ∧ ∃ act, periods = [s.period act] ∧
      EndsWith (s.period act) act := by
  unfold MainState.endPeriod at hend
  split at hend
  · obtain ⟨states, hprofile, hend⟩ := Option.bind_eq_some_iff.mp hend
    cases hend
    exact ⟨rfl, _, rfl, e.placement, e.kernel, hprofile⟩
  · obtain ⟨plan, hplan, hend⟩ := Option.bind_eq_some_iff.mp hend
    cases hend
    refine ⟨?_, _, rfl, hplan, e.placement, e.kernel, rfl⟩
    split <;> rfl

/-- **A round.** It goes on with the period or ends it. -/
theorem scanRound_spec {s s' : MainState} {e : Round} {periods : List Period}
    {collected : List EPTMigrate} {rounds : List Round}
    (hscanning : Scanning s collected rounds)
    (hround : s.scanRound e = some (s', periods)) :
    (periods = [] ∧ Scanning s' collected (rounds ++ [e])) ∨
      s'.nrScanRounds = 0 ∧ ∃ p, periods = [p] ∧ EndsWith p p.act ∧
        PeriodOf p collected (rounds ++ [e]) := by
  obtain ⟨hranges, hwalks, hrounds, hmore⟩ := hscanning
  have hlength : (rounds ++ [e]).length = s.nrScanRounds + 1 := by
    rw [List.length_append, List.length_singleton, hrounds]
  have hranges' : (s.walkMulti e).idleRanges =
      walked collected (scansOf s.option (rounds ++ [e])) := by
    rw [scansOf_concat]
    simp only [MainState.walkMulti, hranges]
    exact walked_append collected _ e.scans _
  have hwalks' : (s.walkMulti e).nrWalks = (rounds ++ [e]).length * s.option.nrScans.toNat := by
    simp only [MainState.walkMulti, hwalks]
    rw [hlength, hrounds, Nat.succ_mul]
  unfold MainState.scanRound at hround
  dsimp only at hround
  split at hround
  · next hlt =>
    cases hround
    refine .inl ⟨rfl, hranges', hwalks', hlength.symm, .inr ?_⟩
    rw [hlength]
    exact hlt
  · next hge =>
    obtain ⟨hzero, act, rfl, hact⟩ := endPeriod_spec hround
    refine .inr ⟨hzero, _, rfl, hact, ?_, hwalks', ?_⟩
    · exact (congrArg (List.map (EPTMigrate.countRefs s.numa)) hranges').trans
        (countRefs_walked s.numa collected _)
    · -- before the last round there were fewer than `nr_scan_rounds`, or none
      have hge' : ¬((s.nrScanRounds + 1 : ℕ) : ℤ) < s.option.nrScanRounds := hge
      have hmore' : s.nrScanRounds = 0 ∨ (s.nrScanRounds : ℤ) < s.option.nrScanRounds := by
        rw [hrounds]
        exact hmore.imp (fun h => by rw [h, List.length_nil]) id
      have hone : s.nrScanRounds + 1 = max 1 s.option.nrScanRounds.toNat := by omega
      exact hlength.trans hone

/-- **An iteration.** The configuration and the processes change only between periods. -/
theorem iteration_spec {s s' : MainState} {e : Round} {periods : List Period}
    {rounds : List Round} (hs : Between s rounds)
    (hiter : s.iteration e = some (s', periods)) :
    ∃ blocks rounds', List.Forall₂ IsPeriod periods blocks ∧ Between s' rounds' ∧
      (blocks.flatten ++ rounds').Sublist (rounds ++ [e]) := by
  unfold MainState.iteration at hiter
  dsimp only at hiter
  cases hs with
  | start hzero =>
      have hrequest : (s.request e).nrScanRounds = 0 := hzero
      rw [if_pos hrequest] at hiter
      have hzero' : ((s.request e).reloadConf e).nrScanRounds = 0 := by
        unfold MainState.reloadConf
        split <;> exact hrequest
      split at hiter
      · -- no process: the round belongs to no period
        cases hiter
        exact ⟨[], [], .nil, .start hzero', List.nil_sublist _⟩
      · have hstart : Scanning ((((s.request e).reloadConf e).collect e).prepareWalkMulti)
            e.collected [] := by
          refine ⟨(walked_nil e.collected).symm, ?_, hzero', .inl rfl⟩
          rw [List.length_nil, Nat.zero_mul]
          rfl
        rcases scanRound_spec hstart hiter with ⟨rfl, hmore⟩ | ⟨hnext, p, rfl, hact, hperiod⟩
        · exact ⟨[], [e], .nil, .more hmore, .refl _⟩
        · refine ⟨[[e]], [], .cons ⟨hact, e, rfl, hperiod⟩ .nil, .start hnext, ?_⟩
          rw [List.append_nil]
          exact .refl _
  | @more first rounds hscanning =>
      have hne : (s.request e).nrScanRounds ≠ 0 := by
        have hrounds : (s.request e).nrScanRounds = rounds.length + 1 := hscanning.nrScanRounds
        omega
      rw [if_neg hne] at hiter
      obtain ⟨hranges, hwalks, hrounds, hmore⟩ := hscanning
      have hscanning' : Scanning (s.request e) first.collected (first :: rounds) :=
        ⟨hranges, hwalks, hrounds, hmore⟩
      rcases scanRound_spec hscanning' hiter with ⟨rfl, hmore⟩ | ⟨hnext, p, rfl, hact, hperiod⟩
      · exact ⟨[], first :: (rounds ++ [e]), .nil, .more hmore, .refl _⟩
      · refine ⟨[first :: (rounds ++ [e])], [], .cons ⟨hact, first, rfl, hperiod⟩ .nil,
          .start hnext, ?_⟩
        rw [List.append_nil, List.flatten_singleton]
        exact .refl _

/-- **The loop.** Its periods take their rounds in order, and none takes part in two. -/
theorem mainLoop_periods {maxRound : ℕ} {s s' : MainState} {es : List Round}
    {periods : List Period} {rounds : List Round} (hs : Between s rounds)
    (hrun : mainLoop maxRound s es = some (s', periods)) :
    ∃ blocks rounds', List.Forall₂ IsPeriod periods blocks ∧ Between s' rounds' ∧
      (blocks.flatten ++ rounds').Sublist (rounds ++ es) := by
  induction es generalizing s periods rounds with
  | nil =>
      cases hrun
      refine ⟨[], rounds, .nil, hs, ?_⟩
      rw [List.append_nil]
      exact .refl _
  | cons e es ih =>
      unfold mainLoop at hrun
      split at hrun
      · obtain ⟨⟨s₁, periods₁⟩, hiter, hrun⟩ := Option.bind_eq_some_iff.mp hrun
        obtain ⟨⟨s₂, periods₂⟩, hrest, hrun⟩ := Option.bind_eq_some_iff.mp hrun
        cases hrun
        obtain ⟨blocks₁, rounds₁, hperiods₁, hs₁, hsub₁⟩ := iteration_spec hs hiter
        obtain ⟨blocks₂, rounds₂, hperiods₂, hs₂, hsub₂⟩ := ih hs₁ hrest
        refine ⟨blocks₁ ++ blocks₂, rounds₂, List.rel_append hperiods₁ hperiods₂, hs₂, ?_⟩
        have hfirst := (List.Sublist.refl blocks₁.flatten).append hsub₂
        have hrest := hsub₁.append (List.Sublist.refl es)
        rw [List.append_assoc, List.append_assoc] at hrest
        rw [List.flatten_append, List.append_assoc]
        exact hfirst.trans hrest
      · cases hrun

/-! ### The migrations -/

/-- No page of a period has a node id above `MAX_NID`. -/
theorem PeriodOf.nid_le {p : Period} {collected : List EPTMigrate} {rounds : List Round}
    (hp : PeriodOf p collected rounds) (hgathered : ∀ e ∈ rounds, ∀ k r, (e.scans k r).Gathered) :
    ∀ range ∈ p.ranges, ∀ type ∈ plannedTypes, ∀ page ∈ rangePages range type,
      page.2.2 ≤ maxNid := by
  rw [hp.ranges]
  refine scanRanges_nid_le p.numa collected fun scan hscan => ?_
  obtain ⟨e, he, hscan⟩ := List.mem_flatMap.mp hscan
  obtain ⟨k, -, rfl⟩ := List.mem_map.mp hscan
  exact hgathered e he k

/-- A plan is within limits that hold for a period. -/
structure WithinLimits (cfg : PlanConfig) (plan : Plan) (states : List InterleaveState) :
    Prop where
  promote : (toMoveKb .hot states : ℤ) ≤ cfg.promoteLimitKb
  demote : (∀ key ∈ plan.notices, (plan.parameter key.1 key.2).enabled = false) →
    (toMoveKb .cold states : ℤ) ≤ cfg.demoteLimitKb

theorem IsPeriod.withinLimits {p : Period} {rounds : List Round} {plan : Plan}
    {states : List InterleaveState} (hp : IsPeriod p rounds)
    (hact : p.act = .migrate plan states) (hsmall : p.nrWalks < 256)
    (hgathered : ∀ e ∈ rounds, ∀ k r, (e.scans k r).Gathered) :
    WithinLimits (p.option.config p.nrWalks p.ranges) plan states := by
  obtain ⟨hend, e, -, hperiod⟩ := hp
  have hnid := hperiod.nid_le hgathered
  obtain ⟨hranges, hwalks, -⟩ := hperiod
  rw [← length_scansOf] at hwalks
  rw [hact] at hend
  obtain ⟨hplan, placement, kernel, rfl⟩ := hend
  have hnonneg := calcMigrateCount_nonneg p.option.toLimitOptions p.nrWalks
    (sysRefsCount p.nrWalks p.ranges)
  have hpromote : 0 ≤ (p.option.config p.nrWalks p.ranges).promoteLimitKb := hnonneg.1
  have hdemote : 0 ≤ (p.option.config p.nrWalks p.ranges).demoteLimitKb := hnonneg.2
  have hsmall' : (p.option.config p.nrWalks p.ranges).nrWalks < 256 := hsmall
  have hwalks' : (p.option.config p.nrWalks p.ranges).nrWalks =
      (scansOf p.option rounds).length := hwalks
  -- how the limits come about does not matter any more
  generalize p.option.config p.nrWalks p.ranges = cfg at hplan hpromote hdemote hsmall' hwalks' ⊢
  obtain ⟨hhot, hcold⟩ := within_limits hplan hsmall' hnid (fun r range type hrange htype => by
    rw [hranges] at hplan hrange
    exact scanRanges_cases hwalks' hplan hrange htype) placement kernel
  rw [max_eq_left hpromote] at hhot
  rw [max_eq_left hdemote] at hcold
  exact ⟨hhot, hcold⟩

/-- Every run of the loop, whatever the processes, the walks and the kernel do and whenever a
reload is requested. The periods that end have taken their rounds in order, and no round is
in two of them. Each has `nr_scan_rounds` rounds, one at least, and in each of them
`nr_scans` scans, under the options in force at its end, of the processes that its first
round has collected. If these are fewer than 256 scans and it migrates, then the pages
handed over are within the limits that these options give for what it found: those to be
promoted, and those to be demoted if no parameter that `anti_thrashing` altered was enabled
again. -/
theorem mainLoop_within_limits (option : ScanOptions) (numa : NumaNodeCollection)
    (maxRound : ℕ) (es : List Round)
    (hgathered : ∀ e ∈ es, ∀ k r, (e.scans k r).Gathered) {s : MainState} {periods : List Period}
    (hrun : mainLoop maxRound (.start option numa) es = some (s, periods)) :
    (∃ blocks : List (List Round), blocks.flatten.Sublist es ∧
      List.Forall₂ (fun p rounds => ∃ e ∈ rounds.head?, PeriodOf p e.collected rounds)
        periods blocks) ∧
      ∀ p ∈ periods, ∀ plan states, p.act = .migrate plan states → p.nrWalks < 256 →
        WithinLimits (p.option.config p.nrWalks p.ranges) plan states := by
  obtain ⟨blocks, rounds, hperiods, -, hsub⟩ := mainLoop_periods (.start rfl) hrun
  have hsub' : blocks.flatten.Sublist es := (List.sublist_append_left _ rounds).trans hsub
  refine ⟨⟨blocks, hsub', hperiods.imp fun _ _ hp => hp.2⟩, ?_⟩
  intro p hp plan states hact hsmall
  obtain ⟨i, hi, rfl⟩ := List.getElem_of_mem hp
  have hi' : i < blocks.length := hperiods.length_eq ▸ hi
  refine IsPeriod.withinLimits (hperiods.get hi hi') hact hsmall fun e he => ?_
  exact hgathered e (hsub'.subset (List.mem_flatten_of_mem (List.getElem_mem hi') he))

/-- Two rounds of two scans, at most 8 KB for each period. -/
def twoRounds : ScanOptions := ⟨⟨0, 8⟩, 2, 2, 0, false, false⟩

/-- A round with one process, in which a reload of `option` is requested. -/
def sixPagesRound (option : ScanOptions) : Round :=
  ⟨true, fun _ => option, twoNodes, [newRange], fun _ _ => walkedSmall sixPages, fun _ => .none,
    fun _ _ => (⟨0, fun _ => some 0⟩, ⟨0, fun _ => none⟩)⟩

theorem sixPagesRound_gathered (option : ScanOptions) (k r : ℕ) :
    ((sixPagesRound option).scans k r).Gathered := walkedSmall_gathered sixPages_gathered

/-- The second request is not met before the period has ended. -/
theorem mainLoop_within_limits_twoRounds :
    ∃ s p plan states, mainLoop 4294967295 (.start twoRounds twoNodes)
        [sixPagesRound twoRounds, sixPagesRound { twoRounds with nrScans := 100 }] =
          some (s, [p]) ∧
      p.act = .migrate plan states ∧ p.nrWalks = 4 ∧ (toMoveKb .hot states : ℤ) ≤ 4 := by
  have hvalues : (mainLoop 4294967295 (.start twoRounds twoNodes)
      [sixPagesRound twoRounds, sixPagesRound { twoRounds with nrScans := 100 }]).map
        (fun r => r.2.map fun p => (p.nrWalks,
          (p.option.config p.nrWalks p.ranges).promoteLimitKb, p.act matches .migrate _ _)) =
            some [(4, 4, true)] := by decide +kernel
  obtain ⟨⟨s, periods⟩, hrun, hperiods⟩ := Option.map_eq_some_iff.mp hvalues
  obtain ⟨p, rfl, hp⟩ := List.map_eq_singleton_iff.mp hperiods
  obtain ⟨hwalks, hlimit, hact⟩ := by simpa only [Prod.mk.injEq] using hp
  have hgathered : ∀ e ∈ [sixPagesRound twoRounds, sixPagesRound { twoRounds with nrScans := 100 }],
      ∀ k r, (e.scans k r).Gathered := by
    simpa only [List.forall_mem_cons, List.not_mem_nil, IsEmpty.forall_iff, implies_true, and_true]
      using And.intro (sixPagesRound_gathered twoRounds) (sixPagesRound_gathered _)
  obtain ⟨-, hmigrate⟩ := mainLoop_within_limits twoRounds twoNodes 4294967295 _ hgathered hrun
  rcases hcase : p.act with ⟨plan, states⟩ | states
  · have hwithin := hmigrate p List.mem_cons_self plan states hcase (by omega)
    have hle : (toMoveKb .hot states : ℤ) ≤ 4 := by
      rw [← hlimit]
      exact hwithin.promote
    exact ⟨s, p, plan, states, hrun, hcase, hwalks, hle⟩
  · rw [hcase] at hact
    cases hact

end GlobalScan

end MemoryOptimizer
