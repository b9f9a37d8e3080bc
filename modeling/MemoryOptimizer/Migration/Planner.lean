import MemoryOptimizer.Lib.Loops
import MemoryOptimizer.Migration.Scan

/-!
# The planner

`GlobalScan::calc_migrate_parameter` with `init_migration_parameter` and
`anti_thrashing`.  It sweeps a hot threshold down and a cold threshold up over
the histograms of all ranges, until the two limits are used up.

Reading a bin outside its row is undefined behaviour in the source and `none`
here.  The two limits come from `calc_migrate_count`, which works on the totals
of the system; here they are parameters.
-/

namespace MemoryOptimizer

open ProcIdlePageType

/-- `struct migrate_parameter`. -/
structure MigrateParameter where
  hotThreshold : ℤ
  hotThresholdMax : ℤ
  nrPromote : ℤ
  promoteRemain : ℤ
  coldThreshold : ℤ
  coldThresholdMin : ℤ
  nrDemote : ℤ
  demoteRemain : ℤ
  enabled : Bool
  disableReason : String
  deriving DecidableEq, Repr

namespace MigrateParameter

def enable (p : MigrateParameter) : MigrateParameter :=
  { p with enabled := true, disableReason := "None" }

def disable (p : MigrateParameter) (reason : String) : MigrateParameter :=
  { p with enabled := false, disableReason := reason }

end MigrateParameter

namespace GlobalScan

/-- What the planner is given besides the histograms. -/
structure PlanConfig where
  nrWalks : ℕ
  promoteLimitKb : ℤ
  demoteLimitKb : ℤ
  antiThrashThreshold : ℤ
  inAdjustRatioStage : Bool

/-- The planner's variables; `notices` records the parameters that
`anti_thrashing` altered (its NOTICE lines). -/
structure Plan where
  parameter : ℕ → ProcIdlePageType → MigrateParameter
  promoteCountKb : ℤ
  demoteCountKb : ℤ
  notices : List (ℕ × ProcIdlePageType)

/-- The types the planner looks at. -/
def plannedTypes : List ProcIdlePageType := [pteAccessed, pmdAccessed]

/-- `init_migration_parameter`. -/
def initMigrationParameter (nrWalks : ℕ) : MigrateParameter :=
  { hotThreshold := nrWalks + 1
    hotThresholdMax := nrWalks + 1
    nrPromote := 0
    promoteRemain := 0
    coldThreshold := -1
    coldThresholdMin := -1
    nrDemote := 0
    demoteRemain := 0
    enabled := false
    disableReason := "No HOT/COLD pages" }

/-- `refs_count[loc][i]`. -/
def readBin (h : Histogram2d) (loc : ℕ) (i : ℤ) : Option ℕ :=
  if 0 ≤ i then (h loc)[i.toNat]? else none

section Planner

variable (cfg : PlanConfig)

/-- The adjustment `anti_thrashing` makes: move the threshold that is free to
move, and take the remaining count from the bin it now points at. -/
def adjustThreshold (h : Histogram2d) (p : MigrateParameter) : Option MigrateParameter :=
  if p.hotThreshold = cfg.nrWalks then do
    let cold := max (p.hotThreshold - cfg.antiThrashThreshold) 0
    let count ← readBin h refLocDram cold
    pure { p with coldThreshold := cold, demoteRemain := min count p.nrDemote }
  else do
    let hot := min (p.coldThreshold + cfg.antiThrashThreshold) cfg.nrWalks
    let count ← readBin h refLocPmem hot
    pure { p with hotThreshold := hot, promoteRemain := min count p.nrPromote }

/-- `anti_thrashing`; the flag tells whether it altered the parameter. -/
def antiThrashing (h : Histogram2d) (p : MigrateParameter) : Option (MigrateParameter × Bool) :=
  if p.coldThreshold < 0 ∨ p.hotThreshold > cfg.nrWalks then some (p, false)
  else if p.hotThreshold - p.coldThreshold ≥ cfg.antiThrashThreshold then some (p, false)
  else do
    let adjusted ← adjustThreshold cfg h p
    -- the source compares the thresholds from before the adjustment once more
    if p.hotThreshold - p.coldThreshold < cfg.antiThrashThreshold then
      pure (adjusted.disable "fail to anti-thrashing", true)
    else pure (adjusted, true)

/-- The first half of the loop body: select hot pages. -/
def selectHotPage (h : Histogram2d) (shift : ℕ) (hotThreshold : ℤ) (p : MigrateParameter)
    (promoteCountKb : ℤ) : Option (MigrateParameter × ℤ) :=
  if promoteCountKb ≥ cfg.promoteLimitKb then some (p, promoteCountKb)
  else if hotThreshold ≤ 0 then some (p, promoteCountKb)
  else do
    let count ← readBin h refLocPmem hotThreshold
    if count = 0 then pure (p, promoteCountKb)
    else
      let nrKb : ℤ := min (count * 2 ^ shift : ℤ) (cfg.promoteLimitKb - promoteCountKb)
      let nrPage := nrKb / 2 ^ shift
      let p := { p with
        nrPromote := p.nrPromote + nrPage
        promoteRemain := nrPage
        hotThreshold := hotThreshold
        hotThresholdMax := cfg.nrWalks }
      pure (p.enable, promoteCountKb + nrKb)

/-- The second half of the loop body: select cold pages. -/
def selectColdPage (h : Histogram2d) (shift : ℕ) (coldThreshold : ℤ) (p : MigrateParameter)
    (demoteCountKb : ℤ) : Option (MigrateParameter × ℤ × Bool) :=
  if demoteCountKb ≥ cfg.demoteLimitKb then some (p, demoteCountKb, false)
  else if coldThreshold ≥ cfg.nrWalks then some (p, demoteCountKb, false)
  else do
    let count ← readBin h refLocDram coldThreshold
    if count = 0 then pure (p, demoteCountKb, false)
    else if !p.enabled && p.nrDemote ≠ 0 then pure (p, demoteCountKb, false)
    else
      let nrKb : ℤ := min (count * 2 ^ shift : ℤ) (cfg.demoteLimitKb - demoteCountKb)
      let nrPage := nrKb / 2 ^ shift
      let p := { p with
        nrDemote := p.nrDemote + nrPage
        demoteRemain := nrPage
        coldThreshold := coldThreshold
        coldThresholdMin := 0 }
      let p := p.enable
      let (p, altered) ←
        if cfg.inAdjustRatioStage then pure (p, false) else antiThrashing cfg h p
      pure (p, demoteCountKb + nrKb, altered)

/-- One iteration of the three loops. -/
def visit (ranges : List EPTMigrate) (i r : ℕ) (plan : Plan) (type : ProcIdlePageType) :
    Option Plan := do
  let range ← ranges[r]?
  let h := (range.pagetypeRefs type).histogram2d
  let shift := type.shift - 10
  let (p, promoteCountKb) ←
    selectHotPage cfg h shift (cfg.nrWalks - i) (plan.parameter r type) plan.promoteCountKb
  let (p, demoteCountKb, altered) ← selectColdPage cfg h shift i p plan.demoteCountKb
  pure
    { parameter := Function.update plan.parameter r
        (Function.update (plan.parameter r) type p)
      promoteCountKb := promoteCountKb
      demoteCountKb := demoteCountKb
      notices := if altered then (r, type) :: plan.notices else plan.notices }

/-- The loops over the ranges and the types, for one `i`. -/
def sweep (ranges : List EPTMigrate) (plan : Plan) (i : ℕ) : Option Plan :=
  (List.range ranges.length).foldlM
    (fun plan r => plannedTypes.foldlM (visit cfg ranges i r) plan) plan

/-- `calc_migrate_parameter`. -/
def calcMigrateParameter (ranges : List EPTMigrate) : Option Plan :=
  (List.range (cfg.nrWalks + 1)).foldlM (sweep cfg ranges)
    { parameter := fun _ _ => initMigrationParameter cfg.nrWalks
      promoteCountKb := 0
      demoteCountKb := 0
      notices := [] }

end Planner

end GlobalScan

end MemoryOptimizer
