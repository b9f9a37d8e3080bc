import MemoryOptimizer.Lib.SortedMap
import MemoryOptimizer.Lib.UntilStop
import MemoryOptimizer.Lib.Words
import MemoryOptimizer.Filter.AddressRangeFilter
import MemoryOptimizer.Filter.RangeSet
import MemoryOptimizer.Filter.Lookups
import MemoryOptimizer.AddrSequence.Basic
import MemoryOptimizer.AddrSequence.Layout
import MemoryOptimizer.AddrSequence.Walks
import MemoryOptimizer.AddrSequence.Update
import MemoryOptimizer.AddrSequence.Reference
import MemoryOptimizer.AddrSequence.Visit
import MemoryOptimizer.AddrSequence.Normalize
import MemoryOptimizer.Lib.Loops
import MemoryOptimizer.IdlePages.PageType
import MemoryOptimizer.Numa
import MemoryOptimizer.Migration.GlobalThreshold
import MemoryOptimizer.Migration.Histogram
import MemoryOptimizer.Migration.MemoryType
import MemoryOptimizer.Migration.HotnessDrift
import MemoryOptimizer.Migration.IntervalFitting
import MemoryOptimizer.Migration.FittingPool
import MemoryOptimizer.Migration.PlanDirection
import MemoryOptimizer.Migration.Scan
import MemoryOptimizer.Migration.Planner
import MemoryOptimizer.Migration.PlannerSteps
import MemoryOptimizer.Migration.PlannerBounds
import MemoryOptimizer.Migration.Thresholds
import MemoryOptimizer.Migration.Executor
import MemoryOptimizer.PmuRefs.Cmsk
import MemoryOptimizer.Lib.Chain
import MemoryOptimizer.PmuRefs.Table
import MemoryOptimizer.Lib.Descending
import MemoryOptimizer.PmuRefs.Interval
import MemoryOptimizer.PmuRefs.HotList
import MemoryOptimizer.Lib.Alignment
import MemoryOptimizer.IdlePages.Format
import MemoryOptimizer.IdlePages.Parse
import MemoryOptimizer.IdlePages.Totality
import MemoryOptimizer.IdlePages.Walk
import MemoryOptimizer.IdlePages.Counted
import MemoryOptimizer.IdlePages.ReadAhead
import MemoryOptimizer.IdlePages.AccessCounts
import MemoryOptimizer.IdlePages.CountsOnce
import MemoryOptimizer.Kernel.Encoder
import MemoryOptimizer.Kernel.Stream
import MemoryOptimizer.Lib.RangeWalk
import MemoryOptimizer.Kernel.EptWalk
import MemoryOptimizer.Kernel.PageWalk
import MemoryOptimizer.Kernel.Fill
import MemoryOptimizer.Kernel.SlotWalk
import MemoryOptimizer.Kernel.ReadLoop
import MemoryOptimizer.Kernel.ReadProtocol
import MemoryOptimizer.Kernel.Accesses
import MemoryOptimizer.Kernel.Bounds
import MemoryOptimizer.Lib.Holders
import MemoryOptimizer.Lib.RefCount
import MemoryOptimizer.Kernel.ProcFile
import MemoryOptimizer.Config.Options
import MemoryOptimizer.Numa.Collect
import MemoryOptimizer.Config.Parser
import MemoryOptimizer.Config.Reload
import MemoryOptimizer.Migration.MovePages
import MemoryOptimizer.Migration.MoveStats
import MemoryOptimizer.Lib.Batches
import MemoryOptimizer.Lib.Trips
import MemoryOptimizer.Migration.Interleave
import MemoryOptimizer.Migration.Hotness
import MemoryOptimizer.Migration.Barrier
import MemoryOptimizer.Lib.CountMin
import MemoryOptimizer.PmuRefs.Sketch
import MemoryOptimizer.Lib.Compact
import MemoryOptimizer.PmuRefs.MigrationState
import MemoryOptimizer.PmuRefs.Selection
import MemoryOptimizer.PmuRefs.MigratePages
import MemoryOptimizer.PmuRefs.Grouping
import MemoryOptimizer.Lib.Rounding
import MemoryOptimizer.Migration.MigrateCount
import MemoryOptimizer.Migration.Budget
import MemoryOptimizer.Migration.Conservation
import MemoryOptimizer.PmuRefs.Counts
import MemoryOptimizer.PmuRefs.Updates
import MemoryOptimizer.PmuRefs.PromoteTarget
import MemoryOptimizer.Migration.AntiThrashing
import MemoryOptimizer.Migration.MigrationCap
import MemoryOptimizer.Migration.PromoteBound
import MemoryOptimizer.Migration.Gathered
import MemoryOptimizer.Migration.MigratePeriod
import MemoryOptimizer.Migration.Profile
import MemoryOptimizer.Migration.MainLoop
import MemoryOptimizer.Lib.Cuts
import MemoryOptimizer.Process.SplitRanges
import MemoryOptimizer.AddrSequence.AllocFailure
import MemoryOptimizer.AddrSequence.Counters
import MemoryOptimizer.AddrSequence.CountsBelow
import MemoryOptimizer.Kernel.Reach
import MemoryOptimizer.Kernel.AccessLoss
import MemoryOptimizer.Kernel.ScanEnds
import MemoryOptimizer.PageRefs.AccountRefs
import MemoryOptimizer.PageRefs.SetIdle
import MemoryOptimizer.Migration.BandwidthLimit
import MemoryOptimizer.Numa.Peers
import MemoryOptimizer.Numa.Topology
import MemoryOptimizer.PmuRefs.FilterOption
import MemoryOptimizer.Kernel.NativeWalk
import MemoryOptimizer.Kernel.NativePageWalk
import MemoryOptimizer.Kernel.NativeFill
import MemoryOptimizer.Kernel.NativeCallbacks
import MemoryOptimizer.Kernel.NativeVmas
import MemoryOptimizer.Kernel.NativeRead
import MemoryOptimizer.PmuRefs.Rings
import MemoryOptimizer.PmuRefs.Sampler
import MemoryOptimizer.PmuRefs.Histogram
import MemoryOptimizer.PmuRefs.Origin
import MemoryOptimizer.PmuRefs.Batches
import MemoryOptimizer.PmuRefs.Hmd
import MemoryOptimizer.PmuRefs.HmdRuns
import MemoryOptimizer.Lib.Ledger
import MemoryOptimizer.Kernel.AccessLedger
import MemoryOptimizer.Kernel.KvmFile
