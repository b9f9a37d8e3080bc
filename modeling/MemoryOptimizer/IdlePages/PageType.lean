import Mathlib.Algebra.Group.Nat.Defs

/-!
# Page types

`enum ProcIdlePageType`, shared by the kernel module (`ept_idle.h`) and the
scanner (`ProcIdlePages.h`), with the tables indexed by it.
-/

namespace MemoryOptimizer

/-- `enum ProcIdlePageType`. -/
inductive ProcIdlePageType where
  | pteAccessed | pmdAccessed | pudPresent
  | pteDirty | pmdDirty
  | pteIdle | pmdIdle | pmdIdlePtes
  | pteHole | pmdHole
  | pipCmd
  deriving DecidableEq, Repr

namespace ProcIdlePageType

/-- The value of the enumerator. -/
def code : ProcIdlePageType → ℕ
  | pteAccessed => 0
  | pmdAccessed => 1
  | pudPresent => 2
  | pteDirty => 3
  | pmdDirty => 4
  | pteIdle => 5
  | pmdIdle => 6
  | pmdIdlePtes => 7
  | pteHole => 8
  | pmdHole => 9
  | pipCmd => 10

/-- `pagetype_shift`. -/
def shift : ProcIdlePageType → ℕ
  | pteAccessed | pteDirty | pteIdle | pteHole => 12
  | pmdAccessed | pmdDirty | pmdIdle | pmdIdlePtes | pmdHole => 21
  | pudPresent => 30
  | pipCmd => 0

/-- `pagetype_size`. -/
def size : ProcIdlePageType → ℕ
  | pteAccessed | pteDirty | pteIdle | pteHole => 2 ^ 12
  | pmdAccessed | pmdDirty | pmdIdle | pmdIdlePtes | pmdHole => 2 ^ 21
  | pudPresent => 2 ^ 30
  | pipCmd => 0

/-- `pagetype_batchsize`. -/
def batchSize : ProcIdlePageType → ℕ
  | pteAccessed | pteDirty | pteIdle | pteHole => 1024
  | pmdAccessed | pudPresent => 2
  | pmdDirty | pmdIdle | pmdIdlePtes | pmdHole => 128
  | pipCmd => 0

end ProcIdlePageType

end MemoryOptimizer
