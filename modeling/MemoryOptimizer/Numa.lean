import Mathlib.Data.Int.Notation
import Mathlib.Data.Nat.Notation

/-!
# NUMA nodes

What the planner and the migration read of `Numa.h`: which node ids are valid,
which nodes are persistent memory, and the peer a node's pages move to.  A
`NumaNode*` is the id of the node it points to.
-/

namespace MemoryOptimizer

/-- `enum numa_node_type`. -/
inductive NumaNodeType where
  | dram | pmem | last
  deriving DecidableEq, Repr

/-- `class NumaNode`. -/
structure NumaNode where
  id : ℕ
  type : NumaNodeType
  promoteTarget : Option ℕ
  demoteTarget : Option ℕ
  deriving DecidableEq, Repr

namespace NumaNode

def isPmem (node : NumaNode) : Bool := node.type = NumaNodeType.pmem

/-- `get_peer_node`. -/
def getPeerNode (node : NumaNode) : Option ℕ :=
  match node.type with
  | NumaNodeType.dram => node.demoteTarget
  | NumaNodeType.pmem => node.promoteTarget
  | NumaNodeType.last => none

end NumaNode

/-- `class NumaNodeCollection`: `node_map_`, with one entry for each of the
`nr_possible_node_` node ids. -/
structure NumaNodeCollection where
  nodeMap : List (Option NumaNode)
  deriving DecidableEq, Repr

namespace NumaNodeCollection

/-- `get_node`. -/
def getNode (numa : NumaNodeCollection) (nid : ℤ) : Option NumaNode :=
  if 0 ≤ nid then (numa.nodeMap[nid.toNat]?).join else none

/-- `is_valid_nid`. -/
def isValidNid (numa : NumaNodeCollection) (nid : ℤ) : Bool := (numa.getNode nid).isSome

/-- The node is a valid one of persistent memory. -/
def isPmemNid (numa : NumaNodeCollection) (nid : ℤ) : Bool :=
  (numa.getNode nid).any NumaNode.isPmem

/-- The node is a valid one of ordinary memory. -/
def isDramNid (numa : NumaNodeCollection) (nid : ℤ) : Bool :=
  (numa.getNode nid).any fun node => !node.isPmem

end NumaNodeCollection

end MemoryOptimizer
