import Filtergraph.Graph

/-!
# Who reads a node

A walk from the roots of a graph over its input slots, depth first, records every slot it
passes: which node is read, and by whom. The record is kept in the order of discovery, and
the questions asked of it are views: the readers of a node, one for each slot, and the
nodes that are read at all, in the order in which they were first seen.

The walk keeps its own stack. A frame is a node and the slots of it that are still to be
passed. A node that is read while it stands on the stack reads itself, and the walk ends
with that error.
-/

namespace Filtergraph

/-- One input slot: who reads whom. -/
structure Read where
  producer : NodeId
  consumer : NodeId
deriving DecidableEq

/-- The slots reachable from some roots, in the order of discovery. -/
structure Readers where
  reads : List Read := []
deriving DecidableEq

namespace Readers

/-- The readers of a node, one entry for each slot. -/
def of (r : Readers) (id : NodeId) : List NodeId :=
  (r.reads.filter (·.producer = id)).map Read.consumer

/-- How many slots read a node. -/
def count (r : Readers) (id : NodeId) : Nat := (r.of id).length

/-- The nodes that some slot reads, in the order of discovery. -/
def producers (r : Readers) : List NodeId := (r.reads.map Read.producer).eraseDups

end Readers

/-- A node on the stack and those of its slots that were not yet passed. -/
structure Frame where
  node : NodeId
  pending : List Edge
deriving DecidableEq

/-- The state of a walk. -/
structure Walk where
  /-- Nodes being walked, the innermost first. -/
  stack : List Frame := []
  /-- Nodes all of whose slots were passed. -/
  finished : List NodeId := []
  /-- Slots passed so far, the latest first. -/
  reads : List Read := []
deriving DecidableEq

namespace Walk

/-- Passes one slot of the innermost node, or leaves that node if it has none left. -/
def step (g : Graph) (w : Walk) : Except GraphError Walk :=
  match w.stack with
  | [] => .ok w
  | ⟨node, []⟩ :: outer => .ok { w with stack := outer, finished := node :: w.finished }
  | ⟨node, edge :: pending⟩ :: outer =>
    match g.node? edge.node with
    | none => .error (.nodeNotFound edge.node)
    | some producer =>
      let stack : List Frame := ⟨node, pending⟩ :: outer
      let reads : List Read := ⟨edge.node, node⟩ :: w.reads
      -- what is on the stack is still being walked, so this slot closes a cycle
      if stack.any (·.node = edge.node) then .error (.cycle edge.node)
      else if edge.node ∈ w.finished then .ok { w with stack, reads }
      else .ok { w with stack := ⟨edge.node, producer.inputs⟩ :: stack, reads }

/-- Steps until the stack is empty. -/
def run (g : Graph) : Nat → Walk → Except GraphError Walk
  | 0, w => .ok w
  | fuel + 1, w =>
    match w.stack with
    | [] => .ok w
    | _ :: _ => do
      let w ← w.step g
      w.run g fuel

/-- A bound on the steps of a walk: each slot is passed once and each node left once. -/
def bound (g : Graph) : Nat :=
  (g.nodes.toList.map fun node => node.inputs.length + 1).foldr (· + ·) 0

/-- Walks from one more root. -/
def addRoot (g : Graph) (w : Walk) (root : NodeId) : Except GraphError Walk :=
  match g.node? root with
  | none => .error (.nodeNotFound root)
  | some node =>
    if root ∈ w.finished then .ok w
    else run g (bound g) { w with stack := [⟨root, node.inputs⟩] }

end Walk

/-- The slots reachable from the roots, or the error of a missing node or a cycle. -/
def Readers.build (g : Graph) (roots : List NodeId) : Except GraphError Readers := do
  let w ← roots.foldlM (Walk.addRoot g) {}
  return ⟨w.reads.reverse⟩

end Filtergraph
