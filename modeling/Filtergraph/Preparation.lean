import Filtergraph.Mapping
import Filtergraph.Readers

/-!
# Preparing a graph

Before a graph can be written as text it is changed three times. Media files get selectors, what
is used more than once gets a split, and the media files that are left are numbered.
-/

namespace Filtergraph

/-! ## Reading media files through selectors

A statement of a filter graph can only name a stream of a file, not the file. So before a
graph is written out, every operation that reads a file directly is made to read the first
stream of it instead. All operations that read the same file share one selector.
-/

/-- Makes the operations among the readers of `key` read it through a new selector, if `key`
is a media file and there are any. The second component counts the selectors. -/
def readThroughSelector (readers : Readers) (state : Graph × Nat) (key : NodeId) : Graph × Nat :=
  let (g, added) := state
  let users := (readers.of key).filter g.isOperation
  if g.isSource key && !users.isEmpty then
    let selector : Edge := ⟨⟨g.size⟩, 0⟩
    let g := g.push (.selector .first) [⟨key, 0⟩]
    -- a user is listed once for each of its slots, and all of them are moved
    (users.foldl (fun g user => (g.redirect? user key selector).getD g) g, added + 1)
  else (g, added)

/-- Adds the selectors that the operations reachable from the roots need, and counts them. -/
def insertSelectors (g : Graph) (roots : List NodeId) : Except GraphError (Graph × Nat) := do
  let readers ← Readers.build g roots
  return readers.producers.foldl (readThroughSelector readers) (g, 0)

/-! ## Splitting what is used twice

A label of a filter graph may be read once. So a node with several uses gets a split behind
it, with one port for each use: first the slots that read the node, in the order of
discovery, then the mappings that name it, in their own order. A root that gets a split is
replaced by it, since the split is now the end of the graph there.

Media files are read through their streams as often as one likes, and a split is sized once
and for all: neither is ever split.
-/

/-- What refers to a graph from outside: where it ends, and what is sent to the output. -/
structure Outlets where
  roots : List NodeId
  mappings : List Mapping
deriving DecidableEq

namespace Outlets

/-- How many mappings read a node. -/
def mapped (o : Outlets) (id : NodeId) : Nat := o.mappings.countP (·.reads id)

/-- Points the mappings that read `id` at the ports of `split`, from `port` on. -/
def retarget (id split : NodeId) : Nat → List Mapping → List Mapping
  | _, [] => []
  | port, m :: rest =>
    if m.reads id then .output ⟨split, port⟩ :: retarget id split (port + 1) rest
    else m :: retarget id split port rest

/-- Refuses mappings of operations that are neither roots nor read by anything. -/
def checkReached (readers : Readers) (o : Outlets) : Except GraphError Unit :=
  o.mappings.forM fun
    | .stream _ _ => .ok ()
    | .output edge =>
      if 0 < readers.count edge.node ∨ edge.node ∈ o.roots then .ok ()
      else .error (.invalidMapping edge.node)

end Outlets

/-- Points the first slot of each consumer that reads `id` at the next port of `split`. -/
def takePorts (id split : NodeId) : Nat → List NodeId → Edit Unit
  | _, [] => pure ()
  | port, consumer :: rest => do
    let g ← get
    match g.redirect? consumer id ⟨split, port⟩ with
    | none => throw (.invalidInput consumer (.noSlotReading id))
    | some g => set g
    takePorts id split (port + 1) rest

/-- Whether nodes of this kind are split when they have several uses. -/
def Kind.isSplittable : Kind → Bool
  | .source _ => false
  | .split _ => false
  | _ => true

/-- Puts a split behind `id` if it has at least two uses. -/
def splitIfShared (readers : Readers) (o : Outlets) (id : NodeId) : Edit Outlets := do
  let g ← get
  let fanOut := readers.count id + o.mapped id
  if (g.kind? id).any Kind.isSplittable && 2 ≤ fanOut then
    let split ← Graph.add (.split fanOut) [⟨id, 0⟩]
    takePorts id split 0 (readers.of id)
    return {
      roots := o.roots.map fun root => if root = id then split else root
      -- the slots have taken the first ports
      mappings := Outlets.retarget id split (readers.count id) o.mappings }
  else return o

/-- Puts a split behind every node with several uses. -/
def insertSplits (o : Outlets) : Edit Outlets := do
  let readers ← consult (Readers.build · o.roots)
  consult fun _ => o.checkReached readers
  -- the roots come last: nothing reads them, but mappings may
  (readers.producers ++ o.roots).foldlM (splitIfShared readers) o

/-! ## The order of inputs

Every media file that is reached from the roots or named by a mapping becomes an input of
the command, once. Files come in the order in which they are discovered: those that are
read, then those that are roots themselves, then those that only a mapping names.
-/

/-- The media files that the command opens, in order. -/
def inputOrder (g : Graph) (readers : Readers) (roots : List NodeId) (mappings : List Mapping) :
    List NodeId :=
  ((readers.producers ++ roots ++ mappings.filterMap Mapping.source?).filter g.isSource).eraseDups

/-- Gives each file of the list its position in it. -/
def Graph.numberFrom (g : Graph) : Nat → List NodeId → Graph
  | _, [] => g
  | position, id :: rest => (g.setIndex id position).numberFrom (position + 1) rest

end Filtergraph
