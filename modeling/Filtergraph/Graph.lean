import Filtergraph.Change
import Filtergraph.Node

/-!
# Filter graphs

A graph is a table of nodes. Nodes are only ever added at the end, so a name stays good
for the life of the graph. The operations that build a graph run in `Edit`: each ends
with a result or an error and, in both cases, with the graph as it then is.
-/

namespace Filtergraph

/-- Why the inputs of a node are refused. -/
inductive InputFault where
  /-- A stream was asked of something that is not a media file. -/
  | notASource
  /-- Nodes of this role keep the input they were made with. -/
  | fixedWiring (role : String)
  /-- A slot that was seen to read `node` no longer does. -/
  | noSlotReading (node : NodeId)
  /-- A selector without a media file. -/
  | noSource
deriving DecidableEq

/-- Why a graph cannot be built or compiled as asked. -/
inductive GraphError where
  | nodeNotFound (node : NodeId)
  /-- The node reads itself, directly or through others. -/
  | cycle (node : NodeId)
  | invalidMapping (node : NodeId)
  | wrongArity (operation : String) (expected found : Nat)
  | invalidInput (node : NodeId) (fault : InputFault)
  | gateNotAccepted (node : NodeId)
  | noRoots
  | unnumberedSource (node : NodeId)
  /-- A port was read that the split does not have. -/
  | noSuchPort (split : NodeId) (port : Nat)
  /-- Some port of the split is not read exactly once; `reads` counts for each port. -/
  | unevenReads (split : NodeId) (reads : List Nat)
deriving DecidableEq

/-- The wording of an input fault. -/
def InputFault.message : InputFault → String
  | notASource => "stream selectors can only wrap a source"
  | fixedWiring role => "cannot rewire a " ++ role ++ " node"
  | noSlotReading node => "no input slot left reading " ++ node.text
  | noSource => "selector has no source"

/-- The wording of an error. -/
def GraphError.message : GraphError → String
  | nodeNotFound node => "node " ++ node.text ++ " not found"
  | cycle node => "cycle detected through node " ++ node.text
  | invalidMapping node => "node " ++ node.text ++ " cannot be used as an output mapping"
  | wrongArity operation expected found =>
    "operation '" ++ operation ++ "' expects " ++ natText expected ++ " input(s), found "
      ++ natText found
  | invalidInput node fault => "invalid input for node " ++ node.text ++ ": " ++ fault.message
  | gateNotAccepted node => "node " ++ node.text ++ " does not support timeline editing"
  | noRoots => "no root nodes given"
  | unnumberedSource node => "source " ++ node.text ++ " has no assigned input index"
  | noSuchPort split port => "split " ++ split.text ++ " has no port " ++ natText port
  | unevenReads split reads =>
    "split " ++ split.text ++ " port reads [" ++ ", ".intercalate (reads.map natText)
      ++ "] do not match its fan-out"

/-- A table of nodes. -/
structure Graph where
  nodes : Array Node := #[]
deriving DecidableEq

/-- A change to a graph. -/
abbrev Edit := Change GraphError Graph

namespace Graph

/-! ## Looking at a graph -/

/-- Number of nodes. -/
def size (g : Graph) : Nat := g.nodes.size

/-- The node of that name. -/
def node? (g : Graph) (id : NodeId) : Option Node := g.nodes[id.index]?

/-- The role of a node. -/
def kind? (g : Graph) (id : NodeId) : Option Kind := (g.node? id).map Node.kind

/-- The slots of a node; a missing node has none. -/
def inputs (g : Graph) (id : NodeId) : List Edge := ((g.node? id).map Node.inputs).getD []

/-- Whether the node exists and is an operation. -/
def isOperation (g : Graph) (id : NodeId) : Bool := (g.kind? id).any Kind.isOperation

/-- Whether the node exists and is a media file. -/
def isSource (g : Graph) (id : NodeId) : Bool := (g.kind? id).any Kind.isSource

/-- The media file of a source node. -/
def source? (g : Graph) (id : NodeId) : Option Source :=
  match g.kind? id with
  | some (.source s) => some s
  | _ => none

/-- The names of all nodes, in order. -/
def ids (g : Graph) : List NodeId := (List.range g.size).map NodeId.mk

/-- The node of that name, or the error that there is none. -/
def find (g : Graph) (id : NodeId) : Except GraphError Node :=
  match g.node? id with
  | some node => .ok node
  | none => .error (.nodeNotFound id)

/-- Edges to the given nodes, or the error of the first that is missing. -/
def edgesTo (g : Graph) : List NodeId → Except GraphError (List Edge)
  | [] => .ok []
  | id :: rest => do
    let _ ← g.find id
    let edges ← g.edgesTo rest
    return ⟨id, 0⟩ :: edges

/-! ## Changing the table -/

/-- The graph with one more node at the end, named `⟨g.size⟩`. -/
def push (g : Graph) (kind : Kind) (inputs : List Edge) : Graph :=
  ⟨g.nodes.push ⟨kind, inputs⟩⟩

/-- The graph with another node in that place. -/
def set (g : Graph) (id : NodeId) (node : Node) : Graph :=
  ⟨g.nodes.setIfInBounds id.index node⟩

/-- Points the first slot that reads `old` at `new`. -/
def redirectFirst (old : NodeId) (new : Edge) : List Edge → Option (List Edge)
  | [] => none
  | e :: es => if e.node = old then some (new :: es) else (redirectFirst old new es).map (e :: ·)

/-- Points the first slot of `consumer` that reads `old` at `new`; none if no slot reads it. -/
def redirect? (g : Graph) (consumer old : NodeId) (new : Edge) : Option Graph :=
  match g.node? consumer with
  | none => none
  | some node =>
    (redirectFirst old new node.inputs).map fun inputs => g.set consumer { node with inputs }

/-- Gives a media file its position among the inputs of the command. -/
def setIndex (g : Graph) (id : NodeId) (index : Nat) : Graph :=
  match g.node? id with
  | some ⟨.source s, inputs⟩ => g.set id ⟨.source { s with index := some index }, inputs⟩
  | _ => g

/-! ## Building a graph -/

/-- Adds a node and gives its name. -/
def add (kind : Kind) (inputs : List Edge) : Edit NodeId := fun g =>
  .ok ⟨g.size⟩ (g.push kind inputs)

/-- Adds a media file. -/
def addSource (s : Source) : Edit NodeId := add (.source s) []

/-- Adds a media file and a selector of its audio stream, and gives the selector. -/
def addAudioSource (s : Source) : Edit NodeId := do
  let source ← addSource s
  add (.selector .audio) [⟨source, 0⟩]

/-- Adds a selector of one stream of a media file. -/
def selectStream (source : NodeId) (stream : Stream) : Edit NodeId := do
  let node ← consult (·.find source)
  if node.kind.isSource then add (.selector stream) [⟨source, 0⟩]
  else throw (.invalidInput source .notASource)

/-- Refuses any number of inputs but the filter's own. -/
def checkArity (filter : Filter) (found : Nat) : Except GraphError Unit :=
  if filter.arity = found then .ok () else .error (.wrongArity filter.name filter.arity found)

/-- Refuses to merge fewer than two streams. -/
def checkMerge (found : Nat) : Except GraphError Unit :=
  if found < 2 then .error (.wrongArity Kind.merge.name 2 found) else .ok ()

/-- Adds a filter over the given nodes, without a gate. -/
def addFilter (filter : Filter) (inputs : List NodeId) : Edit NodeId := do
  consult fun _ => checkArity filter inputs.length
  let edges ← consult (·.edgesTo inputs)
  add (.filter filter none) edges

/-- Adds a merge over two or more nodes. -/
def addMerge (inputs : List NodeId) : Edit NodeId := do
  consult fun _ => checkMerge inputs.length
  let edges ← consult (·.edgesTo inputs)
  add .merge edges

/-- Attaches a gate to a filter that accepts one, in place of any earlier gate. -/
def setGate (id : NodeId) (gate : Gate) : Edit Unit := do
  let node ← consult (·.find id)
  match node.kind with
  | .filter filter _ =>
    if filter.acceptsGate then modify (·.set id { node with kind := .filter filter (some gate) })
    else throw (.gateNotAccepted id)
  | _ => throw (.gateNotAccepted id)

/-- Adds a filter and then attaches a gate to it. The filter stays if the gate is refused. -/
def addGatedFilter (filter : Filter) (gate : Gate) (inputs : List NodeId) : Edit NodeId := do
  let id ← addFilter filter inputs
  setGate id gate
  return id

/-- Whether a node of this kind may be given that many inputs. -/
def checkRewiring (id : NodeId) (kind : Kind) (found : Nat) : Except GraphError Unit :=
  match kind with
  | .filter filter _ => checkArity filter found
  | .merge => checkMerge found
  | _ => .error (.invalidInput id (.fixedWiring kind.name))

/-- Gives an operation other inputs. Cycles are not looked for here. -/
def setInputs (id : NodeId) (inputs : List NodeId) : Edit Unit := do
  let edges ← consult (·.edgesTo inputs)
  let node ← consult (·.find id)
  consult fun _ => checkRewiring id node.kind inputs.length
  modify (·.set id { node with inputs := edges })

end Graph

end Filtergraph
