import Filtergraph.Mapping
import Filtergraph.Readers

/-!
# Writing a graph as statements

A label has to be defined before it is read. So the graph is written from its end: nodes
are taken from a queue that starts with the roots, each statement is put in front of those
written so far, and an operation waits until it has been asked for once by each slot that
reads it. Then all its readers are written, and its own statement comes before theirs.

A statement takes in the whole chain above its operation: as long as the chain's upper end
has a single slot, and that slot is the only use of the operation it reads, the operation
joins the chain and needs no label.

At the end every port of every split must have been read exactly once, by the statements
and the mappings together.
-/

namespace Filtergraph

/-! ## Statements of a filter graph

A filter graph is written as a list of statements. A statement reads some labels, passes
them through a chain of stages, and defines the labels of what comes out. Two kinds of
labels belong to the graph: the one of a node with a single output, and one for each port
of a split. A third names a stream of an input file.
-/

/-- The name of a stream inside a filter graph. -/
inductive Label where
  /-- A stream of an input file. -/
  | input (position : Nat) (stream : Stream)
  /-- The output of a node. -/
  | output (node : NodeId)
  /-- One port of a split. -/
  | port (split : NodeId) (n : Nat)
deriving DecidableEq

/-- A label without its brackets. -/
def Label.text : Label → String
  | input position stream => natText position ++ ":" ++ stream.text
  | output node => "v" ++ natText node.index
  | port split n => "v" ++ natText split.index ++ "_" ++ natText n

/-- A label between its brackets. -/
def Label.bracketed (label : Label) : String := "[" ++ label.text ++ "]"

/-- One operation as a statement writes it. -/
inductive Stage where
  /-- A filter, with its gate. -/
  | filter (description : String)
  /-- A merge of that many streams. -/
  | merge (inputs : Nat)
  /-- A split into that many streams. -/
  | split (fanOut : Nat)
deriving DecidableEq

/-- The text of a stage. -/
def Stage.text : Stage → String
  | filter description => description
  | merge inputs => "amerge=inputs=" ++ natText inputs
  | split fanOut => if fanOut = 2 then "split" else "split=" ++ natText fanOut

/-- The stage of an operation; other nodes have none. -/
def Node.stage? (node : Node) : Option Stage :=
  match node.kind with
  | .filter filter none => some (.filter filter.description)
  | .filter filter (some gate) => some (.filter (gate.attach filter.description))
  | .merge => some (.merge node.inputs.length)
  | .split fanOut => some (.split fanOut)
  | .source _ => none
  | .selector _ => none

/-- A chain of stages between the labels it reads and those it defines. -/
structure Statement where
  inputs : List Label
  /-- The first stage is the one that reads the inputs. -/
  stages : List Stage
  outputs : List Label
deriving DecidableEq

/-- The text of a statement. -/
def Statement.text (s : Statement) : String :=
  String.join (s.inputs.map Label.bracketed) ++ ",".intercalate (s.stages.map Stage.text)
    ++ String.join (s.outputs.map Label.bracketed)

/-- The text of a filter graph. -/
def expressionText (statements : List Statement) : String :=
  ";".intercalate (statements.map Statement.text)

/-! ## Plans and their statements -/

/-- A graph with its readers and mappings, ready to be written. -/
structure Plan where
  graph : Graph
  readers : Readers
  mappings : List Mapping

namespace Plan

/-- How often a node is used: the slots and the mappings that read it. -/
def uses (p : Plan) (id : NodeId) : Nat :=
  p.readers.count id + p.mappings.countP (·.reads id)

/-- The label under which a slot finds what it reads. -/
def label (p : Plan) (edge : Edge) : Except GraphError Label :=
  match p.graph.node? edge.node with
  | none => .error (.nodeNotFound edge.node)
  | some producer =>
    match producer.kind with
    | .selector stream =>
      match producer.inputs with
      | [] => .error (.invalidInput edge.node .noSource)
      | source :: _ =>
        match (p.graph.source? source.node).bind Source.index with
        | some position => .ok (.input position stream)
        | none => .error (.unnumberedSource source.node)
    | .split _ => .ok (.port edge.node edge.port)
    | .filter _ _ => .ok (.output edge.node)
    | .merge => .ok (.output edge.node)
    | .source _ => .error (.unnumberedSource edge.node)

/-- The labels of a list of slots, or the first error. -/
def labels (p : Plan) : List Edge → Except GraphError (List Label)
  | [] => .ok []
  | edge :: rest => do
    let label ← p.label edge
    let labels ← p.labels rest
    return label :: labels

/-- The operations above `tail` that belong to its chain, the nearest first. -/
def chainAbove (p : Plan) : Nat → List NodeId → NodeId → List NodeId
  | 0, _, _ => []
  | fuel + 1, visited, tail =>
    match p.graph.inputs tail with
    | [edge] =>
      -- with a single use it needs no label and can stand right in front of its reader
      if edge.node ∉ visited ∧ p.graph.isOperation edge.node ∧ p.uses edge.node = 1 then
        edge.node :: p.chainAbove fuel (edge.node :: visited) edge.node
      else []
    | _ => []

/-- The labels that the statement of an operation defines. -/
def outputLabels (p : Plan) (id : NodeId) : List Label :=
  match p.graph.kind? id with
  | some (.split fanOut) => (List.range fanOut).map (.port id)
  | _ => if 0 < p.uses id then [.output id] else []

end Plan

/-- How far the writing has come. -/
structure Progress where
  queue : List NodeId
  /-- The operations asked for so far, once for each time. -/
  asked : List NodeId := []
  /-- The nodes dealt with. -/
  visited : List NodeId := []
  /-- The edges to splits that statements read, in the order of writing. -/
  portReads : List Edge := []
  /-- The splits that end a statement, in the order of writing. -/
  splits : List (NodeId × Nat) := []
  /-- The statements, in their final order. -/
  statements : List Statement := []
deriving DecidableEq

namespace Progress

/-- Whether an edge reads a port of a split. -/
def isPortRead (g : Graph) (edge : Edge) : Bool :=
  match g.kind? edge.node with
  | some (.split _) => true
  | _ => false

/-- Writes the statement that ends with the operation `id`. -/
def write (p : Plan) (s : Progress) (id : NodeId) : Except GraphError Progress := do
  let chain := id :: p.chainAbove p.graph.size (id :: s.visited) id
  -- the statement reads what its upper end reads
  let slots := p.graph.inputs (chain.getLastD id)
  let inputs ← p.labels slots
  let stages := (chain.reverse.filterMap p.graph.node?).filterMap Node.stage?
  return { s with
    queue := s.queue ++ slots.map Edge.node
    visited := chain ++ s.visited
    portReads := s.portReads ++ slots.filter (isPortRead p.graph)
    splits := s.splits ++ match p.graph.kind? id with
      | some (.split fanOut) => [(id, fanOut)]
      | _ => []
    statements := ⟨inputs, stages, p.outputLabels id⟩ :: s.statements }

/-- Takes one node from the queue. -/
def step (p : Plan) (s : Progress) : Except GraphError Progress :=
  match s.queue with
  | [] => .ok s
  | id :: queue =>
    let s := { s with queue }
    if id ∈ s.visited then .ok s
    else match p.graph.node? id with
      | none => .error (.nodeNotFound id)
      | some node =>
        if node.kind.isOperation then
          let s := { s with asked := id :: s.asked }
          -- only the last of its readers lets an operation be written, in front of them all
          if s.asked.count id < p.readers.count id then .ok s else write p s id
        else .ok { s with
          visited := id :: s.visited
          queue := s.queue ++ node.inputs.map Edge.node }

/-- Steps until the queue is empty. -/
def run (p : Plan) : Nat → Progress → Except GraphError Progress
  | 0, s => .ok s
  | fuel + 1, s =>
    match s.queue with
    | [] => .ok s
    | _ :: _ => do
      let s ← step p s
      run p fuel s

/-- A bound on the steps: the queue holds the roots, and each slot enters it once. -/
def bound (p : Plan) (roots : List NodeId) : Nat :=
  roots.length + (p.graph.nodes.toList.map fun node => node.inputs.length).foldr (· + ·) 0

end Progress

/-- Refuses a split with a port that is not read exactly once. -/
def checkSplit (reads : List Edge) (split : NodeId × Nat) : Except GraphError Unit :=
  let ports := (reads.filter (·.node = split.1)).map Edge.port
  -- a port that the split does not have is told before an uneven count
  match ports.find? (split.2 ≤ ·) with
  | some port => .error (.noSuchPort split.1 port)
  | none =>
    let counts := (List.range split.2).map fun port => ports.count port
    if counts.all (· = 1) then .ok () else .error (.unevenReads split.1 counts)

/-- The edges to splits that mappings read. -/
def Plan.mappedPorts (p : Plan) : List Edge :=
  p.mappings.filterMap fun
    | .stream _ _ => none
    | .output edge => if Progress.isPortRead p.graph edge then some edge else none

/-- The statements of a graph, producers before their readers. -/
def Plan.statements (p : Plan) (roots : List NodeId) : Except GraphError (List Statement) := do
  let s ← Progress.run p (Progress.bound p roots) { queue := roots }
  s.splits.forM (checkSplit (s.portReads ++ p.mappedPorts))
  return s.statements

end Filtergraph
