import Filtergraph.Catalogue
import Filtergraph.Command
import Filtergraph.Pipeline.Basic

/-!
# Building the graph of a pipeline

Media files and operations become nodes in the order in which they are declared. A reference
finds only what was declared before, so the graph has no cycles. All references to the same
stream of the same file share one selector.
-/

namespace Filtergraph

/-- What a name stands for. -/
inductive Declared where
  | input (id : NodeId)
  | node (id : NodeId)
deriving DecidableEq

/-- The node behind a name. -/
def Declared.id : Declared → NodeId
  | input id => id
  | node id => id

/-- A graph under construction. -/
structure Site where
  graph : Graph := {}
  /-- The names declared so far. -/
  names : List (String × Declared) := []
  /-- The selectors made so far. -/
  selectors : List ((NodeId × Stream) × NodeId) := []

/-- A step of construction; after an error nothing is left to go on with. -/
abbrev Construct := StateT Site (Except PipelineError)

namespace Construct

/-- Edits the graph. -/
def edit {α : Type} (e : Edit α) : Construct α := fun s =>
  match e s.graph with
  | .ok a g => .ok (a, { s with graph := g })
  | .error err _ => .error (.graph err)

/-- Gives a node its name. -/
def declare (name : String) (d : Declared) : Construct Unit := do
  if name = "" ∨ ':' ∈ name.toList then throw (.invalidStream name)
  let s ← get
  match s.names.lookup name with
  | some _ => throw (.duplicateName name)
  | none => set { s with names := s.names ++ [(name, d)] }

/-- A number of seconds as a duration. -/
def seconds (name : String) (x : Double) : Construct Duration :=
  match Duration.ofSeconds? x with
  | some d => return d
  | none => throw (.invalidTime name x)

/-- A number of seconds, if one is given. -/
def seconds? (name : String) : Option Double → Construct (Option Duration)
  | none => return none
  | some x => do
    let d ← seconds name x
    return some d

/-- Adds a declared media file. -/
def addInput (d : InputDecl) : Construct Unit := do
  let duration ← seconds? d.name d.duration
  let offset ← seconds? d.name d.offset
  let id ← edit (Graph.addSource { path := d.path, offset, duration, looped := d.looped })
  declare d.name (.input id)

/-- The selector of a stream of a media file, made when it is first asked for. -/
def selector (source : NodeId) (stream : Stream) : Construct NodeId := do
  let s ← get
  match s.selectors.lookup (source, stream) with
  | some id => return id
  | none =>
    let id ← edit (Graph.selectStream source stream)
    modify fun s => { s with selectors := s.selectors ++ [((source, stream), id)] }
    return id

/-- The part before the first colon, and the part after it if there is one. -/
def splitReference (reference : String) : String × Option String :=
  let cs := reference.toList
  match cs.dropWhile (· ≠ ':') with
  | [] => (reference, none)
  | _ :: stream => (String.ofList (cs.takeWhile (· ≠ ':')), some (String.ofList stream))

/-- The node that a reference means. -/
def resolve (reference : String) : Construct NodeId := do
  let s ← get
  match splitReference reference with
  | (name, none) =>
    match s.names.lookup name with
    | some d => return d.id
    | none => throw (.unknownName name)
  | (name, some streamText) =>
    match s.names.lookup name with
    | some (.input source) =>
      match Stream.parse? streamText with
      | some stream => selector source stream
      | none => throw (.invalidStream reference)
    -- only media files have streams to choose from
    | some (.node _) => throw (.invalidStream reference)
    | none => throw (.unknownName name)

/-- The nodes that a list of references means, in order. -/
def resolveAll : List String → Construct (List NodeId)
  | [] => return []
  | reference :: rest => do
    let id ← resolve reference
    let ids ← resolveAll rest
    return id :: ids

end Construct

namespace NodeDecl

/-- A parameter value as text. -/
def paramText (d : NodeDecl) (key : String) : Toml.Value → Except PipelineError String
  | .string s => .ok s
  | .integer i => .ok (intText i.toInt)
  | .float x => .ok x.text
  | .boolean b => .ok (if b then "true" else "false")
  | _ => .error (.invalidParameter d.filter key .notScalar)

/-- The texts of parameter values, or the error of the first that has none. -/
def paramTexts (d : NodeDecl) :
    List (String × Toml.Value) → Except PipelineError (List (String × String))
  | [] => .ok []
  | (key, v) :: rest => do
    let text ← d.paramText key v
    let texts ← d.paramTexts rest
    return (key, text) :: texts

/-- The operation that is asked for. -/
def operation (d : NodeDecl) : Except PipelineError Operation := do
  let texts ← d.paramTexts d.params.entries
  Catalogue.create d.filter (.ofList texts)

/-- Refuses seconds that are below zero or no finite number. -/
def checkTime (d : NodeDecl) : Option Double → Except PipelineError Unit
  | none => .ok ()
  | some x => if x.isFinite && x.isNonnegative then .ok () else .error (.invalidTime d.name x)

/-- The gate that is asked for. -/
def gate? (d : NodeDecl) : Except PipelineError (Option Gate) :=
  if d.since.isNone && d.till.isNone && d.condition.isNone then .ok none
  else do
    d.checkTime d.since
    d.checkTime d.till
    return some { expression := d.condition, since := d.since, till := d.till }

end NodeDecl

namespace Construct

/-- Adds a declared operation. -/
def addNode (d : NodeDecl) : Construct Unit := do
  let operation ← d.operation
  let inputs ← resolveAll d.inputs
  let id ← match operation with
    | .filter f => edit (Graph.addFilter f inputs)
    | .merge => edit (Graph.addMerge inputs)
  match ← d.gate? with
  | some gate => edit (Graph.setGate id gate)
  | none => pure ()
  -- the name comes last, so no operation can read itself
  declare d.name (.node id)

end Construct

namespace Site

/-- The operation of that name. -/
def node (s : Site) (name : String) : Except PipelineError NodeId :=
  match s.names.lookup name with
  | some (.node id) => .ok id
  | some (.input _) => .error (.notANode name)
  | none => .error (.unknownName name)

/-- A result about the graph as a result about the pipeline. -/
def ofGraph {α : Type} : Except GraphError α → Except PipelineError α
  | .ok a => .ok a
  | .error e => .error (.graph e)

/-- The mapping of something that is sent to the output. -/
def mapping (s : Site) (d : MapDecl) : Except PipelineError Mapping :=
  match s.names.lookup d.origin, d.stream with
  | some (.input id), none => ofGraph (Mapping.ofStream s.graph id .first)
  | some (.input id), some text =>
    match Stream.parse? text with
    | some stream => ofGraph (Mapping.ofStream s.graph id stream)
    | none => .error (.invalidStream (d.origin ++ ":" ++ text))
  | some (.node _), some text => .error (.invalidStream (d.origin ++ ":" ++ text))
  | some (.node id), none => ofGraph (Mapping.ofNode s.graph id)
  | none, _ => .error (.unknownName d.origin)

/-- The nodes of a list of names, or the first error. -/
def nodes (s : Site) : List String → Except PipelineError (List NodeId)
  | [] => .ok []
  | name :: rest => do
    let id ← s.node name
    let ids ← s.nodes rest
    return id :: ids

/-- The mappings of a list of declarations, or the first error. -/
def mappings (s : Site) : List MapDecl → Except PipelineError (List Mapping)
  | [] => .ok []
  | d :: rest => do
    let m ← s.mapping d
    let ms ← s.mappings rest
    return m :: ms

end Site

/-- A graph that is ready to be compiled. -/
structure Blueprint where
  graph : Graph
  roots : List NodeId
  job : Job
  /-- The names that were declared, in order. -/
  names : List (String × Declared)

/-- The node behind a name. -/
def Blueprint.node? (b : Blueprint) (name : String) : Option NodeId :=
  (b.names.lookup name).map Declared.id

namespace Pipeline

/-- Adds all that is declared. -/
def construct (p : Pipeline) : Construct Unit := do
  p.inputs.forM Construct.addInput
  p.nodes.forM Construct.addNode

/-- The names of the operations that end the graph. -/
def rootNames (p : Pipeline) : List String :=
  if p.roots.isEmpty then (p.nodes.getLast?.map NodeDecl.name).toList else p.roots

/-- Builds the graph. -/
def build (p : Pipeline) : Except PipelineError Blueprint := do
  if p.nodes.isEmpty then throw .noNodes
  let ((), s) ← p.construct {}
  let roots ← s.nodes p.rootNames
  let mappings ← s.mappings p.maps
  return {
    graph := s.graph
    roots
    job := ⟨p.output, mappings, p.options⟩
    names := s.names }

end Pipeline

/-- Compiles the graph. -/
def Blueprint.compile (b : Blueprint) : Except PipelineError Command :=
  match b.job.compile b.roots b.graph with
  | .ok c _ => .ok c
  | .error e _ => .error (.graph e)

/-- Builds and compiles. -/
def Pipeline.compile (p : Pipeline) : Except PipelineError Command := do
  let b ← p.build
  b.compile

end Filtergraph
