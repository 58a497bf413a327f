import Filtergraph.Preparation
import Filtergraph.Schedule
import Filtergraph.Text

/-!
# Compiling a graph to a command

A job names the destination, the streams sent to it and further options. Compiling a graph
for a job gives the arguments of the media processor: the inputs, the filter graph, the
mappings, the options and the destination.

Compilation changes the graph: it adds selectors and splits and numbers the media files.
What it changed stays also when it ends with an error.
-/

namespace Filtergraph

/-- Where the output goes and what belongs to it. -/
structure Job where
  destination : String
  mappings : List Mapping := []
  /-- Arguments between the mappings and the destination. -/
  options : List String := []
deriving DecidableEq

/-- The arguments of the media processor, without its own name. -/
structure Command where
  args : List String
deriving DecidableEq

namespace Command

/-- The argument that follows the first flag of that name. -/
def valueOf? (flag : String) : List String → Option String
  | [] => none
  | arg :: rest => if arg = flag then rest.head? else valueOf? flag rest

/-- The filter graph of the command. -/
def filterComplex? (c : Command) : Option String := valueOf? "-filter_complex" c.args

/-- The command as a line for the shell. -/
def text (c : Command) : String := Shell.line c.args

end Command

/-- The label of what a mapping sends to the output. -/
def Mapping.target (g : Graph) : Mapping → Except GraphError Label
  | .stream source chosen =>
    match (g.source? source).bind Source.index with
    | some position => .ok (.input position chosen)
    | none => .error (.unnumberedSource source)
  | .output edge =>
    match g.kind? edge.node with
    | some (.split _) => .ok (.port edge.node edge.port)
    | some _ => .ok (.output edge.node)
    | none => .error (.nodeNotFound edge.node)

/-- The labels of a list of mappings, or the first error. -/
def mappingTargets (g : Graph) : List Mapping → Except GraphError (List Label)
  | [] => .ok []
  | m :: rest => do
    let target ← m.target g
    let targets ← mappingTargets g rest
    return target :: targets

/-- A label as a mapping names it: brackets mark what the filter graph defines. -/
def Label.argument : Label → String
  | .input position stream => (Label.input position stream).text
  | label => label.bracketed

/-- The arguments that send labels to the output. -/
def mappingArgs (targets : List Label) : List String :=
  targets.flatMap fun target => ["-map", target.argument]

/-- The arguments that hold the filter graph, if there is one. -/
def filterArgs (statements : List Statement) : List String :=
  if statements.isEmpty then [] else ["-filter_complex", expressionText statements]

/-- The arguments that open the inputs. -/
def inputArgs (g : Graph) (sources : List NodeId) : List String :=
  (sources.filterMap g.source?).flatMap Source.flags

/-- Checks roots and mappings, and gives the roots that no other root leads to. -/
def finalRoots (g : Graph) (mappings : List Mapping) (roots : List NodeId) :
    Except GraphError (List NodeId) := do
  if roots.isEmpty then throw .noRoots
  roots.forM fun root => (g.find root).map fun _ => ()
  mappings.forM (Mapping.check g)
  -- a root that others lead to ends nothing
  let readers ← Readers.build g roots.eraseDups
  return roots.eraseDups.filter fun root => readers.count root = 0

/-- What a graph compiles to, before it is written as arguments. -/
structure Program where
  /-- The media files that are opened, in order. -/
  sources : List NodeId
  /-- The filter graph. -/
  statements : List Statement
  /-- What is sent to the output, in the order of the mappings. -/
  targets : List Label
deriving DecidableEq

/-- The arguments of a program; the media files are those of the graph. -/
def Program.args (g : Graph) (p : Program) : List String :=
  inputArgs g p.sources ++ filterArgs p.statements ++ mappingArgs p.targets

/-- Turns the part of the graph that the roots lead to into a program. -/
def Job.program (job : Job) (roots : List NodeId) : Edit Program := do
  let roots ← consult (finalRoots · job.mappings roots)
  let (g, _) ← consult (insertSelectors · roots)
  set g
  let outlets ← insertSplits ⟨roots, job.mappings⟩
  -- selectors and splits have changed who reads what
  let readers ← consult (Readers.build · outlets.roots)
  let g ← get
  let sources := inputOrder g readers outlets.roots outlets.mappings
  set (g.numberFrom 0 sources)
  let statements ← consult fun g =>
    Plan.statements ⟨g, readers, outlets.mappings⟩ outlets.roots
  let targets ← consult (mappingTargets · outlets.mappings)
  return ⟨sources, statements, targets⟩

/-- Compiles the part of the graph that the roots lead to. -/
def Job.compile (job : Job) (roots : List NodeId) : Edit Command := do
  let program ← job.program roots
  let g ← get
  return ⟨program.args g ++ job.options ++ [job.destination]⟩

end Filtergraph
