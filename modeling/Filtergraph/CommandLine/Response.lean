import Filtergraph.CommandLine.Request
import Filtergraph.Pipeline.Build
import Filtergraph.Pipeline.Library

/-!
# Responses

What is printed for a request, and the code with which the program ends: 0 when the request
is met, 1 when it fails, 2 when the words of the command line are misused. A failure is
reported with its causes, from the outermost to the innermost.
-/

namespace Filtergraph.CommandLine

/-! ## The catalogue in print

The list of all operations by category, and the page of one operation. Columns have a least
width and are filled with blanks.
-/

/-- A text filled with blanks up to a width. -/
def column (width : Nat) (text : String) : String :=
  text ++ String.ofList (List.replicate (width - text.length) ' ')

/-- Lines, each with its end. -/
def lines (items : List String) : String := String.join (items.map (· ++ "\n"))

/-- What a parameter is when it is not given. -/
def standing (p : Parameter) : String := p.default?.getD "(required)"

/-! ### All operations -/

/-- A parameter in the list. -/
def parameterItem (p : Parameter) : String :=
  "      " ++ column 14 p.name ++ " " ++ column 16 (standing p) ++ " " ++ p.summary

/-- An operation in the list, with its parameters. -/
def entryItems (e : Entry) : List String :=
  ("  " ++ column 15 e.id ++ " - " ++ e.summary ++ if e.acceptsGate then " [timeline]" else "")
    :: e.parameters.map parameterItem

/-- A category in the list. -/
def categoryItems (c : Category) : List String :=
  "" :: (c.name ++ ":") :: (Catalogue.inCategory c).flatMap entryItems

/-- The list of all operations. -/
def catalogueText : String :=
  lines (["Available Filters", "================="]
    ++ [Category.video, .audio, .composite].flatMap categoryItems
    ++ ["", "Use 'ffgraph filters <name>' for a single filter."])

/-! ### One operation -/

/-- A row of the parameter table. -/
def tableRow (name standing summary : String) : String :=
  "  " ++ column 14 name ++ "  " ++ column 16 standing ++ "  " ++ summary

/-- The parameter table. -/
def parameterTable (parameters : List Parameter) : List String :=
  if parameters.isEmpty then ["No parameters."]
  else
    tableRow "Name" "Default" "Description"
      :: tableRow "----" "-------" "-----------"
      :: parameters.map fun p => tableRow p.name (standing p) p.summary

/-- The category of an operation, and whether it can be gated. -/
def categoryLine (e : Entry) : String :=
  "Category: " ++ e.category.name
    ++ if e.acceptsGate then ", accepts since/until/enable" else ""

/-- The page of one operation. -/
def entryText (e : Entry) : String :=
  lines ([e.id, String.ofList (List.replicate e.id.length '='), "", e.summary, categoryLine e, ""]
    ++ parameterTable e.parameters)

/-! ## Responses -/

/-- What a run of the program shows. -/
structure Response where
  code : Nat
  output : String
  errors : String
deriving DecidableEq

/-! ## Reports -/

/-- A text whose further lines are set in. -/
def setIn (width : Nat) (text : String) : String :=
  String.ofList (text.toList.flatMap fun c =>
    if c = '\n' then c :: List.replicate width ' ' else [c])

/-- A cause with its number. -/
def numbered (n : Nat) (cause : String) : String :=
  let number := natText n
  String.ofList (List.replicate (5 - number.length) ' ') ++ number ++ ": " ++ setIn 7 cause

/-- The causes of a failure. A single one has no number. -/
def causeLines : List String → List String
  | [] => []
  | [cause] => ["", "Caused by:", "    " ++ setIn 4 cause]
  | causes => ["", "Caused by:"] ++ causes.mapIdx numbered

/-- The report of a failure and its causes. -/
def report (failure : String) (causes : List String) : String :=
  lines (("Error: " ++ failure) :: causeLines causes)

/-- The messages of an error and of what is behind it. -/
def causes (e : PipelineError) : List String := e.message :: e.cause?.toList

namespace Response

/-- The request is met. -/
def done (output : String) : Response := ⟨0, output, ""⟩

/-- The request fails. -/
def failed (failure : String) (causes : List String) : Response := ⟨1, "", report failure causes⟩

/-- The words of the command line are misused. -/
def misused : Response :=
  ⟨2, "", lines ["error: invalid arguments", "", "For more information, try '--help'."]⟩

end Response

/-! ## Answers -/

/-- The words of a command for a shell, or as JSON. -/
def commandText (c : Command) (json : Bool) : String :=
  lines [if json then Json.strings c.args else c.text]

/-- The answer to a request for a pipeline, given the path at which it was found and what was
read there. -/
def compileFile (path : String) (text : Except FileFault String) (json : Bool)
    (output : Option String) : Response :=
  match Pipeline.ofFile path text with
  | .error e => .failed ("failed to load pipeline " ++ path) (causes e)
  | .ok p =>
    match Pipeline.compile { p with output := output.getD p.output } with
    | .error e => .failed ("failed to compile pipeline " ++ path) (causes e)
    | .ok c => .done (commandText c json)

/-- The answer to a request for a pipeline that is nowhere. -/
def notFound (name : String) : Response :=
  .failed (PipelineError.pipelineNotFound name).message []

/-- The answer to a request for the catalogue. -/
def showFilters : Option String → Response
  | none => .done catalogueText
  | some id =>
    match Catalogue.find? id with
    | some entry => .done (entryText entry)
    | none => .failed ("Unknown filter: " ++ id) []

/-- The name and version of the program. -/
def versionText : String := lines ["ffgraph 0.1.0"]

/-- The text that explains the use. -/
def Topic.text : Topic → String
  | program => lines ["Filtergraph compiler CLI", "", "Usage: ffgraph <COMMAND>", "", "Commands:",
      "  compile  Compile a pipeline file and print the resulting command",
      "  filters  List available operation kinds and their parameters",
      "  help     Print this message or the help of the given subcommand(s)", "", "Options:",
      "  -h, --help     Print help", "  -V, --version  Print version"]
  | compile => lines ["Compile a pipeline file and print the resulting command", "",
      "Usage: ffgraph compile [OPTIONS] <PIPELINE>", "", "Arguments:",
      "  <PIPELINE>  Pipeline file, or the name of a pipeline in the user pipelines directory", "",
      "Options:", "      --json           Print the command as a JSON array of tokens",
      "  -o, --output <DEST>  Override the pipeline's output destination",
      "  -h, --help           Print help"]
  | filters => lines ["List available operation kinds and their parameters", "",
      "Usage: ffgraph filters [FILTER]", "", "Arguments:",
      "  [FILTER]  Show parameters for a specific operation kind", "", "Options:",
      "  -h, --help  Print help"]

/-! ## Runs -/

/-- The files that a run can see. -/
structure Disk (m : Type → Type) where
  isFile : String → m Bool
  readText : String → m (Except FileFault String)

/-- Answers the words of a command line. -/
def respond {m : Type → Type} [Monad m] (disk : Disk m) (env : Environment)
    (words : List String) : m Response := do
  match Request.ofWords? words with
  | none => return .misused
  | some .version => return .done versionText
  | some (.help topic) => return .done topic.text
  | some (.filters id) => return showFilters id
  | some (.compile name json output) =>
    match ← (Library.candidates env.pipelineDirectory name).findM? disk.isFile with
    | none => return notFound name
    | some path => return compileFile path (← disk.readText path) json output

/-- A file system as a run sees it. -/
def Disk.ofFileSystem (fs : FileSystem) : Disk Id where
  isFile path := fs.isFile path
  readText path := fs.readText path

/-- Runs the program on a file system. -/
def run (fs : FileSystem) (env : Environment) (words : List String) : Response :=
  (respond (Disk.ofFileSystem fs) env words).run

end Filtergraph.CommandLine
