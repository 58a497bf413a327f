import Filtergraph.Pipeline.Basic
import Filtergraph.Pipeline.Error
import Filtergraph.Toml.Value
import Filtergraph.Toml.Printer
import Filtergraph.Toml.Reader

/-!
# Pipelines as documents

How a pipeline is written as a TOML document and read back. Writing leaves out what has its
default, except for the lists of media files and operations, which always appear. Reading
ignores keys that mean nothing here; the declarations may also be given as lists with their
fields in order.
-/

namespace Filtergraph

open Toml (Value Entries)

/-! ## Writing -/

/-- An entry for a value that may be absent. -/
def entryIf {α : Type} (key : String) (encode : α → Value) : Option α → Entries
  | none => []
  | some a => [(key, encode a)]

/-- A list of strings. -/
def stringList (items : List String) : Value := .array (items.map .string)

/-- An entry for a list that is left out when it is empty. -/
def entryIfAny (key : String) (items : List Value) : Entries :=
  if items.isEmpty then [] else [(key, .array items)]

/-- The table of a media file. -/
def InputDecl.toEntries (d : InputDecl) : Entries :=
  [("name", .string d.name), ("path", .string d.path)]
    ++ entryIf "duration" .float d.duration ++ entryIf "offset" .float d.offset
    ++ if d.looped then [("loop", .boolean true)] else []

/-- The table of an operation. -/
def NodeDecl.toEntries (d : NodeDecl) : Entries :=
  [("name", .string d.name), ("filter", .string d.filter), ("inputs", stringList d.inputs)]
    ++ entryIf "since" .float d.since ++ entryIf "until" .float d.till
    ++ entryIf "enable" .string d.condition
    ++ if d.params.isEmpty then [] else [("params", .table d.params.entries)]

/-- The table of something that is sent to the output. -/
def MapDecl.toEntries (d : MapDecl) : Entries :=
  ("from", .string d.origin) :: entryIf "stream" .string d.stream

/-- The table of a pipeline. -/
def Pipeline.toEntries (p : Pipeline) : Entries :=
  [("output", .string p.output)]
    ++ entryIfAny "output_options" (p.options.map .string)
    ++ entryIfAny "roots" (p.roots.map .string)
    ++ [("inputs", .array (p.inputs.map fun d => .table d.toEntries)),
        ("nodes", .array (p.nodes.map fun d => .table d.toEntries))]
    ++ entryIfAny "maps" (p.maps.map fun d => .table d.toEntries)

/-- The document of a pipeline. -/
def Pipeline.toToml (p : Pipeline) : String := Toml.document p.toEntries

/-! ## Reading -/

/-- A string. -/
def asString? : Value → Option String
  | .string s => some s
  | _ => none

/-- A truth value. -/
def asBool? : Value → Option Bool
  | .boolean b => some b
  | _ => none

/-- A number; a whole number will do. -/
def asNumber? : Value → Option Double
  | .float x => some x
  | .integer i => some (.ofInt i.toInt)
  | _ => none

/-- A list, each item read in the same way. -/
def asList? {α : Type} (item? : Value → Option α) : Value → Option (List α)
  | .array items => items.mapM item?
  | _ => none

/-- A table of parameters, their values in canonical form. A date in its place shows as one
parameter. -/
def asParams? : Value → Option (Dict Value)
  | .table entries => (Toml.canonicalEntries? entries).map .ofList
  | .dateTime d => some (.ofList [(Toml.dateKey, .string (String.ofList d.chars))])
  | _ => none

/-- The fields of a declaration: by name in a table, by position in a list. -/
structure Fields where
  get? : String → Nat → Option Value

/-- The fields of a table or list. -/
def Fields.of? : Value → Option Fields
  | .table entries => some ⟨fun key _ => lookupEntry key entries⟩
  | .array items => some ⟨fun _ position => items[position]?⟩
  | .dateTime _ => some ⟨fun _ _ => none⟩
  | _ => none

namespace Fields

/-- A field that has to be there. -/
def required? {α : Type} (f : Fields) (read? : Value → Option α) (key : String) (position : Nat) :
    Option α :=
  (f.get? key position).bind read?

/-- A field with a default. -/
def withDefault? {α : Type} (f : Fields) (read? : Value → Option α) (default : α) (key : String)
    (position : Nat) : Option α :=
  match f.get? key position with
  | none => some default
  | some v => read? v

/-- A field that may be absent. -/
def optional? {α : Type} (f : Fields) (read? : Value → Option α) (key : String) (position : Nat) :
    Option (Option α) :=
  match f.get? key position with
  | none => some none
  | some v => (read? v).map some

end Fields

/-- A declared media file. -/
def InputDecl.ofValue? (v : Value) : Option InputDecl := do
  let f ← Fields.of? v
  return {
    name := ← f.required? asString? "name" 0
    path := ← f.required? asString? "path" 1
    duration := ← f.optional? asNumber? "duration" 2
    offset := ← f.optional? asNumber? "offset" 3
    looped := ← f.withDefault? asBool? false "loop" 4 }

/-- A declared operation. -/
def NodeDecl.ofValue? (v : Value) : Option NodeDecl := do
  let f ← Fields.of? v
  return {
    name := ← f.required? asString? "name" 0
    filter := ← f.required? asString? "filter" 1
    inputs := ← f.withDefault? (asList? asString?) [] "inputs" 2
    since := ← f.optional? asNumber? "since" 3
    till := ← f.optional? asNumber? "until" 4
    condition := ← f.optional? asString? "enable" 5
    params := ← f.withDefault? asParams? .empty "params" 6 }

/-- Something that is sent to the output. -/
def MapDecl.ofValue? (v : Value) : Option MapDecl := do
  let f ← Fields.of? v
  return {
    origin := ← f.required? asString? "from" 0
    stream := ← f.optional? asString? "stream" 1 }

/-- The pipeline of a table. -/
def Pipeline.ofEntries? (entries : Entries) : Option Pipeline := do
  let f : Fields := ⟨fun key _ => lookupEntry key entries⟩
  return {
    output := ← f.required? asString? "output" 0
    options := ← f.withDefault? (asList? asString?) [] "output_options" 1
    roots := ← f.withDefault? (asList? asString?) [] "roots" 2
    inputs := ← f.withDefault? (asList? InputDecl.ofValue?) [] "inputs" 3
    nodes := ← f.withDefault? (asList? NodeDecl.ofValue?) [] "nodes" 4
    maps := ← f.withDefault? (asList? MapDecl.ofValue?) [] "maps" 5 }

/-- The pipeline of a document. -/
def Pipeline.ofToml (text : String) : Except PipelineError Pipeline :=
  match (Toml.parse? text).bind Pipeline.ofEntries? with
  | some p => .ok p
  | none => .error .malformed

end Filtergraph
