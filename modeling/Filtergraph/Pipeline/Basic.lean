import Filtergraph.Dict
import Filtergraph.Toml.Value

/-!
# Pipelines

A pipeline is what a user writes down: media files and operations under names, the
operations that end the graph, what is sent to the output, and where that goes. Names are
declared before they are used. Of a media file, `name:stream` refers to one stream.
-/

namespace Filtergraph

/-- A media file under a name. -/
structure InputDecl where
  name : String
  path : String
  /-- How many seconds are read. -/
  duration : Option Double := none
  /-- The second at which reading starts. -/
  offset : Option Double := none
  looped : Bool := false

/-- An operation under a name. -/
structure NodeDecl where
  name : String
  /-- The kind of operation, by its name in the catalogue. -/
  filter : String
  /-- What it reads, in order. -/
  inputs : List String := []
  /-- Active from this second on. -/
  since : Option Double := none
  /-- Active up to this second. -/
  till : Option Double := none
  /-- Active under this condition; it wins over the seconds. -/
  condition : Option String := none
  params : Dict Toml.Value := .empty

/-- Something that is sent to the output. -/
structure MapDecl where
  /-- The name of a media file or of an operation. -/
  origin : String
  /-- Which stream of the media file. -/
  stream : Option String := none
deriving DecidableEq

/-- A pipeline as it is written down. -/
structure Pipeline where
  /-- Where the output goes. -/
  output : String
  /-- Arguments in front of the destination. -/
  options : List String := []
  /-- The operations that end the graph; without any, the last declared one does. -/
  roots : List String := []
  inputs : List InputDecl := []
  nodes : List NodeDecl := []
  maps : List MapDecl := []

/-! ## Equality

Pipelines are compared with numbers as numbers, so a pipeline that holds something that is
not a number differs from itself. -/

/-- Equality of optional numbers. -/
def secondsAgree : Option Double → Option Double → Bool
  | none, none => true
  | some x, some y => x.agrees y
  | _, _ => false

/-- Equality of declared media files. -/
def InputDecl.agrees (a b : InputDecl) : Bool :=
  a.name == b.name && a.path == b.path && secondsAgree a.duration b.duration
    && secondsAgree a.offset b.offset && a.looped == b.looped

/-- Equality of declared operations. -/
def NodeDecl.agrees (a b : NodeDecl) : Bool :=
  a.name == b.name && a.filter == b.filter && a.inputs == b.inputs
    && secondsAgree a.since b.since && secondsAgree a.till b.till
    && a.condition == b.condition && Toml.entriesAgree a.params.entries b.params.entries

/-- Equality of lists, item by item. -/
def listsAgree {α : Type} (agree : α → α → Bool) : List α → List α → Bool
  | [], [] => true
  | a :: as, b :: bs => agree a b && listsAgree agree as bs
  | _, _ => false

/-- Equality of pipelines. -/
def Pipeline.agrees (a b : Pipeline) : Bool :=
  a.output == b.output && a.options == b.options && a.roots == b.roots
    && listsAgree InputDecl.agrees a.inputs b.inputs
    && listsAgree NodeDecl.agrees a.nodes b.nodes && a.maps == b.maps

end Filtergraph
