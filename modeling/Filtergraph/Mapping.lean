import Filtergraph.Graph

/-!
# Output mappings

A mapping sends one stream to the output of the command: a stream of a media file, or
what an operation puts out.
-/

namespace Filtergraph

/-- What is sent to the output. -/
inductive Mapping where
  /-- A stream of a media file. -/
  | stream (source : NodeId) (stream : Stream)
  /-- An output of an operation. -/
  | output (edge : Edge)
deriving DecidableEq

namespace Mapping

/-- Whether the mapping reads an output of that node. -/
def reads (m : Mapping) (id : NodeId) : Bool :=
  match m with
  | .stream _ _ => false
  | .output edge => edge.node = id

/-- The media file of a stream mapping. -/
def source? : Mapping → Option NodeId
  | .stream source _ => some source
  | .output _ => none

/-- The first stream of a media file, or the output of a filter or merge. -/
def ofNode (g : Graph) (id : NodeId) : Except GraphError Mapping := do
  let node ← g.find id
  if node.kind.isSource then return .stream id .first
  else if node.kind.isFilterOrMerge then return .output ⟨id, 0⟩
  else throw (.invalidMapping id)

/-- One stream of a media file. -/
def ofStream (g : Graph) (source : NodeId) (stream : Stream) : Except GraphError Mapping := do
  let node ← g.find source
  if node.kind.isSource then return .stream source stream
  else throw (.invalidMapping source)

/-- Refuses a mapping whose node is missing or of the wrong kind. -/
def check (g : Graph) : Mapping → Except GraphError Unit
  | .stream source _ => do
    let node ← g.find source
    if node.kind.isSource then return () else throw (.invalidMapping source)
  | .output edge => do
    let node ← g.find edge.node
    if node.kind.isFilterOrMerge then return () else throw (.invalidMapping edge.node)

end Mapping

end Filtergraph
