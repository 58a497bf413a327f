import Filtergraph.Filter
import Filtergraph.Media

/-!
# Nodes of a filter graph

A node is named by its position in the table of its graph, and reads other nodes through
its input slots. Media files and stream selectors only name streams. Filters, merges and
splits are the operations: they have text in a filter graph. A split is the one node with
several outputs, its ports.
-/

namespace Filtergraph

/-- Names a node by its position in the table. -/
structure NodeId where
  index : Nat
deriving DecidableEq

/-- The node as messages write it. -/
def NodeId.text (id : NodeId) : String := "NodeId(" ++ natText id.index ++ ")"

/-- What an input slot reads: an output port of a node. Only splits have ports past the first. -/
structure Edge where
  node : NodeId
  port : Nat := 0
deriving DecidableEq

/-- The role of a node. -/
inductive Kind where
  /-- A media file. It reads nothing. -/
  | source (source : Source)
  /-- One stream of a media file, the node's only input. -/
  | selector (stream : Stream)
  /-- A filter, active when its gate says so. -/
  | filter (filter : Filter) (gate : Option Gate)
  /-- Copies its only input to each of its ports. -/
  | split (fanOut : Nat)
  /-- Joins all its inputs into one audio stream. -/
  | merge
deriving DecidableEq

namespace Kind

/-- Whether the node has text in a filter graph. -/
def isOperation : Kind → Bool
  | source _ => false
  | selector _ => false
  | filter _ _ => true
  | split _ => true
  | merge => true

/-- Whether the node is a media file. -/
def isSource : Kind → Bool
  | source _ => true
  | _ => false

/-- Whether the node is an operation with a single output that anyone may read. -/
def isFilterOrMerge : Kind → Bool
  | filter _ _ => true
  | merge => true
  | _ => false

/-- A short name of the role, for messages. -/
def name : Kind → String
  | source _ => "source"
  | selector _ => "selector"
  | filter f _ => f.name
  | split _ => "split"
  | merge => "amerge"

end Kind

/-- A role and the slots that feed it, in order. -/
structure Node where
  kind : Kind
  inputs : List Edge
deriving DecidableEq

end Filtergraph
