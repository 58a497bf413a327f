import Filtergraph.Dict
import Filtergraph.Toml.Value

/-!
# Putting a document together

The lines of a document name tables in three ways: by a header, as a part of a longer
header, and as a part of a dotted key. How a table came about decides who may still add to
it. A table is given by a header once, and a dotted key only extends tables that dotted
keys made. Values, inline tables and lists among them, are closed.

Entries stand in the order in which their keys come up. A header for a table that was only
implied so far brings the table up anew, so it moves to the end.
-/

namespace Filtergraph.Toml

/-- How a table came about. -/
inductive Origin where
  /-- By a header of its own. -/
  | header
  /-- As a part of the path of a header. -/
  | implied
  /-- As a part of a dotted key. -/
  | dotted
deriving DecidableEq

/-- What a key stands for while the document is put together. -/
inductive Item where
  | value (v : Value)
  | table (origin : Origin) (entries : List (String × Item))
  /-- An array of tables, each given by a header of its own. -/
  | series (tables : List (List (String × Item)))

/-- The entries of a table that is being put together. -/
abbrev Items := List (String × Item)

mutual

/-- The finished value. -/
def Item.toValue : Item → Value
  | .value v => v
  | .table _ entries => .table (finish entries)
  | .series tables => .array (finishAll tables)

/-- The finished entries of a table. -/
def finish : List (String × Item) → Entries
  | [] => []
  | (key, item) :: rest => (key, item.toValue) :: finish rest

/-- The finished tables of an array. -/
def finishAll : List (List (String × Item)) → List Value
  | [] => []
  | entries :: rest => .table (finish entries) :: finishAll rest

end

/-- Sets a key: in its place if it has one, else at the end. -/
def setEntry (key : String) (item : Item) : Items → Items
  | [] => [(key, item)]
  | (k, old) :: rest => if k = key then (key, item) :: rest else (k, old) :: setEntry key item rest

/-- Sets a key at the end, wherever it was before. -/
def setLast (key : String) (item : Item) (entries : Items) : Items :=
  entries.filter (fun e => e.1 ≠ key) ++ [(key, item)]

/-- Changes the table at the end of a path; tables on the way that do not exist yet are made.
Of an array of tables the path enters the last. `origin` is how the starting table came about. -/
def descend (dotted : Bool) (change : Origin → Items → Option Items) :
    List String → Origin → Items → Option Items
  | [], origin, entries => change origin entries
  | key :: path, _, entries =>
    match lookupEntry key entries with
    | none =>
      let made : Origin := if dotted then .dotted else .implied
      (descend dotted change path made []).map fun inner =>
        setEntry key (.table made inner) entries
    | some (.value _) => none
    | some (.table origin inner) =>
      -- a table with a header of its own is closed to dotted keys
      if dotted ∧ origin = .header then none
      else (descend dotted change path origin inner).map fun inner =>
        setEntry key (.table origin inner) entries
    | some (.series tables) =>
      match tables.getLast? with
      | none => none
      | some last =>
        (descend dotted change path .header last).map fun last =>
          setEntry key (.series (tables.dropLast ++ [last])) entries

/-- Sets a key that is not there yet. A table that a dotted key leads to must itself be one
that dotted keys made. -/
def setFresh (dotted : Bool) (key : String) (v : Value) (origin : Origin) (entries : Items) :
    Option Items :=
  if dotted ∧ origin ≠ .dotted ∨ ¬ dotted ∧ origin = .dotted then none
  else match lookupEntry key entries with
    | some _ => none
    | none => some (setEntry key (.value v) entries)

/-- Sets the value at a dotted key below a table. -/
def assign (path : List String) (v : Value) (entries : Items) : Option Items :=
  match path.getLast? with
  | none => none
  | some key =>
    descend true (setFresh (1 < path.length) key v) path.dropLast .header entries

/-- Opens a table by its header: a new one, or one that was only implied so far. -/
def openTable (path : List String) (entries : Items) : Option Items :=
  match path.getLast? with
  | none => none
  | some key =>
    descend false (fun _ entries =>
      match lookupEntry key entries with
      | none => some (setEntry key (.table .header []) entries)
      -- its header is here, so it moves to the end
      | some (.table .implied inner) => some (setLast key (.table .header inner) entries)
      | some _ => none) path.dropLast .header entries

/-- Opens one more table of an array. -/
def openItem (path : List String) (entries : Items) : Option Items :=
  match path.getLast? with
  | none => none
  | some key =>
    descend false (fun _ entries =>
      match lookupEntry key entries with
      | none => some (setEntry key (.series [[]]) entries)
      | some (.series tables) => some (setEntry key (.series (tables ++ [[]])) entries)
      | some _ => none) path.dropLast .header entries

/-- A line of a document, comments and blank lines aside. -/
inductive Line where
  | assign (path : List String) (v : Value)
  | table (path : List String)
  | item (path : List String)

/-- A document being put together, and the table that assignments go to. -/
structure Draft where
  entries : Items := []
  current : List String := []

/-- Adds a line. -/
def Draft.add (d : Draft) : Line → Option Draft
  | .assign path v =>
    (descend false (fun _ => Toml.assign path v) d.current .header d.entries).map fun entries =>
      { d with entries }
  | .table path => (openTable path d.entries).map fun entries => ⟨entries, path⟩
  | .item path => (openItem path d.entries).map fun entries => ⟨entries, path⟩

/-- The table that the lines of a document describe. -/
def assemble (lines : List Line) : Option Entries :=
  (lines.foldlM Draft.add {}).map fun d => finish d.entries

/-- The value of an inline table. -/
def inlineTable (assignments : List (List String × Value)) : Option Value :=
  (assignments.foldlM (fun entries (path, v) => assign path v entries) []).map fun entries =>
    .table (finish entries)

end Filtergraph.Toml
