import Filtergraph.Dict
import Filtergraph.Toml.DateTime

/-!
# Values of a TOML document

A document is a table. The entries of a table that was read stand in the order in which the
document brings them up.
-/

namespace Filtergraph.Toml

/-- A value of a document. -/
inductive Value where
  | string (s : String)
  | integer (i : Int64)
  | float (x : Double)
  | boolean (b : Bool)
  | dateTime (d : DateTime)
  | array (items : List Value)
  | table (entries : List (String × Value))

/-- The entries of a table. -/
abbrev Entries := List (String × Value)

mutual

/-- Equality of values, in which numbers are compared as numbers. -/
def Value.agrees : Value → Value → Bool
  | .string a, .string b => a == b
  | .integer a, .integer b => a == b
  | .float a, .float b => a.agrees b
  | .boolean a, .boolean b => a == b
  | .dateTime a, .dateTime b => a == b
  | .array a, .array b => itemsAgree a b
  | .table a, .table b => entriesAgree a b
  | _, _ => false

/-- Equality of lists of values. -/
def itemsAgree : List Value → List Value → Bool
  | [], [] => true
  | a :: as, b :: bs => a.agrees b && itemsAgree as bs
  | _, _ => false

/-- Equality of tables. -/
def entriesAgree : List (String × Value) → List (String × Value) → Bool
  | [], [] => true
  | (k, a) :: as, (l, b) :: bs => k == l && a.agrees b && entriesAgree as bs
  | _, _ => false

end

/-- Whether the value is a table. -/
def Value.isTable : Value → Bool
  | .table _ => true
  | _ => false

/-- Whether the value is written as sections of its own: a table, or an array of tables only. -/
def Value.isSection : Value → Bool
  | .table _ => true
  | .array items => !items.isEmpty && items.all Value.isTable
  | _ => false

/-! ## Canonical values

In a canonical value the entries of every table stand in the order of their keys, so that the
order of a document does not matter any more. Before it is given up it decides one thing: a
table that opens with the reserved key of dates is a date, given by the text under that key.
What else such a table holds is not looked at.
-/

/-- The key under which a date shows itself when a table is wanted. -/
def dateKey : String := "$__toml_private_datetime"

/-- The date of a text. -/
def Value.asDate? : Value → Option Value
  | .string s => (DateTime.ofText? s).map .dateTime
  | _ => none

/-- Entries in the order of their keys. -/
def sortEntries (entries : Entries) : Entries :=
  entries.foldl (fun sorted e => insertEntry e.1 e.2 sorted) []

mutual

/-- The canonical form of a value; none if a date in it is no date. -/
def Value.canonical? : Value → Option Value
  | .array items => (canonicalItems? items).map .array
  | .table [] => some (.table [])
  | .table ((key, v) :: rest) =>
    if key = dateKey then v.asDate?
    else do
      let v ← v.canonical?
      let rest ← canonicalEntries? rest
      return .table (sortEntries ((key, v) :: rest))
  | v => some v

/-- The canonical forms of the items of a list. -/
def canonicalItems? : List Value → Option (List Value)
  | [] => some []
  | v :: rest => do
    let v ← v.canonical?
    let rest ← canonicalItems? rest
    return v :: rest

/-- The entries of a table with canonical values, in the order they have. -/
def canonicalEntries? : List (String × Value) → Option (List (String × Value))
  | [] => some []
  | (key, v) :: rest => do
    let v ← v.canonical?
    let rest ← canonicalEntries? rest
    return (key, v) :: rest

end

end Filtergraph.Toml
