import Filtergraph.Toml.Quoting
import Filtergraph.Toml.Value

/-!
# Writing a TOML document

In a table the plain values come first, one to a line. Sub-tables and arrays of tables
follow as sections with a header, each after a blank line. A table that holds nothing but
sections needs no header of its own; an empty table does.

A list of more than one item has each item on a line of its own. Tables inside a list or
inside another inline value are written inline.
-/

namespace Filtergraph.Toml

/-- A float, with `.0` after whole numbers. -/
def floatChars (x : Double) : List Char :=
  match x with
  | .nan => ['n', 'a', 'n']
  | x => x.text.toList ++ if x.isWhole then ['.', '0'] else []

/-- The items of a list, each on a line of its own. -/
def spread (items : List (List Char)) : List Char :=
  '[' :: items.flatMap (fun item => "\n    ".toList ++ item ++ [',']) ++ ['\n', ']']

/-- A list of items that are already written. -/
def listChars : List (List Char) → List Char
  | [] => ['[', ']']
  | [item] => '[' :: item ++ [']']
  | items => spread items

/-- An inline table of entries that are already written. -/
def inlineTableChars : List (List Char) → List Char
  | [] => ['\x7b', '\x7d']
  | first :: rest =>
    '\x7b' :: ' ' :: first ++ rest.flatMap (fun e => ',' :: ' ' :: e) ++ [' ', '\x7d']

mutual

/-- A value in the place of a plain value. -/
def Value.chars : Value → List Char
  | .string s => stringChars s.toList
  | .integer i => (intText i.toInt).toList
  | .float x => floatChars x
  | .boolean b => if b then "true".toList else "false".toList
  | .dateTime d => d.chars
  | .array items => listChars (itemsChars items)
  | .table entries => inlineTableChars (entriesChars entries)

/-- The items of a list, written one by one. -/
def itemsChars : List Value → List (List Char)
  | [] => []
  | item :: rest => item.chars :: itemsChars rest

/-- The entries of an inline table, written one by one. -/
def entriesChars : List (String × Value) → List (List Char)
  | [] => []
  | (key, value) :: rest => (keyChars key ++ " = ".toList ++ value.chars) :: entriesChars rest

end

/-- The plain values of a table, one to a line. -/
def plainLines (entries : Entries) : List Char :=
  entries.flatMap fun (key, value) =>
    if value.isSection then [] else keyChars key ++ " = ".toList ++ value.chars ++ ['\n']

/-- Keys with points between them. -/
def pathChars : List String → List Char
  | [] => []
  | [key] => keyChars key
  | key :: rest => keyChars key ++ '.' :: pathChars rest

/-- The header of a table, after a blank line. -/
def tableHeader (path : List String) : List Char := '\n' :: '[' :: pathChars path ++ [']', '\n']

/-- The header of one table of an array, after a blank line. -/
def itemHeader (path : List String) : List Char :=
  '\n' :: '[' :: '[' :: pathChars path ++ [']', ']', '\n']

/-- Whether a table is shown by a header of its own. -/
def hasHeader (entries : Entries) : Bool :=
  entries.isEmpty || entries.any fun (_, value) => !value.isSection

mutual

/-- The sections that a value at `path` is written as; none for a plain value. -/
def Value.sections (path : List String) : Value → List Char
  | .table entries =>
    (if hasHeader entries then tableHeader path else []) ++ plainLines entries
      ++ entrySections path entries
  | .array items => itemSections path items
  | _ => []

/-- The sections inside a table at `path`. -/
def entrySections (path : List String) : List (String × Value) → List Char
  | [] => []
  | (key, value) :: rest =>
    (if value.isSection then value.sections (path ++ [key]) else []) ++ entrySections path rest

/-- The sections of an array of tables at `path`. -/
def itemSections (path : List String) : List Value → List Char
  | [] => []
  | .table entries :: rest =>
    itemHeader path ++ plainLines entries ++ entrySections path entries ++ itemSections path rest
  | _ :: rest => itemSections path rest

end

/-- The document of a table that starts with a plain value. -/
def document (entries : Entries) : String :=
  String.ofList (plainLines entries ++ entrySections [] entries)

end Filtergraph.Toml
