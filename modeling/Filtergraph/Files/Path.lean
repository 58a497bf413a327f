/-!
# Paths

A path is text with slashes between its pieces. Empty pieces and single dots say nothing,
except that an empty first piece stands for the root and a first dot for the current
directory. What a path names is read off its last telling piece.
-/

namespace Filtergraph.Path

/-- The pieces of a text between slashes; there is always at least one. -/
def splitChars : List Char → List (List Char)
  | [] => [[]]
  | c :: cs =>
    if c = '/' then [] :: splitChars cs
    else
      match splitChars cs with
      | [] => [[c]]
      | piece :: rest => (c :: piece) :: rest

/-- The pieces of a path. -/
def pieces (path : String) : List String := (splitChars path.toList).map String.ofList

/-- Whether the path starts at the root. -/
def isAbsolute (path : String) : Bool := path.toList.head? == some '/'

/-- Whether a piece says nothing unless it comes first. -/
def isIdle (piece : String) : Bool := piece == "" || piece == "."

/-- Drops idle pieces at the end; the first piece stays. The pieces come last one first. -/
def dropIdle : List String → List String
  | piece :: before :: rest =>
    if isIdle piece then dropIdle (before :: rest) else piece :: before :: rest
  | pieces => pieces

/-- The telling pieces, last one first. -/
def tellingPieces (path : String) : List String := dropIdle (pieces path).reverse

/-- The text of pieces that are given last one first. -/
def ofPieces : List String → String
  | [""] => "/"
  | pieces => "/".intercalate pieces.reverse

/-- A path below a directory. A path that starts at the root stays as it is. -/
def join (directory path : String) : String :=
  if isAbsolute path || directory == "" then path
  else if directory.toList.getLast? == some '/' then directory ++ path
  else directory ++ "/" ++ path

/-- The path without its last telling piece; none for the root and the empty path. -/
def parent? (path : String) : Option String :=
  match tellingPieces path with
  | [] => none
  | [""] => none
  | [_] => some ""
  | _ :: before => some (ofPieces (dropIdle before))

/-- The name of what the path leads to. -/
def fileName? (path : String) : Option String :=
  match tellingPieces path with
  | [] => none
  | piece :: _ => if isIdle piece || piece == ".." then none else some piece

/-- The parts of a name before and after its last dot. A dot at the start does not count. -/
def splitName (name : String) : String × Option String :=
  let cs := name.toList.reverse
  match cs.dropWhile (· ≠ '.') with
  | [] => (name, none)
  | [_] => (name, none)
  | _ :: stem =>
    (String.ofList stem.reverse, some (String.ofList (cs.takeWhile (· ≠ '.')).reverse))

/-- The name without its extension. -/
def stem? (path : String) : Option String := (fileName? path).map fun name => (splitName name).1

/-- The extension of the name. -/
def extension? (path : String) : Option String :=
  (fileName? path).bind fun name => (splitName name).2

end Filtergraph.Path
