import Filtergraph.Number

/-!
# Strings and keys of a TOML document

A string can be written in four ways: basic, where a backslash starts an escape; literal,
where every character stands for itself; and each of the two over several lines. The first
way that shows the text without escapes is taken. Where none does, the text is escaped. A
tab does not count in this choice, but the basic ways always write it as an escape.

The multi-line ways begin with a line break that does not count, but only when the text
itself has a line break.
-/

namespace Filtergraph.Toml

/-- Control characters. -/
def isControl (c : Char) : Bool := c.toNat < 0x20 || c.toNat == 0x7F

/-- Three of the same character in a row. -/
def hasTriple (q : Char) : List Char → Bool
  | a :: b :: c :: rest => (a = q && b = q && c = q) || hasTriple q (b :: c :: rest)
  | _ => false

/-- Whether some character can be shown by an escape only. Tabs and line breaks can stand for
themselves. -/
def needsEscape (cs : List Char) : Bool :=
  cs.any fun c => isControl c && c != '\t' && c != '\n'

/-- Four upper-case hexadecimal digits. -/
def hexFour (n : Nat) : List Char :=
  let digits := (Nat.toDigits 16 n).map Char.toUpper
  List.replicate (4 - digits.length) '0' ++ digits

/-- A character as a basic string writes it; quotes are for the caller. -/
def escapeChar (c : Char) : List Char :=
  if c = '\\' then ['\\', '\\']
  else if c = '\n' then ['\\', 'n']
  else if c = '\t' then ['\\', 't']
  else if c = '\r' then ['\\', 'r']
  else if c.toNat = 0x08 then ['\\', 'b']
  else if c.toNat = 0x0C then ['\\', 'f']
  else if isControl c then '\\' :: 'u' :: hexFour c.toNat
  else [c]

/-- The inside of an escaped one-line string. -/
def escapeLine (cs : List Char) : List Char :=
  cs.flatMap fun c => if c = '"' then ['\\', '"'] else escapeChar c

/-- The inside of an escaped string over several lines: line breaks stay, and of quotes in a
row every third is escaped. The first argument counts the quotes just written. -/
def escapeLines : Nat → List Char → List Char
  | _, [] => []
  | run, c :: rest =>
    if c = '"' then
      if run = 2 then '\\' :: '"' :: escapeLines 0 rest else '"' :: escapeLines (run + 1) rest
    else if c = '\n' then '\n' :: escapeLines 0 rest
    else escapeChar c ++ escapeLines 0 rest

/-- Text between three quotes on each side. -/
def tripleQuoted (q : Char) (newline : Bool) (inside : List Char) : List Char :=
  [q, q, q] ++ (if newline then ['\n'] else []) ++ inside ++ [q, q, q]

/-- Text between single quotes, where it stands for itself. -/
def literalQuoted (cs : List Char) : List Char := '\'' :: cs ++ ['\'']

/-- Text between double quotes, with its escapes. -/
def basicQuoted (cs : List Char) : List Char := '"' :: escapeLine cs ++ ['"']

/-- A string value. -/
def stringChars (cs : List Char) : List Char :=
  let escapes := needsEscape cs
  let newline := cs.contains '\n'
  let backslash := cs.contains '\\'
  if !escapes && !newline && !backslash && !cs.contains '"' then basicQuoted cs
  else if !escapes && !newline && !cs.contains '\'' then literalQuoted cs
  else if !escapes && !backslash && !hasTriple '"' cs then
    tripleQuoted '"' newline (escapeLines 0 cs)
  else if !escapes && !hasTriple '\'' cs then tripleQuoted '\'' newline cs
  else if newline then tripleQuoted '"' true (escapeLines 0 cs)
  else basicQuoted cs

/-- Characters of a key that needs no quotes. -/
def isBare (c : Char) : Bool := c.isAlphanum || c == '_' || c == '-'

/-- A key: bare if it can be, else basic or literal without escapes, else escaped. -/
def keyChars (key : String) : List Char :=
  let cs := key.toList
  let escapes := needsEscape cs || cs.contains '\n'
  if !cs.isEmpty && cs.all isBare then cs
  else if !escapes && !cs.contains '"' && !cs.contains '\\' then basicQuoted cs
  else if !escapes && !cs.contains '\'' then literalQuoted cs
  else basicQuoted cs

end Filtergraph.Toml
