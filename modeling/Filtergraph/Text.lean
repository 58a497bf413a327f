/-!
# Text that others read

Values are trimmed before they are read, and texts are written so that a reader gets them back:
the media processor an option, the shell a word, a program a list of strings in JSON.
-/

namespace Filtergraph

/-! ## Blanks

The characters that count as white space around a value, and their removal.
-/

/-- The characters with the Unicode property `White_Space`. -/
def isBlank (c : Char) : Bool :=
  let n := c.toNat
  (0x09 ≤ n && n ≤ 0x0D) || n == 0x20 || n == 0x85 || n == 0xA0 || n == 0x1680
    || (0x2000 ≤ n && n ≤ 0x200A) || n == 0x2028 || n == 0x2029 || n == 0x202F
    || n == 0x205F || n == 0x3000

/-- The text without the blanks at its two ends. -/
def trimBlanks (cs : List Char) : List Char :=
  ((cs.dropWhile isBlank).reverse.dropWhile isBlank).reverse

/-! ## Free text as the value of a filter option

Filter descriptions are read in two passes. The first removes quotes and splits the
description; the second reads each option value, where a backslash makes the next
character literal. Free text stands between single quotes, so that the first pass keeps
it whole, and what is special to the second pass is escaped inside. A single quote
cannot stand between quotes: it closes them, is escaped for both passes, and opens
them again.
-/

namespace OptionValue

/-- What one character of free text becomes. -/
def escapedChar (c : Char) : List Char :=
  if c = '\'' then ['\'', '\\', '\\', '\\', '\'', '\'']
  else if c = '\\' ∨ c = '"' ∨ c = '%' ∨ c = ':' then ['\\', c]
  else [c]

/-- Free text, escaped and between quotes. -/
def quoteChars (text : List Char) : List Char :=
  '\'' :: text.flatMap escapedChar ++ ['\'']

/-- Free text, escaped and between quotes. -/
def quote (text : String) : String :=
  String.ofList (quoteChars text.toList)

end OptionValue

/-! ## Words of a shell command line

A word made of unreserved characters is written as it is. Any other word, the empty one
included, stands between single quotes; a single quote inside it closes the quotes,
is written after a backslash, and opens them again.
-/

namespace Shell

/-- Characters that mean themselves everywhere in a command line. -/
def isUnreserved (c : Char) : Bool :=
  c.isAlphanum || "_-./:=,+@%".toList.contains c

/-- What one character becomes between single quotes. -/
def quotedChar (c : Char) : List Char :=
  if c = '\'' then ['\'', '\\', '\'', '\''] else [c]

/-- A word in a form that the shell reads back as that word. -/
def quoteChars (word : List Char) : List Char :=
  if !word.isEmpty && word.all isUnreserved then word
  else '\'' :: word.flatMap quotedChar ++ ['\'']

/-- A word in a form that the shell reads back as that word. -/
def quote (word : String) : String :=
  String.ofList (quoteChars word.toList)

/-- The words of a command, quoted where needed, with one space between them. -/
def line (words : List String) : String :=
  " ".intercalate (words.map quote)

end Shell

/-! ## Lists of strings in JSON

Quotes, backslashes and control characters are escaped; everything else stands for itself.
-/

namespace Json

/-- A character inside a string. -/
def escapeChar (c : Char) : List Char :=
  if c = '"' ∨ c = '\\' then ['\\', c]
  else if c = '\n' then ['\\', 'n']
  else if c = '\t' then ['\\', 't']
  else if c = '\r' then ['\\', 'r']
  else if c.toNat = 0x08 then ['\\', 'b']
  else if c.toNat = 0x0C then ['\\', 'f']
  else if c.toNat < 0x20 then
    ['\\', 'u', '0', '0', Nat.digitChar (c.toNat / 16), Nat.digitChar (c.toNat % 16)]
  else [c]

/-- A string between quotes. -/
def string (s : String) : String :=
  String.ofList ('"' :: s.toList.flatMap escapeChar ++ ['"'])

/-- A list of strings. -/
def strings (items : List String) : String :=
  "[" ++ ",".intercalate (items.map string) ++ "]"

end Json

end Filtergraph
