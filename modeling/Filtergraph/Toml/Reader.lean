import Filtergraph.Toml.Quoting
import Filtergraph.Toml.Tree

/-!
# Reading a TOML document

Each reader takes what it reads off the front of the text and gives the rest. Loops are
bounded by the length of the text: every round takes at least one character. Lists and
inline tables may be nested up to a fixed depth, which bounds the recursion of values.
-/

namespace Filtergraph.Toml

/-! ## Blanks, line breaks and comments -/

/-- Blanks within a line. -/
def isSpace (c : Char) : Bool := c == ' ' || c == '\t'

/-- Drops blanks within the line. -/
def skipSpaces (cs : List Char) : List Char := cs.dropWhile isSpace

/-- Characters that may stand for themselves in comments and literal strings. -/
def isShown (c : Char) : Bool := c == '\t' || !isControl c

/-- A line break. -/
def newline? : List Char → Option (List Char)
  | '\n' :: rest => some rest
  | '\r' :: '\n' :: rest => some rest
  | _ => none

/-- Drops a comment, but not the line break after it. -/
def skipComment : List Char → List Char
  | '#' :: rest => rest.dropWhile isShown
  | cs => cs

/-- The end of a line: blanks, a comment, and a line break or the end of the text. -/
def lineEnd? (cs : List Char) : Option (List Char) :=
  match skipComment (skipSpaces cs) with
  | [] => some []
  | rest => newline? rest

/-- Drops blanks and line breaks. -/
def skipBlankLines : List Char → List Char
  | '\r' :: '\n' :: rest => skipBlankLines rest
  | c :: rest => if isSpace c || c == '\n' then skipBlankLines rest else c :: rest
  | [] => []

/-- Drops blanks, line breaks and comments. -/
def skipFiller : Nat → List Char → List Char
  | 0, cs => cs
  | fuel + 1, cs =>
    match skipBlankLines cs with
    | '#' :: rest => skipFiller fuel (rest.dropWhile isShown)
    | rest => rest

/-! ## Strings and keys -/

/-- Digits of base sixteen. -/
def isHex (c : Char) : Bool := c.isDigit || ('a' ≤ c && c ≤ 'f') || ('A' ≤ c && c ≤ 'F')

/-- The value of a digit of a base up to sixteen. -/
def digitValue (c : Char) : Nat :=
  if c.isDigit then c.toNat - '0'.toNat
  else if 'a' ≤ c then c.toNat - 'a'.toNat + 10
  else c.toNat - 'A'.toNat + 10

/-- The value of digits in a base. -/
def valueIn (base : Nat) (digits : List Char) : Nat :=
  digits.foldl (fun n c => base * n + digitValue c) 0

/-- A character given by exactly `count` digits of base sixteen. -/
def hexChar? (count : Nat) (cs : List Char) : Option (Char × List Char) :=
  let digits := cs.take count
  if digits.length = count ∧ digits.all isHex then
    let n := valueIn 16 digits
    if n.isValidChar then some (Char.ofNat n, cs.drop count) else none
  else none

/-- The character of an escape, after its backslash. -/
def escape? : List Char → Option (Char × List Char)
  | 'b' :: rest => some ('\x08', rest)
  | 't' :: rest => some ('\t', rest)
  | 'n' :: rest => some ('\n', rest)
  | 'f' :: rest => some ('\x0c', rest)
  | 'r' :: rest => some ('\r', rest)
  | '"' :: rest => some ('"', rest)
  | '\\' :: rest => some ('\\', rest)
  | 'u' :: rest => hexChar? 4 rest
  | 'U' :: rest => hexChar? 8 rest
  | _ => none

/-- A basic string after its opening quote. -/
def basicTail? : Nat → List Char → Option (List Char × List Char)
  | 0, _ => none
  | _ + 1, [] => none
  | fuel + 1, c :: rest =>
    if c = '"' then some ([], rest)
    else if c = '\\' then do
      let (c, rest) ← escape? rest
      let (cs, rest) ← basicTail? fuel rest
      return (c :: cs, rest)
    else if isShown c then do
      let (cs, rest) ← basicTail? fuel rest
      return (c :: cs, rest)
    else none

/-- A literal string after its opening quote. -/
def literalTail? (cs : List Char) : Option (List Char × List Char) :=
  let inside := cs.takeWhile (· ≠ '\'')
  match cs.dropWhile (· ≠ '\'') with
  | _ :: rest => if inside.all isShown then some (inside, rest) else none
  | [] => none

/-- What a run of quotes does inside a string over several lines: one or two are part of the
text; three end it, and up to two before those three are part of the text. -/
inductive QuoteRun where
  | inside (quotes : List Char)
  | closing (quotes : List Char)
  | tooLong

/-- The meaning of a run of quotes of that length. -/
def QuoteRun.ofLength (q : Char) (length : Nat) : QuoteRun :=
  if length < 3 then .inside (List.replicate length q)
  else if length < 6 then .closing (List.replicate (length - 3) q)
  else .tooLong

/-- The run of quotes at the start of the text, and the rest. -/
def quoteRun (q : Char) (cs : List Char) : QuoteRun × List Char :=
  (.ofLength q (cs.takeWhile (· = q)).length, cs.dropWhile (· = q))

/-- The text after a backslash at the end of a line: everything up to the next character that
is no blank is left out. -/
def continued? (cs : List Char) : Option (List Char) :=
  (newline? (skipSpaces cs)).map skipBlankLines

/-- A basic string over several lines, after its opening. -/
def basicLinesTail? : Nat → List Char → Option (List Char × List Char)
  | 0, _ => none
  | _ + 1, [] => none
  | fuel + 1, c :: rest =>
    if c = '"' then
      match quoteRun '"' (c :: rest) with
      | (.tooLong, _) => none
      | (.closing quotes, rest) => some (quotes, rest)
      | (.inside quotes, rest) => do
        let (cs, rest) ← basicLinesTail? fuel rest
        return (quotes ++ cs, rest)
    else if c = '\\' then
      -- a backslash at the end of a line is no escape
      match continued? rest with
      | some rest => basicLinesTail? fuel rest
      | none => do
        let (c, rest) ← escape? rest
        let (cs, rest) ← basicLinesTail? fuel rest
        return (c :: cs, rest)
    else match newline? (c :: rest) with
      | some rest => do
        let (cs, rest) ← basicLinesTail? fuel rest
        return ('\n' :: cs, rest)
      | none =>
        if isShown c then do
          let (cs, rest) ← basicLinesTail? fuel rest
          return (c :: cs, rest)
        else none

/-- A literal string over several lines, after its opening. -/
def literalLinesTail? : Nat → List Char → Option (List Char × List Char)
  | 0, _ => none
  | _ + 1, [] => none
  | fuel + 1, c :: rest =>
    if c = '\'' then
      match quoteRun '\'' (c :: rest) with
      | (.tooLong, _) => none
      | (.closing quotes, rest) => some (quotes, rest)
      | (.inside quotes, rest) => do
        let (cs, rest) ← literalLinesTail? fuel rest
        return (quotes ++ cs, rest)
    else match newline? (c :: rest) with
      | some rest => do
        let (cs, rest) ← literalLinesTail? fuel rest
        return ('\n' :: cs, rest)
      | none =>
        if isShown c then do
          let (cs, rest) ← literalLinesTail? fuel rest
          return (c :: cs, rest)
        else none

/-- Drops the line break right after the opening of a string over several lines. -/
def skipFirstBreak (cs : List Char) : List Char := (newline? cs).getD cs

/-- A string of any of the four ways. -/
def string? (cs : List Char) : Option (List Char × List Char) :=
  match cs with
  | '"' :: '"' :: '"' :: rest => basicLinesTail? (rest.length + 1) (skipFirstBreak rest)
  | '\'' :: '\'' :: '\'' :: rest => literalLinesTail? (rest.length + 1) (skipFirstBreak rest)
  | '"' :: rest => basicTail? (rest.length + 1) rest
  | '\'' :: rest => literalTail? rest
  | _ => none

/-- One part of a dotted key. -/
def key? (cs : List Char) : Option (String × List Char) :=
  match cs with
  | '"' :: rest => (basicTail? (rest.length + 1) rest).map fun (k, rest) => (String.ofList k, rest)
  | '\'' :: rest => (literalTail? rest).map fun (k, rest) => (String.ofList k, rest)
  | cs =>
    let bare := cs.takeWhile isBare
    if bare.isEmpty then none else some (String.ofList bare, cs.dropWhile isBare)

/-- The parts of a dotted key, with the blanks around them. -/
def keyParts? : Nat → List Char → Option (List String × List Char)
  | 0, _ => none
  | fuel + 1, cs => do
    let (key, rest) ← key? (skipSpaces cs)
    match skipSpaces rest with
    | '.' :: more =>
      let (keys, rest) ← keyParts? fuel more
      return (key :: keys, rest)
    | rest => return ([key], rest)

/-- How deep a document may be nested. -/
def depthLimit : Nat := 80

/-- A dotted key, with the blanks around it. -/
def path? (cs : List Char) : Option (List String × List Char) :=
  (keyParts? (cs.length + 1) cs).filter fun (keys, _) => keys.length < depthLimit

/-! ## Numbers -/

/-- More digits of a number; an underscore may stand between two of them. -/
def moreDigits? (isDigit : Char → Bool) : List Char → Option (List Char × List Char)
  | [] => some ([], [])
  | '_' :: c :: rest =>
    if isDigit c then (moreDigits? isDigit rest).map fun (ds, rest) => (c :: ds, rest) else none
  | c :: rest =>
    if isDigit c then (moreDigits? isDigit rest).map fun (ds, rest) => (c :: ds, rest)
    else some ([], c :: rest)

/-- One or more digits. -/
def someDigits? (isDigit : Char → Bool) : List Char → Option (List Char × List Char)
  | [] => none
  | c :: rest =>
    if isDigit c then (moreDigits? isDigit rest).map fun (ds, rest) => (c :: ds, rest) else none

/-- The digits before the point; a zero stands alone. -/
def wholeDigits? : List Char → Option (List Char × List Char)
  | '0' :: rest => some (['0'], rest)
  | cs => someDigits? Char.isDigit cs

/-- An integer, if it fits into 64 bits. -/
def int64? (i : Int) : Option Int64 :=
  if -Int.pow 2 63 ≤ i ∧ i < Int.pow 2 63 then some (Int64.ofInt i) else none

/-- A float. A numeral too large for one is refused, unless it is below zero. -/
def float? (negative : Bool) (d : Decimal) : Option Double :=
  match (Binary.ofDecimal negative d : Double) with
  | .infinite false => none
  | x => some x

/-- The digits of an exponent. -/
def exponentDigits? (cs : List Char) : Option (Nat × List Char) :=
  (someDigits? Char.isDigit cs).map fun (ds, rest) => (digitsValue ds, rest)

/-- An exponent after its mark. -/
def exponent? (cs : List Char) : Option (Int × List Char) :=
  match cs with
  | '-' :: rest => (exponentDigits? rest).map fun (e, rest) => (-(e : Int), rest)
  | '+' :: rest => (exponentDigits? rest).map fun (e, rest) => ((e : Int), rest)
  | rest => (exponentDigits? rest).map fun (e, rest) => ((e : Int), rest)

/-- An optional exponent. -/
def exponentPart? (cs : List Char) : Option (Int × List Char) :=
  match cs with
  | 'e' :: rest => exponent? rest
  | 'E' :: rest => exponent? rest
  | rest => some (0, rest)

/-- A decimal number without its sign. -/
def decimal? (negative : Bool) (cs : List Char) : Option (Value × List Char) := do
  let (whole, rest) ← wholeDigits? cs
  match rest with
  | '.' :: more =>
    let (fraction, rest) ← someDigits? Char.isDigit more
    let (e, rest) ← exponentPart? rest
    let x ← float? negative ⟨digitsValue (whole ++ fraction), e - fraction.length⟩
    return (.float x, rest)
  | mark :: _ =>
    if mark = 'e' ∨ mark = 'E' then
      let (e, rest) ← exponentPart? rest
      let x ← float? negative ⟨digitsValue whole, e⟩
      return (.float x, rest)
    else
      let i ← int64? (if negative then -(digitsValue whole : Int) else digitsValue whole)
      return (.integer i, rest)
  | [] =>
    let i ← int64? (if negative then -(digitsValue whole : Int) else digitsValue whole)
    return (.integer i, [])

/-- A number without its sign. -/
def magnitude? (negative : Bool) (cs : List Char) : Option (Value × List Char) :=
  match cs with
  | 'i' :: 'n' :: 'f' :: rest => some (.float (.infinite negative), rest)
  | 'n' :: 'a' :: 'n' :: rest => some (.float .nan, rest)
  | cs => decimal? negative cs

/-- An integer in another base, after its mark. -/
def inBase? (base : Nat) (isDigit : Char → Bool) (cs : List Char) : Option (Value × List Char) := do
  let (digits, rest) ← someDigits? isDigit cs
  let i ← int64? (valueIn base digits)
  return (.integer i, rest)

/-- A number. -/
def number? (cs : List Char) : Option (Value × List Char) :=
  match cs with
  | '0' :: 'x' :: rest => inBase? 16 isHex rest
  | '0' :: 'o' :: rest => inBase? 8 (fun c => '0' ≤ c && c ≤ '7') rest
  | '0' :: 'b' :: rest => inBase? 2 (fun c => c == '0' || c == '1') rest
  | '+' :: rest => magnitude? false rest
  | '-' :: rest => magnitude? true rest
  | cs => magnitude? false cs

/-! ## Values -/

/-- A value that holds no other values. -/
def scalar? (cs : List Char) : Option (Value × List Char) :=
  match cs with
  | '"' :: _ => (string? cs).map fun (s, rest) => (.string (String.ofList s), rest)
  | '\'' :: _ => (string? cs).map fun (s, rest) => (.string (String.ofList s), rest)
  | 't' :: 'r' :: 'u' :: 'e' :: rest => some (.boolean true, rest)
  | 'f' :: 'a' :: 'l' :: 's' :: 'e' :: rest => some (.boolean false, rest)
  | cs =>
    -- dates start with digits too, so they are looked for before numbers
    if startsDate cs || startsTime cs then
      (readDateTime? cs).map fun (d, rest) => (.dateTime d, rest)
    else number? cs

/-- The items of a list after its opening bracket or a comma. -/
def listTail? (item : List Char → Option (Value × List Char)) :
    Nat → List Char → Option (List Value × List Char)
  | 0, _ => none
  | fuel + 1, cs =>
    match skipFiller (cs.length + 1) cs with
    | ']' :: rest => some ([], rest)
    | cs => do
      let (v, rest) ← item cs
      match skipFiller (rest.length + 1) rest with
      | ',' :: rest =>
        let (vs, rest) ← listTail? item fuel rest
        return (v :: vs, rest)
      | ']' :: rest => return ([v], rest)
      | _ => none

/-- A key, an equals sign and a value. -/
def assignment? (value : List Char → Option (Value × List Char)) (cs : List Char) :
    Option ((List String × Value) × List Char) := do
  let (path, rest) ← path? cs
  let rest ← expect? '=' rest
  let (v, rest) ← value (skipSpaces rest)
  return ((path, v), rest)

/-- The entries of an inline table after its opening brace or a comma. -/
def inlineTail? (value : List Char → Option (Value × List Char)) :
    Nat → List Char → Option (List (List String × Value) × List Char)
  | 0, _ => none
  | fuel + 1, cs => do
    let (e, rest) ← assignment? value cs
    match skipSpaces rest with
    | ',' :: rest =>
      let (es, rest) ← inlineTail? value fuel rest
      return (e :: es, rest)
    | '\x7d' :: rest => return ([e], rest)
    | _ => none

/-- An inline table after its opening brace. -/
def inlineTable? (value : List Char → Option (Value × List Char)) (cs : List Char) :
    Option (Value × List Char) :=
  match skipSpaces cs with
  | '\x7d' :: rest => some (.table [], rest)
  | cs => do
    let (es, rest) ← inlineTail? value (cs.length + 1) cs
    let v ← inlineTable es
    return (v, rest)

/-- A value with lists and inline tables nested at most `depth` times. -/
def value? : Nat → List Char → Option (Value × List Char)
  | 0, cs => scalar? cs
  | depth + 1, cs =>
    match cs with
    | '[' :: rest =>
      (listTail? (value? depth) (rest.length + 1) rest).map fun (vs, rest) => (.array vs, rest)
    | '\x7b' :: rest => inlineTable? (value? depth) rest
    | cs => scalar? cs

/-! ## Documents -/

/-- The header of a table or of one table of an array, after its first bracket. -/
def header? (cs : List Char) : Option (Line × List Char) :=
  match cs with
  | '[' :: rest => do
    let (path, rest) ← path? rest
    let rest ← expect? ']' rest
    let rest ← expect? ']' rest
    return (.item path, rest)
  | rest => do
    let (path, rest) ← path? rest
    let rest ← expect? ']' rest
    return (.table path, rest)

/-- A line that is neither blank nor a comment. -/
def line? (cs : List Char) : Option (Line × List Char) := do
  let (line, rest) ← match cs with
    | '[' :: rest => header? rest
    | cs => (assignment? (value? (depthLimit - 1)) cs).map fun ((path, v), rest) =>
      (.assign path v, rest)
  let rest ← lineEnd? rest
  return (line, rest)

/-- The lines of a document. -/
def lines? : Nat → List Char → Option (List Line)
  | 0, _ => none
  | fuel + 1, cs =>
    match skipSpaces cs with
    | [] => some []
    | '#' :: rest => (lineEnd? ('#' :: rest)).bind (lines? fuel)
    | cs =>
      match newline? cs with
      | some rest => lines? fuel rest
      | none => do
        let (line, rest) ← line? cs
        let lines ← lines? fuel rest
        return line :: lines

/-- Drops a byte order mark. -/
def skipMark : List Char → List Char
  | '\ufeff' :: rest => rest
  | cs => cs

/-- The table that a text describes. -/
def parse? (text : String) : Option Entries :=
  let cs := skipMark text.toList
  (lines? (cs.length + 1) cs).bind assemble

end Filtergraph.Toml
