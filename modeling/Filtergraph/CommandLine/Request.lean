/-!
# Requests

What the words of a command line ask for. The first word chooses the task. After it, options
and the one plain word of the task may come in any order, each option once. Two dashes alone
end the options; one dash alone and the empty word are plain words.
-/

namespace Filtergraph.CommandLine

/-- The texts that explain the use. -/
inductive Topic where
  | program
  | compile
  | filters
deriving DecidableEq

/-- What is asked for. -/
inductive Request where
  /-- Compile a pipeline, print it as JSON or for a shell, and send it elsewhere if asked. -/
  | compile (pipeline : String) (json : Bool) (output : Option String)
  /-- List all operations, or show one. -/
  | filters (id : Option String)
  | version
  | help (topic : Topic)
deriving DecidableEq

/-- A word as it is understood while options are allowed. -/
inductive Word where
  /-- Two dashes alone. -/
  | terminator
  /-- Two dashes, a name, and perhaps a value after an equals sign. -/
  | long (name : List Char) (value : Option (List Char))
  /-- One dash, a letter and what follows it. -/
  | short (letter : Char) (rest : List Char)
  | plain
deriving DecidableEq

/-- The parts before and after the first equals sign. -/
def splitAtEquals (cs : List Char) : List Char × Option (List Char) :=
  match cs.dropWhile (· ≠ '=') with
  | [] => (cs, none)
  | _ :: value => (cs.takeWhile (· ≠ '='), some value)

/-- How a word is understood. -/
def Word.of (word : String) : Word :=
  match word.toList with
  | ['-', '-'] => .terminator
  | '-' :: '-' :: cs => .long (splitAtEquals cs).1 (splitAtEquals cs).2
  | '-' :: letter :: rest => .short letter rest
  | _ => .plain

/-! ## The words of one task -/

/-- What has been said so far. -/
structure Said where
  plain : Option String := none
  json : Bool := false
  output : Option String := none
  /-- The next word is to be the destination. -/
  awaiting : Bool := false
deriving DecidableEq

namespace Said

/-- Takes the plain word of the task. -/
def takePlain (s : Said) (word : String) : Option Said :=
  if s.plain.isSome then none else some { s with plain := some word }

/-- Takes the wish for JSON. -/
def takeJson (s : Said) : Option Said :=
  if s.json then none else some { s with json := true }

/-- Takes the destination. -/
def takeOutput (s : Said) (value : List Char) : Option Said :=
  if s.output.isSome then none
  else some { s with output := some (String.ofList value), awaiting := false }

/-- Takes all that follows the end of the options. -/
def takeRest : Said → List String → Option Said
  | s, [] => some s
  | s, word :: words => (s.takePlain word).bind (·.takeRest words)

end Said

/-- What comes of the words of a task. -/
inductive Outcome where
  | said (s : Said)
  | help
  | misuse
deriving DecidableEq

/-- The outcome of a last step that may be misuse. -/
def Outcome.ofOption : Option Said → Outcome
  | some s => .said s
  | none => .misuse

/-- Goes on after a step that may be misuse. -/
def Outcome.andThen (step : Option Said) (next : Said → Outcome) : Outcome :=
  step.elim .misuse next

/-- Reads the words of the compile task. A destination that stands in a word of its own must
not look like an option. -/
def readCompile : Said → List String → Outcome
  | s, [] => if s.awaiting then .misuse else .said s
  | s, word :: words =>
    if s.awaiting then
      match Word.of word with
      | .plain => .andThen (s.takeOutput word.toList) (readCompile · words)
      | _ => .misuse
    else
      match Word.of word with
      | .terminator => .ofOption (s.takeRest words)
      | .plain => .andThen (s.takePlain word) (readCompile · words)
      | .long name value =>
        if name = "help".toList ∧ value = none then .help
        else if name = "json".toList ∧ value = none then
          .andThen s.takeJson (readCompile · words)
        else if name = "output".toList then
          match value with
          | some value => .andThen (s.takeOutput value) (readCompile · words)
          | none => readCompile { s with awaiting := true } words
        else .misuse
      | .short 'h' _ => .help
      | .short 'o' [] => readCompile { s with awaiting := true } words
      | .short 'o' ('=' :: value) => .andThen (s.takeOutput value) (readCompile · words)
      | .short 'o' value => .andThen (s.takeOutput value) (readCompile · words)
      | .short _ _ => .misuse

/-- Reads the words of the filters task. -/
def readFilters : Said → List String → Outcome
  | s, [] => .said s
  | s, word :: words =>
    match Word.of word with
    | .terminator => .ofOption (s.takeRest words)
    | .plain => .andThen (s.takePlain word) (readFilters · words)
    | .long name value => if name = "help".toList ∧ value = none then .help else .misuse
    | .short 'h' _ => .help
    | .short _ _ => .misuse

/-- The text that explains what is named after the word `help`. -/
def readTopic : List String → Option Request
  | [] => some (.help .program)
  | ["compile"] => some (.help .compile)
  | ["filters"] => some (.help .filters)
  | ["help"] => some (.help .program)
  | _ => none

/-- What the words of a command line ask for; none if they are misused. -/
def Request.ofWords? : List String → Option Request
  | [] => none
  | word :: words =>
    match Word.of word with
    | .long name none =>
      if name = "version".toList then some .version
      else if name = "help".toList then some (.help .program)
      else none
    | .short 'V' _ => some .version
    | .short 'h' _ => some (.help .program)
    | .plain =>
      if word = "compile" then
        match readCompile {} words with
        | .said s => s.plain.map fun pipeline => .compile pipeline s.json s.output
        | .help => some (.help .compile)
        | .misuse => none
      else if word = "filters" then
        match readFilters {} words with
        | .said s => some (.filters s.plain)
        | .help => some (.help .filters)
        | .misuse => none
      else if word = "help" then readTopic words
      else none
    | _ => none

end Filtergraph.CommandLine
