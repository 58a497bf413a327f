import Filtergraph.Number

/-!
# Dates and times

A date, a time of day, or both; with both there may be an offset from universal time.
-/

namespace Filtergraph.Toml

/-- A day of the calendar. -/
structure Date where
  year : Nat
  month : Nat
  day : Nat
deriving DecidableEq

/-- A time of day. -/
structure Time where
  hour : Nat
  minute : Nat
  second : Nat
  nanos : Nat
deriving DecidableEq

/-- How far local time is ahead of universal time. -/
inductive Offset where
  | universal
  | minutes (n : Int)
deriving DecidableEq

/-- A point in time, as far as it is given. -/
structure DateTime where
  date : Option Date := none
  time : Option Time := none
  offset : Option Offset := none
deriving DecidableEq

/-! ## Writing -/

/-- `YYYY-MM-DD`. -/
def Date.chars (d : Date) : List Char :=
  padded 4 d.year ++ '-' :: padded 2 d.month ++ '-' :: padded 2 d.day

/-- `HH:MM:SS`, with as many places as the fraction needs. -/
def Time.chars (t : Time) : List Char :=
  padded 2 t.hour ++ ':' :: padded 2 t.minute ++ ':' :: padded 2 t.second
    ++ if t.nanos = 0 then []
       else '.' :: ((padded 9 t.nanos).reverse.dropWhile (· = '0')).reverse

/-- `Z` or `±HH:MM`. -/
def Offset.chars : Offset → List Char
  | universal => ['Z']
  | minutes n =>
    (if n < 0 then '-' else '+') :: padded 2 (n.natAbs / 60) ++ ':' :: padded 2 (n.natAbs % 60)

/-- The parts that are given, a `T` between date and time. -/
def DateTime.chars (d : DateTime) : List Char :=
  let date := (d.date.map Date.chars).getD []
  let time := (d.time.map Time.chars).getD []
  let offset := (d.offset.map Offset.chars).getD []
  if d.date.isSome && d.time.isSome then date ++ 'T' :: time ++ offset else date ++ time ++ offset

/-! ## Reading -/

/-- Exactly `count` digits with a value between two bounds. -/
def fixedDigits? (count low high : Nat) (cs : List Char) : Option (Nat × List Char) :=
  let digits := cs.take count
  if digits.length = count ∧ digits.all Char.isDigit then
    let n := digitsValue digits
    if low ≤ n ∧ n ≤ high then some (n, cs.drop count) else none
  else none

/-- One given character. -/
def expect? (c : Char) : List Char → Option (List Char)
  | [] => none
  | d :: rest => if d = c then some rest else none

/-- Days of a month. -/
def daysIn (year month : Nat) : Nat :=
  if month = 2 then
    if year % 4 = 0 ∧ (year % 100 ≠ 0 ∨ year % 400 = 0) then 29 else 28
  else if month = 4 ∨ month = 6 ∨ month = 9 ∨ month = 11 then 30
  else 31

/-- A date at the start of the text. -/
def readDate? (cs : List Char) : Option (Date × List Char) := do
  let (year, cs) ← fixedDigits? 4 0 9999 cs
  let cs ← expect? '-' cs
  let (month, cs) ← fixedDigits? 2 1 12 cs
  let cs ← expect? '-' cs
  let (day, cs) ← fixedDigits? 2 1 (daysIn year month) cs
  return (⟨year, month, day⟩, cs)

/-- A fraction of a second in nanoseconds; digits past the ninth do not count. -/
def readFraction? : List Char → Option (Nat × List Char)
  | '.' :: cs =>
    let digits := cs.takeWhile Char.isDigit
    if digits.isEmpty then none
    else
      let counted := digits.take 9
      some (digitsValue counted * Nat.pow 10 (9 - counted.length), cs.dropWhile Char.isDigit)
  | cs => some (0, cs)

/-- A time of day at the start of the text. -/
def readTime? (cs : List Char) : Option (Time × List Char) := do
  let (hour, cs) ← fixedDigits? 2 0 23 cs
  let cs ← expect? ':' cs
  let (minute, cs) ← fixedDigits? 2 0 59 cs
  let cs ← expect? ':' cs
  let (second, cs) ← fixedDigits? 2 0 60 cs
  let (nanos, cs) ← readFraction? cs
  return (⟨hour, minute, second, nanos⟩, cs)

/-- A signed `HH:MM` after its sign. -/
def readShift? (negative : Bool) (cs : List Char) : Option (Option Offset × List Char) := do
  let (hours, cs) ← fixedDigits? 2 0 23 cs
  let cs ← expect? ':' cs
  let (minutes, cs) ← fixedDigits? 2 0 59 cs
  let n : Int := hours * 60 + minutes
  return (some (.minutes (if negative then -n else n)), cs)

/-- An offset at the start of the text, if there is one. -/
def readOffset? : List Char → Option (Option Offset × List Char)
  | 'Z' :: cs => some (some .universal, cs)
  | 'z' :: cs => some (some .universal, cs)
  | '+' :: cs => readShift? false cs
  | '-' :: cs => readShift? true cs
  | cs => some (none, cs)

/-- What may stand between a date and a time. -/
def isDateEnd (c : Char) : Bool := c == 'T' || c == 't' || c == ' '

/-- Whether a time of day follows: two digits and a colon. -/
def startsTime : List Char → Bool
  | a :: b :: ':' :: _ => a.isDigit && b.isDigit
  | _ => false

/-- Whether a date follows: four digits and a dash. -/
def startsDate : List Char → Bool
  | a :: b :: c :: d :: '-' :: _ => a.isDigit && b.isDigit && c.isDigit && d.isDigit
  | _ => false

/-- A date at the start of the text, with the time and offset that follow it. Between date and
time stands a `T` or a single space; a space that no time follows is not part of it. -/
def readDateTime? (cs : List Char) : Option (DateTime × List Char) :=
  if startsDate cs then do
    let (date, cs) ← readDate? cs
    match cs with
    | sep :: more =>
      if isDateEnd sep && startsTime more then
        let (time, cs) ← readTime? more
        let (offset, cs) ← readOffset? cs
        return ({ date := some date, time := some time, offset }, cs)
      else return ({ date := some date }, cs)
    | [] => return ({ date := some date }, [])
  else do
    let (time, cs) ← readTime? cs
    return ({ time := some time }, cs)

/-- A date or time that takes up the whole text. -/
def DateTime.ofText? (text : String) : Option DateTime :=
  match readDateTime? text.toList with
  | some (d, []) => some d
  | _ => none

end Filtergraph.Toml
