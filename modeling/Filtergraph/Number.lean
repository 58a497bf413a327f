/-!
# Numbers

Binary floating-point numbers of two widths, decimal numerals for them, and whole numbers.
-/

namespace Filtergraph

/-! ## Binary floating-point numbers

A format has finitely many magnitudes. Listed from zero upwards, each has a *rank*,
its place in the list, and a finite number is a sign and a rank. So every number has
exactly one representation, equality is decidable, and the order of magnitudes is the
order of ranks.

The magnitude of rank `r` is `units r / 2 ^ scale`, a whole number of the least positive
magnitude. Rounding goes the other way: `ofRatio` takes an exact quotient to the nearest
rank, a half going to the even one, and past the last rank to infinity. All of it is
arithmetic on natural numbers.
-/

/-- `n / d` to the nearest whole number; a half goes to the even neighbour. -/
def divHalfEven (n d : Nat) : Nat :=
  let q := n / d
  let r := n % d
  if 2 * r < d then q
  else if d < 2 * r then q + 1
  else if q % 2 = 0 then q else q + 1

namespace Binary

/-- The shape of a binary floating-point format. -/
structure Format where
  /-- Bits of a significand after its leading one. -/
  fractionBits : Nat
  /-- Binades of finite magnitudes; the lowest one starts at zero. -/
  binades : Nat
  /-- The least positive magnitude is `1 / 2 ^ scale`. -/
  scale : Nat
deriving DecidableEq

/-- The 32-bit format. -/
def Format.single : Format := ⟨23, 255, 149⟩

/-- The 64-bit format. -/
def Format.double : Format := ⟨52, 2047, 1074⟩

/-- Number of finite magnitudes, zero included. -/
def Format.magnitudes (f : Format) : Nat := f.binades * Nat.pow 2 f.fractionBits

/-- The magnitude of rank `r`, counted in the least positive magnitude.
The two lowest binades are evenly spaced; from there on the spacing doubles. -/
def Format.units (f : Format) (r : Nat) : Nat :=
  let binade := r / Nat.pow 2 f.fractionBits
  if binade = 0 then r
  else (Nat.pow 2 f.fractionBits + r % Nat.pow 2 f.fractionBits) * Nat.pow 2 (binade - 1)

/-- The rank nearest to `n / d`; it may lie past the last finite one. -/
def Format.rankOf (f : Format) (n d : Nat) : Nat :=
  let shift := (n * Nat.pow 2 f.scale / d).log2 - f.fractionBits
  shift * Nat.pow 2 f.fractionBits +
    divHalfEven (n * Nat.pow 2 f.scale) (d * Nat.pow 2 shift)

end Binary

/-- A number of a binary format: not a number, an infinity, or a sign and a rank. -/
inductive Binary (f : Binary.Format) where
  | nan
  | infinite (negative : Bool)
  | finite (negative : Bool) (rank : Fin f.magnitudes)
deriving DecidableEq

/-- A number of the 32-bit format. -/
abbrev Single := Binary .single

/-- A number of the 64-bit format. -/
abbrev Double := Binary .double

namespace Binary

variable {f : Format}

/-- The number of a rank; ranks past the last finite one are infinite. -/
def ofRank (negative : Bool) (rank : Nat) : Binary f :=
  if h : rank < f.magnitudes then .finite negative ⟨rank, h⟩ else .infinite negative

/-- The number nearest to `n / d`, a half going to the even rank. -/
def ofRatio (negative : Bool) (n d : Nat) : Binary f :=
  ofRank negative (f.rankOf n d)

/-- The number nearest to a whole number. -/
def ofInt (i : Int) : Binary f :=
  ofRatio (i < 0) i.natAbs 1

/-- Neither an infinity nor not a number. -/
def isFinite : Binary f → Bool
  | .finite .. => true
  | _ => false

/-- Strictly above zero. -/
def isPositive : Binary f → Bool
  | .nan => false
  | .infinite negative => !negative
  | .finite negative rank => !negative && rank.val != 0

/-- Zero or above; the negative zero counts as zero. -/
def isNonnegative : Binary f → Bool
  | .nan => false
  | .infinite negative => !negative
  | .finite negative rank => !negative || rank.val == 0

/-- A finite number without a fractional part. -/
def isWhole : Binary f → Bool
  | .finite _ rank => f.units rank % Nat.pow 2 f.scale == 0
  | _ => false

/-- Equality of numbers: the two zeros agree, and what is not a number agrees with nothing. -/
def agrees : Binary f → Binary f → Bool
  | .infinite a, .infinite b => a == b
  | .finite a r, .finite b s => r == s && (a == b || r.val == 0)
  | _, _ => false

/-- One divided by the number, rounded to the nearest. -/
def reciprocal : Binary f → Binary f
  | .nan => .nan
  | .infinite negative => ofRank negative 0
  | .finite negative rank =>
    if rank.val = 0 then .infinite negative
    else ofRatio negative (Nat.pow 2 f.scale) (f.units rank)

end Binary

/-! ## Decimal numerals

A decimal is a whole number of some power of ten. Reading one rounds it to a binary
format; writing a binary number takes the shortest decimal that reads back as that
number, or a fixed number of places. Numerals are written out in full: no exponent is
ever printed.
-/

/-- The value of a list of decimal digits. -/
def digitsValue (digits : List Char) : Nat :=
  digits.foldl (fun n c => 10 * n + (c.toNat - '0'.toNat)) 0

/-- The decimal digits of a whole number, without leading zeros. -/
def digitsOf (n : Nat) : List Char := Nat.toDigits 10 n

/-- The digits of `n` with zeros in front up to a width. -/
def padded (width n : Nat) : List Char :=
  List.replicate (width - (digitsOf n).length) '0' ++ digitsOf n

/-- `digits * 10 ^ exponent`. -/
structure Decimal where
  digits : Nat
  exponent : Int
deriving DecidableEq

namespace Decimal

/-- The exponent part of a numeral: nothing, or a mark, an optional sign and digits. -/
def exponentOf? : List Char → Option Int
  | [] => some 0
  | mark :: rest =>
    if mark = 'e' ∨ mark = 'E' then
      let (negative, digits) : Bool × List Char := match rest with
        | '-' :: digits => (true, digits)
        | '+' :: digits => (false, digits)
        | digits => (false, digits)
      if digits.isEmpty ∨ ¬ digits.all Char.isDigit then none
      else some (if negative then -(digitsValue digits : Int) else digitsValue digits)
    else none

/-- Reads an unsigned numeral: digits with at most one point among or around them,
then an optional exponent. -/
def ofChars? (cs : List Char) : Option Decimal :=
  let whole := cs.takeWhile Char.isDigit
  let afterWhole := cs.dropWhile Char.isDigit
  let (fraction, tail) : List Char × List Char := match afterWhole with
    | '.' :: more => (more.takeWhile Char.isDigit, more.dropWhile Char.isDigit)
    | _ => ([], afterWhole)
  if whole.isEmpty ∧ fraction.isEmpty then none
  else (exponentOf? tail).map fun e => ⟨digitsValue (whole ++ fraction), e - fraction.length⟩

/-- The numeral in full, the point standing where the exponent says. -/
def chars (d : Decimal) : List Char :=
  if 0 ≤ d.exponent then
    if d.digits = 0 then ['0'] else digitsOf d.digits ++ List.replicate d.exponent.toNat '0'
  else
    let places := d.exponent.natAbs
    let shown := padded (places + 1) d.digits
    shown.take (shown.length - places) ++ '.' :: shown.drop (shown.length - places)

end Decimal

namespace Binary

variable {f : Format}

/-- The number nearest to a decimal. An exponent past either end of the format decides
the answer without the power of ten being worked out. -/
def ofDecimal (negative : Bool) (d : Decimal) : Binary f :=
  if d.digits = 0 then ofRank negative 0
  else if (f.binades + f.fractionBits : Int) ≤ d.exponent then .infinite negative
  else if d.digits.log2 + 1 + d.exponent < -(f.scale : Int) then ofRank negative 0
  else if 0 ≤ d.exponent then ofRatio negative (d.digits * Nat.pow 10 d.exponent.toNat) 1
  else ofRatio negative d.digits (Nat.pow 10 d.exponent.natAbs)

/-- The names of the numbers that have no digits, in any case. -/
def special? (cs : List Char) : Option (Bool → Binary f) :=
  let name := String.ofList (cs.map Char.toLower)
  if name = "inf" ∨ name = "infinity" then some .infinite
  else if name = "nan" then some fun _ => .nan
  else none

/-- Reads a number without its sign. -/
def unsigned? (negative : Bool) (cs : List Char) : Option (Binary f) :=
  match special? cs with
  | some named => some (named negative)
  | none => (Decimal.ofChars? cs).map (ofDecimal negative)

/-- Reads an optionally signed number: a numeral, or one of `inf`, `infinity` and `nan` in
any case. Nothing may stand before or after it. -/
def read? (text : String) : Option (Binary f) :=
  match text.toList with
  | '-' :: cs => unsigned? true cs
  | '+' :: cs => unsigned? false cs
  | cs => unsigned? false cs

/-- The sign in front of a printed number. -/
def signChars (negative : Bool) : List Char := if negative then ['-'] else []

/-- Digits before the point of the magnitude `n / d`; not positive when zeros follow the point. -/
def leadingPlace (n d : Nat) : Int :=
  if d ≤ n then (digitsOf (n / d)).length else 1 - ((digitsOf ((d - 1) / n)).length : Int)

/-- The magnitude of a rank over `10 ^ exponent`, as a quotient. -/
def onGrid (f : Format) (rank : Nat) (exponent : Int) : Nat × Nat :=
  if 0 ≤ exponent then (f.units rank, Nat.pow 2 f.scale * Nat.pow 10 exponent.toNat)
  else (f.units rank * Nat.pow 10 exponent.natAbs, Nat.pow 2 f.scale)

/-- The decimal on the grid of `10 ^ exponent` that reads back as `rank`: one of the two
neighbours of the magnitude, the nearer if both do, the upper if they are equally near. -/
def readingBack? (f : Format) (rank : Fin f.magnitudes) (exponent : Int) : Option Decimal :=
  let (n, d) := onGrid f rank exponent
  let lower : Decimal := ⟨n / d, exponent⟩
  let upper : Decimal := ⟨n / d + 1, exponent⟩
  let reads (x : Decimal) : Bool := (ofDecimal false x : Binary f) == .finite false rank
  match reads lower, reads upper with
  | true, true => some (if 2 * (n % d) < d then lower else upper)
  | true, false => some lower
  | false, true => some upper
  | false, false => none

/-- Tries ever finer grids. Should none of them do, the exact decimal does. -/
def shortestFrom (f : Format) (rank : Fin f.magnitudes) : Nat → Int → Decimal
  | 0, _ => ⟨f.units rank * Nat.pow 5 f.scale, -(f.scale : Int)⟩
  | tries + 1, exponent =>
    match readingBack? f rank exponent with
    | some d => d
    | none => shortestFrom f rank tries (exponent - 1)

/-- The decimal with the fewest digits that reads back as the magnitude of `rank`. -/
def shortest (f : Format) (rank : Fin f.magnitudes) : Decimal :=
  if rank.val = 0 then ⟨0, 0⟩
  else shortestFrom f rank f.fractionBits (leadingPlace (f.units rank) (Nat.pow 2 f.scale))

/-- The number with the fewest digits that read back. -/
def text : Binary f → String
  | .nan => "NaN"
  | .infinite negative => String.ofList (signChars negative ++ ['i', 'n', 'f'])
  | .finite negative rank => String.ofList (signChars negative ++ (shortest f rank).chars)

/-- The number with two places, a half going to the even neighbour. -/
def textTwoPlaces : Binary f → String
  | .nan => "NaN"
  | .infinite negative => String.ofList (signChars negative ++ ['i', 'n', 'f'])
  | .finite negative rank =>
    let hundredths := divHalfEven (f.units rank * 100) (Nat.pow 2 f.scale)
    String.ofList (signChars negative ++ Decimal.chars ⟨hundredths, -2⟩)

end Binary

/-! ## Whole numbers in text

Decimal digits with an optional sign, of any length; the reader of a bounded kind of
number then checks the bound, so leading zeros never overflow.
-/

/-- One or more decimal digits and nothing else. -/
def readDigits? (cs : List Char) : Option Nat :=
  if cs.isEmpty ∨ ¬ cs.all Char.isDigit then none else some (digitsValue cs)

/-- An optional plus and digits, with a value below `bound`. -/
def readNatBelow? (bound : Nat) (cs : List Char) : Option Nat :=
  let digits := match cs with
    | '+' :: digits => digits
    | digits => digits
  (readDigits? digits).filter (· < bound)

/-- An optional sign and digits, with a value from `low` up to and without `high`. -/
def readIntBetween? (low high : Int) (cs : List Char) : Option Int :=
  let value : Option Int := match cs with
    | '-' :: digits => (readDigits? digits).map fun n => -(n : Int)
    | '+' :: digits => (readDigits? digits).map Int.ofNat
    | digits => (readDigits? digits).map Int.ofNat
  value.filter fun i => low ≤ i && i < high

/-- A natural number in decimal. -/
def natText (n : Nat) : String := String.ofList (digitsOf n)

/-- A whole number in decimal, with a minus in front if it is below zero. -/
def intText (i : Int) : String :=
  String.ofList (Binary.signChars (i < 0) ++ digitsOf i.natAbs)

end Filtergraph
