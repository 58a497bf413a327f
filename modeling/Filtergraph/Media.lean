import Filtergraph.Number
import Filtergraph.Text

/-!
# Media files

What a graph starts from: files of which a part may be read, and the streams in them.
-/

namespace Filtergraph

/-! ## Durations

Whole seconds in a 64-bit word, and nanoseconds below one second. A duration is shown on
a clock of hours, minutes and seconds, rounded to the nearest second.
-/

/-- Nanoseconds in a second. -/
def nanosPerSecond : Nat := 1000000000

/-- A span of time. -/
structure Duration where
  seconds : UInt64
  nanos : Fin nanosPerSecond
deriving DecidableEq

namespace Duration

/-- Whole seconds, half a second counting as one; the last representable second is not passed. -/
def rounded (d : Duration) : Nat :=
  if nanosPerSecond ≤ 2 * d.nanos.val then min (d.seconds.toNat + 1) (UInt64.size - 1)
  else d.seconds.toNat

/-- `HH:MM:SS`. Hours take more digits when they need them and are never wrapped. -/
def clock (d : Duration) : String :=
  let s := d.rounded
  String.ofList
    (padded 2 (s / 3600) ++ ':' :: padded 2 (s % 3600 / 60) ++ ':' :: padded 2 (s % 60))

/-- A number of seconds to the nearest nanosecond, a half going to the even one.
There is none for a number below zero, for what is not a number, and from `2 ^ 64` on. -/
def ofSeconds? : Double → Option Duration
  | .finite negative rank =>
    if negative && rank.val != 0 then none
    else
      let nanos := divHalfEven (Binary.Format.double.units rank * nanosPerSecond)
        (Nat.pow 2 Binary.Format.double.scale)
      if nanos / nanosPerSecond < UInt64.size then
        some ⟨UInt64.ofNat (nanos / nanosPerSecond),
          ⟨nanos % nanosPerSecond, Nat.mod_lt _ (by decide)⟩⟩
      else none
  | _ => none

end Duration

/-! ## Media files

A source is a media file with its trimming. Its position among the inputs of the command
is decided when a graph is compiled.
-/

/-- A media file that a graph reads. -/
structure Source where
  path : String
  /-- Where reading starts. -/
  offset : Option Duration := none
  /-- How much is read. -/
  duration : Option Duration := none
  /-- Whether the file repeats without end. -/
  looped : Bool := false
  /-- Position among the inputs, given by the last compilation. -/
  index : Option Nat := none
deriving DecidableEq

namespace Source

/-- A flag followed by a time, if there is one. -/
def timeFlag (flag : String) : Option Duration → List String
  | some d => [flag, d.clock]
  | none => []

/-- The words that open the file as an input. -/
def flags (s : Source) : List String :=
  (if s.looped then ["-stream_loop", "-1"] else [])
    ++ timeFlag "-t" s.duration ++ timeFlag "-ss" s.offset ++ ["-i", s.path]

end Source

/-! ## Streams of a media file

A file holds several streams. One is named by its number, or as the best audio or the
best video stream.
-/

/-- Which stream of a file is meant. -/
inductive Stream where
  | number (n : UInt32)
  | audio
  | video
deriving DecidableEq

namespace Stream

/-- The stream taken when none is named. -/
def first : Stream := .number 0

/-- The stream as references write it. -/
def text : Stream → String
  | .number n => natText n.toNat
  | .audio => "a"
  | .video => "v"

/-- Reads `a`, `v` or a stream number; blanks around it do not matter. -/
def parse? (s : String) : Option Stream :=
  match trimBlanks s.toList with
  | ['a'] => some .audio
  | ['v'] => some .video
  | cs => (readNatBelow? UInt32.size cs).map fun n => .number (UInt32.ofNat n)

end Stream

end Filtergraph
