import Filtergraph.Dict
import Filtergraph.Pipeline.Error

/-!
# The catalogue of operations

Every kind of operation that a pipeline may use has an entry: its name there, what it does,
its parameters with their defaults, and how it is made from their values. Values arrive as
text; blanks around a number or a truth value do not matter.
-/

namespace Filtergraph

/-- What an operation works on. -/
inductive Category where
  | video
  | audio
  | composite
deriving DecidableEq

/-- The heading of a category. -/
def Category.name : Category → String
  | video => "Video"
  | audio => "Audio"
  | composite => "Composite"

/-- A parameter of an operation. Without a default it has to be given. -/
structure Parameter where
  name : String
  default? : Option String
  summary : String
deriving DecidableEq

/-- An operation to be put into a graph. -/
inductive Operation where
  | filter (filter : Filter)
  | merge
deriving DecidableEq

/-- The values given for the parameters of one operation. -/
structure Arguments where
  operation : String
  parameters : List Parameter
  values : Dict String

namespace Arguments

/-- The value of a parameter: the given one, or else the default. -/
def text (a : Arguments) (name : String) : Except PipelineError String :=
  match a.values.get? name with
  | some value => .ok value
  | none =>
    match (a.parameters.find? (·.name = name)).bind Parameter.default? with
    | some value => .ok value
    | none => .error (.invalidParameter a.operation name .missing)

/-- The value of a parameter, read as a value of the named type. -/
def reading {α : Type} (type : String) (read? : List Char → Option α) (a : Arguments)
    (name : String) : Except PipelineError α := do
  let value ← a.text name
  match read? (trimBlanks value.toList) with
  | some x => return x
  | none => throw (.invalidParameter a.operation name (.unreadable value type))

/-- A signed 32-bit number. -/
def signed : Arguments → String → Except PipelineError Int :=
  reading "i32" (readIntBetween? (-Int.pow 2 31) (Int.pow 2 31))

/-- An unsigned 32-bit number. -/
def unsigned : Arguments → String → Except PipelineError Nat :=
  reading "u32" (readNatBelow? UInt32.size)

/-- A 32-bit floating-point number. -/
def number : Arguments → String → Except PipelineError Single :=
  reading "f32" fun cs => Binary.read? (String.ofList cs)

/-- A truth value. -/
def flag : Arguments → String → Except PipelineError Bool :=
  reading "bool" fun cs =>
    if cs = "true".toList then some true else if cs = "false".toList then some false else none

/-- A finite number above zero. -/
def positive (a : Arguments) (name : String) : Except PipelineError Single := do
  let x ← a.number name
  if x.isFinite && x.isPositive then return x
  else throw (.invalidParameter a.operation name .notPositive)

end Arguments

/-- A kind of operation. -/
structure Entry where
  /-- The name by which pipelines ask for it. -/
  id : String
  summary : String
  category : Category
  parameters : List Parameter
  /-- Whether it can be switched on and off over time. -/
  acceptsGate : Bool
  /-- Makes the operation from its arguments. -/
  make : Arguments → Except PipelineError Operation

namespace Catalogue

/-- A parameter that has to be given. -/
def required (name summary : String) : Parameter := ⟨name, none, summary⟩

/-- A parameter with a default. -/
def optional (name default summary : String) : Parameter := ⟨name, some default, summary⟩

/-- Resizing to a width and a height. -/
def scale : Entry where
  id := "scale"
  summary := "Resize, optionally forcing square pixels"
  category := .video
  parameters := [
    required "width" "Target width (-1/-2 keep aspect)",
    required "height" "Target height (-1/-2 keep aspect)",
    optional "set_sar" "false" "Append setsar=1:1"]
  acceptsGate := false
  make a := return .filter (.scale (← a.signed "width") (← a.signed "height") (← a.flag "set_sar"))

/-- One colour made transparent, with a tolerance. -/
def colorKey : Entry where
  id := "colorkey"
  summary := "Make pixels of one colour transparent"
  category := .video
  parameters := [
    required "color" "Key colour",
    optional "similarity" "0.3" "Similarity threshold"]
  acceptsGate := false
  make a := return .filter (.colorKey (← a.text "color") (← a.number "similarity"))

/-- Faster or slower frames; the multiplier must be positive. -/
def speed : Entry where
  id := "speed"
  summary := "Change playback speed by retiming frames (setpts)"
  category := .video
  parameters := [required "speed" "Speed multiplier (2 = twice as fast)"]
  acceptsGate := false
  make a := return .filter (.atSpeed (← a.positive "speed"))

/-- A rectangle of a given thickness. -/
def drawBox : Entry where
  id := "drawbox"
  summary := "Draw a rectangle"
  category := .video
  parameters := [
    optional "x" "0" "Left edge",
    optional "y" "0" "Top edge",
    required "width" "Box width",
    required "height" "Box height",
    optional "color" "black" "Box colour",
    optional "thickness" "3" "Line thickness or 'fill'"]
  acceptsGate := true
  make a := return .filter (.drawBox (← a.signed "x") (← a.signed "y") (← a.signed "width")
    (← a.signed "height") (← a.text "color") (← a.text "thickness"))

/-- A blur with a radius for brightness and one for colour. -/
def boxBlur : Entry where
  id := "boxblur"
  summary := "Box blur with per-plane radii"
  category := .video
  parameters := [
    optional "luma_radius" "2" "Luma radius expression",
    optional "chroma_radius" "2" "Chroma radius expression",
    optional "luma_power" "1" "Blur passes on luma"]
  acceptsGate := false
  make a := return .filter (.boxBlur (← a.text "luma_radius") (← a.text "chroma_radius")
    (← a.unsigned "luma_power"))

/-- A named set of colour curves. -/
def curves : Entry where
  id := "curves"
  summary := "Apply a colour curves preset"
  category := .video
  parameters := [required "preset" "Preset name (vintage, lighter, ...)"]
  acceptsGate := true
  make a := return .filter (.curves (← a.text "preset"))

/-- A rotation by an expression. -/
def rotate : Entry where
  id := "rotate"
  summary := "Rotate by an angle expression in radians"
  category := .video
  parameters := [required "angle" "Angle expression (PI, t*0.1, ...)"]
  acceptsGate := false
  make a := return .filter (.rotate (← a.text "angle"))

/-- A line of text at a position. -/
def drawText : Entry where
  id := "drawtext"
  summary := "Render text onto video"
  category := .video
  parameters := [
    required "text" "Literal text",
    optional "x" "0" "Horizontal position expression",
    optional "y" "0" "Vertical position expression",
    optional "font_color" "white" "Font colour",
    optional "font_size" "24" "Font size in pixels"]
  acceptsGate := true
  make a := return .filter (.drawText (← a.text "text") (← a.text "x") (← a.text "y")
    (← a.text "font_color") (← a.unsigned "font_size"))

/-- A part of the picture, its sides and corner given as expressions. -/
def crop : Entry where
  id := "crop"
  summary := "Crop to a sub-rectangle"
  category := .video
  parameters := [
    required "width" "Output width expression",
    required "height" "Output height expression",
    optional "x" "(in_w-out_w)/2" "Left edge expression",
    optional "y" "(in_h-out_h)/2" "Top edge expression"]
  acceptsGate := false
  make a := return .filter (.crop (← a.text "width") (← a.text "height") (← a.text "x")
    (← a.text "y"))

/-- Another layout of pixels. -/
def pixelFormat : Entry where
  id := "format"
  summary := "Convert pixel format"
  category := .video
  parameters := [required "pix_fmt" "Pixel format (yuv420p, ...)"]
  acceptsGate := false
  make a := return .filter (.pixelFormat (← a.text "pix_fmt"))

/-- Faster or slower sound; the multiplier must be positive. -/
def tempo : Entry where
  id := "atempo"
  summary := "Change audio tempo without changing pitch"
  category := .audio
  parameters := [required "speed" "Tempo multiplier"]
  acceptsGate := false
  make a := return .filter (.tempo (← a.positive "speed"))

/-- Louder or softer sound. -/
def volume : Entry where
  id := "volume"
  summary := "Scale audio volume"
  category := .audio
  parameters := [required "level" "Linear gain"]
  acceptsGate := true
  make a := return .filter (.volume (← a.number "level"))

/-- Echoes, with lists of delays and decays. -/
def echo : Entry where
  id := "aecho"
  summary := "Audio echo"
  category := .audio
  parameters := [
    optional "in_gain" "0.6" "Input gain",
    optional "out_gain" "0.3" "Output gain",
    optional "delays" "1000" "'|'-separated delays in ms",
    optional "decays" "0.5" "'|'-separated decays"]
  acceptsGate := false
  make a := return .filter (.echo (← a.number "in_gain") (← a.number "out_gain")
    (← a.text "delays") (← a.text "decays"))

/-- One picture on another, at a position. -/
def overlay : Entry where
  id := "overlay"
  summary := "Place the second input on top of the first"
  category := .composite
  parameters := [
    optional "x" "0" "Horizontal position expression",
    optional "y" "0" "Vertical position expression"]
  acceptsGate := false
  make a := return .filter (.overlay (← a.text "x") (← a.text "y"))

/-- One picture in the middle of another. -/
def overlayCenter : Entry where
  id := "overlay_center"
  summary := "Place the second input in the centre of the first"
  category := .composite
  parameters := []
  acceptsGate := false
  make _ := .ok (.filter .overlayCenter)

/-- Several sounds in one. -/
def merge : Entry where
  id := "merge"
  summary := "Merge two or more audio streams (amerge)"
  category := .composite
  parameters := []
  acceptsGate := false
  make _ := .ok .merge

/-- All kinds of operations, in the order of listings. -/
def entries : List Entry := [
  scale, colorKey, speed, drawBox, boxBlur, curves, rotate, drawText, crop, pixelFormat,
  tempo, volume, echo,
  overlay, overlayCenter, merge]

/-- The entry of that name. -/
def find? (id : String) : Option Entry := entries.find? (·.id = id)

/-- The entries of a category, in order. -/
def inCategory (category : Category) : List Entry := entries.filter (·.category = category)

/-- The first key that is the name of no parameter. -/
def strayKey? (parameters : List Parameter) (keys : List String) : Option String :=
  keys.find? fun key => !parameters.any (·.name = key)

/-- Makes the operation of that name from its parameter values. -/
def create (id : String) (values : Dict String) : Except PipelineError Operation :=
  match find? id with
  | none => .error (.unknownFilter id)
  | some entry =>
    -- keys that are not known are told before any value is read
    match strayKey? entry.parameters values.keys with
    | some key => .error (.invalidParameter entry.id key .unknown)
    | none => entry.make ⟨entry.id, entry.parameters, values⟩

end Catalogue

end Filtergraph
