import Filtergraph.Number
import Filtergraph.Text

/-!
# Filters

The catalogue of media operations. Each filter knows its name, how many streams it reads
and its description, the text that stands for it in a filter graph. Positions, angles and
the like are expressions of the media processor and are passed on as they are.
-/

namespace Filtergraph

/-- A media operation with its parameters. -/
inductive Filter where
  /-- Resize; `-1` and `-2` keep the aspect ratio. -/
  | scale (width height : Int) (squarePixels : Bool)
  /-- Place the second stream on top of the first. -/
  | overlay (x y : String)
  /-- Place the second stream in the centre of the first. -/
  | overlayCenter
  /-- Make pixels of one colour transparent. -/
  | colorKey (color : String) (similarity : Single)
  /-- Multiply the time stamps of frames. -/
  | retime (factor : Single)
  /-- Draw a rectangle. -/
  | drawBox (x y width height : Int) (color thickness : String)
  /-- Blur with a radius for each kind of plane. -/
  | boxBlur (lumaRadius chromaRadius : String) (lumaPower : Nat)
  /-- Apply a preset of colour curves. -/
  | curves (preset : String)
  /-- Rotate by an angle in radians. -/
  | rotate (angle : String)
  /-- Change the tempo of audio and keep its pitch. -/
  | tempo (speed : Single)
  /-- Draw literal text. -/
  | drawText (text x y fontColor : String) (fontSize : Nat)
  /-- Keep a rectangle of the picture. -/
  | crop (width height x y : String)
  /-- Scale the volume of audio. -/
  | volume (level : Single)
  /-- Add an echo to audio. -/
  | echo (inGain outGain : Single) (delays decays : String)
  /-- Convert the pixel format. -/
  | pixelFormat (format : String)
deriving DecidableEq

namespace Filter

/-- Frames played `speed` times as fast. -/
def atSpeed (speed : Single) : Filter := .retime speed.reciprocal

/-- The filter's name in a filter graph. -/
def name : Filter → String
  | scale .. => "scale"
  | overlay .. => "overlay"
  | overlayCenter => "overlay"
  | colorKey .. => "colorkey"
  | retime .. => "setpts"
  | drawBox .. => "drawbox"
  | boxBlur .. => "boxblur"
  | curves .. => "curves"
  | rotate .. => "rotate"
  | tempo .. => "atempo"
  | drawText .. => "drawtext"
  | crop .. => "crop"
  | volume .. => "volume"
  | echo .. => "aecho"
  | pixelFormat .. => "format"

/-- How many streams the filter reads. -/
def arity : Filter → Nat
  | overlay .. => 2
  | overlayCenter => 2
  | _ => 1

/-- Whether the filter can be switched on and off over time. -/
def acceptsGate : Filter → Bool
  | drawBox .. => true
  | curves .. => true
  | drawText .. => true
  | volume .. => true
  | _ => false

/-- The filter's text in a filter graph, without labels and gate. -/
def description : Filter → String
  | scale width height squarePixels =>
    "scale=" ++ intText width ++ ":" ++ intText height ++ if squarePixels then ",setsar=1:1" else ""
  | overlay x y => "overlay=" ++ x ++ ":" ++ y
  | overlayCenter => "overlay=main_w/2-overlay_w/2:main_h/2-overlay_h/2"
  | colorKey color similarity => "colorkey=" ++ color ++ ":" ++ similarity.text
  | retime factor => "setpts=" ++ factor.text ++ "*PTS"
  | drawBox x y width height color thickness =>
    "drawbox=x=" ++ intText x ++ ":y=" ++ intText y ++ ":w=" ++ intText width
      ++ ":h=" ++ intText height ++ ":color=" ++ color ++ ":t=" ++ thickness
  | boxBlur lumaRadius chromaRadius lumaPower =>
    "boxblur=luma_radius=" ++ lumaRadius ++ ":chroma_radius=" ++ chromaRadius
      ++ ":luma_power=" ++ natText lumaPower
  | curves preset => "curves=preset=" ++ preset
  | rotate angle => "rotate=" ++ angle
  | tempo speed => "atempo=" ++ speed.textTwoPlaces
  | drawText text x y fontColor fontSize =>
    "drawtext=text=" ++ OptionValue.quote text ++ ":fontsize=" ++ natText fontSize
      ++ ":fontcolor=" ++ fontColor ++ ":x=" ++ x ++ ":y=" ++ y
  | crop width height x y => "crop=" ++ width ++ ":" ++ height ++ ":" ++ x ++ ":" ++ y
  | volume level => "volume=" ++ level.text
  | echo inGain outGain delays decays =>
    "aecho=" ++ inGain.text ++ ":" ++ outGain.text ++ ":" ++ delays ++ ":" ++ decays
  | pixelFormat format => "format=pix_fmts=" ++ format

end Filter

/-! ## Gates

A gate says during which part of the time line a filter is active: by an expression of
the media processor, or by a first and a last second.
-/

/-- When a filter is active. -/
structure Gate where
  /-- An expression; unless it is empty it wins over the bounds. -/
  expression : Option String := none
  /-- Active from this second on. -/
  since : Option Double := none
  /-- Active up to this second. -/
  till : Option Double := none
deriving DecidableEq

namespace Gate

/-- The condition made of the two bounds. -/
def bounds? (g : Gate) : Option String :=
  match g.since, g.till with
  | some s, some t => some ("between(t, " ++ s.textTwoPlaces ++ ", " ++ t.textTwoPlaces ++ ")")
  | some s, none => some ("gte(t, " ++ s.textTwoPlaces ++ ")")
  | none, some t => some ("lte(t, " ++ t.textTwoPlaces ++ ")")
  | none, none => none

/-- The condition under which the filter is active; none if it always is. -/
def condition? (g : Gate) : Option String :=
  match g.expression with
  | some e => if e = "" then g.bounds? else some e
  | none => g.bounds?

/-- A filter's text with the gate attached. -/
def attach (g : Gate) (description : String) : String :=
  match g.condition? with
  | some c => description ++ ":enable='" ++ c ++ "'"
  | none => description

end Gate

end Filtergraph
