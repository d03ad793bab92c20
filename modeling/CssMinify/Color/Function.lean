import CssMinify.Color.Basic
import CssMinify.Number.Decimal
import CssMinify.Number.Remainder
import CssMinify.Text.Search

/-!
Colors written as `rgb()`, `rgba()`, `hsl()` and `hsla()`. Channels are computed with doubles and
rounded to bytes.
-/

namespace CssMinify

namespace Color

/-- Keeps a number that is none. -/
def clamp (low high x : Float) : Float :=
  if x < low then low else if high < x then high else x

/-- The byte nearest to a channel value; a half goes away from zero, and no number is zero. -/
def channel (x : Float) : UInt8 := (clamp 0 255 x.round).toUInt8

/-- An argument of a color function, and whether it is a percentage. -/
structure Argument where
  value : Float
  percent : Bool

namespace Argument

def ofText? (text : String) : Option Argument :=
  match Text.beforeEnd? text "%" with
  | some digits => (Number.readDouble? digits.toList).map (⟨·, true⟩)
  | none => (Number.readDouble? text.toList).map (⟨·, false⟩)

/-- A red, green or blue channel. -/
def toChannel (a : Argument) : UInt8 :=
  channel (if a.percent then a.value * (255 / 100) else a.value)

def toAlpha (a : Argument) : UInt8 :=
  channel ((if a.percent then a.value / 100 else a.value) * 255)

end Argument

/-- One channel of a color given by hue, where `t` is the hue turned to that channel. -/
def hueChannel (p q t : Float) : UInt8 :=
  let t := if t < 0 then t + 1 else t
  let t := if 1 < t then t - 1 else t
  let x :=
    if t < 1 / 6 then p + (q - p) * 6 * t
    else if t < 1 / 2 then q
    else if t < 2 / 3 then p + (q - p) * (2 / 3 - t) * 6
    else p
  channel (x * 255)

/-- The color of a hue in degrees, a saturation and a lightness. -/
def ofHue (hue saturation lightness : Float) (alpha : UInt8) : Color :=
  if saturation == 0 then
    let gray := channel (lightness * 255)
    ⟨gray, gray, gray, alpha⟩
  else
    let q :=
      if lightness < 1 / 2 then lightness * (1 + saturation)
      else lightness + saturation - lightness * saturation
    let p := 2 * lightness - q
    let turn := hue / 360
    ⟨hueChannel p q (turn + 1 / 3), hueChannel p q turn, hueChannel p q (turn - 1 / 3), alpha⟩

/-- Drops every `deg` at the end, given the characters in reverse. -/
def dropDegrees : List Char → List Char
  | 'g' :: 'e' :: 'd' :: rest => dropDegrees rest
  | s => s

/-- Reads `hue saturation lightness`, the last two in percent. -/
def ofHueArguments? (hue saturation lightness : String) (alpha : UInt8) : Option Color := do
  let hue ← Argument.ofText? (String.ofList (dropDegrees hue.toList.reverse).reverse)
  let saturation ← Argument.ofText? saturation
  let lightness ← Argument.ofText? lightness
  if saturation.percent && lightness.percent then
    let degrees := Number.remainder (Number.remainder hue.value 360 + 360) 360
    some (ofHue degrees (clamp 0 1 (saturation.value / 100)) (clamp 0 1 (lightness.value / 100)) alpha)
  else none

/-- Reads three color channels. -/
def ofChannelArguments? (red green blue : String) (alpha : UInt8) : Option Color := do
  let red ← Argument.ofText? red
  let green ← Argument.ofText? green
  let blue ← Argument.ofText? blue
  some ⟨red.toChannel, green.toChannel, blue.toChannel, alpha⟩

/-- The color that a function of this name has at three arguments and an alpha. -/
def ofArguments? (name a b c : String) (alpha : UInt8) : Option Color :=
  if name == "rgb" || name == "rgba" then ofChannelArguments? a b c alpha
  else if name == "hsl" || name == "hsla" then ofHueArguments? a b c alpha
  else none

def isArgumentSeparator (c : Char) : Bool := c == ',' || c == ' ' || c == '/'

/-- The arguments of a color function, empty ones dropped. -/
def argumentTexts (inner : String) : List String :=
  ((splitWhere isArgumentSeparator inner.toList).filter (!·.isEmpty)).map String.ofList

/-- The color that a function denotes, such as `rgba(0,0,0,.5)`. -/
def ofFunction? (text : String) : Option Color := do
  let (name, rest) ← Text.cutAtFirst? '(' (Text.lower text)
  let inner ← Text.beforeEnd? rest ")"
  match argumentTexts inner with
  | [a, b, c] => ofArguments? name a b c 255
  | [a, b, c, d] => ofArguments? name a b c (← Argument.ofText? d).toAlpha
  | _ => none

end Color

end CssMinify
