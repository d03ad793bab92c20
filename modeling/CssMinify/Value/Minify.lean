import CssMinify.Color.Shortest
import CssMinify.Sheet.Basic
import CssMinify.Value.Word

/-!
Shortening the tokens of a single declaration, so that equal values become equal texts: `#FF0000` and
`red` both become `red`, `0px` and `0` both become `0`.
-/

namespace CssMinify

/-- Properties for which zero with a unit is not the same as zero without. -/
def zeroUnitProperties : List String :=
  ["flex", "-ms-flex", "-webkit-flex", "flex-basis", "-webkit-flex-basis"]

def colorProperties : List String :=
  ["background", "border", "border-top", "border-right", "border-bottom", "border-left", "box-shadow",
   "color", "column-rule", "fill", "outline", "stroke", "text-decoration", "text-shadow"]

/-- May a value of this property hold a color? -/
def carriesColor (name : String) : Bool :=
  Text.endsWith name "-color" || colorProperties.contains name

/-- Shortens a token: first as a number, then as a zero length, then as a color. -/
def Word.minify (zeroUnits colors : Bool) (token : String) : String :=
  let token := (minifyNumber? token).getD token
  let token := if zeroUnits && isZero token && hasLengthUnit token then "0" else token
  if colors && isColor token then (Color.shortest? token).getD token else token

namespace Declaration

/-- Declarations whose values are left as they are: custom properties, hacks, filters, font sources, and
whatever refers to a custom property. -/
def keepsValue (d : Declaration) : Bool :=
  isCustomName d.name || d.hack != .none || Text.sameFolded d.name "filter"
    || Text.sameFolded d.name "src" || d.value.any Word.isVariable

/-- Shortens every token of a declaration's value. -/
def minify (profile : Profile) (d : Declaration) : Declaration :=
  if d.keepsValue then d
  else
    let name := Text.lower d.name
    let colors := profile.properties.colors && carriesColor name
    let zeroUnits := profile.properties.zeroUnits && !zeroUnitProperties.contains name
    { d with value := d.value.map (Word.minify zeroUnits colors) }

end Declaration

end CssMinify
