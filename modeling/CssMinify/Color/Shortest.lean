import CssMinify.Color.Function
import CssMinify.Color.Names

/-!
The shortest spelling of an opaque color.
-/

namespace CssMinify

namespace Color

/-- The shortest spelling of an opaque color. A name wins over digits only when it is shorter. -/
def spelling (c : Color) : String :=
  match c.name? with
  | some name => if Text.byteLength name < Text.byteLength c.hex then name else c.hex
  | none => c.hex

/-- The shortest spelling of an opaque color token. A translucent hexadecimal color is only folded to
lower case; for anything else that is no opaque color there is none. -/
def shortest? (token : String) : Option String :=
  let lower := Text.lower token
  let solidSpelling (c : Color) : Option String := if c.isSolid then some c.spelling else none
  match Text.afterStart? lower "#" with
  | some digits => do
    let c ← ofHex? digits
    if c.isSolid then some c.spelling else some lower
  | none =>
    if Text.contains lower "(" then (ofFunction? lower).bind solidSpelling
    else if lower == "transparent" then none
    else (ofName? lower).bind solidSpelling

end Color

end CssMinify
