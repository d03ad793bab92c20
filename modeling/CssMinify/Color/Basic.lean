import CssMinify.Text.Ascii

/-!
Colors as four bytes, and their hexadecimal spelling.
-/

namespace CssMinify

structure Color where
  red : UInt8
  green : UInt8
  blue : UInt8
  alpha : UInt8
  deriving DecidableEq, Repr

namespace Color

def transparent : Color := ⟨0, 0, 0, 0⟩

/-- A color without transparency. -/
def isSolid (c : Color) : Bool := c.alpha == 255

/-- The two hexadecimal digits of a byte. -/
def hexPair (byte : UInt8) : List Char :=
  [Nat.digitChar (byte.toNat / 16), Nat.digitChar (byte.toNat % 16)]

/-- Are the two digits of a byte the same? -/
def isDoubled (byte : UInt8) : Bool := byte.toNat / 16 == byte.toNat % 16

/-- The hexadecimal spelling of the color without its alpha: three digits where that is exact, else
six. -/
def hex (c : Color) : String :=
  let bytes := [c.red, c.green, c.blue]
  let digits :=
    if bytes.all isDoubled then bytes.flatMap fun byte => (hexPair byte).take 1
    else bytes.flatMap hexPair
  String.ofList ('#' :: digits)

/-- The byte with these two digits. -/
def byteOf (high low : Nat) : UInt8 := UInt8.ofNat (16 * high + low)

/-- The color of three, four, six or eight digit values. -/
def ofDigits? : List Nat → Option Color
  | [r, g, b] => some ⟨byteOf r r, byteOf g g, byteOf b b, 255⟩
  | [r, g, b, a] => some ⟨byteOf r r, byteOf g g, byteOf b b, byteOf a a⟩
  | [r, r', g, g', b, b'] => some ⟨byteOf r r', byteOf g g', byteOf b b', 255⟩
  | [r, r', g, g', b, b', a, a'] => some ⟨byteOf r r', byteOf g g', byteOf b b', byteOf a a'⟩
  | _ => none

/-- The color of a hexadecimal spelling without its number sign. -/
def ofHex? (digits : String) : Option Color :=
  (digits.toList.mapM Text.hexValue?).bind ofDigits?

end Color

end CssMinify
