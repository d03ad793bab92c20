import CssMinify.Text.Ascii

/-!
Reading decimal numbers as doubles. The double is the one nearest to the number that is written, and of
two that are equally near the one with the even significand.
-/

namespace CssMinify

namespace Number

/-- The natural number nearest to `num / den`; a half goes to the even neighbour. -/
def roundQuotient (num den : Nat) : Nat :=
  let q := num / den
  let r := num % den
  if 2 * r < den then q
  else if den < 2 * r then q + 1
  else q + q % 2

/-- The double nearest to `num / den`. Its significand has 53 bits, unless the value is so small that
the least exponent leaves fewer. -/
def nearestDouble (num den : Nat) : Float :=
  if num == 0 then 0
  else
    let scaled (e : Int) : Nat × Nat := (num * Nat.pow 2 (-e).toNat, den * Nat.pow 2 e.toNat)
    let guess : Int := (num.log2 : Int) - (den.log2 : Int) - 52
    let (n, d) := scaled guess
    let ideal := if n / d < Nat.pow 2 52 then guess - 1 else guess
    let exponent := if ideal < -1074 then -1074 else ideal
    let (n, d) := scaled exponent
    (Float.ofNat (roundQuotient n d)).scaleB exponent

/-- A number as it is written: a significand, and the power of ten to multiply it with. -/
structure Decimal where
  negative : Bool
  significand : Nat
  exponent : Int

namespace Decimal

/-- The double nearest to a decimal. Beyond the range of doubles it is infinite or zero; how many digits
the significand has tells so without computing the power. -/
def toDouble (d : Decimal) : Float :=
  let magnitude : Int := (Nat.toDigits 10 d.significand).length + d.exponent
  let absolute : Float :=
    if d.significand == 0 || magnitude < -400 then 0
    else if 400 < magnitude then 1 / 0
    else nearestDouble (d.significand * Nat.pow 10 d.exponent.toNat) (Nat.pow 10 (-d.exponent).toNat)
  if d.negative then -absolute else absolute

end Decimal

/-- The number that a list of ASCII digits writes. -/
def ofDigits (digits : List Char) : Nat :=
  digits.foldl (fun n c => 10 * n + (c.toNat - '0'.toNat)) 0

/-- Cuts a sign off. -/
def readSign : List Char → Bool × List Char
  | '-' :: rest => (true, rest)
  | '+' :: rest => (false, rest)
  | s => (false, s)

/-- Reads an exponent, if there is one, up to the end. -/
def readExponent? : List Char → Option Int
  | [] => some 0
  | c :: rest =>
    if c == 'e' || c == 'E' then
      let (negative, digits) := readSign rest
      if digits.isEmpty || !digits.all Char.isDigit then none
      else some (if negative then -(ofDigits digits : Int) else ofDigits digits)
    else none

/-- Reads digits with at most one point among them and an exponent after them. -/
def readDecimal? (negative : Bool) (s : List Char) : Option Decimal :=
  let (whole, rest) := s.span Char.isDigit
  let (fraction, rest) := match rest with
    | '.' :: rest => rest.span Char.isDigit
    | rest => ([], rest)
  if whole.isEmpty && fraction.isEmpty then none
  else (readExponent? rest).map fun exponent =>
    ⟨negative, ofDigits (whole ++ fraction), exponent - fraction.length⟩

/-- Reads a double: a decimal, or the name of infinity or of no number, with an optional sign. -/
def readDouble? (s : List Char) : Option Float :=
  let (negative, rest) := readSign s
  let word := Text.lower (String.ofList rest)
  if word == "inf" || word == "infinity" then some (if negative then -1 / 0 else 1 / 0)
  else if word == "nan" then some (0 / 0)
  else (readDecimal? negative rest).map Decimal.toDouble

end Number

end CssMinify
