import CssMinify.Text.Ascii
import CssMinify.Text.DecimalDigit
import CssMinify.Text.Search

/-!
Numbers in values. Decimal digits of every script count as digits here.
-/

namespace CssMinify

namespace Word

/-- Letters of a unit, or a percent sign. -/
def isUnitChar (c : Char) : Bool := c.isAlpha || c == '%'

/-- A number without an exponent, cut into its parts. -/
structure NumberParts where
  sign : List Char
  whole : List Char
  /-- The digits after the point, if there is a point. -/
  fraction : Option (List Char)
  unit : List Char
  deriving DecidableEq, Repr

def cutSign : List Char → List Char × List Char
  | c :: rest => if c == '+' || c == '-' then ([c], rest) else ([], c :: rest)
  | [] => ([], [])

/-- A point and the digits after it. -/
def cutFraction : List Char → Option (List Char) × List Char
  | '.' :: rest =>
    let (digits, rest) := rest.span Text.isDecimalDigit
    (some digits, rest)
  | s => (none, s)

/-- Cuts a text that is an optional sign, digits with at most one point, and a unit. Any of them may be
empty. -/
def numberParts? (token : String) : Option NumberParts :=
  let (sign, rest) := cutSign token.toList
  let (whole, rest) := rest.span Text.isDecimalDigit
  let (fraction, unit) := cutFraction rest
  if unit.all isUnitChar then some ⟨sign, whole, fraction, unit⟩ else none

/-- The length of an exponent at the start: a letter `e`, an optional sign and digits. -/
def exponentLength : List Char → Nat
  | c :: rest =>
    let (sign, digits) := cutSign rest
    let n := (digits.takeWhile Text.isDecimalDigit).length
    if (c == 'e' || c == 'E') && n != 0 then 1 + sign.length + n else 0
  | [] => 0

/-- The unit of a number, which may have an exponent. A number has at least one digit, and before a
point without digits after it at least one. -/
def unit? (token : String) : Option String :=
  let (_, rest) := cutSign token.toList
  let (whole, rest) := rest.span Text.isDecimalDigit
  let (fraction, rest) := cutFraction rest
  let unit := rest.drop (exponentLength rest)
  if (whole.isEmpty && (fraction.getD []).isEmpty) || !unit.all isUnitChar then none
  else some (String.ofList unit)

/-- A number whose leading ASCII digits are all zero. -/
def isZero (token : String) : Bool :=
  let digits := (token.toList.dropWhile fun c => c == '+' || c == '-').takeWhile fun c =>
    c.isDigit || c == '.'
  (unit? token).isSome && digits.all fun c => c == '0' || c == '.'

/-- The shortest text of a number: no zeros in front of it or behind its fraction, no point without a
fraction, and no sign if it is zero. -/
def NumberParts.print (p : NumberParts) : String :=
  let whole := p.whole.dropWhile (· == '0')
  let fraction := ((p.fraction.getD []).reverse.dropWhile (· == '0')).reverse
  String.ofList <|
    match whole, fraction with
    | [], [] => '0' :: p.unit
    | whole, [] => p.sign ++ whole ++ p.unit
    | whole, fraction => p.sign ++ whole ++ '.' :: fraction ++ p.unit

/-- A shorter text of a number without an exponent, if there is one. -/
def minifyNumber? (token : String) : Option String :=
  match numberParts? token with
  | some parts =>
    if parts.whole.isEmpty && (parts.fraction.getD []).isEmpty then none
    else if parts.print == token then none
    else some parts.print
  | none => none

/-- Units in which zero is the same length. -/
def lengthUnits : List String :=
  ["px", "em", "ex", "ch", "rem", "vh", "vw", "vmin", "vmax", "cm", "mm", "q", "in", "pt", "pc"]

/-- Is the token a number without an exponent in a unit of length? -/
def hasLengthUnit (token : String) : Bool :=
  (numberParts? token).any fun parts => Text.isOneOf lengthUnits (String.ofList parts.unit)

end Word

end CssMinify
