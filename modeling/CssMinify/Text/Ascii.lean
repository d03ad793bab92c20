/-!
Case folding and character classes limited to ASCII. CSS keywords are compared without regard to the
case of ASCII letters; every other character stands for itself.
-/

namespace CssMinify.Text

/-- Folds ASCII letters to lower case and leaves every other character alone. -/
def lower (s : String) : String := String.ofList (s.toList.map Char.toLower)

/-- Two texts that differ at most in the case of ASCII letters. -/
def sameFolded (a b : String) : Bool := lower a == lower b

/-- Is `s` one of `words`, up to the case of ASCII letters? -/
def isOneOf (words : List String) (s : String) : Bool := words.any (sameFolded · s)

def isHexDigit (c : Char) : Bool :=
  c.isDigit || ('a' ≤ c && c ≤ 'f') || ('A' ≤ c && c ≤ 'F')

/-- The value of a hexadecimal digit. -/
def hexValue? (c : Char) : Option Nat :=
  if c.isDigit then some (c.toNat - '0'.toNat)
  else if 'a' ≤ c && c ≤ 'f' then some (c.toNat - 'a'.toNat + 10)
  else if 'A' ≤ c && c ≤ 'F' then some (c.toNat - 'A'.toNat + 10)
  else none

def isAscii (c : Char) : Bool := c.toNat < 128

theorem sameFolded_comm (a b : String) : sameFolded a b = sameFolded b a :=
  Bool.beq_comm

theorem sameFolded_self (a : String) : sameFolded a a = true := by
  simp [sameFolded]

end CssMinify.Text
