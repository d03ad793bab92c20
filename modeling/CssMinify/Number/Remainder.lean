/-!
The exact remainder of a double by a natural number.
-/

namespace CssMinify

namespace Number

/-- What is left of `x` after taking `n` away as often as it goes, with the sign of `x`. Every double is
a whole number times a power of two, so the remainder is computed on whole numbers and is exact. -/
def remainder (x : Float) (n : Nat) : Float :=
  let bits := x.toBits.toNat
  let negative := bits / Nat.pow 2 63 == 1
  let biased := bits / Nat.pow 2 52 % Nat.pow 2 11
  let fraction := bits % Nat.pow 2 52
  if biased == 2047 then 0 / 0
  else
    let significand := if biased == 0 then fraction else fraction + Nat.pow 2 52
    let exponent : Int := (if biased == 0 then 1 else biased : Nat) - 1075
    let rest := significand * Nat.pow 2 exponent.toNat % (n * Nat.pow 2 (-exponent).toNat)
    let absolute := (Float.ofNat rest).scaleB (if exponent < 0 then exponent else 0)
    if negative then -absolute else absolute

end Number

end CssMinify
