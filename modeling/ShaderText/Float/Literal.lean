import ShaderText.Float.Binary32
import ShaderText.Float.Shortest

/-!
# Float literals

`Binary32.literal` writes a value so that it reads back as that value. A finite value is written
with the fewest digits that do so: positionally and with at least one digit after the point below
`10 ^ 7`, and with one digit before the point and an exponent from there on. A value that is not
finite is written as its bits where the language can reinterpret them, and otherwise clamped into
the finite range.
-/

namespace ShaderText

namespace Decimal

/-- The digits of the coefficient. -/
def digits (d : Decimal) : List Char := Nat.toDigits 10 d.coefficient

/-- The power of ten that the first digit counts. -/
def leadingExponent (d : Decimal) : Int := d.digits.length - 1 + d.exponent

/-- The least power of ten from which an exponent is written. -/
def scientificFrom : Int := 7

/-- All digits in place, with at least one on each side of the point. -/
def positional (d : Decimal) : List Char :=
  if 0 ≤ d.exponent then d.digits ++ List.replicate d.exponent.toNat '0' ++ ['.', '0']
  else
    let places := (-d.exponent).toNat
    let padded := List.replicate (places + 1 - d.digits.length) '0' ++ d.digits
    padded.take (padded.length - places) ++ '.' :: padded.drop (padded.length - places)

/-- The first digit, the others after a point if there are any, and the exponent. -/
def scientific (d : Decimal) : List Char :=
  let rest := d.digits.drop 1
  d.digits.take 1 ++ (if rest.isEmpty then [] else '.' :: rest) ++
    'e' :: d.leadingExponent.repr.toList

def literal (d : Decimal) : List Char :=
  if d.leadingExponent < scientificFrom then d.positional else d.scientific

end Decimal

namespace Binary32

/-- The reals that round to the magnitude of `x`, counted in quarters of its last place. They reach
half a place up and down, but only a quarter down from a power of two, where the places below are
half as wide; both ends round to an even significand. -/
def roundingInterval (x : Binary32) : RoundingInterval where
  low := if x.fraction = 0 ∧ 1 < x.biasedExponent then 4 * x.significand - 1
    else 4 * x.significand - 2
  value := 4 * x.significand
  high := 4 * x.significand + 2
  closed := x.significand % 2 = 0
  unit := x.exponent - 2

/-- The decimal that the magnitude of a finite value is written as. -/
def shortestDecimal (x : Binary32) : Decimal :=
  if x.significand = 0 then ⟨0, 0⟩ else x.roundingInterval.shortest

/-- The literal of a finite value. -/
def finiteLiteral (x : Binary32) : String :=
  (if x.isNegative then "-" else "") ++ String.ofList x.shortestDecimal.literal

/-- The literal of a value, where `bitCast` says whether bits can be reinterpreted. -/
def literal (bitCast : Bool) (x : Binary32) : String :=
  if !x.isFinite && bitCast then "uintBitsToFloat(" ++ x.bits.toNat.repr ++ "u)"
  else x.clamped.finiteLiteral

end Binary32

end ShaderText
