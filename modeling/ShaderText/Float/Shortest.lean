/-!
# The shortest decimal in an interval

A `Decimal` is `coefficient · 10 ^ exponent`. A `RoundingInterval` holds the reals that round to one
dyadic value: its ends and the value itself, all counted in units of one power of two, and whether
the ends belong to it. `RoundingInterval.shortest` is a decimal of the interval with the fewest
digits, and of those the nearest to the value.

The decimals with exponent `k` are a grid of step `10 ^ k`, each grid contained in the next finer
one. So the fewest digits are those of the coarsest grid that meets the interval, and a grid meets
it only in one of the two neighbours of the value (`onGrid?`). The search goes from a grid coarser
than the interval down to one on which the value itself lies, and so always ends with a hit.

Comparisons are exact: a decimal `c · 10 ^ k` and a dyadic number `x · 2 ^ s` are multiplied by the
same powers until both are natural numbers (`scaledDecimal`, `scaledDyadic`).
-/

namespace ShaderText

/-- The number `coefficient · 10 ^ exponent`. -/
structure Decimal where
  coefficient : Nat
  exponent : Int
  deriving DecidableEq, Repr

/-- The reals between `low · 2 ^ unit` and `high · 2 ^ unit`, around `value · 2 ^ unit`. -/
structure RoundingInterval where
  low : Nat
  value : Nat
  high : Nat
  /-- Whether the ends belong to the interval. -/
  closed : Bool
  /-- The binary exponent of the unit that the ends and the value are counted in. -/
  unit : Int

namespace RoundingInterval

/-- The decimal `c · 10 ^ k`, scaled to be compared on the grid `k` in units of `2 ^ s`. -/
def scaledDecimal (k s : Int) (c : Nat) : Nat := c * Nat.pow 10 k.toNat * Nat.pow 2 (-s).toNat

/-- The dyadic number `x · 2 ^ s`, scaled to be compared on the grid `k`. -/
def scaledDyadic (k s : Int) (x : Nat) : Nat := x * Nat.pow 2 s.toNat * Nat.pow 10 (-k).toNat

/-- Whether the interval holds a decimal. -/
def contains (i : RoundingInterval) (d : Decimal) : Bool :=
  let x := scaledDecimal d.exponent i.unit d.coefficient
  let low := scaledDyadic d.exponent i.unit i.low
  let high := scaledDyadic d.exponent i.unit i.high
  if i.closed then low ≤ x ∧ x ≤ high else low < x ∧ x < high

/-- The largest coefficient on the grid `k` that is not above the value. -/
def floorOn (i : RoundingInterval) (k : Int) : Nat :=
  scaledDyadic k i.unit i.value / scaledDecimal k i.unit 1

/-- Whether the value is nearer to `c` than to `c + 1` on the grid `k`. -/
def isNearerToFloor (i : RoundingInterval) (k : Int) (c : Nat) : Bool :=
  2 * scaledDyadic k i.unit i.value < scaledDecimal k i.unit (2 * c + 1)

/-- The decimal of the interval on the grid `k` that is nearest to the value, the upper one of two
equally near. -/
def onGrid? (i : RoundingInterval) (k : Int) : Option Decimal :=
  let c := i.floorOn k
  let below := i.contains ⟨c, k⟩
  let above := i.contains ⟨c + 1, k⟩
  if below && (!above || i.isNearerToFloor k c) then some ⟨c, k⟩
  else if above then some ⟨c + 1, k⟩
  else none

/-- The first hit on the grids from `k` down to `k - n`, where the value lies on the last one. -/
def coarsest (i : RoundingInterval) (k : Int) : Nat → Decimal
  | 0 => ⟨i.floorOn k, k⟩
  | n + 1 => (i.onGrid? k).getD (i.coarsest (k - 1) n)

/-- An exponent whose power of ten is above the interval. -/
def topExponent (i : RoundingInterval) : Nat :=
  (Nat.toDigits 10 (i.high * Nat.pow 2 i.unit.toNat)).length

/-- The decimal of the interval with the fewest digits, and of those the nearest to the value. -/
def shortest (i : RoundingInterval) : Decimal :=
  i.coarsest i.topExponent (i.topExponent + (-i.unit).toNat)

end RoundingInterval

end ShaderText
