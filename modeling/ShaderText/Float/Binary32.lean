/-!
# Single precision values

A `Binary32` is a word of 32 bits, read as a sign, a biased exponent and a fraction. A finite value
has the magnitude `significand · 2 ^ exponent`; two values are the same only if their bits are, so
the zeros differ and each NaN is its own value.
-/

namespace ShaderText

/-- A single precision value, as its bits. -/
structure Binary32 where
  bits : UInt32
  deriving DecidableEq, Repr, Inhabited

namespace Binary32

/-- The largest finite value. -/
def largest : Binary32 := ⟨0x7f7fffff⟩

/-- The negative of `largest`. -/
def smallest : Binary32 := ⟨0xff7fffff⟩

/-- The number of fractions, which is `2 ^ 23`, and what the hidden bit adds to a fraction. -/
def fractionCount : Nat := 0x800000

/-- The low 23 bits. -/
def fraction (x : Binary32) : Nat := x.bits.toNat % fractionCount

/-- The eight bits above the fraction. -/
def biasedExponent (x : Binary32) : Nat := x.bits.toNat / fractionCount % 256

/-- The sign bit, above the others; it is set in the negative zero and may be set in a NaN. -/
def isNegative (x : Binary32) : Bool := 256 * fractionCount ≤ x.bits.toNat

def isFinite (x : Binary32) : Bool := x.biasedExponent ≠ 255

def isNaN (x : Binary32) : Bool := x.biasedExponent = 255 ∧ x.fraction ≠ 0

/-- The integer that the magnitude is a power of two times of. -/
def significand (x : Binary32) : Nat :=
  if x.biasedExponent = 0 then x.fraction else fractionCount + x.fraction

/-- The exponent of that power of two. -/
def exponent (x : Binary32) : Int := (max x.biasedExponent 1 : Nat) - 150

/-- The finite value that stands in for `x` where only finite values can be written: the nearer end
of the range for an infinity, the lower end for a NaN. -/
def clamped (x : Binary32) : Binary32 :=
  if x.isFinite then x else if x.isNaN || x.isNegative then smallest else largest

theorem isFinite_clamped (x : Binary32) : x.clamped.isFinite = true := by
  unfold clamped
  split
  · assumption
  split <;> decide

theorem clamped_of_isFinite {x : Binary32} (h : x.isFinite = true) : x.clamped = x := if_pos h

end Binary32

end ShaderText
