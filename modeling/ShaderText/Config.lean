import ShaderText.Dialect

/-!
# What a pass is configured with

A `Config` is fixed for a pass. The queries below it say everything else a pass wants to know about
its target, so no other module compares version numbers.
-/

namespace ShaderText

/-- How a computed index is kept in range. -/
inductive Clamping where
  /-- By the built-in `clamp` on floats. -/
  | byIntrinsic
  /-- By a helper on integers that the caller provides. -/
  | byHelper
  deriving DecidableEq, Repr

/-- The settings of a pass. -/
structure Config where
  /-- The dialect written. -/
  output : Dialect := .essl
  /-- The version of the source language. -/
  version : Nat := 100
  stage : Stage := .fragment
  clamping : Clamping := .byIntrinsic
  /-- The hash of user identifiers; without one they are left as they are. -/
  hash? : Option (String → UInt64) := none
  /-- Drops `invariant` and `centroid` that old desktop dialects reject in version 300. -/
  stripInvariantAndCentroid : Bool := false
  /-- Keeps `invariant` in fragment shaders where new desktop dialects reject it. -/
  keepFragmentInvariant : Bool := false

namespace Config

instance : Inhabited Config := ⟨{}⟩

/-- Whether precision qualifiers are written. -/
def writesPrecision (c : Config) : Bool := c.output.writesPrecision

/-- Whether the source language can reinterpret bits as a float. -/
def supportsBitCast (c : Config) : Bool := 300 ≤ c.version

/-- Whether `centroid` is dropped. -/
def stripsCentroid (c : Config) : Bool :=
  c.stripInvariantAndCentroid && 300 ≤ c.version && c.output.isUpTo410

/-- Whether `invariant` is dropped. -/
def removesInvariant (c : Config) : Bool :=
  (c.stage == .fragment && c.output.isFrom420 && !c.keepFragmentInvariant) ||
    (c.stage == .vertex && c.stripsCentroid)

end Config

end ShaderText
