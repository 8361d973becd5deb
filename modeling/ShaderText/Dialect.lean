/-!
# Output dialects and pipeline stages

A shader is read as one version of the embedded language and written in one `Dialect`. Every choice
that depends on the dialect is one of the predicates of this module, so each version threshold is
written once.

* `Dialect.glslVersion?` is the version number of a desktop dialect; the embedded dialect has none,
  and no version predicate holds of it.
* `Dialect.all` lists the dialects from the oldest to the newest, which is also their `Ord`er.
-/

namespace ShaderText

/-- A language the text is written in. -/
inductive Dialect where
  /-- The embedded language, whatever its version. -/
  | essl
  /-- Desktop 1.10, compatibility profile. -/
  | compatibility
  | glsl130
  | glsl140
  | glsl150Core
  | glsl330Core
  | glsl400Core
  | glsl410Core
  | glsl420Core
  | glsl430Core
  | glsl440Core
  | glsl450Core
  deriving DecidableEq, Repr, Inhabited, Ord

/-- The stage of the pipeline a shader runs in. -/
inductive Stage where
  | vertex
  | fragment
  | compute
  deriving DecidableEq, Repr

namespace Dialect

/-- All dialects, ascending. -/
def all : List Dialect :=
  [essl, compatibility, glsl130, glsl140, glsl150Core, glsl330Core, glsl400Core, glsl410Core,
    glsl420Core, glsl430Core, glsl440Core, glsl450Core]

/-- The version of a desktop dialect. -/
def glslVersion? : Dialect → Option Nat
  | essl => none
  | compatibility => some 110
  | glsl130 => some 130
  | glsl140 => some 140
  | glsl150Core => some 150
  | glsl330Core => some 330
  | glsl400Core => some 400
  | glsl410Core => some 410
  | glsl420Core => some 420
  | glsl430Core => some 430
  | glsl440Core => some 440
  | glsl450Core => some 450

def isEssl (d : Dialect) : Bool := d == essl

/-- Desktop 1.30 replaced `attribute` and `varying` by `in` and `out`. -/
def isFrom130 (d : Dialect) : Bool := d.glslVersion?.any (130 ≤ ·)

/-- Desktop dialects that reject `centroid` and `invariant` on interface variables. -/
def isUpTo410 (d : Dialect) : Bool := d.glslVersion?.any (· ≤ 410)

/-- Desktop dialects that reject `invariant` on fragment inputs. -/
def isFrom420 (d : Dialect) : Bool := d.glslVersion?.any (420 ≤ ·)

/-- Precision qualifiers belong to the embedded language alone. -/
def writesPrecision (d : Dialect) : Bool := d.isEssl

theorem mem_all (d : Dialect) : d ∈ all := by cases d <;> decide

end Dialect

end ShaderText
