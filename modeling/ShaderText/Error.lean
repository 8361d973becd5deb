import ShaderText.Node

/-!
# Errors of rendering

A tree that cannot be written has a cause, a `RenderError`, and a pass that meets one yields nothing
else. `RenderError.message` is the only place where causes are put into words.
-/

namespace ShaderText

/-- A construct that lacks a part it cannot be written without. -/
inductive Malformation where
  | leftoverValues (count : Nat)
  | untypedIndexed
  | fieldIndexNotConstant
  | untypedOwner
  | swizzleOffset
  | emptyDeclaration
  | conditionlessLoop (kind : LoopKind)
  | missingStructDef
  | missingBlockDef
  deriving DecidableEq, Repr

/-- The words for a malformation: the construct, and what is wrong with it. -/
def Malformation.message : Malformation → String
  | leftoverValues count => "constant: " ++ count.repr ++ " values left over after rendering"
  | untypedIndexed => "indexing: indexed operand is not an expression"
  | fieldIndexNotConstant => "field access: field index is not an integer constant"
  | untypedOwner => "field access: operand is not an expression"
  | swizzleOffset => "swizzle: component offset above 3"
  | emptyDeclaration => "declaration: no declarators"
  | conditionlessLoop kind => "loop: " ++ kind.label ++ " loop without a condition"
  | missingStructDef => "struct type: no struct definition attached"
  | missingBlockDef => "interface block type: no block definition attached"

/-- The largest number of copies a loop is unrolled into, which is `2 ^ 20`. -/
def maxCopies : Nat := 1048576

/-- Why a loop cannot be unrolled. -/
inductive UnrollObstacle where
  | notForLoop
  | initNotDeclaration
  | notOneVariable
  | notScalarInt
  | startNotConstant
  | notComparison
  | otherVariableTested
  | boundNotConstant
  | otherVariableStepped
  | unsupportedStep
  | stepNotConstant
  | zeroStep
  | neverTerminates
  | tooManyIterations (iterations : Nat)
  deriving DecidableEq, Repr

def UnrollObstacle.message : UnrollObstacle → String
  | notForLoop => "only for loops can be unrolled"
  | initNotDeclaration => "initializer is not a declaration"
  | notOneVariable => "initializer must declare exactly one variable"
  | notScalarInt => "induction variable must be a scalar int"
  | startNotConstant => "induction variable must start at an integer constant"
  | notComparison => "condition is not a comparison"
  | otherVariableTested => "condition does not test the induction variable"
  | boundNotConstant => "loop bound is not an integer constant"
  | otherVariableStepped => "step does not update the induction variable"
  | unsupportedStep => "unsupported step operator"
  | stepNotConstant => "step is not an integer constant"
  | zeroStep => "step is zero"
  | neverTerminates => "loop never terminates"
  | tooManyIterations iterations =>
    iterations.repr ++ " iterations exceed the limit of " ++ maxCopies.repr

/-- Why a tree cannot be rendered. -/
inductive RenderError where
  | malformed (cause : Malformation)
  | zeroLengthArray (operand : String)
  | constantUnderflow (type : String) (needed available : Nat)
  | fieldIndexOutOfRange (owner : String) (index : Int) (count : Nat)
  | memoryQualifierOnNonImage (keyword : String)
  | imageFormatContext (qualifier : Qualifier)
  | unroll (obstacle : UnrollObstacle)
  | unnamedType (basic : BasicType) (cols rows : Nat)
  | undeclaredMemberStruct (name : String)
  deriving DecidableEq, Repr

namespace RenderError

/-- The number a message shows for an index; a negative one is the largest 64-bit number. -/
def shownIndex (index : Int) : Nat := if index < 0 then 0xffffffffffffffff else index.toNat

/-- The words for an error. -/
def message : RenderError → String
  | malformed cause => "malformed " ++ cause.message
  | zeroLengthArray operand => "zero-length array `" ++ operand ++ "` reached index clamping"
  | constantUnderflow type needed available =>
    "constant of type `" ++ type ++ "` needs " ++ needed.repr ++ " values but only " ++
      available.repr ++ " remain"
  | fieldIndexOutOfRange owner index count =>
    "field index " ++ (shownIndex index).repr ++ " out of range for `" ++ owner ++ "` with " ++
      count.repr ++ " fields"
  | memoryQualifierOnNonImage keyword => "memory qualifier `" ++ keyword ++ "` on a non-image type"
  | imageFormatContext qualifier =>
    "image format layout on a `" ++ qualifier.label ++ "` declaration"
  | unroll obstacle => "cannot unroll loop: " ++ obstacle.message
  | unnamedType basic cols rows =>
    "type has no spelling: " ++ basic.label ++ " " ++ cols.repr ++ "x" ++ rows.repr
  | undeclaredMemberStruct name =>
    "struct `" ++ name ++ "` is used as a member type before its declaration"

end RenderError

end ShaderText
