/-!
# Operators and how they are written

Operators are closed enumerations, so none can be added without saying how it is written. The form
of an operator is all that the layout of an expression needs to know:

* a unary operator stands around its operand or is the call of a function (`UnaryForm`);
* a binary operator stands between its operands, inside parentheses, or takes an element or a member
  of its left operand (`BinaryForm`).

Parentheses always surround an operator, so no text depends on precedence. The product operators of
vectors and matrices are one operator to the language and share one form.
-/

namespace ShaderText

/-- An operator or function of one operand. -/
inductive UnaryOp where
  | negative
  | positive
  | logicalNot
  | vectorLogicalNot
  | bitwiseNot
  | postIncrement
  | postDecrement
  | preIncrement
  | preDecrement
  | radians
  | degrees
  | sin
  | cos
  | tan
  | asin
  | acos
  | atan
  | sinh
  | cosh
  | tanh
  | asinh
  | acosh
  | atanh
  | exp
  | log
  | exp2
  | log2
  | sqrt
  | inverseSqrt
  | abs
  | sign
  | floor
  | trunc
  | round
  | roundEven
  | ceil
  | fract
  | isNan
  | isInf
  | floatBitsToInt
  | floatBitsToUint
  | intBitsToFloat
  | uintBitsToFloat
  | packSnorm2x16
  | packUnorm2x16
  | packHalf2x16
  | unpackSnorm2x16
  | unpackUnorm2x16
  | unpackHalf2x16
  | length
  | normalize
  | dFdx
  | dFdy
  | fwidth
  | transpose
  | determinant
  | inverse
  | any
  | all
  deriving DecidableEq, Repr

/-- How a unary operator is written. -/
inductive UnaryForm where
  /-- Texts before and after the operand. -/
  | around (before after : String)
  /-- The call of a built-in function. -/
  | call (function : String)
  deriving DecidableEq, Repr

/-- The form of a unary operator. -/
def UnaryOp.form : UnaryOp → UnaryForm
  | negative => .around "(-" ")"
  | positive => .around "(+" ")"
  | logicalNot => .around "(!" ")"
  | bitwiseNot => .around "(~" ")"
  | postIncrement => .around "(" "++)"
  | postDecrement => .around "(" "--)"
  | preIncrement => .around "(++" ")"
  | preDecrement => .around "(--" ")"
  | vectorLogicalNot => .call "not"
  | radians => .call "radians"
  | degrees => .call "degrees"
  | sin => .call "sin"
  | cos => .call "cos"
  | tan => .call "tan"
  | asin => .call "asin"
  | acos => .call "acos"
  | atan => .call "atan"
  | sinh => .call "sinh"
  | cosh => .call "cosh"
  | tanh => .call "tanh"
  | asinh => .call "asinh"
  | acosh => .call "acosh"
  | atanh => .call "atanh"
  | exp => .call "exp"
  | log => .call "log"
  | exp2 => .call "exp2"
  | log2 => .call "log2"
  | sqrt => .call "sqrt"
  | inverseSqrt => .call "inversesqrt"
  | abs => .call "abs"
  | sign => .call "sign"
  | floor => .call "floor"
  | trunc => .call "trunc"
  | round => .call "round"
  | roundEven => .call "roundEven"
  | ceil => .call "ceil"
  | fract => .call "fract"
  | isNan => .call "isnan"
  | isInf => .call "isinf"
  | floatBitsToInt => .call "floatBitsToInt"
  | floatBitsToUint => .call "floatBitsToUint"
  | intBitsToFloat => .call "intBitsToFloat"
  | uintBitsToFloat => .call "uintBitsToFloat"
  | packSnorm2x16 => .call "packSnorm2x16"
  | packUnorm2x16 => .call "packUnorm2x16"
  | packHalf2x16 => .call "packHalf2x16"
  | unpackSnorm2x16 => .call "unpackSnorm2x16"
  | unpackUnorm2x16 => .call "unpackUnorm2x16"
  | unpackHalf2x16 => .call "unpackHalf2x16"
  | length => .call "length"
  | normalize => .call "normalize"
  | dFdx => .call "dFdx"
  | dFdy => .call "dFdy"
  | fwidth => .call "fwidth"
  | transpose => .call "transpose"
  | determinant => .call "determinant"
  | inverse => .call "inverse"
  | any => .call "any"
  | all => .call "all"

/-- An operator of two operands. -/
inductive BinaryOp where
  | comma
  | assign
  | addAssign
  | subAssign
  | divAssign
  | modAssign
  | mulAssign
  | vectorTimesMatrixAssign
  | vectorTimesScalarAssign
  | matrixTimesScalarAssign
  | matrixTimesMatrixAssign
  | shiftLeftAssign
  | shiftRightAssign
  | bitAndAssign
  | bitXorAssign
  | bitOrAssign
  /-- An element at a constant index. -/
  | constantIndex
  /-- An element at a computed index, which may be clamped. -/
  | computedIndex
  /-- A member of a struct, the right operand being its constant position. -/
  | structMember
  /-- A member of an interface block, the right operand being its constant position. -/
  | blockMember
  | add
  | sub
  | mul
  | div
  | mod
  | shiftLeft
  | shiftRight
  | bitAnd
  | bitXor
  | bitOr
  | equal
  | notEqual
  | less
  | greater
  | lessEqual
  | greaterEqual
  | vectorTimesScalar
  | vectorTimesMatrix
  | matrixTimesVector
  | matrixTimesScalar
  | matrixTimesMatrix
  | logicalOr
  | logicalXor
  | logicalAnd
  deriving DecidableEq, Repr

/-- How a binary operator is written. -/
inductive BinaryForm where
  /-- The text between the operands, inside parentheses. -/
  | between (separator : String)
  /-- The right operand in brackets after the left one, and whether it is computed. -/
  | index (computed : Bool)
  /-- The name of a member after the left operand. -/
  | member (ofBlock : Bool)
  deriving DecidableEq, Repr

/-- The form of a binary operator. -/
def BinaryOp.form : BinaryOp → BinaryForm
  | comma => .between ", "
  | assign => .between " = "
  | addAssign => .between " += "
  | subAssign => .between " -= "
  | divAssign => .between " /= "
  | modAssign => .between " %= "
  | mulAssign | vectorTimesMatrixAssign | vectorTimesScalarAssign | matrixTimesScalarAssign
  | matrixTimesMatrixAssign => .between " *= "
  | shiftLeftAssign => .between " <<= "
  | shiftRightAssign => .between " >>= "
  | bitAndAssign => .between " &= "
  | bitXorAssign => .between " ^= "
  | bitOrAssign => .between " |= "
  | constantIndex => .index false
  | computedIndex => .index true
  | structMember => .member false
  | blockMember => .member true
  | add => .between " + "
  | sub => .between " - "
  | mul | vectorTimesScalar | vectorTimesMatrix | matrixTimesVector | matrixTimesScalar
  | matrixTimesMatrix => .between " * "
  | div => .between " / "
  | mod => .between " % "
  | shiftLeft => .between " << "
  | shiftRight => .between " >> "
  | bitAnd => .between " & "
  | bitXor => .between " ^ "
  | bitOr => .between " | "
  | equal => .between " == "
  | notEqual => .between " != "
  | less => .between " < "
  | greater => .between " > "
  | lessEqual => .between " <= "
  | greaterEqual => .between " >= "
  | logicalOr => .between " || "
  | logicalXor => .between " ^^ "
  | logicalAnd => .between " && "

/-- A built-in function of several arguments. -/
inductive Intrinsic where
  | outerProduct
  | lessThan
  | greaterThan
  | lessThanEqual
  | greaterThanEqual
  | equal
  | notEqual
  | mod
  | modf
  | pow
  | atan
  | min
  | max
  | clamp
  | mix
  | step
  | smoothstep
  | distance
  | dot
  | cross
  | faceforward
  | reflect
  | refract
  | matrixCompMult
  deriving DecidableEq, Repr

/-- The name of a built-in function. -/
def Intrinsic.name : Intrinsic → String
  | outerProduct => "outerProduct"
  | lessThan => "lessThan"
  | greaterThan => "greaterThan"
  | lessThanEqual => "lessThanEqual"
  | greaterThanEqual => "greaterThanEqual"
  | equal => "equal"
  | notEqual => "notEqual"
  | mod => "mod"
  | modf => "modf"
  | pow => "pow"
  | atan => "atan"
  | min => "min"
  | max => "max"
  | clamp => "clamp"
  | mix => "mix"
  | step => "step"
  | smoothstep => "smoothstep"
  | distance => "distance"
  | dot => "dot"
  | cross => "cross"
  | faceforward => "faceforward"
  | reflect => "reflect"
  | refract => "refract"
  | matrixCompMult => "matrixCompMult"

end ShaderText
