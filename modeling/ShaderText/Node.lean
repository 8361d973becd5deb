import ShaderText.Float.Binary32
import ShaderText.Operator
import ShaderText.Type

/-!
# The tree of a shader

A `Node` is an expression, a statement or a definition; a tree may put any of them anywhere, and is
not checked before it is rendered. Expressions carry their type.

* `Node.type?` is the type of an expression, and of a prototype the type it returns.
* `Node.isSimpleStatement` tells the statements that a semicolon ends.
* `Node.asInt?` is the value of a node that is a single integer constant.
-/

namespace ShaderText

/-- The identity of a variable, whatever its name. -/
structure SymbolId where
  value : Nat
  deriving DecidableEq, Repr

/-- An identifier, chosen by the user or made up by the compiler. -/
structure Name where
  text : String
  isInternal : Bool := false
  deriving DecidableEq, Repr

/-- A function name with its parameters encoded after the first parenthesis. -/
structure FunctionName where
  mangled : String
  isInternal : Bool := false
  deriving DecidableEq, Repr

/-- A variable, where it is declared and where it is used. -/
structure Variable where
  id : SymbolId
  name : Name
  type : ShaderType

/-- A single value of a constant. -/
inductive Scalar where
  | float (value : Binary32)
  | int (value : Int32)
  | uint (value : UInt32)
  | bool (value : Bool)
  deriving DecidableEq, Repr

/-- What is applied to a list of arguments. -/
inductive Callee where
  | function (name : FunctionName)
  /-- The constructor of the type of the call. -/
  | constructor
  | intrinsic (op : Intrinsic)
  deriving DecidableEq, Repr

/-- The head of a function. -/
structure Prototype where
  name : FunctionName
  returnType : ShaderType
  parameters : List Variable

inductive LoopKind where
  | forLoop
  | whileLoop
  | doWhileLoop
  deriving DecidableEq, Repr

/-- The word for a kind of loop in a message. -/
def LoopKind.label : LoopKind → String
  | forLoop => "For"
  | whileLoop => "While"
  | doWhileLoop => "DoWhile"

inductive BranchKind where
  | discard
  | break
  | continue
  | return
  deriving DecidableEq, Repr

mutual

/-- A node of the tree. -/
inductive Node where
  | symbol (var : Variable)
  | constant (type : ShaderType) (values : List Scalar)
  | unary (op : UnaryOp) (operand : Node) (type : ShaderType) (emulated : Bool)
  | binary (op : BinaryOp) (left right : Node) (type : ShaderType) (clamped : Bool)
  | ternary (condition whenTrue whenFalse : Node) (type : ShaderType)
  | swizzle (operand : Node) (offsets : List Nat) (type : ShaderType)
  | call (callee : Callee) (arguments : List Node) (type : ShaderType) (emulated : Bool)
  | prototype (head : Prototype)
  | invariantDeclaration (var : Variable)
  | declaration (declarators : List Declarator)
  | block (statements : List Node)
  | ifElse (condition : Node) (whenTrue whenFalse : Option (List Node))
  | switch (selector : Node) (body : Option (List Node))
  | case (label : Option Node)
  | loop (kind : LoopKind) (init condition step : Option Node) (body : Option (List Node))
      (unroll : Bool)
  | branch (kind : BranchKind) (value : Option Node)
  | function (head : Prototype) (body : List Node)

/-- A variable that a declaration introduces, with its initial value. -/
structure Declarator where
  var : Variable
  initializer : Option Node

end

namespace Node

/-- The type of an expression. -/
def type? : Node → Option ShaderType
  | symbol v => some v.type
  | constant type _ => some type
  | unary _ _ type _ => some type
  | binary _ _ _ type _ => some type
  | ternary _ _ _ type => some type
  | swizzle _ _ type => some type
  | call _ _ type _ => some type
  | prototype head => some head.returnType
  | invariantDeclaration _ | declaration _ | block _ | ifElse .. | switch .. | case _ | loop ..
  | branch .. | function .. => none

/-- The statements that a semicolon ends: all but the compound ones and the labels. -/
def isSimpleStatement : Node → Bool
  | function .. | block _ | ifElse .. | loop .. | switch .. | case _ => false
  | _ => true

/-- The value of a single integer, whatever type is attached to it. -/
def asInt? : Node → Option Int
  | constant _ [.int value] => some value.toInt
  | constant _ [.uint value] => some value.toNat
  | _ => none

/-- Whether a node refers to a variable. -/
def refersTo (id : SymbolId) : Node → Bool
  | symbol v => v.id == id
  | _ => false

/-- How a message names an indexed operand. -/
def description : Node → String
  | symbol v => v.name.text
  | _ => "expression"

end Node

end ShaderText
