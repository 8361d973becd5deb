import ShaderText.BasicType
import ShaderText.Layout
import ShaderText.Qualifier

/-!
# Types of a shader tree

A `ShaderType` describes one occurrence of a type: the same struct may occur with other qualifiers,
another precision or another array size. The members of a struct and of an interface block are kept
in a definition attached to the occurrence. Definitions have an identity of their own (`StructId`,
`BlockId`), which tells apart definitions of one name.

A tree may be malformed, so an occurrence carries its parts independently: a `struct` may lack its
definition, and a definition may be attached to a type that is not a struct. What is then missing is
noticed where the type is written. The number of values of an object follows the attached struct
definition if there is one, and the shape otherwise:

* `ShaderType.componentCount` counts one element, `ShaderType.objectSize` the whole object.

Both counts are words of 64 bits. A type that is written in a few lines can have more values than
that: its count wraps around.
-/

namespace ShaderText

/-- The identity of a struct. -/
structure StructId where
  value : Nat
  deriving DecidableEq, Repr

/-- The identity of an interface block. -/
structure BlockId where
  value : Nat
  deriving DecidableEq, Repr

mutual

/-- One occurrence of a type. -/
structure ShaderType where
  basic : BasicType := .void
  precision : Precision := .undefined
  qualifier : Qualifier := .temporary
  invariant : Bool := false
  memory : MemoryAccess := {}
  location : Option Nat := none
  imageFormat : ImageFormat := .unspecified
  /-- The size of a vector, or the number of columns of a matrix. -/
  cols : Nat := 0
  /-- The number of rows of a matrix, `1` for all other types. -/
  rows : Nat := 0
  arraySize : Option Nat := none
  structDef : Option StructDef := none
  blockDef : Option BlockDef := none

/-- A struct; one without a name is anonymous. -/
structure StructDef where
  id : StructId
  name : String
  fields : List Field

/-- An interface block. -/
structure BlockDef where
  id : BlockId
  name : String
  fields : List Field
  storage : BlockStorage := .unspecified
  packing : MatrixPacking := .unspecified

/-- A member of a struct or an interface block. -/
structure Field where
  name : String
  type : ShaderType

end

namespace ShaderType

instance : Inhabited ShaderType := ⟨{}⟩

/-! ### Building types -/

def scalar (basic : BasicType) : ShaderType := { basic, cols := 1, rows := 1 }

def void : ShaderType := scalar .void

def vector (basic : BasicType) (size : Nat) : ShaderType := { basic, cols := size, rows := 1 }

def matrix (cols rows : Nat) : ShaderType := { basic := .float, cols, rows }

def ofStruct (d : StructDef) : ShaderType :=
  { basic := .struct, cols := 1, rows := 1, structDef := some d }

def ofBlock (d : BlockDef) : ShaderType :=
  { basic := .block, cols := 1, rows := 1, blockDef := some d }

/-- The type of an element of an array, and any other type itself. -/
def element (t : ShaderType) : ShaderType := { t with arraySize := none }

def isArray (t : ShaderType) : Bool := t.arraySize.isSome

/-! ### Counting values -/

mutual

/-- The number of values of one element, as a word. -/
def elementWord : ShaderType → UInt64
  | { structDef := some { fields, .. }, .. } => fieldsWord fields
  | { structDef := none, cols, rows, .. } => .ofNat cols * .ofNat rows

/-- The number of values of all members of a struct, as a word. -/
def fieldsWord : List Field → UInt64
  | [] => 0
  | { type, .. } :: rest => type.elementWord * .ofNat (type.arraySize.getD 1) + fieldsWord rest

end

/-- The number of values of one element, modulo `2 ^ 64`. -/
def componentCount (t : ShaderType) : Nat := t.elementWord.toNat

/-- The number of values of the whole object, modulo `2 ^ 64`. -/
def objectSize (t : ShaderType) : Nat := (t.elementWord * .ofNat (t.arraySize.getD 1)).toNat

end ShaderType

end ShaderText
