import ShaderText.Error

/-!
# Names of types

`ShaderType.spelling` is the name of a type, or why it has none: a type of the language is spelled
by its shape, a struct and a block take the name of their definition.
-/

namespace ShaderText

/-- The spelling of a type: fixed by the language, or a name that the program chose. -/
inductive TypeName where
  | builtIn (text : String)
  | userDefined (name : String)
  deriving DecidableEq, Repr

namespace ShaderType

/-- The name of a type, which a struct and a block take from their definition. -/
def spelling (t : ShaderType) : Except RenderError TypeName :=
  match t.basic with
  | .struct =>
    match t.structDef with
    | some d => .ok (.userDefined d.name)
    | none => .error (.malformed .missingStructDef)
  | .block =>
    match t.blockDef with
    | some d => .ok (.userDefined d.name)
    | none => .error (.malformed .missingBlockDef)
  | basic =>
    match builtInTypeName? basic t.cols t.rows with
    | some name => .ok (.builtIn name)
    | none => .error (.unnamedType basic t.cols t.rows)

/-- The size of an array in brackets. -/
def brackets (t : ShaderType) : String :=
  match t.arraySize with
  | some n => "[" ++ n.repr ++ "]"
  | none => ""

end ShaderType

end ShaderText
