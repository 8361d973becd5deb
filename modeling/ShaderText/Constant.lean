import ShaderText.Config
import ShaderText.Float.Literal
import ShaderText.TypeName

/-!
# Constants

A constant is a type with its values in one list, depth first. An object takes its values from the
front of the list and hands the others on, so the members of a struct and the elements of an array
take theirs one after another. A single value is spelled as it is, several as the arguments of the
constructor of their type.

A type may ask for billions of elements that take no value, so the pieces of a constant are never
collected: each goes into a state as soon as it is known, and the first part that cannot be spelled
ends the constant.

* `ShaderType.foldElement` spells one element, `ShaderType.foldObject` a whole object, each with the
  values left over.
* `ShaderType.foldConstant` spells a constant, of which no value may be left over.
-/

namespace ShaderText

/-- The text of a single value. -/
def Scalar.literal (c : Config) : Scalar → String
  | float x => x.literal c.supportsBitCast
  | int i => i.toInt.repr
  | uint u => u.toNat.repr ++ "u"
  | bool b => if b then "true" else "false"

/-- A piece of the text of a constant. -/
inductive ConstantPiece where
  | text (s : String)
  | typeName (name : TypeName)
  deriving DecidableEq, Repr

/-- Why a constant cannot be spelled. -/
inductive ConstantFailure where
  /-- There are fewer values left than a type takes. -/
  | underflow (type : TypeName) (needed available : Nat)
  | error (cause : RenderError)
  deriving DecidableEq, Repr

/-- What takes values from the front of a list and puts pieces into a state. -/
abbrev ConstantPart (State : Type) : Type :=
  List Scalar → State → Except ConstantFailure (List Scalar × State)

variable {State : Type}

/-- The call of the constructor `name`, with the arguments that `inside` spells. -/
def constructorCall (put : State → ConstantPiece → State) (name : TypeName) (suffix : String)
    (inside : ConstantPart State) (values : List Scalar) (state : State) :
    Except ConstantFailure (List Scalar × State) := do
  let (values, state) ← inside values (put (put state (.typeName name)) (.text (suffix ++ "(")))
  .ok (values, put state (.text ")"))

/-- A number of equal parts, with `lead` before the first and a comma before each other. -/
def foldRepeated (put : State → ConstantPiece → State) (part : ConstantPart State) :
    (lead : List ConstantPiece) → (count : Nat) → ConstantPart State
  | _, 0, values, state => .ok (values, state)
  | lead, count + 1, values, state => do
    let (values, state) ← part values (lead.foldl put state)
    foldRepeated put part [.text ", "] count values state

namespace ShaderType

/-- An element that is not a struct: as many values as the type has components. -/
def foldPlain (c : Config) (put : State → ConstantPiece → State) (t : ShaderType)
    (values : List Scalar) (state : State) : Except ConstantFailure (List Scalar × State) :=
  let size := t.componentCount
  if values.length < size then
    match t.spelling with
    | .ok name => .error (.underflow name size values.length)
    | .error e => .error (.error e)
  else
    let texts := (values.take size).map (Scalar.literal c)
    if 1 < size then
      match t.spelling with
      | .ok name =>
        constructorCall put name ""
          (fun _ state => .ok (values.drop size, put state (.text (", ".intercalate texts))))
          values state
      | .error e => .error (.error e)
    else .ok (values.drop size, put state (.text (String.join texts)))

/-- An object whose elements are spelled by `element`: one element, or as many as the array has. -/
def foldArranged (put : State → ConstantPiece → State) (t : ShaderType)
    (element : ConstantPart State) : ConstantPart State :=
  match t.arraySize with
  | none => element
  | some n =>
    match t.spelling with
    | .error e => fun _ _ => .error (.error e)
    | .ok name => constructorCall put name t.brackets (foldRepeated put element [] n)

mutual

/-- One element of a type, whatever the size of the array. -/
def foldElement (c : Config) (put : State → ConstantPiece → State) :
    ShaderType → ConstantPart State
  | t@{ structDef := some { name, fields, .. }, .. } =>
    if t.basic = .struct then
      constructorCall put (.userDefined name) "" (foldMembers c put fields [])
    else t.foldPlain c put
  | t@{ structDef := none, .. } =>
    if t.basic = .struct then fun _ _ => .error (.error (.malformed .missingStructDef))
    else t.foldPlain c put

/-- The members of a struct, with `lead` before the first and a comma before each other. -/
def foldMembers (c : Config) (put : State → ConstantPiece → State) :
    List Field → (lead : List ConstantPiece) → ConstantPart State
  | [], _, values, state => .ok (values, state)
  | { type, .. } :: rest, lead, values, state => do
    let (values, state) ← type.foldArranged put (foldElement c put type) values
      (lead.foldl put state)
    foldMembers c put rest [.text ", "] values state

end

/-- A whole object of a type. -/
def foldObject (c : Config) (put : State → ConstantPiece → State) (t : ShaderType) :
    ConstantPart State :=
  t.foldArranged put (t.foldElement c put)

/-- A constant, which has exactly the values of its type. -/
def foldConstant (c : Config) (put : State → ConstantPiece → State) (t : ShaderType)
    (values : List Scalar) (state : State) : Except ConstantFailure State :=
  match t.foldObject c put values state with
  | .ok ([], state) => .ok state
  | .ok (rest, _) => .error (.error (.malformed (.leftoverValues rest.length)))
  | .error failure => .error failure

end ShaderType

end ShaderText
