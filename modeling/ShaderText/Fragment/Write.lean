import ShaderText.Constant
import ShaderText.Context
import ShaderText.Renderer

/-!
# Writing fragments

`Fragment.write` is the step of a pass: it appends the text of a fragment to the context and records
what later fragments depend on. `Fragment.writeAll` writes a list from the front and stops at the
first error. Only the copies of an unrolled loop write a fragment more than once.
-/

namespace ShaderText

/-! ### Constants -/

namespace Renderer

/-- The context after a piece of a constant is written. -/
def writePiece (r : Renderer) (c : Context) : ConstantPiece → Context
  | .text s => c.write s
  | .typeName name => c.writeName (r.typeName name c.names)

/-- The error that a failure amounts to, in which a type has the name that it is given. -/
def constantError (r : Renderer) (names : NameTable) : ConstantFailure → RenderError
  | .underflow type needed available =>
    .constantUnderflow (r.typeName type names).1 needed available
  | .error cause => cause

/-- The context after a constant is written. -/
def writeConstant (r : Renderer) (type : ShaderType) (values : List Scalar) (c : Context) :
    Except RenderError Context :=
  (type.foldConstant r.config r.writePiece values c).mapError (r.constantError c.names)

end Renderer

/-! ### Fragments -/

namespace Fragment

/-- The context after a number of copies, with the innermost counter stepped after each. -/
def writeCopies (copy : Context → Except RenderError Context) :
    Nat → Context → Except RenderError Context
  | 0, c => .ok c
  | n + 1, c => do
    let c ← copy c
    writeCopies copy n c.stepCounter

mutual

/-- The context after a fragment is written. -/
def write (r : Renderer) : Fragment → Context → Except RenderError Context
  | text s, c => .ok (c.write s)
  | reference id name, c =>
    match c.counterValue? id with
    | some value => .ok (c.write value.repr)
    | none => .ok (c.writeName (r.variableName name c.names))
  | variableName name, c => .ok (c.writeName (r.variableName name c.names))
  | parameterName name, c => .ok (c.writeName (r.name name c.names))
  | typeName name, c => .ok (c.writeName (r.typeName name c.names))
  | member owner field, c => .ok (c.writeName (r.memberName owner field c.names))
  | blockMember field, c => .ok (c.writeName (r.name { text := field } c.names))
  | function name emulated, c =>
    let spelled := r.functionName name c.names
    .ok (c.writeName (r.callName emulated spelled.1, spelled.2))
  | intrinsic name emulated, c => .ok (c.write (r.callName emulated name))
  | brace s, c => .ok (if 0 < c.depth then c.write s else c)
  | scope body, c => do
    let c ← writeAll r body c.enterScope
    .ok c.leaveScope
  | structBody id name body later, c =>
    if c.isDeclared id name then writeAll r later c
    else do
      let c ← writeAll r body c
      .ok (c.declare id name)
  | requireStruct id name, c =>
    if c.isDeclared id name then .ok c else .error (.undeclaredMemberStruct name)
  | constant type values, c => r.writeConstant type values c
  | unrolled counter copies body, c => do
    let c ← writeCopies (writeAll r body) copies (c.pushCounter counter)
    .ok c.popCounter
  | fail e, _ => .error e

/-- The context after a list of fragments is written. -/
def writeAll (r : Renderer) : List Fragment → Context → Except RenderError Context
  | [], c => .ok c
  | f :: rest, c => do
    let c ← f.write r c
    writeAll r rest c

end

theorem writeAll_append (r : Renderer) (front back : List Fragment) (c : Context) :
    writeAll r (front ++ back) c = writeAll r front c >>= writeAll r back := by
  induction front generalizing c with
  | nil => rfl
  | cons f rest ih =>
    rw [List.cons_append, writeAll, writeAll, bind_assoc]
    exact congrArg _ (funext ih)

theorem writeAll_singleton (r : Renderer) (f : Fragment) (c : Context) :
    writeAll r [f] c = f.write r c := by
  rw [writeAll]
  cases f.write r c <;> rfl

end Fragment

end ShaderText
