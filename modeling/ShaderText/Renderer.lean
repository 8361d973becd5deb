import ShaderText.BuiltIn
import ShaderText.Config
import ShaderText.Fragment
import ShaderText.Name.Reserved
import ShaderText.Name.Table
import ShaderText.TextureFunction

/-!
# The renderer and its naming rules

A `Renderer` is fixed for a program: its configuration, the built-in names of the source language,
and the names of emulated functions. The rules by which it spells identifiers are functions from the
table of renamed identifiers to a spelling and the table after it:

* `userName`: a user's name is hashed if there is a hash, and remembered;
* `name`: an internal name gets the reserved start instead, and no name stays no name;
* `variableName`, `typeName`, `memberName`: a built-in name, and a member of a built-in struct,
  stays as it is;
* `functionName`: the encoded parameters are cut off; the entry point and the built-in functions are
  spelled in the output dialect, and internal functions stay as they are.
-/

namespace ShaderText

/-- What every pass of a program shares. -/
structure Renderer where
  config : Config := {}
  /-- Whether a name is built in, in a version of the source language. -/
  isBuiltIn : String → Nat → Bool := BuiltIn.isKnown
  /-- The function that stands in for a built-in one. -/
  emulatedName : String → String := Reserved.emulatedName

namespace Renderer

instance : Inhabited Renderer := ⟨{}⟩

/-- Whether a name is built in, in the version that is read. -/
def knows (r : Renderer) (name : String) : Bool := r.isBuiltIn name r.config.version

/-- The spelling of a user's name. -/
def userName (r : Renderer) (text : String) (names : NameTable) : String × NameTable :=
  match r.config.hash? with
  | none => (text, names)
  | some hash =>
    match names.get? text with
    | some spelling => (spelling, names)
    | none =>
      let spelling := Reserved.hashedName (hash text)
      (spelling, (names.insert text spelling).2)

/-- The spelling of a name that is not looked up among the built-in ones. -/
def name (r : Renderer) (n : Name) (names : NameTable) : String × NameTable :=
  if n.text = "" then ("", names)
  else if n.isInternal then (Reserved.internalName n.text, names)
  else r.userName n.text names

@[simp] theorem name_empty (r : Renderer) (isInternal : Bool) (names : NameTable) :
    r.name ⟨"", isInternal⟩ names = ("", names) := rfl

/-- The spelling of a variable. -/
def variableName (r : Renderer) (n : Name) (names : NameTable) : String × NameTable :=
  if !n.isInternal && r.knows n.text then (n.text, names) else r.name n names

/-- The spelling of a type. -/
def typeName (r : Renderer) (t : TypeName) (names : NameTable) : String × NameTable :=
  match t with
  | .builtIn text => (text, names)
  | .userDefined text => if r.knows text then (text, names) else r.name { text } names

/-- The spelling of a member of a struct. -/
def memberName (r : Renderer) (owner field : String) (names : NameTable) : String × NameTable :=
  if r.knows owner then (field, names) else r.name { text := field } names

/-- The spelling of a function. -/
def functionName (r : Renderer) (f : FunctionName) (names : NameTable) : String × NameTable :=
  let text := Reserved.unmangled f.mangled
  if text = Reserved.entryPoint ∨ r.knows text then
    (TextureFunction.spelling r.config.output text, names)
  else if f.isInternal then (text, names)
  else r.name { text } names

/-- The name of a function in a call. -/
def callName (r : Renderer) (emulated : Bool) (spelled : String) : String :=
  if emulated then r.emulatedName spelled else spelled

end Renderer

end ShaderText
