import ShaderText.CountingLoop
import ShaderText.TypeName

/-!
# Fragments

Between a tree and its text stands a list of `Fragment`s. Laying a tree out settles its grammar: the
order of the parts, keywords and punctuation. What is left for the writer is what depends on the
pass so far, and each such dependency is a kind of fragment of its own:

* identifiers, which are renamed (`reference`, `variableName`, `parameterName`, `typeName`,
  `member`, `blockMember`, `function`) or emulated (`intrinsic`);
* structs, of which a pass writes the body once (`structBody`, `requireStruct`);
* braces, which the outermost block does not have (`brace`, `scope`);
* constants (`constant`), which hold names of structs;
* the copies of an unrolled loop (`unrolled`);
* what cannot be written (`fail`).

So the layout of a tree is in proportion to the tree, however many copies of a loop or elements of a
constant the text has.
-/

namespace ShaderText

/-- A piece of text, or of what has to be settled when the text is written. -/
inductive Fragment where
  | text (s : String)
  /-- A use of a variable, which may be the counter of a loop that is being unrolled. -/
  | reference (id : SymbolId) (name : Name)
  /-- The name of a variable where it is declared. -/
  | variableName (name : Name)
  /-- The name of a parameter, which is never looked up among the built-in ones. -/
  | parameterName (name : Name)
  | typeName (name : TypeName)
  /-- A member of a struct. -/
  | member (owner field : String)
  /-- A member of an interface block, which is never looked up among the built-in names. -/
  | blockMember (field : String)
  /-- A function, replaced by its emulation when the target lacks it. -/
  | function (name : FunctionName) (emulated : Bool)
  /-- A built-in function, replaced by its emulation when the target lacks it. -/
  | intrinsic (name : String) (emulated : Bool)
  /-- A brace, which is written only inside another scope. -/
  | brace (s : String)
  /-- Fragments one scope further in. -/
  | scope (body : List Fragment)
  /-- A struct type: `body` where it occurs first, `later` where its body is written already. -/
  | structBody (id : StructId) (name : String) (body later : List Fragment)
  /-- The condition that the body of a struct is written already. -/
  | requireStruct (id : StructId) (name : String)
  /-- A constant, whose elements are spelled only when it is written. -/
  | constant (type : ShaderType) (values : List Scalar)
  /-- Copies of `body`, one for each value of the counter. -/
  | unrolled (counter : Counter) (copies : Nat) (body : List Fragment)
  | fail (e : RenderError)

namespace Fragment

/-- Groups of fragments with a comma between each two. -/
def commaSeparated (groups : List (List Fragment)) : List Fragment :=
  List.intercalate [.text ", "] groups

@[simp] theorem commaSeparated_nil : commaSeparated [] = [] := rfl

@[simp] theorem commaSeparated_singleton (group : List Fragment) :
    commaSeparated [group] = group := by simp [commaSeparated, List.intercalate]

theorem commaSeparated_cons (group : List Fragment) {rest : List (List Fragment)} (h : rest ≠ []) :
    commaSeparated (group :: rest) = group ++ .text ", " :: commaSeparated rest := by
  cases rest with
  | nil => exact absurd rfl h
  | cons a rest => simp [commaSeparated, List.intercalate]

end Fragment

end ShaderText
