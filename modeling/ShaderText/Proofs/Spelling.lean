import ShaderText.Renderer
import Mathlib.Tactic.SplitIfs

/-! # Spellings: what a naming rule decides before the table is asked

Each naming rule of a `Renderer` first decides, without the table, whether a name is spelled as it
stands or as a user's identifier (`Spelling`); only then is the table read and extended. So

* every rule is `Spelling.resolve` of a spelling that does not depend on the table
  (`name_eq_resolve`, `variableName_eq_resolve`, `typeName_eq_resolve`, `memberName_eq_resolve`,
  `functionName_eq_resolve`);
* a table amounts to one function on identifiers, `Renderer.userSpelling`: the entry if there is
  one, the hashed name otherwise. `Renderer.userSpelling_resolve`: no rule changes this function,
  so an identifier looked up later is spelled as if it had been looked up first;
* `Renderer.get?_resolve`: what a rule adds to the table is the identifier it spells. -/

namespace ShaderText

/-- How a name is spelled: by a text of its own, or as an identifier that the user chose. -/
inductive Spelling where
  | fixed (text : String)
  | ofUser (identifier : String)
  deriving DecidableEq, Repr

namespace Spelling

/-- The text of a spelling, where `ρ` spells the identifiers of the user. -/
def text (ρ : String → String) : Spelling → String
  | fixed s => s
  | ofUser identifier => ρ identifier

/-- The identifier that a spelling takes from the user. -/
def identifier? : Spelling → Option String
  | fixed _ => none
  | ofUser identifier => some identifier

/-- The text of a spelling by way of the table, and the table after it. -/
def resolve (r : Renderer) (names : NameTable) : Spelling → String × NameTable
  | fixed s => (s, names)
  | ofUser identifier => r.userName identifier names

end Spelling

/-! ### The spelling that each rule decides on -/

/-- The spelling of a name that is not looked up among the built-in ones. -/
def Name.spelling (n : Name) : Spelling :=
  if n.text = "" then .fixed ""
  else if n.isInternal then .fixed (Reserved.internalName n.text)
  else .ofUser n.text

namespace Renderer

def variableSpelling (r : Renderer) (n : Name) : Spelling :=
  if !n.isInternal && r.knows n.text then .fixed n.text else n.spelling

def typeSpelling (r : Renderer) : TypeName → Spelling
  | .builtIn text => .fixed text
  | .userDefined text => if r.knows text then .fixed text else Name.spelling { text }

def memberSpelling (r : Renderer) (owner field : String) : Spelling :=
  if r.knows owner then .fixed field else Name.spelling { text := field }

def functionSpelling (r : Renderer) (f : FunctionName) : Spelling :=
  let text := Reserved.unmangled f.mangled
  if text = Reserved.entryPoint ∨ r.knows text then
    .fixed (TextureFunction.spelling r.config.output text)
  else if f.isInternal then .fixed text
  else Name.spelling { text }

theorem name_eq_resolve (r : Renderer) (n : Name) (names : NameTable) :
    r.name n names = n.spelling.resolve r names := by
  unfold name Name.spelling
  split_ifs <;> rfl

theorem variableName_eq_resolve (r : Renderer) (n : Name) (names : NameTable) :
    r.variableName n names = (r.variableSpelling n).resolve r names := by
  unfold variableName variableSpelling
  split_ifs
  · rfl
  · exact r.name_eq_resolve n names

theorem typeName_eq_resolve (r : Renderer) (t : TypeName) (names : NameTable) :
    r.typeName t names = (r.typeSpelling t).resolve r names := by
  cases t with
  | builtIn text => rfl
  | userDefined text =>
    unfold typeName typeSpelling
    dsimp only
    split_ifs
    · rfl
    · exact r.name_eq_resolve _ names

theorem memberName_eq_resolve (r : Renderer) (owner field : String) (names : NameTable) :
    r.memberName owner field names = (r.memberSpelling owner field).resolve r names := by
  unfold memberName memberSpelling
  split_ifs
  · rfl
  · exact r.name_eq_resolve _ names

theorem functionName_eq_resolve (r : Renderer) (f : FunctionName) (names : NameTable) :
    r.functionName f names = (r.functionSpelling f).resolve r names := by
  unfold functionName functionSpelling
  dsimp only
  split_ifs
  · rfl
  · rfl
  · exact r.name_eq_resolve _ names

/-! ### A table as a function on identifiers -/

/-- **What a table makes of an identifier**: its entry, or else its hashed name; without a hash the
identifier itself. -/
def userSpelling (r : Renderer) (names : NameTable) (identifier : String) : String :=
  match r.config.hash? with
  | none => identifier
  | some hash => (names.get? identifier).getD (Reserved.hashedName (hash identifier))

theorem userName_fst (r : Renderer) (identifier : String) (names : NameTable) :
    (r.userName identifier names).1 = r.userSpelling names identifier := by
  unfold userName userSpelling
  cases r.config.hash? with
  | none => rfl
  | some hash => cases names.get? identifier <;> simp

/-- Only the identifier itself can be new in the table, with the spelling it has already. -/
theorem get?_userName (r : Renderer) (identifier : String) (names : NameTable) (other : String) :
    (r.userName identifier names).2.get? other =
      if r.config.hash?.isSome ∧ other = identifier then some (r.userSpelling names other)
      else names.get? other := by
  unfold userName userSpelling
  cases r.config.hash? with
  | none => simp
  | some hash =>
    cases h : names.get? identifier with
    | some spelling => by_cases ho : other = identifier <;> simp [ho, h]
    | none => by_cases ho : other = identifier <;> simp [ho, h, NameTable.get?_insert]

/-- An entry of the table is what the table makes of its identifier. -/
theorem userSpelling_of_get? {r : Renderer} (h : r.config.hash?.isSome) {names : NameTable}
    {identifier spelling : String} (hg : names.get? identifier = some spelling) :
    r.userSpelling names identifier = spelling := by
  obtain ⟨hash, hh⟩ := Option.isSome_iff_exists.mp h
  simp [userSpelling, hh, hg]

/-- Tables with the same entry for an identifier spell it alike. -/
theorem userSpelling_congr (r : Renderer) {names names' : NameTable} {identifier : String}
    (h : names.get? identifier = names'.get? identifier) :
    r.userSpelling names identifier = r.userSpelling names' identifier := by
  unfold userSpelling; rw [h]

theorem userSpelling_userName (r : Renderer) (identifier : String) (names : NameTable) :
    r.userSpelling (r.userName identifier names).2 = r.userSpelling names := by
  funext other
  have hg := r.get?_userName identifier names other
  by_cases h : r.config.hash?.isSome ∧ other = identifier
  · rw [if_pos h] at hg
    exact userSpelling_of_get? h.1 hg
  · rw [if_neg h] at hg
    exact r.userSpelling_congr hg

/-! ### Resolving a spelling -/

theorem resolve_fst (r : Renderer) (s : Spelling) (names : NameTable) :
    (s.resolve r names).1 = s.text (r.userSpelling names) := by
  cases s with
  | fixed text => rfl
  | ofUser identifier => exact r.userName_fst identifier names

/-- **No rule changes what the table makes of an identifier.** -/
theorem userSpelling_resolve (r : Renderer) (s : Spelling) (names : NameTable) :
    r.userSpelling (s.resolve r names).2 = r.userSpelling names := by
  cases s with
  | fixed text => rfl
  | ofUser identifier => exact r.userSpelling_userName identifier names

theorem get?_resolve (r : Renderer) (s : Spelling) (names : NameTable) (identifier : String) :
    (s.resolve r names).2.get? identifier =
      if r.config.hash?.isSome ∧ s.identifier? = some identifier then
        some (r.userSpelling names identifier)
      else names.get? identifier := by
  cases s with
  | fixed text => simp [Spelling.resolve, Spelling.identifier?]
  | ofUser other =>
    rw [Spelling.resolve, get?_userName]
    simp only [Spelling.identifier?, Option.some.injEq, eq_comm]

end Renderer

end ShaderText
