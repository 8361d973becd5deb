import ShaderText.Proofs.Spelling

/-! # Tokens: the text of a pass before names are spelled

A pass writes one `Token` after another: a piece of fixed text, or the occurrence of an entity, with
the place it occurs in (where a variable is declared, where it is a parameter, where it is used).
`Token.spell` is what the naming rules of the renderer make of a token with the table at hand, and
`Renderer.spellAll` goes through a list of tokens with the table passed on.

* `spellAll_fst`: the text does not depend on the tables in between, only on what the first table
  makes of the identifiers (`Token.print`);
* `get?_spellAll`: the last table is the first one with the identifiers of the tokens
  (`Token.identifier?`) added, each with the spelling it had from the start. -/

namespace ShaderText

/-- A part of the text of a pass. -/
inductive Token where
  | text (s : String)
  /-- A variable where a declarator or the loop around unrolled copies introduces it. -/
  | declared (name : Name)
  /-- A variable where it is a parameter. -/
  | parameter (name : Name)
  /-- A variable where an expression or an invariant declaration refers to it. -/
  | used (name : Name)
  | typeName (name : TypeName)
  | member (owner field : String)
  | blockMember (field : String)
  | function (name : FunctionName) (emulated : Bool)
  | intrinsic (name : String) (emulated : Bool)
  deriving DecidableEq, Repr

namespace Token

/-- The text of a token by the naming rules, and the table after it. -/
def spell (r : Renderer) (names : NameTable) : Token → String × NameTable
  | text s => (s, names)
  | declared name => r.variableName name names
  | parameter name => r.name name names
  | used name => r.variableName name names
  | typeName name => r.typeName name names
  | member owner field => r.memberName owner field names
  | blockMember field => r.name { text := field } names
  | function name emulated =>
    let spelled := r.functionName name names
    (r.callName emulated spelled.1, spelled.2)
  | intrinsic name emulated => (r.callName emulated name, names)

/-- The spelling that the naming rules decide on, emulation apart. -/
def spelling (r : Renderer) : Token → Spelling
  | text s => .fixed s
  | declared name => r.variableSpelling name
  | parameter name => name.spelling
  | used name => r.variableSpelling name
  | typeName name => r.typeSpelling name
  | member owner field => r.memberSpelling owner field
  | blockMember field => Name.spelling { text := field }
  | function name _ => r.functionSpelling name
  | intrinsic name _ => .fixed name

def isEmulated : Token → Bool
  | function _ emulated | intrinsic _ emulated => emulated
  | _ => false

/-- The text of a token, where `ρ` spells the identifiers of the user. -/
def print (r : Renderer) (ρ : String → String) (t : Token) : String :=
  r.callName t.isEmulated ((t.spelling r).text ρ)

/-- The identifier of the user that a token spells. -/
def identifier? (r : Renderer) (t : Token) : Option String := (t.spelling r).identifier?

theorem spell_eq (r : Renderer) (names : NameTable) (t : Token) :
    t.spell r names =
      (r.callName t.isEmulated ((t.spelling r).resolve r names).1,
        ((t.spelling r).resolve r names).2) := by
  cases t with
  | text s => rfl
  | declared name => exact r.variableName_eq_resolve name names
  | parameter name => exact r.name_eq_resolve name names
  | used name => exact r.variableName_eq_resolve name names
  | typeName name => exact r.typeName_eq_resolve name names
  | member owner field => exact r.memberName_eq_resolve owner field names
  | blockMember field => exact r.name_eq_resolve _ names
  | function name emulated => rw [spell, r.functionName_eq_resolve name names]; rfl
  | intrinsic name emulated => rfl

theorem spell_fst (r : Renderer) (names : NameTable) (t : Token) :
    (t.spell r names).1 = t.print r (r.userSpelling names) := by
  rw [spell_eq, r.resolve_fst]; rfl

theorem userSpelling_spell (r : Renderer) (names : NameTable) (t : Token) :
    r.userSpelling (t.spell r names).2 = r.userSpelling names := by
  rw [spell_eq]; exact r.userSpelling_resolve _ names

theorem get?_spell (r : Renderer) (names : NameTable) (t : Token) (identifier : String) :
    (t.spell r names).2.get? identifier =
      if r.config.hash?.isSome ∧ t.identifier? r = some identifier then
        some (r.userSpelling names identifier)
      else names.get? identifier := by
  rw [spell_eq]; exact r.get?_resolve _ names identifier

/-- A token whose identifier the two functions spell alike has the same text under both. -/
theorem print_congr (r : Renderer) {ρ ρ' : String → String} {t : Token}
    (h : ∀ identifier, t.identifier? r = some identifier → ρ identifier = ρ' identifier) :
    t.print r ρ = t.print r ρ' := by
  unfold print
  unfold identifier? at h
  cases hs : t.spelling r with
  | fixed s => rfl
  | ofUser identifier => rw [Spelling.text, Spelling.text, h identifier (by rw [hs]; rfl)]

end Token

/-! ### Lists of tokens -/

namespace Renderer

/-- The text of a list of tokens, and the table after them. -/
def spellAll (r : Renderer) : List Token → NameTable → String × NameTable
  | [], names => ("", names)
  | t :: rest, names =>
    let first := t.spell r names
    let others := r.spellAll rest first.2
    (first.1 ++ others.1, others.2)

@[simp] theorem spellAll_nil (r : Renderer) (names : NameTable) :
    r.spellAll [] names = ("", names) := rfl

theorem spellAll_singleton (r : Renderer) (t : Token) (names : NameTable) :
    r.spellAll [t] names = t.spell r names := by
  simp [spellAll]

theorem spellAll_append (r : Renderer) (front back : List Token) (names : NameTable) :
    r.spellAll (front ++ back) names =
      ((r.spellAll front names).1 ++ (r.spellAll back (r.spellAll front names).2).1,
        (r.spellAll back (r.spellAll front names).2).2) := by
  induction front generalizing names with
  | nil => simp
  | cons t rest ih =>
    rw [List.cons_append, spellAll, spellAll, ih]
    simp only [String.append_assoc]

/-- **No token changes what the table makes of an identifier.** -/
theorem userSpelling_spellAll (r : Renderer) (tokens : List Token) (names : NameTable) :
    r.userSpelling (r.spellAll tokens names).2 = r.userSpelling names := by
  induction tokens generalizing names with
  | nil => rfl
  | cons t rest ih =>
    rw [spellAll]
    exact (ih _).trans (t.userSpelling_spell r names)

/-- **The text of a list of tokens depends on the first table alone.** -/
theorem spellAll_fst (r : Renderer) (tokens : List Token) (names : NameTable) :
    (r.spellAll tokens names).1 =
      String.join (tokens.map (Token.print r (r.userSpelling names))) := by
  induction tokens generalizing names with
  | nil => rfl
  | cons t rest ih =>
    rw [spellAll, List.map_cons, String.join_cons]
    dsimp only
    rw [t.spell_fst, ih, t.userSpelling_spell]

/-- The identifiers of the user that a list of tokens spells. -/
def identifiers (r : Renderer) (tokens : List Token) : List String :=
  tokens.filterMap (Token.identifier? r)

/-- **The last table is the first one with the identifiers of the tokens.** -/
theorem get?_spellAll (r : Renderer) (tokens : List Token) (names : NameTable)
    (identifier : String) :
    (r.spellAll tokens names).2.get? identifier =
      if r.config.hash?.isSome ∧ identifier ∈ r.identifiers tokens then
        some (r.userSpelling names identifier)
      else names.get? identifier := by
  induction tokens generalizing names with
  | nil => simp [identifiers]
  | cons t rest ih =>
    have hmem : identifier ∈ r.identifiers (t :: rest) ↔
        t.identifier? r = some identifier ∨ identifier ∈ r.identifiers rest := by
      unfold identifiers
      cases ht : t.identifier? r with
      | none => simp [ht]
      | some other => simp [ht, eq_comm]
    rw [spellAll]
    dsimp only
    rw [ih, t.userSpelling_spell, t.get?_spell]
    by_cases hh : r.config.hash?.isSome
    · by_cases hr : identifier ∈ r.identifiers rest <;> simp [hmem, hh, hr]
    · simp [hh]

end Renderer

end ShaderText
