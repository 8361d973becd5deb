import ShaderText.Fragment.Node
import ShaderText.Proofs.NameTable
import ShaderText.Proofs.Token
import ShaderText.Proofs.TreeNames

/-! # Names as they are spelled

A property of names is kept by the naming rules if it is kept by each way of making one name of
another (`Renderer.KeepsNames`): by the spelling of the user's identifiers, by the start of an
internal name, and by the names of texture functions in a dialect. **Then it goes from the name of a
token to its text (`Token.print_of_hasName`),** if it holds of the names of emulated functions,
which the program supplies. -/

namespace ShaderText

/-- A property of names that the naming rules keep, where `ρ` spells the identifiers of the user. -/
structure Renderer.KeepsNames (r : Renderer) (ρ : String → String) (p : String → Prop) : Prop where
  user : ∀ s, p s → p (ρ s)
  internal : ∀ s, p s → p (Reserved.internalName s)
  texture : ∀ s, p s → p (TextureFunction.spelling r.config.output s)

/-- A property of the name that a token is the spelling of. Fixed text is no name. -/
def Token.HasName (p : String → Prop) : Token → Prop
  | text _ => False
  | declared name | parameter name | used name => p name.text
  | typeName (.builtIn name) | typeName (.userDefined name) => p name
  | member _ field | blockMember field => p field
  | function name _ => p (Reserved.unmangled name.mangled)
  | intrinsic name _ => p name

variable {r : Renderer} {ρ : String → String} {p : String → Prop}

/-- A name is spelled by its entry in the table of a dialect, or as it is. -/
theorem TextureFunction.mem_renames_or_eq (d : Dialect) (name : String) :
    (name, spelling d name) ∈ renames d ∨ spelling d name = name := by
  unfold spelling
  cases hlookup : (renames d).lookup name with
  | none => exact .inr rfl
  | some target =>
    obtain ⟨front, back, hentries, -⟩ := List.lookup_eq_some_iff.mp hlookup
    exact .inl (by simp [hentries])

/-- A spelling in the table of a dialect has what all of them have. -/
theorem TextureFunction.spelling_of_renames {d : Dialect}
    (htable : ∀ entry ∈ renames d, p entry.2) {s : String} (h : p s) : p (spelling d s) := by
  rcases mem_renames_or_eq d s with hentry | hsame
  · exact htable _ hentry
  · rwa [hsame]

/-- Identifiers are spelled by their hash, by the table, or as they are. -/
theorem Renderer.userSpelling_of_entries {names : NameTable}
    (hnames : ∀ entry ∈ names.toList, p entry.2)
    (hhashed : ∀ hash, p (Reserved.hashedName hash)) {s : String} (h : p s) :
    p (r.userSpelling names s) := by
  unfold userSpelling
  cases r.config.hash? with
  | none => exact h
  | some hash =>
    cases hentry : names.get? s with
    | none => exact hhashed _
    | some spelling =>
      exact hnames (s, spelling) ((NameTable.mem_iff_lookup names.ascending s spelling).mpr hentry)

/-- The numeral of a number has what all of its digits have. -/
theorem Reserved.forall_mem_hexadecimal {q : Char → Prop} (hdigit : ∀ n < 16, q n.digitChar)
    (n : Nat) : ∀ ch ∈ (hexadecimal n).toList, q ch := by
  unfold hexadecimal
  rw [String.toList_ofList]
  induction n using Nat.strongRecOn with
  | ind n ih =>
    rw [Nat.toDigits_eq_if (by decide)]
    split_ifs with hn
    · exact List.forall_mem_singleton.mpr (hdigit n hn)
    · refine List.forall_mem_append.mpr ⟨ih (n / 16) (by omega), ?_⟩
      exact List.forall_mem_singleton.mpr (hdigit _ (Nat.mod_lt n (by decide)))

section

variable (hr : r.KeepsNames ρ p)

include hr

theorem Name.spelling_of_keepsNames {n : Name} (h : p n.text) : p (n.spelling.text ρ) := by
  unfold spelling
  split_ifs with hempty
  · rw [hempty] at h
    exact h
  · exact hr.internal _ h
  · exact hr.user _ h

theorem Token.spelling_of_hasName {t : Token} (h : t.HasName p) : p ((t.spelling r).text ρ) := by
  have hplain : ∀ s : String, p s → p ((Name.spelling { text := s }).text ρ) :=
    fun s hs => Name.spelling_of_keepsNames hr hs
  have hvariable : ∀ n : Name, p n.text → p ((r.variableSpelling n).text ρ) := by
    intro n hn
    unfold Renderer.variableSpelling
    split_ifs
    · exact hn
    · exact Name.spelling_of_keepsNames hr hn
  cases t with
  | text s => exact h.elim
  | declared name => exact hvariable name h
  | parameter name => exact Name.spelling_of_keepsNames hr h
  | used name => exact hvariable name h
  | typeName name =>
    cases name with
    | builtIn name => exact h
    | userDefined name =>
      unfold spelling Renderer.typeSpelling
      dsimp only
      split_ifs
      · exact h
      · exact hplain name h
  | member owner field =>
    unfold spelling Renderer.memberSpelling
    dsimp only
    split_ifs
    · exact h
    · exact hplain field h
  | blockMember field => exact hplain field h
  | function name emulated =>
    unfold spelling Renderer.functionSpelling
    dsimp only
    split_ifs
    · exact hr.texture _ h
    · exact h
    · exact hplain _ h
  | intrinsic name emulated => exact h

/-- **What holds of the name of a token holds of its text,** if the naming rules keep it. -/
theorem Token.print_of_hasName {t : Token} (h : t.HasName p)
    (hemulated : t.isEmulated = true → p (t.print r ρ)) : p (t.print r ρ) := by
  by_cases hcase : t.isEmulated = true
  · exact hemulated hcase
  · have hprint : t.print r ρ = (t.spelling r).text ρ := by
      simp [print, Renderer.callName, hcase]
    rw [hprint]
    exact t.spelling_of_hasName hr h

end

/-- The name of a type is one of the names in it, or built in. -/
theorem ShaderType.hasName_of_spelling {t : ShaderType} {name : TypeName}
    (ht : ∀ s ∈ t.names, p s) (hbuiltIn : ∀ name, t.spelling = .ok (.builtIn name) → p name)
    (h : t.spelling = .ok name) : (Token.typeName name).HasName p := by
  obtain ⟨hstruct, hblock⟩ := forall_mem_names.mp ht
  cases name with
  | builtIn name => exact hbuiltIn name h
  | userDefined name =>
    unfold spelling at h
    split at h
    · cases hd : t.structDef with
      | none => rw [hd] at h; cases h
      | some d => rw [hd] at h; cases h; exact (hstruct d hd).1
    · cases hd : t.blockDef with
      | none => rw [hd] at h; cases h
      | some d => rw [hd] at h; cases h; exact (hblock d hd).1
    · split at h <;> cases h

/-- The name of a member, if there is one, is among those in the type. -/
theorem ShaderType.memberName_of_names {t : ShaderType} (ht : ∀ s ∈ t.names, p s) (ofBlock : Bool)
    (index : Int) :
    (∃ owner field, t.memberName ofBlock index = .member owner field ∧ p field) ∨
      (∃ field, t.memberName ofBlock index = .blockMember field ∧ p field) ∨
        ∃ cause, t.memberName ofBlock index = .fail cause := by
  obtain ⟨hstruct, hblock⟩ := forall_mem_names.mp ht
  have hmem : ∀ {fields : List Field} {f : Field}, fieldAt? fields index = some f → f ∈ fields := by
    intro fields f h
    unfold fieldAt? at h
    split_ifs at h
    exact List.mem_of_getElem? h
  unfold memberName
  split_ifs
  · cases hd : t.blockDef with
    | none => exact .inr (.inr ⟨_, rfl⟩)
    | some d =>
      dsimp only
      cases hf : fieldAt? d.fields index with
      | none => exact .inr (.inr ⟨_, rfl⟩)
      | some f => exact .inr (.inl ⟨f.name, rfl, ((hblock d hd).2 f (hmem hf)).1⟩)
  · cases hd : t.structDef with
    | none => exact .inr (.inr ⟨_, rfl⟩)
    | some d =>
      dsimp only
      cases hf : fieldAt? d.fields index with
      | none => exact .inr (.inr ⟨_, rfl⟩)
      | some f => exact .inl ⟨d.name, f.name, rfl, ((hstruct d hd).2 f (hmem hf)).1⟩

end ShaderText
