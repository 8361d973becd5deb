import ShaderText.Proofs.TypeUse

/-! # The tokens of types

What the occurrence of a type is written as: qualifiers, which are plain text, and then the type
itself. `ShaderType.Written` lists the four ways of writing the latter; the body of a struct is
one of them, and the only one that changes which structs are written
(`ShaderType.written_of_runs`). The members of a struct or block are written by name, if every
struct among their types is written already (`AreMembers`). -/

namespace ShaderText

/-- Tokens that are neither the name of a type, nor begin a struct, nor are a lone brace. -/
def Token.IsPlain : Token → Prop
  | text s => IsPlainText s
  | typeName _ => False
  | _ => True

/-- The tokens of a keyword with the blank that ends it. -/
def keywordTokens (keyword : String) : List Token :=
  if keyword = "" then [] else [.text (keyword ++ " ")]

/-- The tokens of a type that is written by its name. -/
def ShaderType.referenceTokens (c : Config) (t : ShaderType) : List Token :=
  (if c.writesPrecision then keywordTokens (t.precision.keyword?.getD "") else []) ++
    match t.spelling with
    | .ok name => [.typeName name]
    | .error _ => []

/-- The tokens of a member whose name is `name`. -/
def Field.tokens (c : Config) (name : Token) (f : Field) : List Token :=
  f.type.referenceTokens c ++ [.text " ", name, .text (f.type.brackets ++ ";\n")]

/-- The tokens of the body of a struct. -/
def StructDef.bodyTokens (c : Config) (d : StructDef) : List Token :=
  .text "struct " :: .typeName (.userDefined d.name) :: .text "\x7b\n" ::
    (d.fields.flatMap (fun f => f.tokens c (.member d.name f.name)) ++ [.text "\x7d"])

/-- The tokens of the body of an interface block. -/
def BlockDef.bodyTokens (c : Config) (d : BlockDef) : List Token :=
  .typeName (.userDefined d.name) :: .text "\x7b\n" ::
    (d.fields.flatMap (fun f => f.tokens c (.blockMember f.name)) ++ [.text "\x7d"])

/-- The struct types of members are those of structs that are written. -/
def AreMembers (declared : List StructId) (fields : List Field) : Prop :=
  ∀ f ∈ fields, f.type.basic = .struct →
    ∃ d : StructDef, f.type.structDef = some d ∧ isWritten declared d.id d.name = true

/-- The ways of writing a type after the structs `declared`. -/
inductive ShaderType.Written (c : Config) (t : ShaderType) (declared : List StructId) :
    List Token → List StructId → Prop
  | plain (hstruct : t.basic ≠ .struct) (hblock : t.basic ≠ .block) :
    Written c t declared (t.referenceTokens c) declared
  | block (d : BlockDef) (hbasic : t.basic = .block) (hd : t.blockDef = some d)
    (hfields : AreMembers declared d.fields) : Written c t declared (d.bodyTokens c) declared
  | first (d : StructDef) (hbasic : t.basic = .struct) (hd : t.structDef = some d)
    (hfirst : isWritten declared d.id d.name = false) (hfields : AreMembers declared d.fields) :
    Written c t declared (d.bodyTokens c) (withBody declared d.id d.name)
  | later (d : StructDef) (hbasic : t.basic = .struct) (hd : t.structDef = some d)
    (hlater : isWritten declared d.id d.name = true) :
    Written c t declared (t.referenceTokens c) declared

open Fragment

section

variable {c : Config} {b : Bindings} {depth : Nat} {declared declared' : List StructId}
  {tokens : List Token} {fs : List Fragment}

/-! ### Plain fragments -/

theorem isPlainText_repr (value : Int) : IsPlainText value.repr :=
  isPlainText_of_chars (plain_chars_int_repr value)

/-- A plain fragment is written as plain tokens. -/
theorem runs_of_isPlain {f : Fragment} (hf : f.IsPlain)
    (h : Runs c b depth [f] declared tokens declared') :
    (∀ t ∈ tokens, t.IsPlain) ∧ declared' = declared := by
  have hemit : ∀ {t : Token}, f.trace c b depth = .emit [t] → t.IsPlain →
      (∀ t ∈ tokens, t.IsPlain) ∧ declared' = declared := by
    intro t ht hplain
    obtain ⟨rfl, rfl⟩ := runs_of_emit ht h
    exact ⟨List.forall_mem_singleton.mpr hplain, rfl⟩
  cases f with
  | text s => exact hemit rfl hf
  | reference id name =>
    cases hb : b id with
    | none => exact hemit (t := .used name) (by rw [trace.eq_def]; simp [hb]) trivial
    | some value =>
      exact hemit (t := .text value.repr) (by rw [trace.eq_def]; simp [hb]) (isPlainText_repr value)
  | fail cause => cases runs_singleton.mp h
  | variableName | parameterName | member | blockMember | function | intrinsic =>
    exact hemit rfl trivial
  | _ => exact hf.elim

theorem runs_of_plain (hfs : ∀ f ∈ fs, f.IsPlain)
    (h : Runs c b depth fs declared tokens declared') :
    (∀ t ∈ tokens, t.IsPlain) ∧ declared' = declared := by
  induction fs generalizing declared tokens with
  | nil =>
    obtain ⟨rfl, rfl⟩ := runs_nil h
    exact ⟨by simp, rfl⟩
  | cons f rest ih =>
    obtain ⟨hf, hrest⟩ := List.forall_mem_cons.mp hfs
    obtain ⟨front, middle, back, hfront, hback, rfl⟩ := runs_cons h
    obtain ⟨hplain, rfl⟩ := runs_of_isPlain hf hfront
    obtain ⟨hplain', rfl⟩ := ih hrest hback
    exact ⟨List.forall_mem_append.mpr ⟨hplain, hplain'⟩, rfl⟩

/-! ### References and members -/

theorem runs_keywordText {keyword : String}
    (h : Runs c b depth (keywordText keyword) declared tokens declared') :
    tokens = keywordTokens keyword ∧ declared' = declared := by
  unfold keywordText at h
  unfold keywordTokens
  split_ifs at h ⊢
  · exact runs_nil h
  · exact runs_of_emit rfl h

theorem runs_nameFragment {t : ShaderType}
    (h : Runs c b depth [t.nameFragment] declared tokens declared') :
    ∃ name, t.spelling = .ok name ∧ tokens = [.typeName name] ∧ declared' = declared := by
  unfold ShaderType.nameFragment at h
  cases hname : t.spelling with
  | error cause =>
    rw [hname] at h
    cases runs_singleton.mp h
  | ok name =>
    rw [hname] at h
    obtain ⟨rfl, rfl⟩ := runs_of_emit rfl h
    exact ⟨name, rfl, rfl, rfl⟩

theorem runs_reference {t : ShaderType}
    (h : Runs c b depth (t.reference c) declared tokens declared') :
    tokens = t.referenceTokens c ∧ declared' = declared := by
  obtain ⟨front, middle, back, hfront, hback, rfl⟩ := runs_append h
  obtain ⟨name, hname, rfl, rfl⟩ := runs_nameFragment hback
  unfold ShaderType.referenceTokens
  rw [hname]
  split_ifs at hfront ⊢
  · obtain ⟨rfl, rfl⟩ := runs_keywordText hfront
    exact ⟨rfl, rfl⟩
  · obtain ⟨rfl, rfl⟩ := runs_nil hfront
    exact ⟨rfl, rfl⟩

theorem runs_requirement {f : Field}
    (h : Runs c b depth f.requirement declared tokens declared') :
    tokens = [] ∧ declared' = declared ∧ AreMembers declared [f] := by
  unfold Field.requirement at h
  split_ifs at h with hbasic
  · cases hd : f.type.structDef with
    | none =>
      rw [hd] at h
      cases runs_singleton.mp h
    | some d =>
      rw [hd] at h
      have htrace : Trace.require d.id d.name declared = .ok (tokens, declared') :=
        runs_singleton.mp h
      unfold Trace.require at htrace
      split_ifs at htrace with hwritten
      cases htrace
      exact ⟨rfl, rfl, List.forall_mem_singleton.mpr fun _ => ⟨d, hd, hwritten⟩⟩
  · obtain ⟨rfl, rfl⟩ := runs_nil h
    exact ⟨rfl, rfl, List.forall_mem_singleton.mpr fun hstruct => absurd hstruct hbasic⟩

/-- The members of a struct or block, with names that are written as they stand. -/
theorem runs_fields {name : Field → Fragment} (nameToken : Field → Token)
    (hname : ∀ f, (name f).trace c b depth = .emit [nameToken f]) {fields : List Field}
    (h : Runs c b depth (fields.flatMap fun f => f.fragments c (name f)) declared tokens
      declared') :
    tokens = (fields.flatMap fun f => f.tokens c (nameToken f)) ∧ declared' = declared ∧
      AreMembers declared fields := by
  induction fields generalizing tokens with
  | nil =>
    obtain ⟨rfl, rfl⟩ := runs_nil h
    exact ⟨rfl, rfl, fun f hf => absurd hf List.not_mem_nil⟩
  | cons f rest ih =>
    rw [List.flatMap_cons] at h
    obtain ⟨front, middle, back, hfront, hback, rfl⟩ := runs_append h
    rw [Field.fragments, List.append_assoc] at hfront
    obtain ⟨_, _, others, hrequirement, hothers, rfl⟩ := runs_append hfront
    obtain ⟨rfl, rfl, hmember⟩ := runs_requirement hrequirement
    obtain ⟨_, _, ending, hreference, hending, rfl⟩ := runs_append hothers
    obtain ⟨rfl, rfl⟩ := runs_reference hreference
    have hemit : traceAll c [.text " ", name f, .text (f.type.brackets ++ ";\n")] b depth =
        .emit [.text " ", nameToken f, .text (f.type.brackets ++ ";\n")] := by
      rw [traceAll, traceAll, hname]
      rfl
    rw [Runs, hemit] at hending
    cases hending
    obtain ⟨rfl, rfl, hrest⟩ := ih hback
    exact ⟨rfl, rfl, List.forall_mem_cons.mpr ⟨hmember f List.mem_cons_self, hrest⟩⟩

theorem runs_structBody {d : StructDef}
    (h : Runs c b depth (d.body c) declared tokens declared') :
    tokens = d.bodyTokens c ∧ declared' = declared ∧ AreMembers declared d.fields := by
  rw [StructDef.body, List.append_assoc] at h
  obtain ⟨_, hrest, rfl⟩ := runs_emit_append
    [.text "struct ", .typeName (.userDefined d.name), .text "\x7b\n"] rfl h
  obtain ⟨_, _, _, hfields, hclosing, rfl⟩ := runs_append hrest
  obtain ⟨rfl, rfl, hmembers⟩ := runs_fields (fun f => .member d.name f.name)
    (fun _ => rfl) hfields
  obtain ⟨rfl, rfl⟩ := runs_of_emit rfl hclosing
  exact ⟨rfl, rfl, hmembers⟩

theorem runs_blockBody {d : BlockDef}
    (h : Runs c b depth (d.body c) declared tokens declared') :
    tokens = d.bodyTokens c ∧ declared' = declared ∧ AreMembers declared d.fields := by
  rw [BlockDef.body, List.append_assoc] at h
  obtain ⟨_, hrest, rfl⟩ := runs_emit_append
    [.typeName (.userDefined d.name), .text "\x7b\n"] rfl h
  obtain ⟨_, _, _, hfields, hclosing, rfl⟩ := runs_append hrest
  obtain ⟨rfl, rfl, hmembers⟩ := runs_fields (fun f => .blockMember f.name)
    (fun _ => rfl) hfields
  obtain ⟨rfl, rfl⟩ := runs_of_emit rfl hclosing
  exact ⟨rfl, rfl, hmembers⟩

/-! ### Occurrences -/

/-- **A type is written in one of four ways.** -/
theorem ShaderType.written_of_runs {t : ShaderType}
    (h : Runs c b depth (t.body c) declared tokens declared') :
    t.Written c declared tokens declared' := by
  unfold ShaderType.body at h
  split at h
  · rename_i hbasic
    cases hd : t.structDef with
    | none =>
      rw [hd] at h
      cases runs_singleton.mp h
    | some d =>
      rw [hd] at h
      have htrace : Trace.once d.id d.name (traceAll c (d.body c) b depth)
          (traceAll c (t.reference c) b depth) declared = .ok (tokens, declared') :=
        runs_singleton.mp h
      unfold Trace.once at htrace
      split_ifs at htrace with hwritten
      · obtain ⟨rfl, rfl⟩ := runs_reference htrace
        exact .later d hbasic hd hwritten
      · cases hbody : traceAll c (d.body c) b depth declared with
        | error cause => rw [hbody] at htrace; cases htrace
        | ok x =>
          rw [hbody] at htrace
          cases htrace
          obtain ⟨htokens, hdeclared, hmembers⟩ :=
            runs_structBody (show Runs c b depth (d.body c) declared x.1 x.2 from hbody)
          rw [htokens, hdeclared]
          exact .first d hbasic hd (Bool.eq_false_of_not_eq_true hwritten) hmembers
  · rename_i hbasic
    cases hd : t.blockDef with
    | none =>
      rw [hd] at h
      cases runs_singleton.mp h
    | some d =>
      rw [hd] at h
      obtain ⟨rfl, rfl, hmembers⟩ := runs_blockBody h
      exact .block d hbasic hd hmembers
  · rename_i hstruct hblock
    obtain ⟨rfl, rfl⟩ := runs_reference h
    exact .plain hstruct hblock

theorem isPlainText_storageKeyword (c : Config) (q : Qualifier) :
    IsPlainText (c.storageKeyword q ++ " ") := by
  unfold Config.storageKeyword
  cases q <;> dsimp only <;> (try split) <;> decide

theorem isPlain_keywordText {keyword : String} (h : IsPlainText (keyword ++ " ")) :
    ∀ f ∈ keywordText keyword, f.IsPlain := by
  unfold keywordText
  split_ifs
  · simp
  · exact List.forall_mem_singleton.mpr h

theorem isPlain_blockLayout (t : ShaderType) : ∀ f ∈ t.blockLayout, f.IsPlain := by
  have hlayout : ∀ (storage : BlockStorage) (packing : MatrixPacking),
      IsPlainText ("layout(" ++ storage.keyword ++ ", " ++ packing.keyword ++ ") ") := by
    intro storage packing
    cases storage <;> cases packing <;> decide
  unfold ShaderType.blockLayout
  split_ifs
  · cases t.blockDef with
    | none => exact List.forall_mem_singleton.mpr trivial
    | some d => exact List.forall_mem_singleton.mpr (hlayout d.storage d.packing)
  · simp

theorem isPlain_memoryQualifiers (t : ShaderType) : ∀ f ∈ t.memoryQualifiers, f.IsPlain := by
  have hkeywords : ∀ keyword ∈ t.memory.keywords, IsPlainText (keyword ++ " ") := by
    obtain ⟨readonly, writeonly, coherent, restrict, volatile⟩ := t.memory
    cases readonly <;> cases writeonly <;> cases coherent <;> cases restrict <;> cases volatile <;>
      decide
  intro f hf
  obtain ⟨keyword, hkeyword, rfl⟩ := List.mem_map.mp hf
  split_ifs
  · exact hkeywords keyword hkeyword
  · trivial

/-- An occurrence begins with plain qualifiers. -/
theorem ShaderType.runs_occurrence {t : ShaderType}
    (h : Runs c b depth (t.occurrence c) declared tokens declared') :
    ∃ front back, tokens = front ++ back ∧ (∀ t ∈ front, t.IsPlain) ∧
      t.Written c declared back declared' := by
  obtain ⟨front, middle, back, hfront, hback, rfl⟩ := runs_append h
  obtain ⟨hplain, rfl⟩ := runs_of_plain (by
    simp only [List.forall_mem_append]
    refine ⟨⟨⟨?_, isPlain_blockLayout t⟩, isPlain_keywordText ?_⟩, isPlain_memoryQualifiers t⟩
    · split_ifs <;> decide
    · split_ifs
      · decide
      · exact isPlainText_storageKeyword c t.qualifier) hfront
  exact ⟨front, back, rfl, hplain, written_of_runs hback⟩

/-! ### Constants -/

/-- Texts without braces, in which a blank stands only with a comma. -/
def IsListText (text : List Char) : Prop :=
  (∀ ch ∈ text, ch ≠ '\x7b' ∧ ch ≠ '\x7d') ∧ (' ' ∈ text → ',' ∈ text)

theorem IsListText.append {front back : List Char} (h : IsListText front) (h' : IsListText back) :
    IsListText (front ++ back) := by
  refine ⟨List.forall_mem_append.mpr ⟨h.1, h'.1⟩, fun hmem => ?_⟩
  rcases List.mem_append.mp hmem with hmem | hmem
  · exact List.mem_append_left _ (h.2 hmem)
  · exact List.mem_append_right _ (h'.2 hmem)

theorem IsListText.isPlainText {s : String} (h : IsListText s.toList) : IsPlainText s := by
  refine ⟨?_, ?_⟩
  · rintro rfl
    exact absurd (h.2 (by decide)) (by decide)
  · rw [List.count_eq_zero_of_not_mem fun hmem => (h.1 _ hmem).1 rfl,
      List.count_eq_zero_of_not_mem fun hmem => (h.1 _ hmem).2 rfl]

theorem isListText_of_isLiteralChar {text : List Char} (h : ∀ ch ∈ text, IsLiteralChar ch) :
    IsListText text := by
  have hnot : ∀ ch ∈ ['\x7b', '\x7d', ' '], ¬ IsLiteralChar ch := by unfold IsLiteralChar; decide
  refine ⟨fun ch hch => ⟨?_, ?_⟩, fun hmem => absurd (h ' ' hmem) (hnot ' ' (by decide))⟩
  · rintro rfl
    exact hnot _ (by decide) (h _ hch)
  · rintro rfl
    exact hnot _ (by decide) (h _ hch)

theorem Scalar.isListText_literal (v : Scalar) : IsListText (v.literal c).toList := by
  obtain ⟨body, hbody, -, hchars⟩ := v.toList_literal c
  have hsign : ∀ negative : Bool, IsListText (if negative = true then ['-'] else []) := by
    unfold IsListText
    decide
  rw [hbody]
  exact (hsign _).append (isListText_of_isLiteralChar hchars)

theorem isPlainText_of_isConstantText {s : String} (h : IsConstantText c s) : IsPlainText s := by
  have hcomma : IsListText [',', ' '] := by unfold IsListText; decide
  cases h with
  | literals values =>
    refine IsListText.isPlainText ?_
    rw [String.toList_intercalate]
    induction values with
    | nil => exact ⟨by simp, by simp⟩
    | cons v rest ih =>
      cases rest with
      | nil => simpa using v.isListText_literal
      | cons next rest =>
        simpa [List.intercalate_cons_cons] using v.isListText_literal.append (hcomma.append ih)
  | opening => decide
  | sizedOpening size =>
    exact isPlainText_of_chars
      (plain_chars_append (plain_chars_append (by decide) (plain_chars_repr size)) (by decide))
  | separator => decide
  | closing => decide

theorem runs_constant {t : ShaderType} {values : List Scalar}
    (h : Runs c b depth [.constant t values] declared tokens declared') :
    (∀ token ∈ tokens, token.IsPlain ∨ ∃ (part : ShaderType) (name : TypeName),
      part.PartOf t ∧ part.spelling = .ok name ∧ token = .typeName name) ∧
      declared' = declared := by
  have htrace : t.constantTrace c values declared = .ok (tokens, declared') := runs_singleton.mp h
  rw [ShaderType.constantTrace_eq] at htrace
  cases ht : t.constantTokens c values with
  | error cause => rw [ht] at htrace; cases htrace
  | ok front =>
    rw [ht] at htrace
    cases htrace
    refine ⟨fun token htoken => ?_, rfl⟩
    rcases ShaderType.mem_constantTokens ht htoken with hname | ⟨s, rfl, hs⟩
    · exact .inr hname
    · exact .inl (isPlainText_of_isConstantText hs)

/-! ### The tokens of types and members -/

theorem Token.IsPlain.ne_struct {t : Token} (h : t.IsPlain) : t ≠ .text "struct " := by
  rintro rfl
  exact h.1 rfl

theorem isPlainText_precision (p : Precision) :
    ∀ t ∈ keywordTokens (p.keyword?.getD ""), t.IsPlain := by
  have hplain : IsPlainText (p.keyword?.getD "" ++ " ") := by cases p <;> decide
  unfold keywordTokens
  split_ifs
  · simp
  · exact List.forall_mem_singleton.mpr hplain

theorem mem_referenceTokens {t : ShaderType} {token : Token} (h : token ∈ t.referenceTokens c) :
    token.IsPlain ∨ ∃ name, t.spelling = .ok name ∧ token = .typeName name := by
  rcases List.mem_append.mp h with h | h
  · split_ifs at h
    · exact .inl (isPlainText_precision t.precision token h)
    · cases h
  · cases hname : t.spelling with
    | error cause => simp [hname] at h
    | ok name => exact .inr ⟨name, rfl, by simpa [hname] using h⟩

theorem mem_fields (name : Field → Token) (hname : ∀ f, (name f).IsPlain) {fields : List Field}
    {token : Token} (h : token ∈ fields.flatMap fun f => f.tokens c (name f)) :
    token.IsPlain ∨ ∃ f ∈ fields, ∃ name, f.type.spelling = .ok name ∧ token = .typeName name := by
  obtain ⟨f, hf, h⟩ := List.mem_flatMap.mp h
  rcases List.mem_append.mp h with h | h
  · exact (mem_referenceTokens h).imp id fun hspelling => ⟨f, hf, hspelling⟩
  · have hblank : IsPlainText " " := by decide
    have hbrackets := isPlainText_brackets_append f.type (s := ";\n") (by decide)
    simp only [List.mem_cons, List.not_mem_nil, or_false] at h
    rcases h with rfl | rfl | rfl
    · exact .inl hblank
    · exact .inl (hname f)
    · exact .inl hbrackets

theorem struct_not_mem_referenceTokens (c : Config) (t : ShaderType) :
    .text "struct " ∉ t.referenceTokens c := by
  intro h
  rcases mem_referenceTokens h with hplain | ⟨_, -, heq⟩
  · exact hplain.ne_struct rfl
  · cases heq

end

end ShaderText
