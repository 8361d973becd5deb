import ShaderText.Proofs.Brackets
import ShaderText.Proofs.SpelledNames
import ShaderText.Proofs.Yield

/-! # Brackets of tokens

The names of a text have no brackets if those that are supplied have none (`Token.HasName
IsBracketFree`): whatever the naming rules make of a name adds letters, digits and underscores at
most (`Token.isBracketFree_print`). Brackets are therefore all in fixed texts, and in the literals
and calls that a constant is written as, where **every parenthesis that is opened is closed
(`ShaderType.shifts_constantTokens`)**. -/

namespace ShaderText

/-! ### Words and numerals -/

theorem isBracket_of_isAlphanum {ch : Char} (h : ch.isAlphanum = true) : isBracket ch = false :=
  isBracket_eq_false (p := (·.isAlphanum = true)) (by decide) h

theorem isBracket_of_isDigit {ch : Char} (h : ch.isDigit = true) : isBracket ch = false :=
  isBracket_of_isAlphanum (by simp [Char.isAlphanum, h])

theorem isBracketFree_of_isWord {s : String} (h : isWord s = true) : IsBracketFree s :=
  fun _ hch => isBracket_eq_false (p := (isWordChar · = true)) (by decide) (isWordChar_of_mem h hch)

theorem isBracketFree_repr (n : Nat) : IsBracketFree n.repr :=
  fun _ hch => isBracket_of_isDigit (isDigit_of_mem_repr hch)

theorem isBracketFree_int_repr (i : Int) : IsBracketFree i.repr := by
  intro ch hch
  rw [int_repr_toList, List.mem_append] at hch
  rcases hch with hch | hch
  · split_ifs at hch
    · rw [List.mem_singleton.mp hch]
      rfl
    · cases hch
  · exact isBracketFree_repr _ ch hch

theorem isBracketFree_hashedName (hash : UInt64) : IsBracketFree (Reserved.hashedName hash) :=
  isBracketFree_append.mpr ⟨by decide, Reserved.forall_mem_hexadecimal (by decide) hash.toNat⟩

/-! ### Names -/

/-- Identifiers without brackets are spelled without brackets. -/
def AddsNoBracket (ρ : String → String) : Prop := ∀ s, IsBracketFree s → IsBracketFree (ρ s)

/-- A table without brackets adds none. -/
theorem Renderer.addsNoBracket_userSpelling (r : Renderer) {names : NameTable}
    (hnames : ∀ entry ∈ names.toList, IsBracketFree entry.2) :
    AddsNoBracket (r.userSpelling names) :=
  fun _ => r.userSpelling_of_entries hnames isBracketFree_hashedName

variable {r : Renderer} {ρ : String → String}

/-- The functions that stand in for built-in ones have names without brackets. -/
def Renderer.FreeEmulations (r : Renderer) (ρ : String → String) (tokens : List Token) : Prop :=
  ∀ t ∈ tokens, t.isEmulated = true → IsBracketFree (t.print r ρ)

/-- The naming rules add no bracket. -/
theorem Renderer.keepsNames_isBracketFree (hρ : AddsNoBracket ρ) :
    r.KeepsNames ρ IsBracketFree where
  user := hρ
  internal _ h := isBracketFree_append.mpr ⟨by decide, h⟩
  texture _ h := by
    refine TextureFunction.spelling_of_renames ?_ h
    unfold TextureFunction.renames
    split_ifs <;> decide

/-- **Names without brackets are written without brackets.** -/
theorem Token.isBracketFree_print (hρ : AddsNoBracket ρ) {t : Token} (h : t.HasName IsBracketFree)
    (hemulations : r.FreeEmulations ρ [t]) : IsBracketFree (t.print r ρ) :=
  print_of_hasName (Renderer.keepsNames_isBracketFree hρ) h (hemulations t List.mem_cons_self)

/-! ### Types -/

theorem ShaderType.shifts_brackets (t : ShaderType) {awaited : List Char} :
    Shifts awaited t.brackets.toList awaited := by
  unfold brackets
  cases t.arraySize with
  | none => exact shifts_nil
  | some n =>
    have hpair : closingOf? '[' = some ']' := rfl
    have hopening : Shifts awaited "[".toList (']' :: awaited) := shifts_opening hpair
    rw [String.toList_append, String.toList_append]
    exact (hopening.append (isBracketFree_repr n).shifts).append (shifts_closing hpair)

theorem ShaderType.isBracketFree_of_spelling {t : ShaderType} {name : TypeName}
    (ht : ∀ s ∈ t.names, IsBracketFree s) (h : t.spelling = .ok name) :
    (Token.typeName name).HasName IsBracketFree :=
  hasName_of_spelling ht (fun _ hname => isBracketFree_of_isWord (isWord_of_spelling hname)) h

/-! ### Literals -/

theorem Decimal.isBracketFree_literal (d : Decimal) : IsBracketFree (String.ofList d.literal) := by
  intro ch hch
  rw [String.toList_ofList] at hch
  rcases isNumeralChar_of_mem_literal hch with hch | rfl
  · exact isBracket_of_isAlphanum hch
  · rfl

/-- A literal closes the parentheses that it opens. -/
theorem Scalar.shifts_literal (c : Config) (v : Scalar) {awaited : List Char} :
    Shifts awaited (v.literal c).toList awaited := by
  cases v with
  | float x =>
    show Shifts awaited (x.literal c.supportsBitCast).toList awaited
    unfold Binary32.literal
    split_ifs
    · have hopening : Shifts [] "uintBitsToFloat(".toList [')'] := by decide
      have hclosing : Shifts [')'] "u)".toList [] := by decide
      rw [String.toList_append, String.toList_append]
      exact (((hopening.append (isBracketFree_repr _).shifts).append hclosing).around awaited)
    · refine IsBracketFree.shifts (isBracketFree_append.mpr ⟨?_, Decimal.isBracketFree_literal _⟩)
      split_ifs <;> decide
  | int i => exact (isBracketFree_int_repr i.toInt).shifts
  | uint u =>
    exact (isBracketFree_append.mpr ⟨isBracketFree_repr u.toNat, by decide⟩).shifts
  | bool b =>
    have hword : IsBracketFree (if b then "true" else "false") := by cases b <;> decide
    exact hword.shifts

theorem shifts_intercalate {separator : List Char} {awaited : List Char}
    (hseparator : Shifts awaited separator awaited) {parts : List (List Char)}
    (h : ∀ part ∈ parts, Shifts awaited part awaited) :
    Shifts awaited (List.intercalate separator parts) awaited := by
  induction parts with
  | nil => exact shifts_nil
  | cons part rest ih =>
    obtain ⟨hpart, hrest⟩ := List.forall_mem_cons.mp h
    cases rest with
    | nil => simpa using hpart
    | cons next rest =>
      rw [List.intercalate_cons_cons]
      exact (hpart.append hseparator).append (ih hrest)

theorem shifts_literals (c : Config) (values : List Scalar) {awaited : List Char} :
    Shifts awaited (", ".intercalate (values.map (Scalar.literal c))).toList awaited := by
  rw [String.toList_intercalate]
  refine shifts_intercalate (IsBracketFree.shifts (by decide)) ?_
  intro part hpart
  obtain ⟨text, htext, rfl⟩ := List.mem_map.mp hpart
  obtain ⟨v, -, rfl⟩ := List.mem_map.mp htext
  exact v.shifts_literal c

/-! ### Constants -/

/-- What is awaited after one more piece of a constant. -/
def awaitPiece (r : Renderer) (ρ : String → String) (awaited : Option (List Char))
    (piece : ConstantPiece) : Option (List Char) :=
  awaited.bind (awaitedAfter · (piece.token.print r ρ).toList)

/-- A part of a constant after which the same is awaited as before it. -/
def ConstantPart.Closes (part : ConstantPart (Option (List Char))) : Prop :=
  ∀ values awaited x, part values (some awaited) = .ok x → x.2 = some awaited

theorem awaitPiece_text {before after : List Char} {s : String} (h : Shifts before s.toList after) :
    awaitPiece r ρ (some before) (.text s) = some after := h

theorem awaitPiece_typeName (hρ : AddsNoBracket ρ) {name : TypeName}
    (hname : (Token.typeName name).HasName IsBracketFree) (awaited : List Char) :
    awaitPiece r ρ (some awaited) (.typeName name) = some awaited := by
  have hemulations : r.FreeEmulations ρ [.typeName name] :=
    List.forall_mem_singleton.mpr fun hemulated => absurd hemulated Bool.false_ne_true
  exact (Token.isBracketFree_print hρ hname hemulations).shifts

section

variable (hρ : AddsNoBracket ρ)

include hρ

theorem constructorCall_closes {name : TypeName} {suffix : String}
    {inside : ConstantPart (Option (List Char))}
    (hname : (Token.typeName name).HasName IsBracketFree)
    (hsuffix : ∀ awaited, Shifts awaited suffix.toList awaited) (h : inside.Closes) :
    ConstantPart.Closes (constructorCall (awaitPiece r ρ) name suffix inside) := by
  intro values awaited x hx
  have hpair : closingOf? '(' = some ')' := rfl
  have hopening : Shifts awaited (suffix ++ "(").toList (')' :: awaited) := by
    rw [String.toList_append]
    exact (hsuffix awaited).append (shifts_opening hpair)
  have hclosing : Shifts (')' :: awaited) ")".toList awaited := shifts_closing hpair
  unfold constructorCall at hx
  rw [awaitPiece_typeName hρ hname, awaitPiece_text hopening] at hx
  cases hinside : inside values (some (')' :: awaited)) with
  | error failure => rw [hinside] at hx; cases hx
  | ok y =>
    rw [hinside] at hx
    cases hx
    rw [h _ _ y hinside]
    exact awaitPiece_text hclosing

omit hρ in
/-- The text before a part that is not the first. -/
theorem awaitPiece_separator (awaited : List Char) :
    [.text ", "].foldl (awaitPiece r ρ) (some awaited) = some awaited :=
  awaitPiece_text (IsBracketFree.shifts (by decide))

omit hρ in
theorem foldRepeated_closes {part : ConstantPart (Option (List Char))} (h : part.Closes)
    {lead : List ConstantPiece}
    (hlead : ∀ awaited, lead.foldl (awaitPiece r ρ) (some awaited) = some awaited) (count : Nat) :
    ConstantPart.Closes (foldRepeated (awaitPiece r ρ) part lead count) := by
  induction count generalizing lead with
  | zero =>
    intro values awaited x hx
    cases hx
    rfl
  | succ count ih =>
    intro values awaited x hx
    rw [foldRepeated, hlead] at hx
    cases hpart : part values (some awaited) with
    | error failure => rw [hpart] at hx; cases hx
    | ok y =>
      rw [hpart] at hx
      refine ih awaitPiece_separator y.1 awaited x ?_
      rw [← h _ _ y hpart]
      exact hx

namespace ShaderType

theorem foldPlain_closes (c : Config) {t : ShaderType} (ht : ∀ s ∈ t.names, IsBracketFree s) :
    ConstantPart.Closes (t.foldPlain c (awaitPiece r ρ)) := by
  intro values awaited x hx
  simp only [foldPlain] at hx
  split_ifs at hx with hfew hseveral
  · cases hname : t.spelling <;> rw [hname] at hx <;> cases hx
  · cases hname : t.spelling with
    | error cause => rw [hname] at hx; cases hx
    | ok name =>
      rw [hname] at hx
      refine constructorCall_closes hρ (isBracketFree_of_spelling ht hname) (fun _ => shifts_nil) ?_
        values awaited x hx
      intro _ inner y hy
      cases hy
      exact awaitPiece_text (shifts_literals c _)
  · cases hx
    have hlength : (values.take t.componentCount).length ≤ 1 := by
      rw [List.length_take]
      omega
    refine awaitPiece_text ?_
    rw [join_literals hlength]
    exact shifts_literals c _

theorem foldArranged_closes {t : ShaderType} (ht : ∀ s ∈ t.names, IsBracketFree s)
    {element : ConstantPart (Option (List Char))} (h : element.Closes) :
    ConstantPart.Closes (t.foldArranged (awaitPiece r ρ) element) := by
  unfold foldArranged
  cases t.arraySize with
  | none => exact h
  | some n =>
    cases hname : t.spelling with
    | error cause =>
      intro values awaited x hx
      cases hx
    | ok name =>
      exact constructorCall_closes hρ (isBracketFree_of_spelling ht hname)
        (fun _ => t.shifts_brackets) (foldRepeated_closes h (fun _ => rfl) n)

mutual

theorem foldElement_closes (c : Config) : (t : ShaderType) → (∀ s ∈ t.names, IsBracketFree s) →
    ConstantPart.Closes (t.foldElement c (awaitPiece r ρ))
  | { structDef := some { id, name, fields }, basic, .. }, ht => by
    obtain ⟨hname, hfields⟩ := (forall_mem_names.mp ht).1 _ rfl
    have htype : (Token.typeName (.userDefined name)).HasName IsBracketFree := hname
    rw [foldElement]
    split_ifs
    · exact constructorCall_closes hρ htype (fun _ => shifts_nil)
        (foldMembers_closes c fields (fun f hf => (hfields f hf).2) (fun _ => rfl))
    · exact foldPlain_closes hρ c ht
  | { structDef := none, .. }, ht => by
    rw [foldElement]
    split_ifs
    · intro values awaited x hx
      cases hx
    · exact foldPlain_closes hρ c ht

theorem foldMembers_closes (c : Config) : (fields : List Field) →
    (∀ f ∈ fields, ∀ s ∈ f.type.names, IsBracketFree s) → {lead : List ConstantPiece} →
    (∀ awaited, lead.foldl (awaitPiece r ρ) (some awaited) = some awaited) →
      ConstantPart.Closes (foldMembers c (awaitPiece r ρ) fields lead)
  | [], _, _, _ => by
    intro values awaited x hx
    rw [foldMembers] at hx
    cases hx
    rfl
  | { type, .. } :: rest, hfields, lead, hlead => by
    obtain ⟨htype, hrest⟩ := List.forall_mem_cons.mp hfields
    intro values awaited x hx
    rw [foldMembers, hlead] at hx
    cases hpart : type.foldArranged (awaitPiece r ρ) (type.foldElement c (awaitPiece r ρ)) values
        (some awaited) with
    | error failure => rw [hpart] at hx; cases hx
    | ok y =>
      rw [hpart] at hx
      have hy :=
        foldArranged_closes hρ htype (foldElement_closes c type htype) values awaited y hpart
      refine foldMembers_closes c rest hrest awaitPiece_separator y.1 awaited x ?_
      rw [← hy]
      exact hx

end

theorem foldObject_closes (c : Config) {t : ShaderType} (ht : ∀ s ∈ t.names, IsBracketFree s) :
    ConstantPart.Closes (t.foldObject c (awaitPiece r ρ)) :=
  foldArranged_closes hρ ht (foldElement_closes hρ c t ht)

/-- **A constant closes the brackets that it opens.** -/
theorem shifts_constantTokens {c : Config} {t : ShaderType} {values : List Scalar}
    {tokens : List Token} (ht : ∀ s ∈ t.names, IsBracketFree s)
    (h : t.constantTokens c values = .ok tokens) : Shifts [] (r.charsOf ρ tokens) [] := by
  -- the state of a constant is what is awaited after its tokens
  have hpiece : ∀ (front : List Token) (piece : ConstantPiece),
      awaitedAfter [] (r.charsOf ρ (front ++ [piece.token])) =
        awaitPiece r ρ (awaitedAfter [] (r.charsOf ρ front)) piece := by
    intro front piece
    rw [r.charsOf_append, awaitedAfter_append, r.charsOf_cons, r.charsOf_nil, List.append_nil]
    rfl
  have hmaps := foldObject_maps (g := fun front => awaitedAfter [] (r.charsOf ρ front)) hpiece c t
    values []
  rw [foldObject_of_constantTokens h] at hmaps
  exact foldObject_closes hρ c ht values [] _ hmaps

end ShaderType

end

end ShaderText
