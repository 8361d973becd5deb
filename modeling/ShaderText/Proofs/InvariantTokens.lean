import ShaderText.Proofs.SpelledNames
import ShaderText.Proofs.TextWords
import ShaderText.Proofs.Yield

/-! # Tokens without the keyword `invariant`

A text in which no name contains the keyword can have it in fixed places only. The naming rules add
nothing that makes a keyword of a name (`Renderer.keepsNames_lacksInvariant`), no name of the
language contains it, and neither does a literal. **So it does not occur in a constant, whose
names and literals are kept apart by punctuation (`ShaderType.hasKeyword_constantTokens`).** -/

namespace ShaderText

def invariantKeyword : List Char := "invariant".toList

/-- Names that do not contain the keyword. -/
def LacksInvariant (s : String) : Prop := ¬ invariantKeyword <:+: s.toList

/-! ### Letters of the keyword -/

/-- Texts without one of the letters of the keyword. -/
def MissesLetter (s : String) : Prop := ∃ ch ∈ invariantKeyword, ch ∉ s.toList

/-- Texts without any letter of the keyword. -/
def MissesLetters (s : String) : Prop := ∀ ch ∈ invariantKeyword, ch ∉ s.toList

-- both are decided along the keyword, and not over all characters
instance (s : String) : Decidable (MissesLetter s) :=
  List.decidableBEx (· ∉ s.toList) invariantKeyword

instance (s : String) : Decidable (MissesLetters s) :=
  List.decidableBAll (· ∉ s.toList) invariantKeyword

theorem MissesLetter.lacksInvariant {s : String} (h : MissesLetter s) : LacksInvariant s := by
  obtain ⟨ch, hch, hmissing⟩ := h
  exact fun hcontains => hmissing (hcontains.subset hch)

theorem MissesLetters.append {s t : String} (h : MissesLetters s) (h' : MissesLetters t) :
    MissesLetters (s ++ t) := by
  intro ch hch
  rw [String.toList_append, List.mem_append, not_or]
  exact ⟨h ch hch, h' ch hch⟩

theorem MissesLetter.append {s t : String} (h : MissesLetter s) (h' : MissesLetters t) :
    MissesLetter (s ++ t) := by
  obtain ⟨ch, hch, hmissing⟩ := h
  refine ⟨ch, hch, ?_⟩
  rw [String.toList_append, List.mem_append, not_or]
  exact ⟨hmissing, h' ch hch⟩

theorem MissesLetters.append_missesLetter {s t : String} (h : MissesLetters s)
    (h' : MissesLetter t) : MissesLetter (s ++ t) := by
  obtain ⟨ch, hch, hmissing⟩ := h'
  refine ⟨ch, hch, ?_⟩
  rw [String.toList_append, List.mem_append, not_or]
  exact ⟨h ch hch, hmissing⟩

theorem MissesLetters.missesLetter {s : String} (h : MissesLetters s) : MissesLetter s :=
  ⟨'v', by decide, h 'v' (by decide)⟩

/-- Digits are not in the keyword. -/
theorem missesLetters_repr (n : Nat) : MissesLetters n.repr := by
  have hdigit : ∀ ch ∈ invariantKeyword, ch.isDigit = false := by decide
  intro ch hch hmem
  have hfalse := hdigit ch hch
  rw [isDigit_of_mem_repr hmem] at hfalse
  cases hfalse

theorem missesLetters_int_repr (i : Int) : MissesLetters i.repr := by
  have hsign : ∀ ch ∈ invariantKeyword, ch ∉ ['-'] := by decide
  intro ch hch
  rw [int_repr_toList, List.mem_append, not_or]
  refine ⟨?_, missesLetters_repr _ ch hch⟩
  split_ifs
  · exact hsign ch hch
  · exact List.not_mem_nil

/-- The size of an array. -/
theorem missesLetters_brackets (t : ShaderType) : MissesLetters t.brackets := by
  unfold ShaderType.brackets
  cases t.arraySize with
  | none => decide
  | some n =>
    have hopening : MissesLetters "[" := by decide
    have hclosing : MissesLetters "]" := by decide
    exact (hopening.append (missesLetters_repr n)).append hclosing

/-! ### Names -/

/-- A start without the first letter of the keyword adds none. -/
theorem LacksInvariant.append {start s : String} (h : LacksInvariant s)
    (hstart : 'i' ∉ start.toList) : LacksInvariant (start ++ s) := by
  unfold LacksInvariant at h ⊢
  rw [String.toList_append]
  generalize start.toList = front at hstart ⊢
  induction front with
  | nil => exact h
  | cons ch rest ih =>
    obtain ⟨hch, hrest⟩ := List.ne_and_not_mem_of_not_mem_cons hstart
    rw [List.cons_append, List.infix_cons_iff, not_or]
    refine ⟨fun hstarts => ?_, ih hrest⟩
    obtain ⟨hfirst, -⟩ := List.cons_prefix_cons.mp hstarts
    exact hch hfirst

theorem lacksInvariant_hashedName (hash : UInt64) : LacksInvariant (Reserved.hashedName hash) := by
  have hdigits := Reserved.forall_mem_hexadecimal (q := (· ≠ 'v')) (by decide) hash.toNat
  refine MissesLetter.lacksInvariant ⟨'v', by decide, ?_⟩
  rw [Reserved.hashedName, String.toList_append, List.mem_append, not_or]
  exact ⟨by decide, fun hmem => hdigits 'v' hmem rfl⟩

/-- **The naming rules do not make the keyword,** if it is not in the table that they start with. -/
theorem Renderer.keepsNames_lacksInvariant (r : Renderer) {names : NameTable}
    (hnames : ∀ entry ∈ names.toList, LacksInvariant entry.2) :
    r.KeepsNames (r.userSpelling names) LacksInvariant where
  user _ := r.userSpelling_of_entries hnames lacksInvariant_hashedName
  internal _ h := h.append (by decide)
  texture _ h := by
    have htable : ∀ entry ∈ TextureFunction.renames r.config.output, MissesLetter entry.2 := by
      unfold TextureFunction.renames
      split_ifs <;> decide
    exact TextureFunction.spelling_of_renames
      (fun entry hentry => (htable entry hentry).lacksInvariant) h

/-! ### Names of the language -/

theorem UnaryOp.lacksInvariant_of_form_eq_call {op : UnaryOp} {name : String}
    (h : op.form = .call name) : LacksInvariant name := by
  refine MissesLetter.lacksInvariant ?_
  cases op <;> cases h <;> decide

theorem Intrinsic.lacksInvariant_name (op : Intrinsic) : LacksInvariant op.name := by
  refine MissesLetter.lacksInvariant ?_
  cases op <;> decide

theorem lacksInvariant_of_builtInTypeName {basic : BasicType} {cols rows : Nat} {name : String}
    (h : builtInTypeName? basic cols rows = some name) : LacksInvariant name := by
  unfold builtInTypeName? at h
  split at h
  · rename_i hshapeless
    cases h
    refine MissesLetter.lacksInvariant ?_
    cases basic <;> cases hshapeless <;> decide
  · cases h
  · rename_i scalar vector _ hscalar
    have hnames := BasicType.scalarNames_cases hscalar
    simp only [List.mem_cons, Prod.mk.injEq, List.not_mem_nil, or_false] at hnames
    have hmatrix : MissesLetter "mat" := by decide
    split_ifs at h
    · cases h
      exact (hmatrix.append (missesLetters_repr cols)).lacksInvariant
    · cases h
      have htimes : MissesLetters "x" := by decide
      exact (((hmatrix.append (missesLetters_repr cols)).append htimes).append
        (missesLetters_repr rows)).lacksInvariant
    · cases h
      refine MissesLetter.lacksInvariant ?_
      rcases hnames with ⟨rfl, -⟩ | ⟨rfl, -⟩ | ⟨rfl, -⟩ | ⟨rfl, -⟩ <;> decide
    · cases h
      have hvector : MissesLetter vector := by
        rcases hnames with ⟨-, rfl⟩ | ⟨-, rfl⟩ | ⟨-, rfl⟩ | ⟨-, rfl⟩ <;> decide
      exact (hvector.append (missesLetters_repr cols)).lacksInvariant

theorem ShaderType.lacksInvariant_of_spelling {t : ShaderType} {name : TypeName}
    (ht : ∀ s ∈ t.names, LacksInvariant s) (h : t.spelling = .ok name) :
    (Token.typeName name).HasName LacksInvariant :=
  hasName_of_spelling ht
    (fun _ hname => lacksInvariant_of_builtInTypeName (builtInTypeName?_of_spelling hname)) h

/-! ### Literals -/

theorem Scalar.not_mem_literal (c : Config) (v : Scalar) : 'v' ∉ (v.literal c).toList := by
  have hrepr : ∀ n : Nat, 'v' ∉ n.repr.toList := fun n => missesLetters_repr n 'v' (by decide)
  cases v with
  | float x =>
    show 'v' ∉ (x.literal c.supportsBitCast).toList
    unfold Binary32.literal
    split_ifs
    · simp only [String.toList_append, List.mem_append, not_or]
      exact ⟨⟨by decide, hrepr _⟩, by decide⟩
    · rw [Binary32.toList_finiteLiteral, List.mem_append, not_or]
      refine ⟨by split_ifs <;> decide, fun hmem => ?_⟩
      exact absurd (Decimal.isDecimalChar_of_mem_literal hmem) (by unfold IsDecimalChar; decide)
  | int i => exact missesLetters_int_repr i.toInt 'v' (by decide)
  | uint u =>
    show 'v' ∉ (u.toNat.repr ++ "u").toList
    rw [String.toList_append, List.mem_append, not_or]
    exact ⟨hrepr _, by decide⟩
  | bool b =>
    show 'v' ∉ (if b then "true" else "false").toList
    cases b <;> decide

theorem lacksInvariant_literals (c : Config) (values : List Scalar) :
    LacksInvariant (", ".intercalate (values.map (Scalar.literal c))) := by
  refine MissesLetter.lacksInvariant ⟨'v', by decide, ?_⟩
  rw [String.toList_intercalate, List.map_map]
  induction values with
  | nil => exact List.not_mem_nil
  | cons v rest ih =>
    cases rest with
    | nil => simpa using v.not_mem_literal c
    | cons next rest =>
      rw [List.map_cons, List.map_cons, List.intercalate_cons_cons, List.mem_append, not_or]
      refine ⟨?_, ih⟩
      rw [List.mem_append, not_or]
      exact ⟨v.not_mem_literal c, by decide⟩

/-! ### The keyword in texts -/

/-- The keyword occurs `count` times in a text, which ends without a word if it is `closed`. -/
structure HasKeyword (count : Nat) (closed : Bool) (text : List Char) : Prop where
  occurrences_eq : occurrences invariantKeyword text = count
  ends : closed = true → EndsWithGap text

/-- Texts after which a name may stand. -/
def IsLead (s : String) : Prop := EndsWithGap s.toList ∧ MissesLetter s

/-- Texts that may stand after a name. -/
def IsEnding (s : String) : Prop := BeginsWithGap s.toList ∧ LacksInvariant s

/-- Texts that may stand between two names. -/
def IsPunctuation (s : String) : Prop := s.toList ≠ [] ∧ BeginsWithGap s.toList ∧ IsLead s

instance (s : String) : Decidable (IsLead s) := inferInstanceAs (Decidable (_ ∧ _))

instance (s : String) : Decidable (IsPunctuation s) := inferInstanceAs (Decidable (_ ∧ _ ∧ _))

theorem ShaderType.beginsWithGap_brackets (t : ShaderType) : BeginsWithGap t.brackets.toList := by
  unfold brackets
  cases t.arraySize with
  | none => exact nofun
  | some n =>
    simp only [String.toList_append, List.append_assoc]
    exact fun ch hch => by cases hch; decide

theorem IsPunctuation.isEnding {s : String} (h : IsPunctuation s) : IsEnding s :=
  ⟨h.2.1, h.2.2.2.lacksInvariant⟩

/-- The size of an array may stand after a name. -/
theorem isEnding_brackets (t : ShaderType) : IsEnding t.brackets :=
  ⟨t.beginsWithGap_brackets, (missesLetters_brackets t).missesLetter.lacksInvariant⟩

theorem IsPunctuation.brackets_append {s : String} (h : IsPunctuation s) (t : ShaderType) :
    IsPunctuation (t.brackets ++ s) := by
  obtain ⟨hne, hbegins, hends, hmisses⟩ := h
  refine ⟨?_, ?_, ?_, (missesLetters_brackets t).append_missesLetter hmisses⟩
  · rw [String.toList_append]
    exact List.append_ne_nil_of_right_ne_nil _ hne
  · rw [String.toList_append]
    exact t.beginsWithGap_brackets.append hbegins
  · rw [String.toList_append]
    exact hends.of_append hne

section

variable {m n : Nat} {closed : Bool} {front back : List Char} {s : String}

theorem hasKeyword_nil : HasKeyword 0 true [] := ⟨rfl, fun _ => nofun⟩

theorem LacksInvariant.hasKeyword (h : LacksInvariant s) : HasKeyword 0 false s.toList :=
  ⟨occurrences_eq_zero h, nofun⟩

theorem IsLead.hasKeyword (h : IsLead s) : HasKeyword 0 true s.toList :=
  ⟨occurrences_eq_zero h.2.lacksInvariant, fun _ => h.1⟩

theorem HasKeyword.unclosed (h : HasKeyword m closed front) : HasKeyword m false front :=
  ⟨h.occurrences_eq, nofun⟩

theorem HasKeyword.append (h : HasKeyword m true front) (h' : HasKeyword n closed back) :
    HasKeyword (m + n) closed (front ++ back) where
  occurrences_eq := by
    rw [occurrences_append _ (.inl (h.ends rfl)), h.occurrences_eq, h'.occurrences_eq]
  ends hclosed := (h.ends rfl).append (h'.ends hclosed)

theorem HasKeyword.append_ending (h : HasKeyword m closed front) (hs : IsEnding s) :
    HasKeyword m false (front ++ s.toList) := by
  refine ⟨?_, nofun⟩
  rw [occurrences_append _ (.inr hs.1), h.occurrences_eq, occurrences_eq_zero hs.2, Nat.add_zero]

theorem HasKeyword.append_text (h : HasKeyword m closed front) (hs : IsPunctuation s) :
    HasKeyword m true (front ++ s.toList) :=
  ⟨(h.append_ending hs.isEnding).occurrences_eq, fun _ => hs.2.2.1.of_append hs.1⟩

end

/-! ### Constants -/

section

variable {r : Renderer} {ρ : String → String}

/-- A part of a constant that brings no keyword with it. -/
def ConstantPart.Avoids (r : Renderer) (ρ : String → String) (part : ConstantPart (List Token)) :
    Prop :=
  ∀ values front x, HasKeyword 0 true (r.charsOf ρ front) → part values front = .ok x →
    HasKeyword 0 false (r.charsOf ρ x.2)

theorem charsOf_addPiece (front : List Token) (piece : ConstantPiece) :
    r.charsOf ρ (addPiece front piece) =
      r.charsOf ρ front ++ (piece.token.print r ρ).toList := by
  rw [r.charsOf_append, r.charsOf_cons, r.charsOf_nil, List.append_nil]

theorem hasKeyword_addPiece_text {closed : Bool} {front : List Token} {s : String}
    (hfront : HasKeyword 0 closed (r.charsOf ρ front)) (hs : IsPunctuation s) :
    HasKeyword 0 true (r.charsOf ρ (addPiece front (.text s))) := by
  rw [charsOf_addPiece]
  exact hfront.append_text hs

theorem hasKeyword_addPiece {front : List Token} {piece : ConstantPiece}
    (hfront : HasKeyword 0 true (r.charsOf ρ front))
    (hpiece : LacksInvariant (piece.token.print r ρ)) :
    HasKeyword 0 false (r.charsOf ρ (addPiece front piece)) := by
  rw [charsOf_addPiece]
  exact hfront.append hpiece.hasKeyword

/-- What a constant brings before a part, after which the part may stand. -/
def Renderer.LeadsOn (r : Renderer) (ρ : String → String) (lead : List ConstantPiece)
    (front : List Token) : Prop :=
  HasKeyword 0 false (r.charsOf ρ front) ∧
    HasKeyword 0 true (r.charsOf ρ (lead.foldl addPiece front))

theorem leadsOn_nil {front : List Token} (hfront : HasKeyword 0 true (r.charsOf ρ front)) :
    r.LeadsOn ρ [] front :=
  ⟨hfront.unclosed, hfront⟩

/-- The comma before a part that is not the first. -/
theorem leadsOn_comma {front : List Token}
    (hfront : HasKeyword 0 false (r.charsOf ρ front)) : r.LeadsOn ρ [.text ", "] front :=
  ⟨hfront, hasKeyword_addPiece_text hfront (by decide)⟩

theorem foldRepeated_avoids {part : ConstantPart (List Token)} (h : part.Avoids r ρ)
    (count : Nat) {lead : List ConstantPiece} {values : List Scalar} {front : List Token}
    {x : List Scalar × List Token} (hfront : r.LeadsOn ρ lead front)
    (hx : foldRepeated addPiece part lead count values front = .ok x) :
    HasKeyword 0 false (r.charsOf ρ x.2) := by
  induction count generalizing lead values front with
  | zero =>
    cases hx
    exact hfront.1
  | succ count ih =>
    rw [foldRepeated] at hx
    cases hpart : part values (lead.foldl addPiece front) with
    | error failure => rw [hpart] at hx; cases hx
    | ok y =>
      rw [hpart] at hx
      have hy := h _ _ y hfront.2 hpart
      exact ih (leadsOn_comma hy) hx

variable (hr : r.KeepsNames ρ LacksInvariant)

include hr

theorem hasKeyword_typeName {front : List Token} {name : TypeName}
    (hfront : HasKeyword 0 true (r.charsOf ρ front))
    (hname : (Token.typeName name).HasName LacksInvariant) :
    HasKeyword 0 false (r.charsOf ρ (addPiece front (.typeName name))) :=
  hasKeyword_addPiece hfront
    (Token.print_of_hasName hr hname fun hemulated => absurd hemulated Bool.false_ne_true)

theorem constructorCall_avoids {name : TypeName} {suffix : String}
    {inside : ConstantPart (List Token)}
    (hname : (Token.typeName name).HasName LacksInvariant) (hsuffix : IsPunctuation (suffix ++ "("))
    (h : inside.Avoids r ρ) :
    ConstantPart.Avoids r ρ (constructorCall addPiece name suffix inside) := by
  intro values front x hfront hx
  have hopened := hasKeyword_addPiece_text (hasKeyword_typeName hr hfront hname) hsuffix
  unfold constructorCall at hx
  cases hinside : inside values (addPiece
      (addPiece front (.typeName name)) (.text (suffix ++ "("))) with
  | error failure => rw [hinside] at hx; cases hx
  | ok y =>
    rw [hinside] at hx
    cases hx
    exact (hasKeyword_addPiece_text (h _ _ y hopened hinside) (by decide)).unclosed

namespace ShaderType

variable {t : ShaderType} (ht : ∀ s ∈ t.names, LacksInvariant s)

include ht

theorem foldPlain_avoids (c : Config) :
    ConstantPart.Avoids r ρ (t.foldPlain c addPiece) := by
  intro values front x hfront hx
  simp only [foldPlain] at hx
  split_ifs at hx with hfew hseveral
  · cases hname : t.spelling <;> rw [hname] at hx <;> cases hx
  · cases hname : t.spelling with
    | error cause => rw [hname] at hx; cases hx
    | ok name =>
      rw [hname] at hx
      refine constructorCall_avoids hr (lacksInvariant_of_spelling ht hname) (by decide) ?_
        values front x hfront hx
      intro _ inner y hinner hy
      cases hy
      exact hasKeyword_addPiece hinner (lacksInvariant_literals c _)
  · cases hx
    have hlength : (values.take t.componentCount).length ≤ 1 := by
      rw [List.length_take]
      omega
    refine hasKeyword_addPiece hfront ?_
    show LacksInvariant (String.join ((values.take t.componentCount).map (Scalar.literal c)))
    rw [join_literals hlength]
    exact lacksInvariant_literals c _

theorem foldArranged_avoids {element : ConstantPart (List Token)} (h : element.Avoids r ρ) :
    ConstantPart.Avoids r ρ (t.foldArranged addPiece element) := by
  unfold foldArranged
  cases t.arraySize with
  | none => exact h
  | some n =>
    cases hname : t.spelling with
    | error cause =>
      intro values front x _ hx
      cases hx
    | ok name =>
      have hopening : IsPunctuation "(" := by decide
      exact constructorCall_avoids hr (lacksInvariant_of_spelling ht hname)
        (hopening.brackets_append t) fun values front x hfront hx =>
          foldRepeated_avoids h n (leadsOn_nil hfront) hx

omit ht

mutual

theorem foldElement_avoids (c : Config) : (t : ShaderType) → (∀ s ∈ t.names, LacksInvariant s) →
    ConstantPart.Avoids r ρ (t.foldElement c addPiece)
  | { structDef := some { id, name, fields }, basic, .. }, ht => by
    obtain ⟨hname, hfields⟩ := (forall_mem_names.mp ht).1 _ rfl
    have htype : (Token.typeName (.userDefined name)).HasName LacksInvariant := hname
    rw [foldElement]
    split_ifs
    · exact constructorCall_avoids hr htype (by decide) fun values front x hfront hx =>
        foldMembers_avoids c fields (fun f hf => (hfields f hf).2) (leadsOn_nil hfront) hx
    · exact foldPlain_avoids hr ht c
  | { structDef := none, .. }, ht => by
    rw [foldElement]
    split_ifs
    · intro values front x _ hx
      cases hx
    · exact foldPlain_avoids hr ht c

theorem foldMembers_avoids (c : Config) : (fields : List Field) →
    (∀ f ∈ fields, ∀ s ∈ f.type.names, LacksInvariant s) →
    {lead : List ConstantPiece} → {values : List Scalar} → {front : List Token} →
    {x : List Scalar × List Token} → r.LeadsOn ρ lead front →
    foldMembers c addPiece fields lead values front = .ok x →
      HasKeyword 0 false (r.charsOf ρ x.2)
  | [], _, _, _, _, _, hfront, hx => by
    rw [foldMembers] at hx
    cases hx
    exact hfront.1
  | { type, .. } :: rest, hfields, lead, values, front, x, hfront, hx => by
    obtain ⟨htype, hrest⟩ := List.forall_mem_cons.mp hfields
    rw [foldMembers] at hx
    cases hpart : type.foldArranged addPiece
        (type.foldElement c addPiece) values
        (lead.foldl addPiece front) with
    | error failure => rw [hpart] at hx; cases hx
    | ok y =>
      rw [hpart] at hx
      have hy := foldArranged_avoids hr htype (foldElement_avoids c type htype) _ _ y hfront.2 hpart
      exact foldMembers_avoids c rest hrest (leadsOn_comma hy) hx

end

/-- **The keyword does not occur in a constant.** -/
theorem hasKeyword_constantTokens {c : Config} {t : ShaderType} {values : List Scalar}
    {tokens : List Token} (ht : ∀ s ∈ t.names, LacksInvariant s)
    (h : t.constantTokens c values = .ok tokens) :
    HasKeyword 0 false (r.charsOf ρ tokens) :=
  foldArranged_avoids hr ht (foldElement_avoids hr c t ht) values [] _ hasKeyword_nil
    (foldObject_of_constantTokens h)

end ShaderType

end

end ShaderText
