import ShaderText.Proofs.Trace
import Mathlib.Tactic.SplitIfs

/-! # Characters of literals and constants

A literal is an optional minus sign and a body of letters, digits, points and parentheses
(`Scalar.toList_literal`). A constant is put together from type names and a few kinds of text
(`IsConstantText`): literals with commas between them, and the punctuation of the constructor calls
around them. The second fact is an invariant of the fold that writes a constant
(`ShaderType.foldObject_keeps`): what every piece of these kinds preserves of a state, the whole
constant preserves. -/

namespace ShaderText

/-- The characters of a literal after its sign. -/
def IsLiteralChar (ch : Char) : Prop := ch.isAlphanum = true ∨ ch ∈ ['.', '(', ')']

/-- The characters of numerals after their sign. -/
def IsNumeralChar (ch : Char) : Prop := ch.isAlphanum = true ∨ ch = '.'

theorem IsNumeralChar.isLiteralChar {ch : Char} (h : IsNumeralChar ch) : IsLiteralChar ch :=
  h.imp_right fun hpoint => by simp [hpoint]

/-! ### Numerals -/

theorem isNumeralChar_of_isDigit {ch : Char} (h : ch.isDigit = true) : IsNumeralChar ch :=
  .inl (by simp [Char.isAlphanum, h])

theorem isLiteralChar_of_isDigit {ch : Char} (h : ch.isDigit = true) : IsLiteralChar ch :=
  (isNumeralChar_of_isDigit h).isLiteralChar

theorem isDigit_of_mem_repr {n : Nat} {ch : Char} (h : ch ∈ n.repr.toList) :
    ch.isDigit = true := by
  rw [Nat.repr_eq_ofList_toDigits, String.toList_ofList] at h
  exact Nat.isDigit_of_mem_toDigits (by decide : 0 < 10) (by decide) h

theorem repr_toList_ne_nil (n : Nat) : n.repr.toList ≠ [] := by
  rw [Nat.repr_eq_ofList_toDigits, String.toList_ofList]
  exact Nat.toDigits_ne_nil

theorem int_repr_of_nonneg {i : Int} (h : 0 ≤ i) : i.repr.toList = i.natAbs.repr.toList := by
  obtain ⟨n, rfl⟩ := Int.eq_ofNat_of_zero_le h
  rfl

theorem int_repr_of_neg {i : Int} (h : i < 0) :
    i.repr.toList = '-' :: i.natAbs.repr.toList := by
  obtain ⟨n, rfl⟩ := Int.eq_negSucc_of_lt_zero h
  show ("-" ++ (n + 1).repr).toList = '-' :: (n + 1).repr.toList
  simp [String.toList_append]

theorem int_repr_toList (i : Int) :
    i.repr.toList = (if i < 0 then ['-'] else []) ++ i.natAbs.repr.toList := by
  split_ifs with h
  · exact int_repr_of_neg h
  · exact int_repr_of_nonneg (Int.not_lt.mp h)

/-! ### Float literals -/

/-- The characters of decimals: digits, a point, and the letter in front of an exponent. -/
def IsDecimalChar (ch : Char) : Prop := ch.isDigit = true ∨ ch ∈ ['.', 'e']

theorem IsDecimalChar.isNumeralChar {ch : Char} (h : IsDecimalChar ch) : IsNumeralChar ch := by
  rcases h with hdigit | hmem
  · exact isNumeralChar_of_isDigit hdigit
  · simp only [List.mem_cons, List.not_mem_nil, or_false] at hmem
    rcases hmem with rfl | rfl
    · exact .inr rfl
    · exact .inl (by decide)

namespace Decimal

theorem isDecimalChar_of_mem_digits {d : Decimal} {ch : Char} (h : ch ∈ d.digits) :
    IsDecimalChar ch :=
  .inl (Nat.isDigit_of_mem_toDigits (by decide : 0 < 10) (by decide) h)

theorem isDecimalChar_of_mem_positional {d : Decimal} {ch : Char} (h : ch ∈ d.positional) :
    IsDecimalChar ch := by
  have hzero : IsDecimalChar '0' := .inl (by decide)
  have hpoint : IsDecimalChar '.' := .inr (by decide)
  unfold positional at h
  split_ifs at h with he
  · simp only [List.mem_append, List.mem_replicate, List.mem_cons, List.not_mem_nil, or_false] at h
    rcases h with (h | ⟨-, rfl⟩) | rfl | rfl
    · exact isDecimalChar_of_mem_digits h
    · exact hzero
    · exact hpoint
    · exact hzero
  · have hpadded :
        ∀ ch ∈ List.replicate ((-d.exponent).toNat + 1 - d.digits.length) '0' ++ d.digits,
          IsDecimalChar ch := by
      intro ch h
      rcases List.mem_append.mp h with h | h
      · rw [List.eq_of_mem_replicate h]
        exact hzero
      · exact isDecimalChar_of_mem_digits h
    rcases List.mem_append.mp h with h | h
    · exact hpadded ch (List.mem_of_mem_take h)
    rcases List.mem_cons.mp h with rfl | h
    · exact hpoint
    · exact hpadded ch (List.mem_of_mem_drop h)

theorem isDecimalChar_of_mem_scientific {d : Decimal} (hd : scientificFrom ≤ d.leadingExponent)
    {ch : Char} (h : ch ∈ d.scientific) : IsDecimalChar ch := by
  have hexponent : 0 ≤ d.leadingExponent := Int.le_trans (by decide) hd
  simp only [scientific, List.mem_append, List.mem_cons] at h
  rcases h with (h | h) | rfl | h
  · exact isDecimalChar_of_mem_digits (List.mem_of_mem_take h)
  · split_ifs at h
    · exact absurd h List.not_mem_nil
    rcases List.mem_cons.mp h with rfl | h
    · exact .inr (by decide)
    · exact isDecimalChar_of_mem_digits (List.mem_of_mem_drop h)
  · exact .inr (by decide)
  · rw [int_repr_of_nonneg hexponent] at h
    exact .inl (isDigit_of_mem_repr h)

/-- A finite literal has no sign but the one in front: only large exponents are written. -/
theorem isDecimalChar_of_mem_literal {d : Decimal} {ch : Char} (h : ch ∈ d.literal) :
    IsDecimalChar ch := by
  unfold literal at h
  split_ifs at h with hd
  · exact isDecimalChar_of_mem_positional h
  · exact isDecimalChar_of_mem_scientific (Int.not_lt.mp hd) h

theorem isNumeralChar_of_mem_literal {d : Decimal} {ch : Char} (h : ch ∈ d.literal) :
    IsNumeralChar ch :=
  (isDecimalChar_of_mem_literal h).isNumeralChar

theorem literal_ne_nil (d : Decimal) : d.literal ≠ [] := by
  unfold literal positional scientific
  split_ifs <;> simp

end Decimal

/-! ### Literals of single values -/

/-- Whether the literal of a value has a sign. -/
def Scalar.isNegative (c : Config) : Scalar → Bool
  | float x => (x.isFinite || !c.supportsBitCast) && x.clamped.isNegative
  | int i => i.toInt < 0
  | uint _ | bool _ => false

theorem Binary32.toList_finiteLiteral (x : Binary32) :
    x.finiteLiteral.toList =
      (if x.isNegative then ['-'] else []) ++ x.shortestDecimal.literal := by
  unfold finiteLiteral
  split_ifs <;> simp [String.toList_append, String.toList_ofList]

/-- **A literal is a sign, if the value is negative, and a body without any.** -/
theorem Scalar.toList_literal (c : Config) (v : Scalar) :
    ∃ body : List Char,
      (v.literal c).toList = (if v.isNegative c then ['-'] else []) ++ body ∧ body ≠ [] ∧
        ∀ ch ∈ body, IsLiteralChar ch := by
  cases v with
  | float x =>
    simp only [literal, Binary32.literal, isNegative]
    by_cases hcast : (!x.isFinite && c.supportsBitCast) = true
    · obtain ⟨hx, hc⟩ : x.isFinite = false ∧ c.supportsBitCast = true := by simpa using hcast
      refine ⟨("uintBitsToFloat(" ++ x.bits.toNat.repr ++ "u)").toList, by simp [hx, hc],
        by simp [String.toList_append], fun ch h => ?_⟩
      simp only [String.toList_append, List.mem_append] at h
      rcases h with (h | h) | h
      · revert ch
        simp [IsLiteralChar]
      · exact isLiteralChar_of_isDigit (isDigit_of_mem_repr h)
      · revert ch
        simp [IsLiteralChar]
    · have hsign : (x.isFinite || !c.supportsBitCast) = true := by
        revert hcast
        cases x.isFinite <;> cases c.supportsBitCast <;> simp
      exact ⟨x.clamped.shortestDecimal.literal,
        by rw [if_neg hcast, Binary32.toList_finiteLiteral]; simp [hsign],
        Decimal.literal_ne_nil _,
        fun ch h => (Decimal.isNumeralChar_of_mem_literal h).isLiteralChar⟩
  | int i =>
    exact ⟨_, by simpa [literal, isNegative] using int_repr_toList i.toInt, repr_toList_ne_nil _,
      fun ch h => isLiteralChar_of_isDigit (isDigit_of_mem_repr h)⟩
  | uint u =>
    refine ⟨(u.toNat.repr ++ "u").toList, by simp [literal, isNegative],
      by simp [String.toList_append], fun ch h => ?_⟩
    simp only [String.toList_append, List.mem_append] at h
    rcases h with h | h
    · exact isLiteralChar_of_isDigit (isDigit_of_mem_repr h)
    · revert ch
      simp [IsLiteralChar]
  | bool b =>
    refine ⟨(Scalar.literal c (.bool b)).toList, by simp [isNegative], ?_, ?_⟩ <;>
      cases b <;> simp [literal, IsLiteralChar]

/-! ### Texts of constants -/

/-- The texts of a constant between the names of its types. -/
inductive IsConstantText (c : Config) : String → Prop
  | literals (values : List Scalar) :
    IsConstantText c (", ".intercalate (values.map (Scalar.literal c)))
  | opening : IsConstantText c "("
  | sizedOpening (size : Nat) : IsConstantText c ("[" ++ size.repr ++ "](")
  | separator : IsConstantText c ", "
  | closing : IsConstantText c ")"

/-- The types that a type is made of: itself, and those of the members of its definition. -/
inductive ShaderType.PartOf : ShaderType → ShaderType → Prop
  | refl (t : ShaderType) : PartOf t t
  | structMember {t part : ShaderType} {d : StructDef} {f : Field} (hd : t.structDef = some d)
    (hf : f ∈ d.fields) (hpart : PartOf part f.type) : PartOf part t
  | blockMember {t part : ShaderType} {d : BlockDef} {f : Field} (hd : t.blockDef = some d)
    (hf : f ∈ d.fields) (hpart : PartOf part f.type) : PartOf part t

/-- The pieces that a constant consists of: such texts, and names of types with a property. -/
def ConstantPiece.IsRegular (c : Config) (p : ShaderType → Prop) : ConstantPiece → Prop
  | text s => IsConstantText c s
  | typeName name => ∃ t, p t ∧ t.spelling = .ok name

variable {State : Type}

/-- A part of a constant keeps what holds of a state. -/
def ConstantPart.Keeps (Inv : State → Prop) (part : ConstantPart State) : Prop :=
  ∀ values state, Inv state → ∀ r, part values state = .ok r → Inv r.2

section

variable {c : Config} {p : ShaderType → Prop} {Inv : State → Prop}
  {put : State → ConstantPiece → State}
  (h : ∀ state piece, Inv state → piece.IsRegular c p → Inv (put state piece))

include h

theorem constructorCall_keeps {t : ShaderType} {name : TypeName} (hp : p t)
    (hname : t.spelling = .ok name) {suffix : String} (hsuffix : IsConstantText c (suffix ++ "("))
    {inside : ConstantPart State} (hi : ConstantPart.Keeps Inv inside) :
    ConstantPart.Keeps Inv (constructorCall put name suffix inside) := by
  intro values state hstate r hr
  have hopen : Inv (put (put state (.typeName name)) (.text (suffix ++ "("))) :=
    h _ _ (h _ _ hstate ⟨t, hp, hname⟩) hsuffix
  unfold constructorCall at hr
  cases hin : inside values (put (put state (.typeName name)) (.text (suffix ++ "("))) with
  | error failure => rw [hin] at hr; cases hr
  | ok x =>
    rw [hin] at hr
    cases hr
    exact h _ _ (hi _ _ hopen x hin) .closing

theorem foldl_keeps {lead : List ConstantPiece} (hlead : ∀ piece ∈ lead, piece.IsRegular c p)
    {state : State} (hstate : Inv state) : Inv (lead.foldl put state) := by
  induction lead generalizing state with
  | nil => exact hstate
  | cons piece rest ih =>
    obtain ⟨hpiece, hrest⟩ := List.forall_mem_cons.mp hlead
    exact ih hrest (h _ _ hstate hpiece)

theorem foldRepeated_keeps {part : ConstantPart State} (hpart : ConstantPart.Keeps Inv part)
    {lead : List ConstantPiece} (hlead : ∀ piece ∈ lead, piece.IsRegular c p) (count : Nat) :
    ConstantPart.Keeps Inv (foldRepeated put part lead count) := by
  induction count generalizing lead with
  | zero => intro values state hstate r hr; cases hr; exact hstate
  | succ count ih =>
    intro values state hstate r hr
    have hstart : Inv (lead.foldl put state) := foldl_keeps h hlead hstate
    rw [foldRepeated] at hr
    cases hx : part values (lead.foldl put state) with
    | error failure => rw [hx] at hr; cases hr
    | ok x =>
      rw [hx] at hr
      exact ih (by simpa [ConstantPiece.IsRegular] using IsConstantText.separator) _ _
        (hpart _ _ hstart x hx) r hr

namespace ShaderType

omit h in
theorem join_literals {values : List Scalar} (h : values.length ≤ 1) :
    String.join (values.map (Scalar.literal c)) =
      ", ".intercalate (values.map (Scalar.literal c)) := by
  cases values with
  | nil => rfl
  | cons v rest =>
    obtain rfl : rest = [] := List.length_eq_zero_iff.mp (by simpa using h)
    simp

theorem foldPlain_keeps {t : ShaderType} (hp : p t) :
    ConstantPart.Keeps Inv (t.foldPlain c put) := by
  intro values state hstate r hr
  simp only [foldPlain] at hr
  split at hr
  · cases hs : t.spelling <;> rw [hs] at hr <;> cases hr
  split at hr
  · cases hs : t.spelling with
    | error e => rw [hs] at hr; cases hr
    | ok name =>
      rw [hs] at hr
      refine constructorCall_keeps h hp hs .opening ?_ values state hstate r hr
      intro _ state' hstate' r' hr'
      cases hr'
      exact h _ _ hstate' (.literals _)
  · rename_i hsize
    cases hr
    refine h _ _ hstate ?_
    -- at most one value is left, which no comma follows
    have hlength : (values.take t.componentCount).length ≤ 1 := by
      rw [List.length_take]
      omega
    show IsConstantText c (String.join ((values.take t.componentCount).map (Scalar.literal c)))
    rw [join_literals hlength]
    exact .literals _

omit h in
theorem isConstantText_brackets {t : ShaderType} {n : Nat} (hsize : t.arraySize = some n) :
    IsConstantText c (t.brackets ++ "(") := by
  have htext : t.brackets ++ "(" = "[" ++ n.repr ++ "](" := by
    simp [brackets, hsize, String.append_assoc]
  rw [htext]
  exact .sizedOpening n

theorem foldArranged_keeps {t : ShaderType} (hp : p t) {element : ConstantPart State}
    (he : ConstantPart.Keeps Inv element) :
    ConstantPart.Keeps Inv (t.foldArranged put element) := by
  unfold foldArranged
  cases hsize : t.arraySize with
  | none => exact he
  | some n =>
    cases hs : t.spelling with
    | error e => intro values state hstate r hr; cases hr
    | ok name =>
      exact constructorCall_keeps h hp hs (isConstantText_brackets hsize)
        (foldRepeated_keeps h he (by simp) n)

mutual

theorem foldElement_keeps : (t : ShaderType) → (∀ part, PartOf part t → p part) →
    ConstantPart.Keeps Inv (t.foldElement c put)
  | { structDef := some { id, name, fields }, basic, .. }, hp => by
    have hself := hp _ (.refl _)
    rw [foldElement]
    split
    · rename_i hbasic
      obtain rfl : basic = .struct := hbasic
      exact constructorCall_keeps h hself rfl .opening (foldMembers_keeps fields
        (fun f hf part hpart => hp part (.structMember rfl hf hpart)) (by simp))
    · exact foldPlain_keeps h hself
  | { structDef := none, .. }, hp => by
    rw [foldElement]
    split
    · intro values state hstate r hr; cases hr
    · exact foldPlain_keeps h (hp _ (.refl _))

theorem foldMembers_keeps : (fields : List Field) →
    (∀ f ∈ fields, ∀ part, PartOf part f.type → p part) → {lead : List ConstantPiece} →
    (∀ piece ∈ lead, piece.IsRegular c p) →
      ConstantPart.Keeps Inv (foldMembers c put fields lead)
  | [], _, _, _ => by
    intro values state hstate r hr
    rw [foldMembers] at hr
    cases hr
    exact hstate
  | { type, .. } :: rest, hp, lead, hlead => by
    obtain ⟨htype, hrest⟩ := List.forall_mem_cons.mp hp
    intro values state hstate r hr
    have hstart : Inv (lead.foldl put state) := foldl_keeps h hlead hstate
    rw [foldMembers] at hr
    cases hpart : type.foldArranged put (type.foldElement c put) values
        (lead.foldl put state) with
    | error failure => rw [hpart] at hr; cases hr
    | ok x =>
      rw [hpart] at hr
      exact foldMembers_keeps rest hrest (by simpa [ConstantPiece.IsRegular] using .separator) _ _
        (foldArranged_keeps h (htype type (.refl type)) (foldElement_keeps type htype) _ _ hstart x
          hpart) r hr

end

theorem foldObject_keeps {t : ShaderType} (hp : ∀ part, PartOf part t → p part) :
    ConstantPart.Keeps Inv (t.foldObject c put) :=
  foldArranged_keeps h (hp t (.refl t)) (foldElement_keeps h t hp)

end ShaderType

end

/-! ### Tokens of constants -/

namespace ShaderType

/-- The tokens of a constant. -/
def constantTokens (c : Config) (t : ShaderType) (values : List Scalar) :
    Except ConstantFailure (List Token) :=
  t.foldConstant c addPiece values []

theorem constantTrace_eq (c : Config) (t : ShaderType) (values : List Scalar)
    (declared : List StructId) :
    t.constantTrace c values declared = (t.constantTokens c values).map (·, declared) := rfl

variable {c : Config} {t : ShaderType} {values : List Scalar} {tokens : List Token}

theorem foldObject_of_constantTokens (h : t.constantTokens c values = .ok tokens) :
    t.foldObject c addPiece values [] = .ok ([], tokens) := by
  unfold constantTokens foldConstant at h
  cases ho : t.foldObject c addPiece values [] with
  | error failure => rw [ho] at h; cases h
  | ok x =>
    obtain ⟨rest, front⟩ := x
    cases rest with
    | nil => rw [ho] at h; cases h; rfl
    | cons v rest => rw [ho] at h; cases h

/-- **A constant consists of the names of its types and the texts of constants.** -/
theorem mem_constantTokens (h : t.constantTokens c values = .ok tokens) {token : Token}
    (ht : token ∈ tokens) :
    (∃ part name, PartOf part t ∧ part.spelling = .ok name ∧ token = .typeName name) ∨
      ∃ s, token = .text s ∧ IsConstantText c s := by
  have hkeeps : ConstantPart.Keeps (fun front : List Token => ∀ token ∈ front,
      (∃ part name, PartOf part t ∧ part.spelling = .ok name ∧ token = .typeName name) ∨
        ∃ s, token = .text s ∧ IsConstantText c s)
      (t.foldObject c addPiece) := foldObject_keeps
    (fun front piece hfront hpiece token htoken => by
      rcases List.mem_append.mp htoken with htoken | htoken
      · exact hfront token htoken
      · cases piece with
        | text s => exact .inr ⟨s, List.mem_singleton.mp htoken, hpiece⟩
        | typeName name =>
          obtain ⟨part, hpart, hname⟩ := hpiece
          exact .inl ⟨part, name, hpart, hname, List.mem_singleton.mp htoken⟩)
    (fun part hpart => hpart)
  exact hkeeps values [] (by simp) _ (foldObject_of_constantTokens h) token ht

/-- The call of a constructor begins with the name of the type and a parenthesis. -/
theorem exists_constructorCall {name : TypeName} {suffix : String}
    {inside : ConstantPart (List Token)}
    (hi : ∀ start, ConstantPart.Keeps (start <+: ·) inside) {rest : List Scalar}
    (h : constructorCall addPiece name suffix inside values [] =
      .ok (rest, tokens)) :
    ∃ back, tokens = .typeName name :: .text (suffix ++ "(") :: back := by
  unfold constructorCall at h
  cases hin : inside values [.typeName name, .text (suffix ++ "(")] with
  | error failure => simp [ConstantPiece.token, hin, bind, Except.bind] at h
  | ok x =>
    simp only [ConstantPiece.token, List.nil_append, List.cons_append, hin, bind, Except.bind,
      Except.ok.injEq, Prod.mk.injEq] at h
    obtain ⟨-, rfl⟩ := h
    obtain ⟨back, hback⟩ := hi _ _ _ (List.prefix_refl _) x hin
    exact ⟨back ++ [.text ")"], by rw [← hback]; rfl⟩

theorem foldElement_eq {State : Type} (put : State → ConstantPiece → State) (t : ShaderType) :
    t.foldElement c put =
      if t.basic = .struct then
        match t.structDef with
        | some d => constructorCall put (.userDefined d.name) "" (foldMembers c put d.fields [])
        | none => fun _ _ => .error (.error (.malformed .missingStructDef))
      else t.foldPlain c put := by
  obtain ⟨_, _, _, _, _, _, _, _, _, _, structDef, _⟩ := t
  cases structDef with
  | none => rw [foldElement]
  | some d => cases d; rw [foldElement]

/-- A plain object of all values is one text, or the call of a constructor for several values. -/
theorem foldPlain_cases
    (h : t.foldPlain c addPiece values [] = .ok ([], tokens)) :
    (values = [] ∧ tokens = [.text ""]) ∨ (∃ v, values = [v] ∧ tokens = [.text (v.literal c)]) ∨
    (1 < values.length ∧ ∃ name back, tokens = .typeName name :: .text "(" :: back) := by
  simp only [foldPlain] at h
  split at h
  · cases hs : t.spelling <;> rw [hs] at h <;> cases h
  rename_i hsize
  split at h
  · rename_i hseveral
    cases hs : t.spelling with
    | error e => rw [hs] at h; cases h
    | ok name =>
      rw [hs] at h
      obtain ⟨back, hback⟩ := exists_constructorCall (fun start _ state hstate r hr => by
        cases hr
        exact hstate.trans (List.prefix_append _ _)) h
      exact .inr (.inr ⟨by omega, name, back, hback⟩)
  · rename_i hfew
    simp only [Except.ok.injEq, Prod.mk.injEq, List.drop_eq_nil_iff] at h
    obtain ⟨hall, rfl⟩ := h
    rw [List.take_of_length_le hall]
    cases values with
    | nil => exact .inl ⟨rfl, rfl⟩
    | cons v rest =>
      cases rest with
      | nil => exact .inr (.inl ⟨v, rfl, by simp [ConstantPiece.token]⟩)
      | cons => simp only [List.length_cons] at hall; omega

/-- A constant of a single value is its literal; any other one is empty or the call of a
constructor. -/
theorem constantTokens_cases (h : t.constantTokens c values = .ok tokens) :
    (t.arraySize = none ∧ t.basic ≠ .struct ∧
      ((values = [] ∧ tokens = [.text ""]) ∨ ∃ v, values = [v] ∧ tokens = [.text (v.literal c)])) ∨
    ((t.arraySize = none → t.basic ≠ .struct → values.length ≠ 1) ∧
      ∃ (name : TypeName) (shape : ShaderType) (back : List Token),
        tokens = .typeName name :: .text (shape.brackets ++ "(") :: back) := by
  have hextends : ∀ (start state : List Token) (piece : ConstantPiece), start <+: state →
      piece.IsRegular c (fun _ => True) → start <+: state ++ [piece.token] :=
    fun _ _ _ hstate _ => hstate.trans (List.prefix_append _ _)
  have hobject := foldObject_of_constantTokens h
  unfold foldObject foldArranged at hobject
  cases hsize : t.arraySize with
  | some n =>
    right
    rw [hsize] at hobject
    cases hs : t.spelling with
    | error e => rw [hs] at hobject; cases hobject
    | ok name =>
      rw [hs] at hobject
      obtain ⟨back, hback⟩ := exists_constructorCall (fun start =>
        foldRepeated_keeps (hextends start)
          (foldElement_keeps (hextends start) t fun _ _ => trivial)
          (by simp) n) hobject
      exact ⟨nofun, name, t, back, hback⟩
  | none =>
    rw [hsize, foldElement_eq] at hobject
    dsimp only at hobject
    split_ifs at hobject with hbasic
    · right
      cases hd : t.structDef with
      | none => rw [hd] at hobject; cases hobject
      | some d =>
        rw [hd] at hobject
        obtain ⟨back, hback⟩ := exists_constructorCall (fun start =>
          foldMembers_keeps (hextends start) d.fields (fun _ _ _ _ => trivial) (by simp)) hobject
        exact ⟨fun _ hne => absurd hbasic hne, _, {}, back, hback⟩
    · rcases foldPlain_cases hobject with hnone | hone | ⟨hlength, name, back, hback⟩
      · exact .inl ⟨rfl, hbasic, .inl hnone⟩
      · exact .inl ⟨rfl, hbasic, .inr hone⟩
      · exact .inr ⟨fun _ _ => by omega, name, {}, back, hback⟩

end ShaderType

end ShaderText
