import ShaderText.Proofs.Nesting

/-! # Surface trees: what the text of an expression says

A `Surface` is an expression as it is read: operators, identifiers and literals are texts, and
arguments are a list. Its text is put together by `Surface.chars`.

**`Surface.eq_of_chars_eq`: a surface tree is known from its text,** if no literal has a minus
sign right after the minus sign of a negation. The last character and the first one tell what the
outermost part of a text is (`shapeOf_chars`), and the operands are found as the solid texts that
they are (`Surface.solid_chars`); no operator is weighed against another. -/

namespace ShaderText

/-- An expression as it is read. -/
inductive Surface where
  | identifier (name : String)
  | literal (text : String)
  /-- An operator of one operand, with its parentheses. -/
  | around (before after : String) (operand : Surface)
  /-- An operator of two operands, with the blanks around it. -/
  | between (separator : String) (left right : Surface)
  | ternary (condition whenTrue whenFalse : Surface)
  | element (indexed position : Surface)
  | member (owner : Surface) (name : String)
  | call (name : String) (arguments : List Surface)

namespace Surface

mutual

/-- The text of a surface tree. -/
def chars : Surface → List Char
  | identifier name => name.toList
  | literal text => text.toList
  | around before after operand => before.toList ++ (operand.chars ++ after.toList)
  | between separator left right =>
    '(' :: ((left.chars ++ (separator.toList ++ right.chars)) ++ [')'])
  | ternary condition whenTrue whenFalse =>
    '(' :: '(' :: (condition.chars ++ ')' :: ' ' :: '?' :: ' ' :: '(' ::
      (whenTrue.chars ++ ')' :: ' ' :: ':' :: ' ' :: '(' :: (whenFalse.chars ++ [')', ')'])))
  | element indexed position => indexed.chars ++ '[' :: (position.chars ++ [']'])
  | member owner name => owner.chars ++ '.' :: name.toList
  | call name arguments =>
    name.toList ++ '(' :: (List.intercalate [',', ' '] (eachChars arguments) ++ [')'])

def eachChars : List Surface → List (List Char)
  | [] => []
  | s :: rest => s.chars :: eachChars rest

end

mutual

/-- A tree and all parts of it have a property. -/
def Every (p : Surface → Prop) : Surface → Prop
  | identifier name => p (identifier name)
  | literal text => p (literal text)
  | around before after operand => p (around before after operand) ∧ operand.Every p
  | between separator left right =>
    p (between separator left right) ∧ left.Every p ∧ right.Every p
  | ternary condition whenTrue whenFalse =>
    p (ternary condition whenTrue whenFalse) ∧
      condition.Every p ∧ whenTrue.Every p ∧ whenFalse.Every p
  | element indexed position =>
    p (element indexed position) ∧ indexed.Every p ∧ position.Every p
  | member owner name => p (member owner name) ∧ owner.Every p
  | call name arguments => p (call name arguments) ∧ AllEvery p arguments

def AllEvery (p : Surface → Prop) : List Surface → Prop
  | [] => True
  | s :: rest => s.Every p ∧ AllEvery p rest

end

/-- A word with or without a minus sign, that is not the name of something. -/
structure IsLiteral (text : String) : Prop where
  not_word : isWord text = false
  split : ∃ sign body, text.toList = sign ++ body ∧ (sign = [] ∨ sign = ['-']) ∧ body ≠ [] ∧
    ∀ ch ∈ body, isWordChar ch = true

/-- Identifiers are words, literals are literals, and operators are those of the language. -/
def IsRegular : Surface → Prop
  | identifier name => isWord name = true
  | literal text => IsLiteral text
  | around before after _ => ∃ op : UnaryOp, op.form = .around before after
  | between separator _ _ => ∃ op : BinaryOp, op.form = .between separator
  | ternary .. => True
  | element .. => True
  | member _ name => isWord name = true
  | call name _ => isWord name = true

/-- A negation is not followed by a minus sign. -/
def IsSignApart : Surface → Prop
  | around before _ operand => before = "(-" → operand.chars.head? ≠ some '-'
  | _ => True

/-! ### Words and operators -/

/-- What the characters of words and of signs are not. -/
theorem plain_of_isWordChar {ch : Char} (h : isWordChar ch = true) :
    isOpening ch = false ∧ isStop ch = false ∧ ch ∉ ['(', ')', ']', '.', '+', '-', '!', '~'] := by
  refine ⟨?_, ?_, ?_⟩
  · simp only [isOpening, Bool.or_eq_false_iff, beq_eq_false_iff_ne]
    constructor <;> rintro rfl <;> exact absurd h (by decide)
  · simp only [isStop, isClosing, isGap, Bool.or_eq_false_iff, beq_eq_false_iff_ne]
    refine ⟨⟨?_, ?_⟩, ?_, ?_⟩ <;> rintro rfl <;> exact absurd h (by decide)
  · simp only [List.mem_cons, List.not_mem_nil, or_false]
    rintro (rfl | rfl | rfl | rfl | rfl | rfl | rfl | rfl) <;> exact absurd h (by decide)

theorem solid_of_isWord {name : String} (h : isWord name = true) : Solid name.toList :=
  solid_of_plain fun _ hch =>
    have hplain := plain_of_isWordChar (isWordChar_of_mem h hch)
    ⟨hplain.1, hplain.2.1⟩

theorem not_mem_of_isWord {name : String} (ch : Char) (h : isWord name = true)
    (hch : ch ∈ ['(', ')', ']', '.', '+', '-', '!', '~']) : ch ∉ name.toList := fun hmem =>
  (plain_of_isWordChar (isWordChar_of_mem h hmem)).2.2 hch

theorem IsLiteral.mem {text : String} (h : IsLiteral text) {ch : Char} (hch : ch ∈ text.toList) :
    ch = '-' ∨ isWordChar ch = true := by
  obtain ⟨sign, body, htext, hsign, -, hbody⟩ := h.split
  rw [htext, List.mem_append] at hch
  rcases hch with hch | hch
  · rcases hsign with rfl | rfl
    · cases hch
    · exact .inl (List.mem_singleton.mp hch)
  · exact .inr (hbody ch hch)

/-- The texts around an operand: a sign before it, or a step after it. -/
theorem around_cases {op : UnaryOp} {before after : String} (h : op.form = .around before after) :
    (after = ")" ∧ ∃ sign ∈ [['-'], ['+'], ['!'], ['~'], ['+', '+'], ['-', '-']],
      before.toList = '(' :: sign) ∨
    (before = "(" ∧ ∃ step ∈ [['+', '+'], ['-', '-']], after.toList = step ++ [')']) := by
  cases op <;> cases h <;> first
    | exact .inl (by decide)
    | exact .inr (by decide)

/-- The text between two operands: a gap, the operator, which has no gap in it, and a blank. -/
theorem between_cases {op : BinaryOp} {separator : String} (h : op.form = .between separator) :
    ∃ gap word, separator.toList = gap :: (word ++ [' ']) ∧ isGap gap = true ∧ Solid word ∧
      word ≠ ['?'] := by
  refine ⟨separator.toList.headD ' ', separator.toList.tail.dropLast, ?_⟩
  cases op <;> cases h <;> decide

/-! ### First and last characters -/

/-- The text of an expression begins with a word, a minus sign or a parenthesis. -/
theorem exists_head : (s : Surface) → s.Every IsRegular →
    ∃ ch rest, s.chars = ch :: rest ∧ (isWordChar ch = true ∨ ch = '-' ∨ ch = '(')
  | identifier name, h => by
    obtain ⟨ch, rest, hname, -, hall⟩ := exists_cons_of_isWord (h : isWord name = true)
    exact ⟨ch, rest, hname, .inl (hall ch List.mem_cons_self)⟩
  | literal text, h => by
    have hliteral : IsLiteral text := h
    obtain ⟨sign, body, htext, hsign, hne, hbody⟩ := hliteral.split
    obtain ⟨ch, rest, rfl⟩ := List.exists_cons_of_ne_nil hne
    rcases hsign with rfl | rfl
    · exact ⟨ch, rest, htext, .inl (hbody ch List.mem_cons_self)⟩
    · exact ⟨'-', ch :: rest, htext, .inr (.inl rfl)⟩
  | around before after operand, ⟨⟨op, hop⟩, _⟩ => by
    rcases around_cases hop with ⟨-, sign, -, hbefore⟩ | ⟨rfl, -⟩
    · exact ⟨'(', _, by rw [chars, hbefore]; rfl, .inr (.inr rfl)⟩
    · exact ⟨'(', _, rfl, .inr (.inr rfl)⟩
  | between .., _ => ⟨'(', _, rfl, .inr (.inr rfl)⟩
  | ternary .., _ => ⟨'(', _, rfl, .inr (.inr rfl)⟩
  | element indexed position, ⟨_, h, _⟩ => by
    obtain ⟨ch, rest, hchars, hch⟩ := exists_head indexed h
    exact ⟨ch, _, by rw [chars, hchars]; rfl, hch⟩
  | member owner name, ⟨_, h⟩ => by
    obtain ⟨ch, rest, hchars, hch⟩ := exists_head owner h
    exact ⟨ch, _, by rw [chars, hchars]; rfl, hch⟩
  | call name arguments, ⟨h, _⟩ => by
    obtain ⟨ch, rest, hname, -, hall⟩ := exists_cons_of_isWord (h : isWord name = true)
    exact ⟨ch, _, by rw [chars, hname]; rfl, .inl (hall ch List.mem_cons_self)⟩

theorem chars_ne_nil {s : Surface} (h : s.Every IsRegular) : s.chars ≠ [] := by
  obtain ⟨ch, rest, hchars, -⟩ := s.exists_head h
  rw [hchars]
  exact List.cons_ne_nil ch rest

theorem exists_concat_of_isWord {name : String} (h : isWord name = true) :
    ∃ front ch, name.toList = front ++ [ch] ∧ isWordChar ch = true := by
  obtain ⟨ch, rest, hname, -, hall⟩ := exists_cons_of_isWord h
  refine ⟨_, _, (List.dropLast_concat_getLast (l := name.toList) (by simp [hname])).symm, ?_⟩
  exact isWordChar_of_mem h (List.getLast_mem _)

theorem IsLiteral.exists_concat {text : String} (h : IsLiteral text) :
    ∃ front ch, text.toList = front ++ [ch] ∧ isWordChar ch = true := by
  obtain ⟨sign, body, htext, -, hne, hbody⟩ := h.split
  refine ⟨sign ++ body.dropLast, body.getLast hne, ?_, hbody _ (List.getLast_mem hne)⟩
  rw [htext, List.append_assoc, List.dropLast_concat_getLast]

/-- The outermost part of an expression. -/
inductive Shape where
  | atom
  | group
  | element
  | member
  | call
  deriving DecidableEq

/-- The shape of a tree. -/
def shape : Surface → Shape
  | identifier _ | literal _ => .atom
  | around .. | between .. | ternary .. => .group
  | element .. => .element
  | member .. => .member
  | call .. => .call

/-- The last character of a text of some shape. -/
def Shape.endsIn : Shape → Char → Bool
  | atom, ch | member, ch => isWordChar ch
  | group, ch | call, ch => ch == ')'
  | element, ch => ch == ']'

theorem exists_last {s : Surface} (h : s.Every IsRegular) :
    ∃ front ch, s.chars = front ++ [ch] ∧ s.shape.endsIn ch = true := by
  cases s with
  | identifier name => exact exists_concat_of_isWord h
  | literal text => exact (h : IsLiteral text).exists_concat
  | around before after operand =>
    obtain ⟨⟨op, hop⟩, -⟩ := h
    rcases around_cases hop with ⟨rfl, -⟩ | ⟨rfl, step, -, hafter⟩
    · exact ⟨_, ')', (List.append_assoc _ _ _).symm, rfl⟩
    · exact ⟨'(' :: (operand.chars ++ step), ')', by simp [chars, hafter], rfl⟩
  | between separator left right => exact ⟨'(' :: _, ')', rfl, rfl⟩
  | ternary condition whenTrue whenFalse =>
    refine ⟨(chars (ternary condition whenTrue whenFalse)).dropLast, ')', ?_, rfl⟩
    simp [chars, List.dropLast]
  | element indexed position =>
    exact ⟨indexed.chars ++ '[' :: position.chars, ']', by simp [chars], rfl⟩
  | member owner name =>
    obtain ⟨front, ch, hname, hch⟩ := exists_concat_of_isWord h.1
    exact ⟨owner.chars ++ '.' :: front, ch, by simp [chars, hname], hch⟩
  | call name arguments =>
    exact ⟨name.toList ++ '(' :: List.intercalate [',', ' '] (eachChars arguments), ')',
      by simp [chars], rfl⟩

/-- The shape that a text has, going by its last character and its first one. -/
def shapeOf (text : List Char) : Shape :=
  if text.getLast? = some ']' then .element
  else if text.getLast? = some ')' then if text.head? = some '(' then .group else .call
  else if '.' ∈ text then .member
  else .atom

theorem shapeOf_of_word {text : List Char} {ch : Char} (hlast : text.getLast? = some ch)
    (hch : isWordChar ch = true) : shapeOf text = if '.' ∈ text then .member else .atom := by
  have hplain := (plain_of_isWordChar hch).2.2
  have hbracket : ch ≠ ']' := by rintro rfl; exact hplain (by decide)
  have hparen : ch ≠ ')' := by rintro rfl; exact hplain (by decide)
  rw [shapeOf, hlast, if_neg (by simpa using hbracket), if_neg (by simpa using hparen)]

/-- **A text tells the shape of its tree.** -/
theorem shapeOf_chars {s : Surface} (h : s.Every IsRegular) : shapeOf s.chars = s.shape := by
  obtain ⟨front, last, hfront, hends⟩ := exists_last h
  have hlast : s.chars.getLast? = some last := by rw [hfront, List.getLast?_concat]
  cases s with
  | identifier name =>
    rw [shapeOf_of_word hlast hends]
    exact if_neg (not_mem_of_isWord _ (h : isWord name = true) (by decide))
  | literal text =>
    have hdot : '.' ∉ text.toList := fun hmem => by
      rcases (h : IsLiteral text).mem hmem with hminus | hword
      · exact absurd hminus (by decide)
      · exact absurd hword (by decide)
    rw [shapeOf_of_word hlast hends]
    exact if_neg hdot
  | member owner name =>
    rw [shapeOf_of_word hlast hends, if_pos (by simp [chars])]
    rfl
  | element indexed position =>
    obtain rfl := eq_of_beq hends
    rw [shapeOf, if_pos hlast]
    rfl
  | call name arguments =>
    obtain rfl := eq_of_beq hends
    obtain ⟨ch, rest, hname, -⟩ := exists_cons_of_isWord h.1
    have hparen : ch ≠ '(' := by
      rintro rfl
      exact not_mem_of_isWord '(' h.1 (by decide) (hname ▸ List.mem_cons_self)
    have hhead : (chars (call name arguments)).head? = some ch := by rw [chars, hname]; rfl
    rw [shapeOf, hlast, if_neg (by decide), if_pos rfl, hhead, if_neg (by simpa using hparen)]
    rfl
  | around before after operand =>
    obtain rfl := eq_of_beq hends
    obtain ⟨op, hop⟩ := h.1
    have hhead : (chars (around before after operand)).head? = some '(' := by
      rcases around_cases hop with ⟨-, sign, -, hbefore⟩ | ⟨rfl, -⟩
      · rw [chars, hbefore]
        rfl
      · rfl
    rw [shapeOf, hlast, if_neg (by decide), if_pos rfl, if_pos hhead]
    rfl
  | between | ternary =>
    obtain rfl := eq_of_beq hends
    rw [shapeOf, hlast, if_neg (by decide), if_pos rfl]
    exact if_pos rfl

/-! ### Solid texts -/

theorem nesting_between {op : BinaryOp} {separator : String} (h : op.form = .between separator) :
    nesting separator.toList 1 = some 1 := by
  obtain ⟨gap, word, hseparator, hgap, hword, -⟩ := between_cases h
  have hsolid := hword.nesting_eq 1
  rw [hseparator]
  simp only [isGap, Bool.or_eq_true, beq_iff_eq] at hgap
  rcases hgap with rfl | rfl <;>
    simp [nesting, nesting_append, hsolid, isOpening, isStop, isClosing, isGap]

theorem nesting_intercalate {parts : List (List Char)} (h : ∀ part ∈ parts, Solid part) :
    nesting (List.intercalate [',', ' '] parts) 1 = some 1 := by
  induction parts with
  | nil => rfl
  | cons part rest ih =>
    obtain ⟨hpart, hrest⟩ := List.forall_mem_cons.mp h
    cases rest with
    | nil => rw [List.intercalate_singleton, hpart.nesting_eq]
    | cons next rest =>
      have hcomma : nesting [',', ' '] 1 = some 1 := by decide
      rw [List.intercalate_cons_cons, nesting_append, nesting_append, hpart.nesting_eq,
        Option.bind_some, hcomma, Option.bind_some, ih hrest]

mutual

/-- **The text of an expression is solid.** -/
theorem solid_chars : (s : Surface) → s.Every IsRegular → Solid s.chars
  | identifier _, h => solid_of_isWord h
  | literal text, h => solid_of_plain fun ch hch => by
    rcases (h : IsLiteral text).mem hch with rfl | hword
    · decide
    · exact ⟨(plain_of_isWordChar hword).1, (plain_of_isWordChar hword).2.1⟩
  | around before after operand, ⟨⟨op, hop⟩, hoperand⟩ => by
    have hsolid := solid_chars operand hoperand
    rcases around_cases hop with ⟨rfl, sign, hsign, hbefore⟩ | ⟨rfl, step, hstep, hafter⟩
    · have hplain : ∀ sign ∈ [['-'], ['+'], ['!'], ['~'], ['+', '+'], ['-', '-']], Solid sign := by
        decide
      simpa [chars, hbefore] using ((hplain sign hsign).append hsolid).enclosed '(' ')' rfl rfl
    · have hplain : ∀ step ∈ [['+', '+'], ['-', '-']], Solid step := by decide
      simpa [chars, hafter] using (hsolid.append (hplain step hstep)).enclosed '(' ')' rfl rfl
  | between separator left right, ⟨⟨op, hop⟩, hleft, hright⟩ => by
    refine solid_enclosed _ _ rfl rfl ?_
    rw [nesting_append, (solid_chars left hleft).nesting_eq, Option.bind_some, nesting_append,
      nesting_between hop, Option.bind_some, (solid_chars right hright).nesting_eq]
  | ternary condition whenTrue whenFalse, ⟨_, hcondition, htrue, hfalse⟩ => by
    have h₁ := (solid_chars condition hcondition).nesting_eq
    have h₂ := (solid_chars whenTrue htrue).nesting_eq
    have h₃ := (solid_chars whenFalse hfalse).nesting_eq
    simp [Solid, chars, nesting, nesting_append, h₁, h₂, h₃, isOpening, isStop, isClosing, isGap]
  | element indexed position, ⟨_, hindexed, hposition⟩ =>
    (solid_chars indexed hindexed).append
      ((solid_chars position hposition).enclosed '[' ']' rfl rfl)
  | member owner name, ⟨hname, howner⟩ =>
    (solid_chars owner howner).append
      (Solid.append (show Solid ['.'] from rfl) (solid_of_isWord hname))
  | call name arguments, ⟨hname, harguments⟩ =>
    (solid_of_isWord hname).append (solid_enclosed '(' ')' rfl rfl
      (nesting_intercalate (solid_eachChars arguments harguments)))

theorem solid_eachChars : (arguments : List Surface) → AllEvery IsRegular arguments →
    ∀ part ∈ eachChars arguments, Solid part
  | [], _, _, hpart => absurd hpart List.not_mem_nil
  | s :: rest, ⟨hs, hrest⟩, part, hpart => by
    rcases List.mem_cons.mp hpart with rfl | hpart
    · exact solid_chars s hs
    · exact solid_eachChars rest hrest part hpart

end

theorem eachChars_ne_nil : (arguments : List Surface) → AllEvery IsRegular arguments →
    ∀ part ∈ eachChars arguments, part ≠ []
  | [], _, _, hpart => absurd hpart List.not_mem_nil
  | s :: rest, ⟨hs, hrest⟩, part, hpart => by
    rcases List.mem_cons.mp hpart with rfl | hpart
    · exact chars_ne_nil hs
    · exact eachChars_ne_nil rest hrest part hpart

/-! ### Two groups with one text -/

theorem enclosed_inj {x y : List Char} (h : '(' :: (x ++ [')']) = '(' :: (y ++ [')'])) : x = y :=
  List.append_cancel_right (List.cons_eq_cons.mp h).2

/-- The text in the parentheses of an operator with one operand has no gap outside brackets. -/
theorem exists_solid_of_around {before after : String} {operand : Surface}
    (h : (around before after operand).Every IsRegular) :
    ∃ content, chars (around before after operand) = '(' :: (content ++ [')']) ∧
      Solid content := by
  obtain ⟨⟨op, hop⟩, hoperand⟩ := h
  have hsolid := solid_chars operand hoperand
  rcases around_cases hop with ⟨rfl, sign, hsign, hbefore⟩ | ⟨rfl, step, hstep, hafter⟩
  · have hplain : ∀ sign ∈ [['-'], ['+'], ['!'], ['~'], ['+', '+'], ['-', '-']], Solid sign := by
      decide
    exact ⟨sign ++ operand.chars, by simp [chars, hbefore], (hplain sign hsign).append hsolid⟩
  · have hplain : ∀ step ∈ [['+', '+'], ['-', '-']], Solid step := by decide
    exact ⟨operand.chars ++ step, by simp [chars, hafter], hsolid.append (hplain step hstep)⟩

/-- Two signs before operands, of which one could begin the other. -/
theorem sign_cases : ∀ sign ∈ [['-'], ['+'], ['!'], ['~'], ['+', '+'], ['-', '-']],
    ∀ sign' ∈ [['-'], ['+'], ['!'], ['~'], ['+', '+'], ['-', '-']], sign <+: sign' →
      sign = sign' ∨ (sign = ['-'] ∧ sign' = ['-', '-']) ∨ (sign = ['+'] ∧ sign' = ['+', '+']) := by
  decide

/-- A sign and the operand after it are told apart, unless both begin with the same sign. -/
theorem sign_append_inj {sign sign' : List Char} {s s' : Surface}
    (hsign : sign ∈ [['-'], ['+'], ['!'], ['~'], ['+', '+'], ['-', '-']])
    (hsign' : sign' ∈ [['-'], ['+'], ['!'], ['~'], ['+', '+'], ['-', '-']])
    (h : s.Every IsRegular) (h' : s'.Every IsRegular)
    (hapart : sign = ['-'] → s.chars.head? ≠ some '-')
    (hapart' : sign' = ['-'] → s'.chars.head? ≠ some '-')
    (heq : sign ++ s.chars = sign' ++ s'.chars) : sign = sign' ∧ s.chars = s'.chars := by
  have hplus : ∀ {t : Surface} {rest}, t.Every IsRegular → t.chars ≠ '+' :: rest := by
    intro t rest ht hchars
    obtain ⟨ch, rest', hchars', hch⟩ := t.exists_head ht
    rw [hchars] at hchars'
    cases hchars'
    exact absurd hch (by decide)
  rcases List.prefix_or_prefix_of_prefix ⟨s.chars, heq⟩ ⟨s'.chars, rfl⟩ with hle | hle
  · rcases sign_cases sign hsign sign' hsign' hle with rfl | ⟨rfl, rfl⟩ | ⟨rfl, rfl⟩
    · exact ⟨rfl, List.append_cancel_left heq⟩
    · exact absurd (congrArg List.head? (List.cons_eq_cons.mp heq).2) (hapart rfl)
    · exact absurd (List.cons_eq_cons.mp heq).2 (hplus h)
  · rcases sign_cases sign' hsign' sign hsign hle with rfl | ⟨rfl, rfl⟩ | ⟨rfl, rfl⟩
    · exact ⟨rfl, List.append_cancel_left heq⟩
    · exact absurd (congrArg List.head? (List.cons_eq_cons.mp heq).2.symm) (hapart' rfl)
    · exact absurd (List.cons_eq_cons.mp heq).2.symm (hplus h')

/-- A step after an operand is not the end of an operand after a sign. -/
theorem sign_append_ne_append_step {sign step : List Char} {s s' : Surface}
    (hstep : step ∈ [['+', '+'], ['-', '-']]) (h : s.Every IsRegular) :
    sign ++ s.chars ≠ s'.chars ++ step := by
  intro heq
  obtain ⟨front, ch, hfront, hends⟩ := exists_last h
  have hch : ch ≠ '+' ∧ ch ≠ '-' := by
    generalize s.shape = shape at hends
    constructor <;> rintro rfl <;> cases shape <;> exact absurd hends (by decide)
  have hlast := congrArg List.getLast? heq
  rw [hfront, ← List.append_assoc, List.getLast?_concat] at hlast
  simp only [List.mem_cons, List.not_mem_nil, or_false] at hstep
  rcases hstep with rfl | rfl
  · simp at hlast
    exact hch.1 hlast
  · simp at hlast
    exact hch.2 hlast

theorem around_inj {before after before' after' : String} {s s' : Surface}
    (h : (around before after s).Every IsRegular) (h' : (around before' after' s').Every IsRegular)
    (hapart : IsSignApart (around before after s))
    (hapart' : IsSignApart (around before' after' s'))
    (heq : chars (around before after s) = chars (around before' after' s')) :
    before = before' ∧ after = after' ∧ s.chars = s'.chars := by
  have hminus : ∀ {text : String} {t : Surface}, IsSignApart (around text ")" t) →
      ∀ {sign}, text.toList = '(' :: sign → sign = ['-'] → t.chars.head? ≠ some '-' := by
    rintro text t ht sign htext rfl
    exact ht (String.toList_inj.mp (by rw [htext]; rfl))
  obtain ⟨⟨op, hop⟩, hs⟩ := h
  obtain ⟨⟨op', hop'⟩, hs'⟩ := h'
  rcases around_cases hop with ⟨rfl, sign, hsign, hbefore⟩ | ⟨rfl, step, hstep, hafter⟩ <;>
    rcases around_cases hop' with ⟨rfl, sign', hsign', hbefore'⟩ | ⟨rfl, step', hstep', hafter'⟩
  · have hinner : sign ++ s.chars = sign' ++ s'.chars :=
      enclosed_inj (by simpa [chars, hbefore, hbefore'] using heq)
    obtain ⟨rfl, hchars⟩ := sign_append_inj hsign hsign' hs hs' (hminus hapart hbefore)
      (hminus hapart' hbefore') hinner
    exact ⟨String.toList_inj.mp (hbefore.trans hbefore'.symm), rfl, hchars⟩
  · have hinner : sign ++ s.chars = s'.chars ++ step' :=
      enclosed_inj (by simpa [chars, hbefore, hafter'] using heq)
    exact absurd hinner (sign_append_ne_append_step hstep' hs)
  · have hinner : s.chars ++ step = sign' ++ s'.chars :=
      enclosed_inj (by simpa [chars, hafter, hbefore'] using heq)
    exact absurd hinner.symm (sign_append_ne_append_step hstep hs')
  · have hinner : s.chars ++ step = s'.chars ++ step' :=
      enclosed_inj (by simpa [chars, hafter, hafter'] using heq)
    have hlength : ∀ step ∈ [['+', '+'], ['-', '-']], step.length = 2 := by decide
    obtain ⟨hchars, rfl⟩ :=
      List.append_inj' hinner ((hlength _ hstep).trans (hlength _ hstep').symm)
    exact ⟨rfl, String.toList_inj.mp (hafter.trans hafter'.symm), hchars⟩

theorem between_inj {separator separator' : String} {left right left' right' : Surface}
    (h : (between separator left right).Every IsRegular)
    (h' : (between separator' left' right').Every IsRegular)
    (heq : chars (between separator left right) = chars (between separator' left' right')) :
    separator = separator' ∧ left.chars = left'.chars ∧ right.chars = right'.chars := by
  obtain ⟨⟨op, hop⟩, hleft, -⟩ := h
  obtain ⟨⟨op', hop'⟩, hleft', -⟩ := h'
  obtain ⟨gap, word, hseparator, hgap, hword, -⟩ := between_cases hop
  obtain ⟨gap', word', hseparator', hgap', hword', -⟩ := between_cases hop'
  have hinner : left.chars ++ gap :: (word ++ ' ' :: right.chars) =
      left'.chars ++ gap' :: (word' ++ ' ' :: right'.chars) :=
    enclosed_inj (by simpa [chars, hseparator, hseparator'] using heq)
  obtain ⟨hchars, rfl, hrest⟩ := (solid_chars left hleft).append_cons_inj (solid_chars left' hleft')
    (by simp [isStop, hgap]) (by simp [isStop, hgap']) hinner
  obtain ⟨rfl, -, hright⟩ := hword.append_cons_inj hword' rfl rfl hrest
  exact ⟨String.toList_inj.mp (hseparator.trans hseparator'.symm), hchars, hright⟩

theorem ternary_inj {condition whenTrue whenFalse condition' whenTrue' whenFalse' : Surface}
    (h : (ternary condition whenTrue whenFalse).Every IsRegular)
    (h' : (ternary condition' whenTrue' whenFalse').Every IsRegular)
    (heq : chars (ternary condition whenTrue whenFalse) =
      chars (ternary condition' whenTrue' whenFalse')) :
    condition.chars = condition'.chars ∧ whenTrue.chars = whenTrue'.chars ∧
      whenFalse.chars = whenFalse'.chars := by
  obtain ⟨-, hcondition, htrue, -⟩ := h
  obtain ⟨-, hcondition', htrue', -⟩ := h'
  simp only [chars, List.cons.injEq, true_and] at heq
  obtain ⟨hfirst, -, hrest⟩ := (solid_chars condition hcondition).append_cons_inj
    (solid_chars condition' hcondition') rfl rfl heq
  simp only [List.cons.injEq, true_and] at hrest
  obtain ⟨hsecond, -, hrest⟩ := (solid_chars whenTrue htrue).append_cons_inj
    (solid_chars whenTrue' htrue') rfl rfl hrest
  simp only [List.cons.injEq, true_and] at hrest
  exact ⟨hfirst, hsecond, List.append_cancel_right hrest⟩

/-- The parenthesis of the condition is followed by a question mark, and no operator is one. -/
theorem between_ne_ternary {separator : String} {left right condition whenTrue whenFalse : Surface}
    (h : (between separator left right).Every IsRegular)
    (h' : (ternary condition whenTrue whenFalse).Every IsRegular) :
    chars (between separator left right) ≠ chars (ternary condition whenTrue whenFalse) := by
  intro heq
  obtain ⟨⟨op, hop⟩, hleft, -⟩ := h
  obtain ⟨gap, word, hseparator, hgap, hword, hne⟩ := between_cases hop
  have hinner : left.chars ++ gap :: (word ++ ' ' :: right.chars) =
      ('(' :: (condition.chars ++ [')'])) ++ ' ' :: (['?'] ++ ' ' :: '(' ::
        (whenTrue.chars ++ ')' :: ' ' :: ':' :: ' ' :: '(' :: (whenFalse.chars ++ [')']))) :=
    enclosed_inj (by simpa [chars, hseparator] using heq)
  obtain ⟨-, -, hrest⟩ := (solid_chars left hleft).append_cons_inj
    ((solid_chars condition h'.2.1).enclosed _ _ rfl rfl) (by simp [isStop, hgap]) rfl hinner
  exact hne (hword.append_cons_inj (by decide) rfl rfl hrest).1

/-- An operator with one operand has no gap in its parentheses. -/
theorem around_ne_of_gap {before after : String} {s t : Surface} {first : List Char}
    (h : (around before after s).Every IsRegular) (hfirst : Solid first) (gap : Char)
    (hgap : isStop gap = true) (rest : List Char)
    (ht : t.chars = '(' :: ((first ++ gap :: rest) ++ [')'])) :
    chars (around before after s) ≠ t.chars := by
  intro heq
  obtain ⟨content, hcontent, hsolid⟩ := exists_solid_of_around h
  obtain rfl : content = first ++ gap :: rest := enclosed_inj (by rw [← hcontent, heq, ht])
  exact absurd (hsolid.not_append_cons hfirst) (by simp [hgap])

theorem around_ne_between {before after separator : String} {s left right : Surface}
    (h : (around before after s).Every IsRegular)
    (h' : (between separator left right).Every IsRegular) :
    chars (around before after s) ≠ chars (between separator left right) := by
  obtain ⟨⟨op, hop⟩, hleft, -⟩ := h'
  obtain ⟨gap, word, hseparator, hgap, -⟩ := between_cases hop
  exact around_ne_of_gap h (solid_chars left hleft) gap (by simp [isStop, hgap])
    (word ++ ' ' :: right.chars) (by simp [chars, hseparator])

theorem around_ne_ternary {before after : String} {s condition whenTrue whenFalse : Surface}
    (h : (around before after s).Every IsRegular)
    (h' : (ternary condition whenTrue whenFalse).Every IsRegular) :
    chars (around before after s) ≠ chars (ternary condition whenTrue whenFalse) :=
  around_ne_of_gap h
    ((solid_chars condition h'.2.1).enclosed '(' ')' rfl rfl)
    ' ' rfl ('?' :: ' ' :: '(' :: (whenTrue.chars ++
      ')' :: ' ' :: ':' :: ' ' :: '(' :: (whenFalse.chars ++ [')']))) (by simp [chars])

/-! ### The other shapes -/

theorem append_cons_inj_of_not_mem_front (ch : Char) {x y x' y' : List Char} (h : ch ∉ x)
    (h' : ch ∉ x') (heq : x ++ ch :: y = x' ++ ch :: y') : x = x' ∧ y = y' := by
  rcases List.append_eq_append_iff.mp heq with ⟨z, rfl, hz⟩ | ⟨z, rfl, hz⟩
  · cases z with
    | nil => cases hz; simp
    | cons other z => cases hz; simp at h'
  · cases z with
    | nil => cases hz; simp
    | cons other z => cases hz; simp at h

theorem append_cons_inj_of_not_mem_back (ch : Char) {x y x' y' : List Char} (h : ch ∉ y)
    (h' : ch ∉ y') (heq : x ++ ch :: y = x' ++ ch :: y') : x = x' ∧ y = y' := by
  rcases List.append_eq_append_iff.mp heq with ⟨z, rfl, hz⟩ | ⟨z, rfl, hz⟩
  · cases z with
    | nil => cases hz; simp
    | cons other z => cases hz; simp at h
  · cases z with
    | nil => cases hz; simp
    | cons other z => cases hz; simp at h'

theorem member_inj {owner owner' : Surface} {name name' : String}
    (h : (member owner name).Every IsRegular) (h' : (member owner' name').Every IsRegular)
    (heq : chars (member owner name) = chars (member owner' name')) :
    owner.chars = owner'.chars ∧ name = name' := by
  obtain ⟨howner, hname⟩ := append_cons_inj_of_not_mem_back '.'
    (not_mem_of_isWord _ (h.1 : isWord name = true) (by decide))
    (not_mem_of_isWord _ (h'.1 : isWord name' = true) (by decide)) heq
  exact ⟨howner, String.toList_inj.mp hname⟩

theorem element_inj {indexed position indexed' position' : Surface}
    (h : (element indexed position).Every IsRegular)
    (h' : (element indexed' position').Every IsRegular)
    (heq : chars (element indexed position) = chars (element indexed' position')) :
    indexed.chars = indexed'.chars ∧ position.chars = position'.chars := by
  have hinner : (indexed.chars ++ '[' :: position.chars) ++ [']'] =
      (indexed'.chars ++ '[' :: position'.chars) ++ [']'] := by simpa [chars] using heq
  exact Solid.append_opening_inj rfl (solid_chars indexed h.2.1) (solid_chars indexed' h'.2.1)
    (solid_chars position h.2.2) (solid_chars position' h'.2.2) (List.append_cancel_right hinner)

theorem call_inj {name name' : String} {arguments arguments' : List Surface}
    (h : (call name arguments).Every IsRegular) (h' : (call name' arguments').Every IsRegular)
    (heq : chars (call name arguments) = chars (call name' arguments')) :
    name = name' ∧ eachChars arguments = eachChars arguments' := by
  obtain ⟨hname, hrest⟩ := append_cons_inj_of_not_mem_front '('
    (not_mem_of_isWord _ (h.1 : isWord name = true) (by decide))
    (not_mem_of_isWord _ (h'.1 : isWord name' = true) (by decide)) heq
  have hparts := solid_eachChars arguments h.2
  have hparts' := solid_eachChars arguments' h'.2
  have hne := eachChars_ne_nil arguments h.2
  have hne' := eachChars_ne_nil arguments' h'.2
  exact ⟨String.toList_inj.mp hname,
    intercalate_comma_inj (fun part hpart => ⟨hparts part hpart, hne part hpart⟩)
      (fun part hpart => ⟨hparts' part hpart, hne' part hpart⟩) hrest⟩

theorem atom_inj {s s' : Surface} (h : s.Every IsRegular) (h' : s'.Every IsRegular)
    (hshape : s.shape = .atom) (hshape' : s'.shape = .atom) (heq : s.chars = s'.chars) :
    s = s' := by
  cases s with
  | identifier name =>
    cases s' with
    | identifier name' => rw [String.toList_inj.mp heq]
    | literal text' =>
      obtain rfl := String.toList_inj.mp heq
      have hword : isWord name = true := h
      exact absurd hword (Bool.eq_false_iff.mp (h' : IsLiteral name).not_word)
    | _ => cases hshape'
  | literal text =>
    cases s' with
    | identifier name' =>
      obtain rfl := String.toList_inj.mp heq
      have hword : isWord text = true := h'
      exact absurd hword (Bool.eq_false_iff.mp (h : IsLiteral text).not_word)
    | literal text' => rw [String.toList_inj.mp heq]
    | _ => cases hshape'
  | _ => cases hshape

/-! ### Trees and texts -/

mutual

/-- **A surface tree is known from its text.** -/
theorem eq_of_chars_eq : (s : Surface) → ∀ {s' : Surface}, s.Every IsRegular → s'.Every IsRegular →
    s.Every IsSignApart → s'.Every IsSignApart → s.chars = s'.chars → s = s'
  | identifier name, s', h, h', _, _, heq => by
    have hshape : shape s' = .atom := by rw [← shapeOf_chars h', ← heq, shapeOf_chars h]; rfl
    exact atom_inj h h' rfl hshape heq
  | literal text, s', h, h', _, _, heq => by
    have hshape : shape s' = .atom := by rw [← shapeOf_chars h', ← heq, shapeOf_chars h]; rfl
    exact atom_inj h h' rfl hshape heq
  | around before after operand, s', h, h', ha, ha', heq => by
    have hshape : shape s' = .group := by rw [← shapeOf_chars h', ← heq, shapeOf_chars h]; rfl
    cases s' with
    | around before' after' operand' =>
      obtain ⟨rfl, rfl, hoperand⟩ := around_inj h h' ha.1 ha'.1 heq
      rw [eq_of_chars_eq operand h.2 h'.2 ha.2 ha'.2 hoperand]
    | between => exact absurd heq (around_ne_between h h')
    | ternary => exact absurd heq (around_ne_ternary h h')
    | _ => cases hshape
  | between separator left right, s', h, h', ha, ha', heq => by
    have hshape : shape s' = .group := by rw [← shapeOf_chars h', ← heq, shapeOf_chars h]; rfl
    cases s' with
    | around => exact absurd heq.symm (around_ne_between h' h)
    | between separator' left' right' =>
      obtain ⟨rfl, hleft, hright⟩ := between_inj h h' heq
      rw [eq_of_chars_eq left h.2.1 h'.2.1 ha.2.1 ha'.2.1 hleft,
        eq_of_chars_eq right h.2.2 h'.2.2 ha.2.2 ha'.2.2 hright]
    | ternary => exact absurd heq (between_ne_ternary h h')
    | _ => cases hshape
  | ternary condition whenTrue whenFalse, s', h, h', ha, ha', heq => by
    have hshape : shape s' = .group := by rw [← shapeOf_chars h', ← heq, shapeOf_chars h]; rfl
    cases s' with
    | around => exact absurd heq.symm (around_ne_ternary h' h)
    | between => exact absurd heq.symm (between_ne_ternary h' h)
    | ternary condition' whenTrue' whenFalse' =>
      obtain ⟨hcondition, htrue, hfalse⟩ := ternary_inj h h' heq
      obtain ⟨-, h₁, h₂, h₃⟩ := h
      obtain ⟨-, h₁', h₂', h₃'⟩ := h'
      obtain ⟨-, ha₁, ha₂, ha₃⟩ := ha
      obtain ⟨-, ha₁', ha₂', ha₃'⟩ := ha'
      rw [eq_of_chars_eq condition h₁ h₁' ha₁ ha₁' hcondition,
        eq_of_chars_eq whenTrue h₂ h₂' ha₂ ha₂' htrue,
        eq_of_chars_eq whenFalse h₃ h₃' ha₃ ha₃' hfalse]
    | _ => cases hshape
  | element indexed position, s', h, h', ha, ha', heq => by
    have hshape : shape s' = .element := by rw [← shapeOf_chars h', ← heq, shapeOf_chars h]; rfl
    cases s' with
    | element indexed' position' =>
      obtain ⟨hindexed, hposition⟩ := element_inj h h' heq
      rw [eq_of_chars_eq indexed h.2.1 h'.2.1 ha.2.1 ha'.2.1 hindexed,
        eq_of_chars_eq position h.2.2 h'.2.2 ha.2.2 ha'.2.2 hposition]
    | _ => cases hshape
  | member owner name, s', h, h', ha, ha', heq => by
    have hshape : shape s' = .member := by rw [← shapeOf_chars h', ← heq, shapeOf_chars h]; rfl
    cases s' with
    | member owner' name' =>
      obtain ⟨howner, rfl⟩ := member_inj h h' heq
      rw [eq_of_chars_eq owner h.2 h'.2 ha.2 ha'.2 howner]
    | _ => cases hshape
  | call name arguments, s', h, h', ha, ha', heq => by
    have hshape : shape s' = .call := by rw [← shapeOf_chars h', ← heq, shapeOf_chars h]; rfl
    cases s' with
    | call name' arguments' =>
      obtain ⟨rfl, harguments⟩ := call_inj h h' heq
      rw [eq_of_eachChars_eq arguments h.2 h'.2 ha.2 ha'.2 harguments]
    | _ => cases hshape

theorem eq_of_eachChars_eq : (arguments : List Surface) → ∀ {arguments' : List Surface},
    AllEvery IsRegular arguments → AllEvery IsRegular arguments' →
    AllEvery IsSignApart arguments → AllEvery IsSignApart arguments' →
    eachChars arguments = eachChars arguments' → arguments = arguments'
  | [], [], _, _, _, _, _ => rfl
  | s :: rest, s' :: rest', h, h', ha, ha', heq => by
    obtain ⟨hs, hrest⟩ := List.cons_eq_cons.mp heq
    rw [eq_of_chars_eq s h.1 h'.1 ha.1 ha'.1 hs,
      eq_of_eachChars_eq rest h.2 h'.2 ha.2 ha'.2 hrest]

end

end Surface

end ShaderText
