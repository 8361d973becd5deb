import ShaderText.Proofs.Surface

/-! # Expressions are unambiguous

`Node.surface` is what an expression says to a reader: its operators, the spellings of its names,
its literals and its arguments, without types, identities and the operators that share a spelling.
The text of a plain expression outside unrolled loops is that of its surface tree
(`Node.isTextOf_of_yields`), and the surface tree is known from its text. So **two plain
expressions with one text have one surface tree (`Node.surface_eq_of_text_eq`):** no precedence
and no types are needed to read them. -/

namespace ShaderText

/-! ### The surface of an expression -/

/-- The spelling of what is called. -/
def Callee.spelling (r : Renderer) (ρ : String → String) (type : ShaderType) (emulated : Bool) :
    Callee → String
  | function name => (Token.function name emulated).print r ρ
  | constructor =>
    match type.spelling with
    | .ok name => (Token.typeName name).print r ρ
    | .error _ => ""
  | intrinsic op => (Token.intrinsic op.name emulated).print r ρ

namespace Node

/-- The spelling of the member that the constant `position` selects from `owner`. -/
def memberSpelling (r : Renderer) (ρ : String → String) (ofBlock : Bool) (owner position : Node) :
    String :=
  match position.asInt?, owner.type? with
  | some index, some t =>
    match t.memberName ofBlock index with
    | .member owner field => (Token.member owner field).print r ρ
    | .blockMember field => (Token.blockMember field).print r ρ
    | _ => ""
  | _, _ => ""

mutual

/-- What an expression says, where `ρ` spells the identifiers of the user. -/
def surface (r : Renderer) (ρ : String → String) : Node → Surface
  | symbol v => .identifier ((Token.used v.name).print r ρ)
  | constant _ values => .literal (", ".intercalate (values.map (Scalar.literal r.config)))
  | unary op operand _ emulated =>
    match op.form with
    | .around before after => .around before after (operand.surface r ρ)
    | .call name => .call ((Token.intrinsic name emulated).print r ρ) [operand.surface r ρ]
  | binary op left right _ _ =>
    match op.form with
    | .between separator => .between separator (left.surface r ρ) (right.surface r ρ)
    | .index _ => .element (left.surface r ρ) (right.surface r ρ)
    | .member ofBlock => .member (left.surface r ρ) (memberSpelling r ρ ofBlock left right)
  | ternary condition whenTrue whenFalse _ =>
    .ternary (condition.surface r ρ) (whenTrue.surface r ρ) (whenFalse.surface r ρ)
  | swizzle operand offsets _ =>
    .member (operand.surface r ρ) (String.ofList ((offsets.mapM componentLetter?).getD []))
  | call callee arguments type emulated =>
    .call (callee.spelling r ρ type emulated) (eachSurface r ρ arguments)
  | _ => .literal ""

def eachSurface (r : Renderer) (ρ : String → String) : List Node → List Surface
  | [] => []
  | node :: rest => node.surface r ρ :: eachSurface r ρ rest

end

mutual

/-- Expressions of symbols, scalar literals that are not floats, operators, unclamped elements,
members, selections of components, and calls but for the constructors of arrays. -/
def IsPlain : Node → Prop
  | symbol _ => True
  | constant type values =>
    type.arraySize = none ∧ type.basic ≠ .struct ∧
      ∃ v : Scalar, values = [v] ∧ ∀ x, v ≠ .float x
  | unary _ operand _ _ => operand.IsPlain
  | binary op left right _ clamped =>
    match op.form with
    | .between _ => left.IsPlain ∧ right.IsPlain
    | .index computed => (computed && clamped) = false ∧ left.IsPlain ∧ right.IsPlain
    | .member _ => left.IsPlain
  | ternary condition whenTrue whenFalse _ =>
    condition.IsPlain ∧ whenTrue.IsPlain ∧ whenFalse.IsPlain
  | swizzle operand offsets _ => offsets ≠ [] ∧ operand.IsPlain
  | call callee arguments type _ =>
    (callee = .constructor → type.arraySize = none) ∧ AllPlain arguments
  | _ => False

def AllPlain : List Node → Prop
  | [] => True
  | node :: rest => node.IsPlain ∧ AllPlain rest

end

end Node

/-! ### The texts of the parts -/

theorem isWord_eq_false {s : String} {ch : Char} {rest : List Char} (hs : s.toList = ch :: rest)
    (hch : ch.isDigit = true ∨ ch = '-') : isWord s = false := by
  by_contra hword
  obtain ⟨first, others, hs', hdigit, hall⟩ :=
    exists_cons_of_isWord (Bool.eq_true_of_not_eq_false hword)
  rw [hs] at hs'
  cases hs'
  rcases hch with hch | rfl
  · exact absurd hdigit (by simp [hch])
  · exact absurd (hall '-' List.mem_cons_self) (by decide)

/-- A number, with or without a minus sign before it and letters after it, is a literal. -/
theorem isLiteral_of_numeral {text : String} (sign : List Char) (n : Nat) (letters : List Char)
    (hsign : sign = [] ∨ sign = ['-']) (hletters : ∀ ch ∈ letters, isWordChar ch = true)
    (htext : text.toList = sign ++ (n.repr.toList ++ letters)) : Surface.IsLiteral text := by
  obtain ⟨ch, rest, hn⟩ := List.exists_cons_of_ne_nil (repr_toList_ne_nil n)
  have hdigit : ch.isDigit = true := isDigit_of_mem_repr (n := n) (hn ▸ List.mem_cons_self)
  refine ⟨?_, sign, n.repr.toList ++ letters, htext, hsign, by simp [hn], ?_⟩
  · rcases hsign with rfl | rfl
    · exact isWord_eq_false (by rw [htext, hn]; rfl) (.inl hdigit)
    · exact isWord_eq_false (by rw [htext]; rfl) (.inr rfl)
  · refine List.forall_mem_append.mpr ⟨fun ch hch => ?_, hletters⟩
    simp [isWordChar, Char.isAlphanum, isDigit_of_mem_repr hch]

theorem Scalar.isLiteral {v : Scalar} (h : ∀ x, v ≠ .float x) (c : Config) :
    Surface.IsLiteral (v.literal c) := by
  cases v with
  | float x => exact absurd rfl (h x)
  | int i =>
    refine isLiteral_of_numeral (if i.toInt < 0 then ['-'] else []) _ [] ?_ ?_
      (by rw [List.append_nil]; exact int_repr_toList i.toInt)
    · split_ifs
      · exact .inr rfl
      · exact .inl rfl
    · exact fun _ hch => absurd hch List.not_mem_nil
  | uint u =>
    exact isLiteral_of_numeral [] u.toNat ['u'] (.inl rfl)
      (by decide) (by simp [literal])
  | bool b =>
    show Surface.IsLiteral (if b then "true" else "false")
    refine ⟨?_, [], _, rfl, .inl rfl, ?_, ?_⟩ <;> cases b <;> decide

section

open Fragment Renderer

variable {r : Renderer} {ρ : String → String} {tokens : List Token}

/-- The names that a program or an emulation chose are written as words. -/
abbrev Renderer.WordNames (r : Renderer) (ρ : String → String) (tokens : List Token) : Prop :=
  r.EachName ρ (fun name => isWord name = true) tokens

theorem isWord_intrinsic {name : String} {emulated : Bool} (hname : isWord name = true)
    (h : (Token.intrinsic name emulated).isChosen = true →
      isWord ((Token.intrinsic name emulated).print r ρ) = true) :
    isWord ((Token.intrinsic name emulated).print r ρ) = true := by
  cases emulated with
  | false => exact hname
  | true => exact h rfl

theorem isWord_typeName {t : ShaderType} {name : TypeName} (hname : t.spelling = .ok name)
    (h : (Token.typeName name).isChosen = true →
      isWord ((Token.typeName name).print r ρ) = true) :
    isWord ((Token.typeName name).print r ρ) = true := by
  cases name with
  | builtIn text => exact t.isWord_of_spelling hname
  | userDefined text => exact h rfl

/-- What is called is written by its spelling, which is a word. -/
theorem spelling_of_yields {callee : Callee} {type : ShaderType} {emulated : Bool} {b : Bindings}
    {c : Config} (htype : callee = .constructor → type.arraySize = none)
    (h : Yields c b (callee.fragments type emulated) tokens) (hnames : r.WordNames ρ tokens) :
    r.charsOf ρ tokens = (callee.spelling r ρ type emulated).toList ∧
      isWord (callee.spelling r ρ type emulated) = true := by
  rcases yields_callee h with ⟨name, rfl, rfl⟩ | ⟨rfl, name, hname, rfl⟩ | ⟨op, rfl, rfl⟩
  · exact ⟨by simp [Callee.spelling], hnames _ List.mem_cons_self rfl⟩
  · have hbrackets : type.brackets = "" := by rw [ShaderType.brackets, htype rfl]
    refine ⟨by simp [Callee.spelling, hname, hbrackets], ?_⟩
    simpa [Callee.spelling, hname] using isWord_typeName hname (hnames _ List.mem_cons_self)
  · exact ⟨by simp [Callee.spelling],
      isWord_intrinsic op.isWord_name (hnames _ List.mem_cons_self)⟩

theorem memberSpelling_of_yields {ofBlock : Bool} {owner position : Node} {index : Int}
    {t : ShaderType} {b : Bindings} {c : Config} (hposition : position.asInt? = some index)
    (howner : owner.type? = some t) (h : Yields c b [t.memberName ofBlock index] tokens)
    (hnames : r.WordNames ρ tokens) :
    r.charsOf ρ tokens = (Node.memberSpelling r ρ ofBlock owner position).toList ∧
      isWord (Node.memberSpelling r ρ ofBlock owner position) = true := by
  rcases yields_memberName h with ⟨struct, field, hmember, rfl⟩ | ⟨field, hmember, rfl⟩
  · simpa [Node.memberSpelling, hposition, howner, hmember] using hnames _ List.mem_cons_self rfl
  · simpa [Node.memberSpelling, hposition, howner, hmember] using hnames _ List.mem_cons_self rfl

/-! ### The induction on the tree -/

namespace Node

/-- Tokens are the text of the surface tree of a node. -/
structure IsTextOf (r : Renderer) (ρ : String → String) (n : Node) (tokens : List Token) :
    Prop where
  chars_eq : r.charsOf ρ tokens = (n.surface r ρ).chars
  regular : (n.surface r ρ).Every Surface.IsRegular

mutual

/-- **A plain expression is written as the text of its surface tree.** -/
theorem isTextOf_of_yields : (n : Node) → n.IsPlain → ∀ {tokens : List Token},
    Yields r.config (fun _ => none) (n.fragments r.config) tokens → r.WordNames ρ tokens →
      IsTextOf r ρ n tokens
  | symbol v, _, tokens, h, hnames => by
    rw [fragments] at h
    obtain ⟨value, hv, -⟩ | ⟨-, rfl⟩ := yields_reference h
    · cases hv
    · exact ⟨by simp [surface, Surface.chars], hnames _ List.mem_cons_self rfl⟩
  | constant type values, ⟨hsize, hbasic, v, hvalues, hv⟩, tokens, h, hnames => by
    subst hvalues
    rw [fragments] at h
    have htokens : tokens = [.text (v.literal r.config)] := by
      rcases ShaderType.constantTokens_cases (yields_constant h) with
        ⟨-, -, ⟨hnil, -⟩ | ⟨v', hsingle, rfl⟩⟩ | ⟨hlength, -⟩
      · cases hnil
      · cases hsingle
        rfl
      · exact absurd rfl (hlength hsize hbasic)
    subst htokens
    refine ⟨by simp [surface, Surface.chars], ?_⟩
    show Surface.IsLiteral (", ".intercalate [v.literal r.config])
    rw [String.intercalate_singleton]
    exact Scalar.isLiteral hv r.config
  | unary op operand type emulated, hoperand, tokens, h, hnames => by
    rw [fragments] at h
    cases hform : op.form with
    | around before after =>
      rw [hform] at h
      obtain ⟨inner, hinner, rfl⟩ := yields_enclosed h
      simp only [eachName_cons, eachName_append] at hnames
      obtain ⟨hchars, hregular⟩ := isTextOf_of_yields operand hoperand hinner hnames.2.1
      refine ⟨by simp [surface, hform, Surface.chars, hchars], ?_⟩
      simp only [surface, hform]
      exact ⟨⟨op, hform⟩, hregular⟩
    | call name =>
      rw [hform] at h
      simp only [List.cons_append, List.nil_append] at h
      obtain ⟨front, others, hfront, hothers, rfl⟩ := yields_cons h
      obtain rfl := yields_of_emit (fun _ => rfl) hfront
      obtain ⟨inner, hinner, rfl⟩ := yields_enclosed hothers
      simp only [eachName_cons, eachName_append] at hnames
      obtain ⟨hchars, hregular⟩ := isTextOf_of_yields operand hoperand hinner hnames.2.2.1
      have hname := isWord_intrinsic (op.isWord_of_form_eq_call hform) hnames.1.1
      refine ⟨?_, ?_⟩
      · simp [surface, hform, Surface.chars, Surface.eachChars, hchars]
      · simp only [surface, hform]
        exact ⟨hname, hregular, trivial⟩
  | binary op left right type clamped, hplain, tokens, h, hnames => by
    rw [fragments] at h
    rw [IsPlain] at hplain
    cases hform : op.form with
    | between separator =>
      rw [hform] at h hplain
      obtain ⟨first, second, hfirst, hsecond, rfl⟩ := yields_enclosed_pair h
      simp only [eachName_cons, eachName_append] at hnames
      have h₁ := isTextOf_of_yields left hplain.1 hfirst hnames.2.1
      have h₂ := isTextOf_of_yields right hplain.2 hsecond hnames.2.2.2.1
      refine ⟨by simp [surface, hform, Surface.chars, h₁.chars_eq, h₂.chars_eq], ?_⟩
      simp only [surface, hform]
      exact ⟨⟨op, hform⟩, h₁.regular, h₂.regular⟩
    | index computed =>
      rw [hform] at h hplain
      obtain ⟨hclamped, hleft, hright⟩ := hplain
      simp only [hclamped, Bool.false_eq_true, if_false] at h
      obtain ⟨first, rest, hfirst, hrest, rfl⟩ := yields_append h
      obtain ⟨second, hsecond, rfl⟩ := yields_enclosed hrest
      simp only [eachName_cons, eachName_append] at hnames
      have h₁ := isTextOf_of_yields left hleft hfirst hnames.1
      have h₂ := isTextOf_of_yields right hright hsecond hnames.2.2.1
      refine ⟨by simp [surface, hform, Surface.chars, h₁.chars_eq, h₂.chars_eq], ?_⟩
      simp only [surface, hform]
      exact ⟨trivial, h₁.regular, h₂.regular⟩
    | member ofBlock =>
      rw [hform] at h hplain
      obtain ⟨index, t, front, back, hindex, ht, hfront, hback, rfl⟩ := yields_memberSelection h
      simp only [eachName_cons, eachName_append] at hnames
      obtain ⟨hname, hword⟩ := memberSpelling_of_yields hindex ht hback hnames.2.2
      obtain ⟨hchars, hregular⟩ := isTextOf_of_yields left hplain hfront hnames.1
      refine ⟨by simp [surface, hform, Surface.chars, hchars, hname], ?_⟩
      simp only [surface, hform]
      exact ⟨hword, hregular⟩
  | ternary condition whenTrue whenFalse type, ⟨hcondition, htrue, hfalse⟩, tokens, h, hnames => by
    rw [fragments] at h
    obtain ⟨others, hothers, rfl⟩ := yields_text_cons h
    obtain ⟨first, rest, hfirst, hrest, rfl⟩ := yields_append hothers
    obtain ⟨second, third, hsecond, hthird, rfl⟩ := yields_enclosed_pair hrest
    simp only [eachName_cons, eachName_append] at hnames
    obtain ⟨-, hnames₁, -, hnames₂, -, hnames₃, -⟩ := hnames
    have h₁ := isTextOf_of_yields condition hcondition hfirst hnames₁
    have h₂ := isTextOf_of_yields whenTrue htrue hsecond hnames₂
    have h₃ := isTextOf_of_yields whenFalse hfalse hthird hnames₃
    exact ⟨by simp [surface, Surface.chars, h₁.chars_eq, h₂.chars_eq, h₃.chars_eq],
      trivial, h₁.regular, h₂.regular, h₃.regular⟩
  | swizzle operand offsets type, ⟨hoffsets, hoperand⟩, tokens, h, hnames => by
    rw [fragments] at h
    obtain ⟨front, back, hfront, hback, rfl⟩ := yields_append h
    obtain ⟨letters, hletters, rfl⟩ := yields_swizzleSelection hback
    obtain ⟨hnames, -⟩ := eachName_append.mp hnames
    obtain ⟨hchars, hregular⟩ := isTextOf_of_yields operand hoperand hfront hnames
    refine ⟨by simp [surface, Surface.chars, hchars, hletters, String.toList_ofList], ?_, hregular⟩
    simpa [hletters, Surface.IsRegular] using isWord_of_mapM_componentLetter hoffsets hletters
  | call callee arguments type emulated, ⟨htype, harguments⟩, tokens, h, hnames => by
    rw [fragments] at h
    obtain ⟨front, rest, hfront, hrest, rfl⟩ := yields_append h
    obtain ⟨inner, hinner, rfl⟩ := yields_enclosed hrest
    simp only [eachName_cons, eachName_append] at hnames
    obtain ⟨hname, hword⟩ := spelling_of_yields htype hfront hnames.1
    obtain ⟨parts, hparts, rfl⟩ := yields_commaSeparated hinner
    obtain ⟨hchars, hregular⟩ := areTextsOf_of_yields arguments harguments hparts hnames.2.2.1
    exact ⟨by simp [surface, Surface.chars, hname, hchars], hword, hregular⟩

/-- The arguments of a call, with commas between them. -/
theorem areTextsOf_of_yields : (nodes : List Node) → AllPlain nodes →
    ∀ {parts : List (List Token)},
    List.Forall₂ (Yields r.config fun _ => none) (eachFragments r.config nodes) parts →
    r.WordNames ρ (List.intercalate [.text ", "] parts) →
      r.charsOf ρ (List.intercalate [.text ", "] parts) =
        List.intercalate [',', ' '] (Surface.eachChars (eachSurface r ρ nodes)) ∧
      Surface.AllEvery Surface.IsRegular (eachSurface r ρ nodes)
  | [], _, _, .nil, _ => ⟨rfl, trivial⟩
  | [node], ⟨hnode, _⟩, _, .cons (b := part) hpart .nil, hnames => by
    rw [List.intercalate_singleton] at hnames
    obtain ⟨hchars, hregular⟩ := isTextOf_of_yields node hnode hpart hnames
    exact ⟨by simp [eachSurface, Surface.eachChars, hchars], hregular, trivial⟩
  | node :: next :: rest, ⟨hnode, hrest⟩, _, .cons (b := part) hpart hparts, hnames => by
    cases hparts with
    | @cons _ _ second others hsecond hothers =>
      simp only [List.intercalate_cons_cons, List.append_assoc, eachName_append] at hnames
      obtain ⟨hchars, hregular⟩ := isTextOf_of_yields node hnode hpart hnames.1
      obtain ⟨hchars', hregular'⟩ := areTextsOf_of_yields (next :: rest) hrest
        (.cons hsecond hothers) hnames.2.2
      refine ⟨?_, hregular, hregular'⟩
      rw [List.intercalate_cons_cons, charsOf_append, charsOf_append, hchars, hchars']
      simp [eachSurface, Surface.eachChars, List.intercalate_cons_cons]

end

end Node

end

namespace Node

/-- What an expression says, where the identifiers of the user are spelled as in a context. -/
def surfaceIn (r : Renderer) (ctx : Context) (n : Node) : Surface :=
  n.surface r (r.userSpelling ctx.names)

/-- Outside unrolled loops, a plain expression is written as the text of its surface tree. -/
theorem write_eq_surface_chars {r : Renderer} {n : Node} {ctx after : Context} (hn : n.IsPlain)
    (hctx : ctx.counters = []) (hnames : ∀ name ∈ n.printedNames r ctx, isWord name = true)
    (h : n.write r ctx = .ok after) :
    (n.surfaceIn r ctx).Every Surface.IsRegular ∧
      after.source.text.toList = ctx.source.text.toList ++ (n.surfaceIn r ctx).chars := by
  obtain ⟨tokens, htokens, hyields, htext⟩ := exists_yields_of_write h
  have hvalues : ctx.counterValue? = fun _ => none := by
    funext id
    rw [Context.counterValue?, hctx]
    rfl
  rw [hvalues] at hyields
  obtain ⟨hchars, hregular⟩ :=
    isTextOf_of_yields n hn hyields (eachName_of_printedNames htokens hnames)
  exact ⟨hregular, by rw [htext, hchars]; rfl⟩

/-- **Two plain expressions with one text have one surface tree,** wherever they are written outside
unrolled loops, if every name is written as a word and no negation is followed by a minus sign. -/
theorem surface_eq_of_text_eq {r r' : Renderer} {n n' : Node} {ctx ctx' after after' : Context}
    {text : String} (hn : n.IsPlain) (hn' : n'.IsPlain) (hctx : ctx.counters = [])
    (hctx' : ctx'.counters = []) (hnames : ∀ name ∈ n.printedNames r ctx, isWord name = true)
    (hnames' : ∀ name ∈ n'.printedNames r' ctx', isWord name = true)
    (hapart : (n.surfaceIn r ctx).Every Surface.IsSignApart)
    (hapart' : (n'.surfaceIn r' ctx').Every Surface.IsSignApart)
    (h : n.write r ctx = .ok after) (h' : n'.write r' ctx' = .ok after')
    (htext : after.source.text = ctx.source.text ++ text)
    (htext' : after'.source.text = ctx'.source.text ++ text) :
    n.surfaceIn r ctx = n'.surfaceIn r' ctx' := by
  obtain ⟨hregular, hchars⟩ := write_eq_surface_chars hn hctx hnames h
  obtain ⟨hregular', hchars'⟩ := write_eq_surface_chars hn' hctx' hnames' h'
  rw [htext, String.toList_append] at hchars
  rw [htext', String.toList_append] at hchars'
  exact Surface.eq_of_chars_eq _ hregular hregular' hapart hapart'
    ((List.append_cancel_left hchars).symm.trans (List.append_cancel_left hchars'))

/-- The negated product of an integer and a number. -/
def negatedProduct : Node :=
  .unary .negative (.binary .mul (.symbol ⟨⟨0⟩, { text := "v" }, .scalar .int⟩)
    (.constant (.scalar .int) [.int 2]) (.scalar .int) false) (.scalar .int) false

/-- The negated product of a vector and a number. -/
def negatedVectorProduct : Node :=
  .unary .negative (.binary .vectorTimesScalar (.symbol ⟨⟨1⟩, { text := "v" }, .vector .int 2⟩)
    (.constant (.scalar .int) [.int 2]) (.vector .int 2) false) (.vector .int 2) false

/-- Products of a scalar and of a vector with one text say the same. -/
theorem surface_negatedProduct :
    ∃ after after', negatedProduct.write {} {} = .ok after ∧
      negatedVectorProduct.write {} {} = .ok after' ∧
      after.source.text = "(-(v * 2))" ∧ after'.source.text = "(-(v * 2))" ∧
      negatedProduct.surfaceIn {} {} = negatedVectorProduct.surfaceIn {} {} := by
  obtain ⟨after, h⟩ : ∃ after, negatedProduct.write {} {} = .ok after := ⟨_, rfl⟩
  obtain ⟨after', h'⟩ : ∃ after', negatedVectorProduct.write {} {} = .ok after' := ⟨_, rfl⟩
  have htext : after.source.text = "(-(v * 2))" := by
    cases h
    decide +kernel
  have htext' : after'.source.text = "(-(v * 2))" := by
    cases h'
    decide +kernel
  have hplain : negatedProduct.IsPlain := ⟨trivial, rfl, by decide, _, rfl, by simp⟩
  have hplain' : negatedVectorProduct.IsPlain := ⟨trivial, rfl, by decide, _, rfl, by simp⟩
  have hapart : (negatedProduct.surfaceIn {} {}).Every Surface.IsSignApart :=
    ⟨fun _ => by decide, trivial, trivial, trivial⟩
  have hapart' : (negatedVectorProduct.surfaceIn {} {}).Every Surface.IsSignApart :=
    ⟨fun _ => by decide, trivial, trivial, trivial⟩
  exact ⟨after, after', h, h', htext, htext',
    surface_eq_of_text_eq hplain hplain' rfl rfl (by decide +kernel) (by decide +kernel) hapart
      hapart' h h' (show _ = ({} : Context).source.text ++ "(-(v * 2))" by rw [htext]; rfl)
      (by rw [htext']; rfl)⟩

end Node

end ShaderText
