import ShaderText.Proofs.Yield
import Mathlib.Data.List.Chain

/-! # Signs: where two of them meet

A literal may have a minus sign, and a negation puts one in front of its operand, so the two may
meet and read as a decrement. The text of an expression never has two signs side by side for any
other reason:

* `Signed` is what is known of the signs of a text; texts put one after another keep it
  (`Signed.append`), since none of them ends in a sign or begins with a plus.
* `Node.StartsNegative` tells the expressions whose text begins with a minus sign, and
  `Node.NegatesNegative` those in which one of them is negated.
* **`Node.decrement_iff`: an expression without steps is written with `--` exactly if it negates an
  expression that begins with a minus sign,** and never with `++`. -/

namespace ShaderText

/-! ### Two signs side by side -/

/-- A sign stands twice in a row. -/
def Doubled (sign : Char) (text : List Char) : Prop := [sign, sign] <:+: text

instance (sign : Char) (text : List Char) : Decidable (Doubled sign text) :=
  inferInstanceAs (Decidable ([sign, sign] <:+: text))

theorem not_doubled_iff_isChain {sign : Char} {text : List Char} :
    ¬ Doubled sign text ↔ text.IsChain fun x y => ¬ (x = sign ∧ y = sign) := by
  rw [List.isChain_iff_forall_rel_of_append_cons_cons]
  constructor
  · rintro h x y front back rfl ⟨rfl, rfl⟩
    exact h ⟨front, back, by simp⟩
  · rintro h ⟨front, back, rfl⟩
    exact h (List.append_assoc front [sign, sign] back) ⟨rfl, rfl⟩

theorem doubled_append {sign : Char} {front back : List Char} :
    Doubled sign (front ++ back) ↔ Doubled sign front ∨ Doubled sign back ∨
      (front.getLast? = some sign ∧ back.head? = some sign) := by
  rw [← not_iff_not, not_doubled_iff_isChain, List.isChain_append, ← not_doubled_iff_isChain,
    ← not_doubled_iff_isChain, not_or, not_or]
  refine and_congr_right fun _ => and_congr_right fun _ => ?_
  constructor
  · rintro h ⟨hlast, hhead⟩
    exact h sign hlast sign hhead ⟨rfl, rfl⟩
  · rintro h x hx y hy ⟨rfl, rfl⟩
    exact h ⟨hx, hy⟩

/-- A text without signs. -/
def SignFree (text : List Char) : Prop := ∀ ch ∈ text, ch ≠ '+' ∧ ch ≠ '-'

instance (text : List Char) : Decidable (SignFree text) :=
  inferInstanceAs (Decidable (∀ ch ∈ text, ch ≠ '+' ∧ ch ≠ '-'))

theorem SignFree.head?_ne {text : List Char} (h : SignFree text) :
    text.head? ≠ some '+' ∧ text.head? ≠ some '-' :=
  ⟨fun hh => (h _ (List.mem_of_mem_head? hh)).1 rfl,
    fun hh => (h _ (List.mem_of_mem_head? hh)).2 rfl⟩

theorem SignFree.getLast?_ne {text : List Char} (h : SignFree text) :
    text.getLast? ≠ some '+' ∧ text.getLast? ≠ some '-' :=
  ⟨fun hl => (h _ (List.mem_of_getLast? hl)).1 rfl,
    fun hl => (h _ (List.mem_of_getLast? hl)).2 rfl⟩

theorem SignFree.not_doubled {text : List Char} (h : SignFree text) :
    ¬ Doubled '+' text ∧ ¬ Doubled '-' text :=
  ⟨fun hd => (h '+' (hd.subset (by simp))).1 rfl, fun hd => (h '-' (hd.subset (by simp))).2 rfl⟩

theorem signFree_of_isLiteralChar {text : List Char} (h : ∀ ch ∈ text, IsLiteralChar ch) :
    SignFree text := by
  intro ch hch
  constructor <;> rintro rfl <;> revert hch <;> intro hch <;>
    exact absurd (h _ hch) (by unfold IsLiteralChar; decide)

theorem signFree_of_isWord {s : String} (h : isWord s = true) : SignFree s.toList := by
  intro ch hch
  have := isWordChar_of_mem h hch
  constructor <;> rintro rfl <;> exact absurd this (by decide)

/-! ### Texts that may stand anywhere -/

/-- The signs of a text that others may stand before and after: `++` is not in it, and `--` is if
and only if `doubled` holds. -/
structure Signed (text : List Char) (doubled : Prop) : Prop where
  not_plus : ¬ Doubled '+' text
  minus_iff : Doubled '-' text ↔ doubled
  head_ne : text.head? ≠ some '+'
  last_ne_plus : text.getLast? ≠ some '+'
  last_ne_minus : text.getLast? ≠ some '-'

namespace Signed

variable {text front back : List Char} {p q : Prop}

theorem congr (h : Signed text p) (hpq : p ↔ q) : Signed text q :=
  { h with minus_iff := h.minus_iff.trans hpq }

theorem of_eq (h : Signed front p) (heq : front = back) : Signed back p := heq ▸ h

/-- **Texts put together meet nowhere in a sign.** -/
theorem append (h : Signed front p) (h' : Signed back q) : Signed (front ++ back) (p ∨ q) where
  not_plus := by
    rw [doubled_append]
    rintro (hd | hd | ⟨hl, -⟩)
    · exact h.not_plus hd
    · exact h'.not_plus hd
    · exact h.last_ne_plus hl
  minus_iff := by
    rw [doubled_append, h.minus_iff, h'.minus_iff]
    refine or_congr_right (or_iff_left ?_)
    rintro ⟨hl, -⟩
    exact h.last_ne_minus hl
  head_ne := by
    rw [List.head?_append]
    cases hf : front.head? with
    | none => simpa using h'.head_ne
    | some ch => simpa [hf] using h.head_ne
  last_ne_plus := by
    rw [List.getLast?_append]
    cases hb : back.getLast? with
    | none => simpa using h.last_ne_plus
    | some ch => simpa [hb] using h'.last_ne_plus
  last_ne_minus := by
    rw [List.getLast?_append]
    cases hb : back.getLast? with
    | none => simpa using h.last_ne_minus
    | some ch => simpa [hb] using h'.last_ne_minus

theorem nil : Signed [] False := by
  refine ⟨?_, iff_of_false ?_ id, ?_, ?_, ?_⟩ <;> decide

theorem of_signFree (h : SignFree text) : Signed text False where
  not_plus := h.not_doubled.1
  minus_iff := iff_of_false h.not_doubled.2 id
  head_ne := h.head?_ne.1
  last_ne_plus := h.getLast?_ne.1
  last_ne_minus := h.getLast?_ne.2

/-- A sign in front of a text that has none. -/
theorem of_sign {negative : Prop} [Decidable negative] (h : SignFree text) (hne : text ≠ []) :
    Signed ((if negative then ['-'] else []) ++ text) False := by
  by_cases hn : negative
  · rw [if_pos hn]
    have hsingle : ∀ sign : Char, ¬ Doubled sign ['-'] := fun sign hd => by
      simpa using hd.length_le
    have hlast : (['-'] ++ text).getLast? = text.getLast? := List.getLast?_append_of_ne_nil _ hne
    refine ⟨?_, ?_, by simp, hlast ▸ h.getLast?_ne.1, hlast ▸ h.getLast?_ne.2⟩
    · rw [doubled_append]
      rintro (hd | hd | ⟨hl, -⟩)
      · exact hsingle _ hd
      · exact h.not_doubled.1 hd
      · simp at hl
    · rw [doubled_append]
      refine iff_of_false ?_ id
      rintro (hd | hd | ⟨-, hh⟩)
      · exact hsingle _ hd
      · exact h.not_doubled.2 hd
      · exact h.head?_ne.2 hh
  · rw [if_neg hn]
    exact of_signFree h

/-- A text in parentheses, with or without a sign in front of it. -/
theorem parenthesized (h : Signed text p) : Signed (['('] ++ (text ++ [')'])) p :=
  ((of_signFree (by decide)).append (h.append (of_signFree (by decide)))).congr (by simp)

theorem negated (h : Signed text p) :
    Signed (['(', '-'] ++ (text ++ [')'])) (p ∨ text.head? = some '-') := by
  have hclosed : Signed (text ++ [')']) p := (h.append (of_signFree (by decide))).congr (by simp)
  have hhead : (text ++ [')']).head? = some '-' ↔ text.head? = some '-' := by cases text <;> simp
  have hlast : (['(', '-'] ++ (text ++ [')'])).getLast? = some ')' := by
    rw [← List.append_assoc, List.getLast?_concat]
  refine ⟨?_, ?_, by simp, by rw [hlast]; decide, by rw [hlast]; decide⟩
  · rw [doubled_append]
    rintro (hd | hd | ⟨hl, -⟩)
    · exact absurd hd (by decide)
    · exact hclosed.not_plus hd
    · exact absurd hl (by decide)
  · rw [doubled_append, hclosed.minus_iff, hhead, or_iff_right (by decide)]
    exact or_congr_right (and_iff_right rfl)

theorem posited (h : Signed text p) : Signed (['(', '+'] ++ (text ++ [')'])) p := by
  have hclosed : Signed (text ++ [')']) p := (h.append (of_signFree (by decide))).congr (by simp)
  have hhead : (text ++ [')']).head? ≠ some '+' := by
    cases text with
    | nil => decide
    | cons ch rest => exact h.head_ne
  have hlast : (['(', '+'] ++ (text ++ [')'])).getLast? = some ')' := by
    rw [← List.append_assoc, List.getLast?_concat]
  refine ⟨?_, ?_, by simp, by rw [hlast]; decide, by rw [hlast]; decide⟩
  · rw [doubled_append]
    rintro (hd | hd | ⟨-, hh⟩)
    · exact absurd hd (by decide)
    · exact hclosed.not_plus hd
    · exact hhead hh
  · rw [doubled_append, hclosed.minus_iff, or_iff_right (by decide)]
    exact or_iff_left fun hl => absurd hl.1 (by decide)

end Signed

/-! ### Expressions that begin with a sign, and negations of them -/

namespace Node

/-- The text of an expression begins with a minus sign: with a negative literal, or a counter at a
negative value, that nothing precedes. -/
def StartsNegative (c : Config) (b : Bindings) : Node → Prop
  | symbol v => ∃ value : Int, b v.id = some value ∧ value < 0
  | constant type values =>
    type.arraySize = none ∧ type.basic ≠ .struct ∧
      ∃ v : Scalar, values = [v] ∧ v.isNegative c = true
  | binary op left _ _ _ =>
    match op.form with
    | .between _ => False
    | .index _ | .member _ => left.StartsNegative c b
  | swizzle operand _ _ => operand.StartsNegative c b
  | _ => False

mutual

/-- An expression that begins with a minus sign is negated somewhere. -/
def NegatesNegative (c : Config) (b : Bindings) : Node → Prop
  | unary op operand _ _ =>
    operand.NegatesNegative c b ∨ (op = .negative ∧ operand.StartsNegative c b)
  | binary op left right _ _ =>
    match op.form with
    | .between _ | .index _ => left.NegatesNegative c b ∨ right.NegatesNegative c b
    | .member _ => left.NegatesNegative c b
  | ternary condition whenTrue whenFalse _ =>
    condition.NegatesNegative c b ∨ whenTrue.NegatesNegative c b ∨ whenFalse.NegatesNegative c b
  | swizzle operand _ _ => operand.NegatesNegative c b
  | call _ arguments _ _ => AnyNegatesNegative c b arguments
  | _ => False

def AnyNegatesNegative (c : Config) (b : Bindings) : List Node → Prop
  | [] => False
  | node :: rest => node.NegatesNegative c b ∨ AnyNegatesNegative c b rest

end

mutual

/-- Expression trees without increments and decrements. -/
def IsStepFree : Node → Prop
  | symbol _ | constant .. => True
  | unary op operand _ _ =>
    op ∉ [.preIncrement, .preDecrement, .postIncrement, .postDecrement] ∧ operand.IsStepFree
  | binary _ left right _ _ => left.IsStepFree ∧ right.IsStepFree
  | ternary condition whenTrue whenFalse _ =>
    condition.IsStepFree ∧ whenTrue.IsStepFree ∧ whenFalse.IsStepFree
  | swizzle operand _ _ => operand.IsStepFree
  | call _ arguments _ _ => AllStepFree arguments
  | _ => False

def AllStepFree : List Node → Prop
  | [] => True
  | node :: rest => node.IsStepFree ∧ AllStepFree rest

end

end Node

/-! ### Signs of literals and constants -/

theorem head?_sign_iff {negative : Prop} [Decidable negative] {text : List Char}
    (h : SignFree text) :
    ((if negative then ['-'] else []) ++ text).head? = some '-' ↔ negative := by
  by_cases hn : negative
  · simp [hn]
  · simpa [hn] using h.head?_ne.2

theorem signFree_repr (n : Nat) : SignFree n.repr.toList :=
  signFree_of_isLiteralChar fun _ hch => isLiteralChar_of_isDigit (isDigit_of_mem_repr hch)

theorem signed_int_repr (i : Int) : Signed i.repr.toList False := by
  rw [int_repr_toList]
  exact .of_sign (signFree_repr _) (repr_toList_ne_nil _)

theorem head?_int_repr_iff (i : Int) : i.repr.toList.head? = some '-' ↔ i < 0 := by
  rw [int_repr_toList]
  exact head?_sign_iff (signFree_repr _)

theorem Scalar.signed_literal (c : Config) (v : Scalar) : Signed (v.literal c).toList False := by
  obtain ⟨body, hbody, hne, hchars⟩ := v.toList_literal c
  rw [hbody]
  exact .of_sign (signFree_of_isLiteralChar hchars) hne

theorem Scalar.head?_literal_iff (c : Config) (v : Scalar) :
    (v.literal c).toList.head? = some '-' ↔ v.isNegative c = true := by
  obtain ⟨body, hbody, -, hchars⟩ := v.toList_literal c
  rw [hbody]
  exact head?_sign_iff (signFree_of_isLiteralChar hchars)

theorem signed_of_isConstantText {c : Config} {s : String} (h : IsConstantText c s) :
    Signed s.toList False := by
  cases h with
  | literals values =>
    rw [String.toList_intercalate]
    induction values with
    | nil => exact .nil
    | cons v rest ih =>
      cases rest with
      | nil => simpa [List.intercalate] using v.signed_literal c
      | cons next rest =>
        have hrest := (Signed.of_signFree (by decide : SignFree ", ".toList)).append ih
        exact (((v.signed_literal c).append hrest).congr (by simp)).of_eq (by
          simp [List.intercalate])
  | opening => exact .of_signFree (by decide)
  | sizedOpening size =>
    rw [String.toList_append, String.toList_append]
    exact (((Signed.of_signFree (by decide)).append (.of_signFree (signFree_repr size))).append
      (.of_signFree (by decide))).congr (by simp)
  | separator => exact .of_signFree (by decide)
  | closing => exact .of_signFree (by decide)

/-! ### The signs of an expression -/

section

variable {r : Renderer} {ρ : String → String} {b : Bindings} {c : Config}

/-- The names that a program or an emulation chose are written without signs. -/
abbrev Renderer.SignFreeNames (r : Renderer) (ρ : String → String) (tokens : List Token) : Prop :=
  r.EachName ρ (fun name => SignFree name.toList) tokens

theorem signFree_typeName {t : ShaderType} {name : TypeName} (hname : t.spelling = .ok name)
    (h : (Token.typeName name).isChosen = true →
      SignFree ((Token.typeName name).print r ρ).toList) :
    SignFree ((Token.typeName name).print r ρ).toList := by
  cases name with
  | builtIn text => exact signFree_of_isWord (t.isWord_of_spelling hname)
  | userDefined text => exact h rfl

theorem signFree_brackets (t : ShaderType) : SignFree t.brackets.toList := by
  unfold ShaderType.brackets
  cases t.arraySize with
  | none => decide
  | some n =>
    intro ch hch
    simp only [String.toList_append, List.mem_append] at hch
    rcases hch with (hch | hch) | hch
    · revert ch
      decide
    · exact signFree_repr n ch hch
    · revert ch
      decide

/-- A call does not begin with a minus sign, even if its name is empty. -/
theorem head?_call_ne {name : List Char} (h : SignFree name) (back : List Char) :
    (name ++ '(' :: back).head? ≠ some '-' := by
  cases name with
  | nil => simp
  | cons ch rest => exact h.head?_ne.2

theorem head?_constructor_ne {name : List Char} (h : SignFree name) (t : ShaderType)
    (back : List Char) : (name ++ (t.brackets.toList ++ '(' :: back)).head? ≠ some '-' := by
  rw [← List.append_assoc]
  exact head?_call_ne (List.forall_mem_append.mpr ⟨h, signFree_brackets t⟩) back

theorem signed_charsOf {tokens : List Token}
    (h : ∀ t ∈ tokens, Signed (t.print r ρ).toList False) : Signed (r.charsOf ρ tokens) False := by
  induction tokens with
  | nil => exact .nil
  | cons t rest ih =>
    obtain ⟨ht, hrest⟩ := List.forall_mem_cons.mp h
    exact (ht.append (ih hrest)).congr (by simp)

/-- A constant begins with a minus sign only if it is a single negative value. -/
theorem signed_constant {t : ShaderType} {values : List Scalar} {tokens : List Token}
    (h : t.constantTokens c values = .ok tokens) (hnames : r.SignFreeNames ρ tokens) :
    Signed (r.charsOf ρ tokens) False ∧
      ((r.charsOf ρ tokens).head? = some '-' ↔ (Node.constant t values).StartsNegative c b) := by
  refine ⟨signed_charsOf fun token htoken => ?_, ?_⟩
  · rcases ShaderType.mem_constantTokens h htoken with ⟨_, name, _, hname, rfl⟩ | ⟨s, rfl, hs⟩
    · exact .of_signFree (signFree_typeName hname (hnames _ htoken))
    · exact signed_of_isConstantText hs
  · rw [Node.StartsNegative]
    rcases ShaderType.constantTokens_cases h with
      ⟨hsize, hbasic, ⟨rfl, rfl⟩ | ⟨v, rfl, rfl⟩⟩ | ⟨hlength, name, shape, back, rfl⟩
    · simp
    · simpa [hsize, hbasic] using v.head?_literal_iff c
    · refine iff_of_false ?_ ?_
      · obtain ⟨_, _, _, hname, hname'⟩ | ⟨s, hs, -⟩ :=
          ShaderType.mem_constantTokens h List.mem_cons_self
        · cases hname'
          have hfree := signFree_typeName hname (hnames _ List.mem_cons_self)
          simpa [String.toList_append] using head?_constructor_ne hfree shape (r.charsOf ρ back)
        · cases hs
      · rintro ⟨hsize, hbasic, v, rfl, -⟩
        exact hlength hsize hbasic rfl

/-! ### The induction on the tree -/

theorem UnaryOp.form_of_isStepFree {op : UnaryOp} {before after : String}
    (h : op.form = .around before after)
    (hop : op ∉ [.preIncrement, .preDecrement, .postIncrement, .postDecrement]) :
    after = ")" ∧ ((op = .negative ∧ before = "(-") ∨ (op ≠ .negative ∧ before = "(+") ∨
      (op ≠ .negative ∧ SignFree before.toList ∧ before.toList.head? = some '(')) := by
  cases op <;> cases h <;> revert hop <;> decide

theorem BinaryOp.signed_of_between {op : BinaryOp} {separator : String}
    (h : op.form = .between separator) : Signed separator.toList False := by
  cases op <;> cases h <;> (refine ⟨?_, iff_of_false ?_ id, ?_, ?_, ?_⟩ <;> decide)

namespace Node

open Fragment Renderer

/-- What the text of a node shows about its signs. -/
structure SignsOf (r : Renderer) (ρ : String → String) (c : Config) (b : Bindings) (n : Node)
    (tokens : List Token) : Prop where
  signed : Signed (r.charsOf ρ tokens) (n.NegatesNegative c b)
  head_iff : (r.charsOf ρ tokens).head? = some '-' ↔ n.StartsNegative c b

theorem signFree_intrinsic {name : String} {emulated : Bool} (hname : isWord name = true)
    (h : (Token.intrinsic name emulated).isChosen = true →
      SignFree ((Token.intrinsic name emulated).print r ρ).toList) :
    SignFree ((Token.intrinsic name emulated).print r ρ).toList := by
  cases emulated with
  | false => exact signFree_of_isWord hname
  | true => exact h rfl

/-- The signs of a call are those of its arguments. -/
theorem signed_call {name arguments : List Char} {p : Prop} (hname : SignFree name)
    (h : Signed arguments p) : Signed (name ++ (['('] ++ (arguments ++ [')']))) p :=
  ((Signed.of_signFree hname).append h.parenthesized).congr (by simp)

variable {tokens : List Token}

theorem signsOf_unary {op : UnaryOp} {operand : Node} {type : ShaderType} {emulated : Bool}
    (hop : op ∉ [.preIncrement, .preDecrement, .postIncrement, .postDecrement])
    (h : Yields c b ((unary op operand type emulated).fragments c) tokens)
    (hnames : r.SignFreeNames ρ tokens)
    (hoperand : ∀ inner, Yields c b (operand.fragments c) inner → r.SignFreeNames ρ inner →
      SignsOf r ρ c b operand inner) :
    SignsOf r ρ c b (unary op operand type emulated) tokens := by
  rw [fragments] at h
  cases hform : op.form with
  | around before after =>
    rw [hform] at h
    obtain ⟨inner, hinner, rfl⟩ := yields_enclosed h
    obtain ⟨-, hnames⟩ := eachName_cons.mp hnames
    obtain ⟨hsigned, hhead⟩ := hoperand inner hinner (eachName_append.mp hnames).1
    obtain ⟨rfl, ⟨rfl, rfl⟩ | ⟨hne, rfl⟩ | ⟨hne, hfree, hparen⟩⟩ := op.form_of_isStepFree hform hop
    · refine ⟨(hsigned.negated.congr ?_).of_eq (by simp), by simp [StartsNegative]⟩
      rw [NegatesNegative, hhead]
      simp
    · refine ⟨(hsigned.posited.congr ?_).of_eq (by simp), by simp [StartsNegative]⟩
      simp [NegatesNegative, hne]
    · have htext := (Signed.of_signFree hfree).append
        (hsigned.append (.of_signFree (by decide : SignFree ")".toList)))
      refine ⟨(htext.congr ?_).of_eq (by simp), ?_⟩
      · simp [NegatesNegative, hne]
      · simp [StartsNegative, List.head?_append, hparen]
  | call name =>
    rw [hform] at h
    simp only [List.cons_append, List.nil_append] at h
    obtain ⟨front, others, hfront, hothers, rfl⟩ := yields_cons h
    obtain rfl := yields_of_emit (fun _ => rfl) hfront
    obtain ⟨inner, hinner, rfl⟩ := yields_enclosed hothers
    obtain ⟨hname, hnames⟩ := eachName_cons.mp hnames
    obtain ⟨-, hnames⟩ := eachName_cons.mp hnames
    obtain ⟨hsigned, -⟩ := hoperand inner hinner (eachName_append.mp hnames).1
    have hfree := signFree_intrinsic (op.isWord_of_form_eq_call hform) hname
    have hne : op ≠ .negative := by rintro rfl; cases hform
    refine ⟨((signed_call hfree hsigned).congr ?_).of_eq (by simp), ?_⟩
    · simp [NegatesNegative, hne]
    · simpa [StartsNegative] using head?_call_ne hfree (r.charsOf ρ inner ++ [')'])

/-- An element or a member of an operand has the signs of both parts, and begins as the operand. -/
theorem SignsOf.selected {n operand : Node} {front : List Token} {back : List Char} {p : Prop}
    (h : SignsOf r ρ c b operand front) (hback : Signed back p)
    (hhead : back.head? ≠ some '-')
    (hn : n.NegatesNegative c b ↔ operand.NegatesNegative c b ∨ p)
    (hstarts : n.StartsNegative c b ↔ operand.StartsNegative c b)
    (htokens : r.charsOf ρ tokens = r.charsOf ρ front ++ back) : SignsOf r ρ c b n tokens where
  signed := ((h.signed.append hback).congr hn.symm).of_eq htokens.symm
  head_iff := by
    rw [htokens, hstarts, ← h.head_iff, List.head?_append]
    cases (r.charsOf ρ front).head? with
    | none => simpa using hhead
    | some ch => rfl

theorem signsOf_binary {op : BinaryOp} {left right : Node} {type : ShaderType} {clamped : Bool}
    (h : Yields c b ((binary op left right type clamped).fragments c) tokens)
    (hnames : r.SignFreeNames ρ tokens)
    (hleft : ∀ inner, Yields c b (left.fragments c) inner → r.SignFreeNames ρ inner →
      SignsOf r ρ c b left inner)
    (hright : ∀ inner, Yields c b (right.fragments c) inner → r.SignFreeNames ρ inner →
      SignsOf r ρ c b right inner) :
    SignsOf r ρ c b (binary op left right type clamped) tokens := by
  rw [fragments] at h
  cases hform : op.form with
  | between separator =>
    rw [hform] at h
    obtain ⟨first, second, hfirst, hsecond, rfl⟩ := yields_enclosed_pair h
    simp only [eachName_cons, eachName_append] at hnames
    have htext := ((hleft first hfirst hnames.2.1).signed.append
      ((op.signed_of_between hform).append
        (hright second hsecond hnames.2.2.2.1).signed)).parenthesized
    refine ⟨(htext.congr ?_).of_eq (by simp), ?_⟩
    · simp [NegatesNegative, hform]
    · simp [StartsNegative, hform]
  | index computed =>
    rw [hform] at h
    dsimp only at h
    have hnegates : ∀ p, (p ↔ right.NegatesNegative c b) →
        ((binary op left right type clamped).NegatesNegative c b ↔
          left.NegatesNegative c b ∨ p) := fun p hp => by simp [NegatesNegative, hform, hp]
    have hstarts : (binary op left right type clamped).StartsNegative c b ↔
        left.StartsNegative c b := by simp [StartsNegative, hform]
    split_ifs at h
    · obtain ⟨first, rest, hfirst, hrest, rfl⟩ := yields_append h
      obtain ⟨t, second, hsecond, htokens⟩ := yields_clampedIndex hrest
      have hlast := (Signed.append (.of_signFree (by decide : SignFree "), 0.0, float(".toList))
        (signed_int_repr t.lastIndex)).append (.of_signFree (by decide : SignFree ")))]".toList))
      have hlast' := (Signed.append (.of_signFree (by decide : SignFree ", 0, ".toList))
        (signed_int_repr t.lastIndex)).append (.of_signFree (by decide : SignFree ")]".toList))
      rcases htokens with rfl | rfl
      · simp only [eachName_cons, eachName_append] at hnames
        have htext := (Signed.of_signFree (by decide : SignFree "[int(clamp(float(".toList)).append
          ((hright second hsecond hnames.2.2.1).signed.append hlast)
        exact (hleft first hfirst hnames.1).selected htext (by simp) (hnegates _ (by simp)) hstarts
          (by simp [String.toList_append])
      · simp only [eachName_cons, eachName_append] at hnames
        have htext := (Signed.of_signFree
          (by decide : SignFree ("[" ++ Reserved.clampHelper ++ "(").toList)).append
            ((hright second hsecond hnames.2.2.1).signed.append hlast')
        exact (hleft first hfirst hnames.1).selected htext (by simp [Reserved.clampHelper])
          (hnegates _ (by simp)) hstarts (by simp [String.toList_append])
    · obtain ⟨first, rest, hfirst, hrest, rfl⟩ := yields_append h
      obtain ⟨second, hsecond, rfl⟩ := yields_enclosed hrest
      simp only [eachName_cons, eachName_append] at hnames
      have htext := (Signed.of_signFree (by decide : SignFree "[".toList)).append
        ((hright second hsecond hnames.2.2.1).signed.append
          (.of_signFree (by decide : SignFree "]".toList)))
      exact (hleft first hfirst hnames.1).selected htext (by simp) (hnegates _ (by simp)) hstarts
        (by simp)
  | member ofBlock =>
    rw [hform] at h
    obtain ⟨index, t, front, back, -, -, hfront, hback, rfl⟩ := yields_memberSelection h
    obtain ⟨hnames, hnames'⟩ := eachName_append.mp hnames
    obtain ⟨-, hnames'⟩ := eachName_cons.mp hnames'
    have hfree : SignFree (r.charsOf ρ back) := by
      rcases yields_memberName hback with ⟨owner, field, -, rfl⟩ | ⟨field, -, rfl⟩
      · simpa using hnames' _ List.mem_cons_self rfl
      · simpa using hnames' _ List.mem_cons_self rfl
    have htext := (Signed.of_signFree (by decide : SignFree ".".toList)).append (.of_signFree hfree)
    exact (hleft front hfront hnames).selected htext (by simp)
      (by simp [NegatesNegative, hform]) (by simp [StartsNegative, hform]) (by simp)

theorem signFree_callee {callee : Callee} {type : ShaderType} {emulated : Bool}
    (h : Yields c b (callee.fragments type emulated) tokens) (hnames : r.SignFreeNames ρ tokens) :
    SignFree (r.charsOf ρ tokens) := by
  rcases yields_callee h with ⟨name, -, rfl⟩ | ⟨-, name, hname, rfl⟩ | ⟨op, -, rfl⟩
  · simpa using hnames _ List.mem_cons_self rfl
  · have hfree := signFree_typeName hname (hnames _ List.mem_cons_self)
    have htext : SignFree (((Token.typeName name).print r ρ).toList ++ type.brackets.toList) :=
      List.forall_mem_append.mpr ⟨hfree, signFree_brackets type⟩
    simpa using htext
  · simpa using signFree_intrinsic op.isWord_name (hnames _ List.mem_cons_self)

mutual

/-- **The signs of an expression without steps.** -/
theorem signsOf_of_yields : (n : Node) → n.IsStepFree → ∀ {tokens : List Token},
    Yields c b (n.fragments c) tokens → r.SignFreeNames ρ tokens → SignsOf r ρ c b n tokens
  | symbol v, _, tokens, h, hnames => by
    rw [fragments] at h
    obtain ⟨value, hv, rfl⟩ | ⟨hv, rfl⟩ := yields_reference h
    · refine ⟨by simpa [NegatesNegative] using signed_int_repr value, ?_⟩
      simpa [StartsNegative, hv] using head?_int_repr_iff value
    · have hfree : SignFree (r.charsOf ρ [.used v.name]) := by
        simpa using hnames _ List.mem_cons_self rfl
      exact ⟨by simpa [NegatesNegative] using Signed.of_signFree hfree,
        iff_of_false hfree.head?_ne.2 (by simp [StartsNegative, hv])⟩
  | constant type values, _, tokens, h, hnames => by
    rw [fragments] at h
    obtain ⟨hsigned, hhead⟩ := signed_constant (b := b) (yields_constant h) hnames
    exact ⟨by simpa [NegatesNegative] using hsigned, hhead⟩
  | unary op operand type emulated, ⟨hop, hoperand⟩, tokens, h, hnames =>
    signsOf_unary hop h hnames fun _ => signsOf_of_yields operand hoperand
  | binary op left right type clamped, ⟨hleft, hright⟩, tokens, h, hnames =>
    signsOf_binary h hnames (fun _ => signsOf_of_yields left hleft)
      fun _ => signsOf_of_yields right hright
  | ternary condition whenTrue whenFalse type, ⟨hcondition, htrue, hfalse⟩, tokens, h, hnames => by
    rw [fragments] at h
    obtain ⟨others, hothers, rfl⟩ := yields_text_cons h
    obtain ⟨first, rest, hfirst, hrest, rfl⟩ := yields_append hothers
    obtain ⟨second, third, hsecond, hthird, rfl⟩ := yields_enclosed_pair hrest
    simp only [eachName_cons, eachName_append] at hnames
    obtain ⟨-, hnames₁, -, hnames₂, -, hnames₃, -⟩ := hnames
    have h₁ := (signsOf_of_yields condition hcondition hfirst hnames₁).signed
    have h₂ := (signsOf_of_yields whenTrue htrue hsecond hnames₂).signed
    have h₃ := (signsOf_of_yields whenFalse hfalse hthird hnames₃).signed
    have htext := (Signed.of_signFree (by decide : SignFree "((".toList)).append (h₁.append
      ((Signed.of_signFree (by decide : SignFree ") ? (".toList)).append (h₂.append
        ((Signed.of_signFree (by decide : SignFree ") : (".toList)).append (h₃.append
          (.of_signFree (by decide : SignFree "))".toList)))))))
    refine ⟨(htext.congr (by simp [NegatesNegative])).of_eq (by simp), by simp [StartsNegative]⟩
  | swizzle operand offsets type, hoperand, tokens, h, hnames => by
    rw [fragments] at h
    obtain ⟨front, back, hfront, hback, rfl⟩ := yields_append h
    obtain ⟨letters, hletters, rfl⟩ := yields_swizzleSelection hback
    obtain ⟨hnames, -⟩ := eachName_append.mp hnames
    have hfree : SignFree ('.' :: letters) := by
      have hsafe : ∀ ch ∈ ['x', 'y', 'z', 'w'], ch ≠ '+' ∧ ch ≠ '-' := by decide
      exact List.forall_mem_cons.mpr ⟨by decide, fun ch hch =>
        hsafe ch ((mem_of_mapM_componentLetter hletters).2 ch hch)⟩
    exact (signsOf_of_yields operand hoperand hfront hnames).selected (.of_signFree hfree) (by simp)
      (by simp [NegatesNegative]) (by simp [StartsNegative]) (by simp [String.toList_ofList])
  | call callee arguments type emulated, harguments, tokens, h, hnames => by
    rw [fragments] at h
    obtain ⟨front, rest, hfront, hrest, rfl⟩ := yields_append h
    obtain ⟨inner, hinner, rfl⟩ := yields_enclosed hrest
    simp only [eachName_cons, eachName_append] at hnames
    have hfree := signFree_callee hfront hnames.1
    obtain ⟨parts, hparts, rfl⟩ := yields_commaSeparated hinner
    have hsigned := signed_arguments arguments harguments hparts hnames.2.2.1
    refine ⟨((signed_call hfree hsigned).congr (by simp [NegatesNegative])).of_eq (by simp), ?_⟩
    have hhead := head?_call_ne hfree
      (r.charsOf ρ (List.intercalate [.text ", "] parts) ++ [')'])
    simpa [StartsNegative] using hhead

/-- The arguments of a call, with commas between them. -/
theorem signed_arguments : (nodes : List Node) → AllStepFree nodes → ∀ {parts : List (List Token)},
    List.Forall₂ (Yields c b) (eachFragments c nodes) parts →
    r.SignFreeNames ρ (List.intercalate [.text ", "] parts) →
      Signed (r.charsOf ρ (List.intercalate [.text ", "] parts)) (AnyNegatesNegative c b nodes)
  | [], _, _, .nil, _ => by simpa [AnyNegatesNegative, List.intercalate] using Signed.nil
  | [node], ⟨hnode, _⟩, _, .cons (b := part) hpart .nil, hnames => by
    have hnames' : r.SignFreeNames ρ part := by simpa [List.intercalate] using hnames
    simpa [AnyNegatesNegative, List.intercalate] using
      (signsOf_of_yields node hnode hpart hnames').signed
  | node :: next :: rest, ⟨hnode, hrest⟩, _, .cons (b := part) hpart hparts, hnames => by
    cases hparts with
    | @cons _ _ second others hsecond hothers =>
      simp only [List.intercalate_cons_cons, List.append_assoc, eachName_append] at hnames
      have hpart := (signsOf_of_yields node hnode hpart hnames.1).signed
      have hparts := signed_arguments (next :: rest) hrest (.cons hsecond hothers) hnames.2.2
      have hcomma := Signed.of_signFree (by decide : SignFree ", ".toList)
      rw [List.intercalate_cons_cons, List.append_assoc]
      exact ((hpart.append (hcomma.append hparts)).congr (by simp [AnyNegatesNegative])).of_eq
        (by simp)

end

end Node

end

namespace Node

/-- **Decrements in expressions without steps.** The text of one never has `++` in it, and has `--`
exactly if an expression that begins with a minus sign is negated in it. -/
theorem decrement_iff {r : Renderer} {n : Node} {ctx ctx' : Context} (hn : n.IsStepFree)
    (hnames : ∀ name ∈ n.printedNames r ctx, SignFree name.toList)
    (h : n.write r ctx = .ok ctx') :
    ∃ text, ctx'.source.text.toList = ctx.source.text.toList ++ text ∧ ¬ Doubled '+' text ∧
      (Doubled '-' text ↔ n.NegatesNegative r.config ctx.counterValue?) := by
  obtain ⟨tokens, htokens, hyields, htext⟩ := exists_yields_of_write h
  have hsigned := (signsOf_of_yields n hn hyields
    (eachName_of_printedNames htokens hnames)).signed
  exact ⟨_, htext, hsigned.not_plus, hsigned.minus_iff⟩

/-- The negation of the literal `-3`. -/
def negatedLiteral : Node :=
  .unary .negative (.constant (.scalar .int) [.int (-3)]) (.scalar .int) false

/-- A negated negative literal is written as a decrement. -/
theorem negatedLiteral_decrements :
    ∃ ctx' text, negatedLiteral.write {} {} = .ok ctx' ∧ ctx'.source.text = "(--3)" ∧
      ctx'.source.text.toList = text ∧ Doubled '-' text := by
  obtain ⟨ctx', h⟩ : ∃ ctx', negatedLiteral.write {} {} = .ok ctx' := ⟨_, rfl⟩
  have hfree : negatedLiteral.IsStepFree := ⟨by decide, trivial⟩
  obtain ⟨text, htext, -, hminus⟩ := decrement_iff hfree (by decide +kernel) h
  refine ⟨ctx', text, h, ?_, htext, hminus.mpr (.inr ⟨rfl, rfl, by decide, _, rfl, by decide⟩)⟩
  cases h
  decide +kernel

end Node

end ShaderText
