import ShaderText.Proofs.Yield

/-! # Uses of types: where the text of a tree speaks of types

The outline of a tree (`Node.outline`) has the types that the tree makes use of, in the order of
its text: the types of declarations, of parameters and of what functions return
(`TypeUse.declared`), and those of constants and constructors (`TypeUse.built`). Of the rest of
the tree it has the blocks and the number of copies of unrolled ones. `Node.typeUses` lists the
uses, those in an unrolled body once for each copy.

`Fragment.Outlined` relates fragments to an outline. Its rules are all that a claim about structs
and scopes has to know of the layout of a tree: plain text, the three ways of writing a type,
scopes, blocks, and copies. **The fragments of a node have its outline
(`Node.outlined_fragments`).** -/

namespace ShaderText

/-! ### Plain texts -/

/-- Texts that do not begin a struct, and close as many braces as they open. -/
def IsPlainText (s : String) : Prop :=
  s ≠ "struct " ∧ s.toList.count '\x7b' = s.toList.count '\x7d'

instance (s : String) : Decidable (IsPlainText s) :=
  inferInstanceAs (Decidable (s ≠ "struct " ∧ s.toList.count '\x7b' = s.toList.count '\x7d'))

/-- A text without braces and without an `s` is plain. -/
theorem isPlainText_of_chars {s : String}
    (h : ∀ ch ∈ s.toList, ch ≠ '\x7b' ∧ ch ≠ '\x7d' ∧ ch ≠ 's') : IsPlainText s := by
  refine ⟨?_, ?_⟩
  · rintro rfl
    exact (h 's' (by decide)).2.2 rfl
  · rw [List.count_eq_zero_of_not_mem fun hmem => (h _ hmem).1 rfl,
      List.count_eq_zero_of_not_mem fun hmem => (h _ hmem).2.1 rfl]

theorem plain_chars_append {s s' : String}
    (h : ∀ ch ∈ s.toList, ch ≠ '\x7b' ∧ ch ≠ '\x7d' ∧ ch ≠ 's')
    (h' : ∀ ch ∈ s'.toList, ch ≠ '\x7b' ∧ ch ≠ '\x7d' ∧ ch ≠ 's') :
    ∀ ch ∈ (s ++ s').toList, ch ≠ '\x7b' ∧ ch ≠ '\x7d' ∧ ch ≠ 's' := by
  rw [String.toList_append]
  exact List.forall_mem_append.mpr ⟨h, h'⟩

theorem plain_chars_repr (n : Nat) :
    ∀ ch ∈ n.repr.toList, ch ≠ '\x7b' ∧ ch ≠ '\x7d' ∧ ch ≠ 's' := fun ch hch => by
  rw [Nat.repr_eq_ofList_toDigits, String.toList_ofList] at hch
  have hdigit : ch.isDigit = true :=
    Nat.isDigit_of_mem_toDigits (by decide : 0 < 10) (by decide) hch
  refine ⟨?_, ?_, ?_⟩ <;> rintro rfl <;> exact absurd hdigit (by decide)

theorem plain_chars_int_repr (i : Int) :
    ∀ ch ∈ i.repr.toList, ch ≠ '\x7b' ∧ ch ≠ '\x7d' ∧ ch ≠ 's' := by
  cases i with
  | ofNat n => exact plain_chars_repr n
  | negSucc n => exact plain_chars_append (s := "-") (by decide) (plain_chars_repr (n + 1))

theorem plain_chars_brackets (t : ShaderType) :
    ∀ ch ∈ t.brackets.toList, ch ≠ '\x7b' ∧ ch ≠ '\x7d' ∧ ch ≠ 's' := by
  unfold ShaderType.brackets
  cases t.arraySize with
  | none => decide
  | some n =>
    exact plain_chars_append (plain_chars_append (by decide) (plain_chars_repr n)) (by decide)

theorem isPlainText_brackets (t : ShaderType) : IsPlainText t.brackets :=
  isPlainText_of_chars (plain_chars_brackets t)

theorem isPlainText_brackets_append (t : ShaderType) {s : String}
    (hs : ∀ ch ∈ s.toList, ch ≠ '\x7b' ∧ ch ≠ '\x7d' ∧ ch ≠ 's') : IsPlainText (t.brackets ++ s) :=
  isPlainText_of_chars (plain_chars_append (plain_chars_brackets t) hs)

theorem UnaryOp.isPlainText_of_form {op : UnaryOp} {before after : String}
    (h : op.form = .around before after) : IsPlainText before ∧ IsPlainText after := by
  cases op <;> cases h <;> decide

theorem BinaryOp.isPlainText_of_form {op : BinaryOp} {separator : String}
    (h : op.form = .between separator) : IsPlainText separator := by
  cases op <;> cases h <;> decide

/-! ### The outline of a tree -/

/-- The part that a type has in a tree. -/
inductive TypeUse where
  /-- The type of a declaration or a parameter, or the type that a function returns. -/
  | declared (t : ShaderType)
  /-- The type of a constant, or that of which a constructor is called. -/
  | built (t : ShaderType)

/-- What is left of a tree if only its uses of types, and the blocks that they are in, are kept. -/
inductive Outline where
  | use (u : TypeUse)
  | block (items : List Outline)
  /-- The copies of the body of an unrolled loop, each of which is a block. -/
  | copies (count : Nat) (items : List Outline)

namespace Outline

mutual

/-- The uses of types in the text of an item, in its order. -/
def uses : Outline → List TypeUse
  | use u => [u]
  | block items => usesIn items
  | copies count items => (List.replicate count (usesIn items)).flatten

/-- The uses of types in a text, in its order. -/
def usesIn : List Outline → List TypeUse
  | [] => []
  | item :: rest => item.uses ++ usesIn rest

end

@[simp] theorem usesIn_append (items others : List Outline) :
    usesIn (items ++ others) = usesIn items ++ usesIn others := by
  induction items with
  | nil => rfl
  | cons item rest ih => simp [usesIn, ih]

end Outline

/-- The types in the head of a function. -/
def Prototype.outline (p : Prototype) : List Outline :=
  .use (.declared p.returnType) :: p.parameters.map fun v => .use (.declared v.type)

namespace Node

mutual

/-- The uses of types in a tree and the blocks that they are in, in the order of its text. -/
def outline : Node → List Outline
  | symbol _ | invariantDeclaration _ => []
  | constant type _ => [.use (.built type)]
  | unary _ operand _ _ => operand.outline
  | binary op left right _ _ =>
    match op.form with
    | .between _ | .index _ => left.outline ++ right.outline
    | .member _ => left.outline
  | ternary condition whenTrue whenFalse _ =>
    condition.outline ++ (whenTrue.outline ++ whenFalse.outline)
  | swizzle operand _ _ => operand.outline
  | call callee arguments type _ =>
    (if callee = .constructor then [.use (.built type)] else []) ++ eachOutline arguments
  | prototype head => head.outline
  | declaration declarators =>
    match declarators with
    | [] => []
    | first :: _ => .use (.declared first.var.type) :: declaratorOutline declarators
  | block statements => [.block (eachOutline statements)]
  | ifElse condition whenTrue whenFalse =>
    condition.outline ++ (bodyOutline whenTrue ++ bodyOutline whenFalse)
  | switch selector body => selector.outline ++ bodyOutline body
  | case label => optionalOutline label
  | loop kind init condition step body unroll =>
    if unroll then
      match CountingLoop.ofLoop kind init condition step with
      | .error _ => []
      | .ok l => copiesOutline l.iterations body
    else
      match kind with
      | .forLoop =>
        optionalOutline init ++
          (optionalOutline condition ++ (optionalOutline step ++ bodyOutline body))
      | .whileLoop => optionalOutline condition ++ bodyOutline body
      | .doWhileLoop => bodyOutline body ++ optionalOutline condition
  | branch kind value => if kind = .return then optionalOutline value else []
  | function head body => head.outline ++ [.block (eachOutline body)]

def eachOutline : List Node → List Outline
  | [] => []
  | node :: rest => node.outline ++ eachOutline rest

def optionalOutline : Option Node → List Outline
  | none => []
  | some node => node.outline

def bodyOutline : Option (List Node) → List Outline
  | none => []
  | some statements => [.block (eachOutline statements)]

def copiesOutline (count : Nat) : Option (List Node) → List Outline
  | none => []
  | some statements => [.copies count (eachOutline statements)]

def declaratorOutline : List Declarator → List Outline
  | [] => []
  | { var := _, initializer } :: rest => optionalOutline initializer ++ declaratorOutline rest

end

end Node

/-! ### The outline of fragments -/

namespace Fragment

/-- Fragments that are written as one token, and neither as a type nor as a lone brace. -/
def IsPlain : Fragment → Prop
  | text s => IsPlainText s
  | reference .. | variableName _ | parameterName _ | member .. | blockMember _ | function ..
  | intrinsic .. | fail _ => True
  | _ => False

instance : (f : Fragment) → Decidable f.IsPlain
  | text s => inferInstanceAs (Decidable (IsPlainText s))
  | reference .. | variableName _ | parameterName _ | member .. | blockMember _ | function ..
  | intrinsic .. | fail _ => isTrue trivial
  | typeName _ | brace _ | scope _ | structBody .. | requireStruct .. | constant .. | unrolled .. =>
    isFalse id

/-- Fragments and the outline of their text. -/
inductive Outlined (c : Config) : List Fragment → List Outline → Prop
  | nil : Outlined c [] []
  | append {fs gs items others} : Outlined c fs items → Outlined c gs others →
      Outlined c (fs ++ gs) (items ++ others)
  | plain {f} : f.IsPlain → Outlined c [f] []
  /-- What cannot be written may have any outline. -/
  | fail (cause items) : Outlined c [.fail cause] items
  | name (t : ShaderType) : Outlined c [t.nameFragment] [.use (.built t)]
  | constant (t values) : Outlined c [.constant t values] [.use (.built t)]
  | occurrence (t : ShaderType) : Outlined c (t.occurrence c) [.use (.declared t)]
  | scope {fs items} : Outlined c fs items → Outlined c [.scope fs] items
  | block {fs items} : Outlined c fs items → Outlined c (blockFragments fs) [.block items]
  /-- The loop around the copies of a body. -/
  | copies (l : CountingLoop) {fs items} : Outlined c fs items →
      Outlined c [.scope (l.header ++
        [.unrolled l.counter l.iterations (blockFragments fs), .text "\x7d\n"])]
        [.copies l.iterations items]
  /-- The loop around the copies of a body that is absent. -/
  | absent (l : CountingLoop) :
      Outlined c [.scope (l.header ++
        [.unrolled l.counter l.iterations [.text "\x7b\n\x7d\n"], .text "\x7d\n"])] []

namespace Outlined

variable {c : Config} {f : Fragment} {fs gs : List Fragment} {items others : List Outline}

theorem cons_plain (hf : f.IsPlain) (h : Outlined c fs items) : Outlined c (f :: fs) items :=
  append (plain hf) h

theorem append_plain (h : Outlined c fs items) (hf : f.IsPlain) : Outlined c (fs ++ [f]) items := by
  simpa using h.append (plain hf)

theorem of_plain (h : ∀ f ∈ fs, f.IsPlain) : Outlined c fs [] := by
  induction fs with
  | nil => exact .nil
  | cons f rest ih =>
    obtain ⟨hf, hrest⟩ := List.forall_mem_cons.mp h
    exact .cons_plain hf (ih hrest)

theorem enclosed {before after : String} (hbefore : IsPlainText before) (h : Outlined c fs items)
    (hafter : IsPlainText after) : Outlined c (.text before :: (fs ++ [.text after])) items :=
  .cons_plain hbefore (h.append_plain hafter)

/-- Two parts with a text between them. -/
theorem between {s : String} (h : Outlined c fs items) (hs : IsPlainText s)
    (h' : Outlined c gs others) :
    Outlined c (fs ++ .text s :: gs) (items ++ others) := h.append (.cons_plain hs h')

theorem commaSeparated_cons {group : List Fragment} {rest : List (List Fragment)}
    (h : Outlined c group items) (hrest : Outlined c (Fragment.commaSeparated rest) others)
    (hnil : rest = [] → others = []) :
    Outlined c (Fragment.commaSeparated (group :: rest)) (items ++ others) := by
  cases rest with
  | nil => simpa [hnil rfl] using h
  | cons next rest =>
    rw [Fragment.commaSeparated_cons _ (List.cons_ne_nil _ _)]
    exact h.between (by decide) hrest

end Outlined

end Fragment

/-! ### The parts of a tree -/

open Fragment

section

variable {c : Config}

theorem outlined_swizzleSelection (offsets : List Nat) :
    Outlined c (swizzleSelection offsets) [] := by
  unfold swizzleSelection
  cases h : offsets.mapM componentLetter? with
  | none => exact .fail _ _
  | some letters =>
    have hsafe : ∀ ch ∈ ['x', 'y', 'z', 'w'], ch ≠ '\x7b' ∧ ch ≠ '\x7d' ∧ ch ≠ 's' := by decide
    refine .plain (isPlainText_of_chars ?_)
    rw [String.toList_ofList]
    exact List.forall_mem_cons.mpr
      ⟨by decide, fun ch hch => hsafe ch ((mem_of_mapM_componentLetter h).2 ch hch)⟩

theorem outlined_memberSelection {ofBlock : Bool} {owner position : Node} {operand : List Fragment}
    {items : List Outline} (h : Outlined c operand items) :
    Outlined c (memberSelection ofBlock owner position operand) items := by
  unfold memberSelection
  split
  · exact .fail _ _
  · exact .fail _ _
  · rename_i index t _ _
    have hname : (t.memberName ofBlock index).IsPlain := by
      rcases memberName_cases t ofBlock index with ⟨owner, field, hname⟩ | ⟨field, hname⟩ |
        ⟨cause, hname⟩ <;> rw [hname] <;> trivial
    simpa using h.append (.cons_plain (f := .text ".") (by decide) (.plain hname))

theorem outlined_clampedIndex {indexed : Node} {index : List Fragment} {items : List Outline}
    (h : Outlined c index items) : Outlined c (clampedIndex c indexed index) items := by
  unfold clampedIndex
  split
  · exact .fail _ _
  · rename_i t _
    have hlast : ∀ {before after : String},
        (∀ ch ∈ before.toList, ch ≠ '\x7b' ∧ ch ≠ '\x7d' ∧ ch ≠ 's') →
        (∀ ch ∈ after.toList, ch ≠ '\x7b' ∧ ch ≠ '\x7d' ∧ ch ≠ 's') →
        IsPlainText (before ++ t.lastIndex.repr ++ after) := fun hbefore hafter =>
      isPlainText_of_chars
        (plain_chars_append (plain_chars_append hbefore (plain_chars_int_repr _)) hafter)
    split
    · exact .fail _ _
    split
    · exact .enclosed (by decide) h (hlast (by decide) (by decide))
    · exact .enclosed (by decide) h (hlast (by decide) (by decide))

theorem outlined_callee (callee : Callee) (type : ShaderType) (emulated : Bool) :
    Outlined c (callee.fragments type emulated)
      (if callee = .constructor then [.use (.built type)] else []) := by
  cases callee with
  | constructor => exact (Outlined.name type).append_plain (isPlainText_brackets type)
  | _ => exact .plain trivial

theorem outlined_parameter (p : Variable) :
    Outlined c (parameterFragments c p) [.use (.declared p.type)] := by
  refine Outlined.append_plain ?_ (isPlainText_brackets p.type)
  split_ifs
  · simpa using Outlined.occurrence p.type
  · simpa using (Outlined.occurrence (c := c) p.type).append
      (.cons_plain (f := .text " ") (by decide) (.plain (f := .parameterName p.name) trivial))

theorem outlined_parameterList (p : Prototype) :
    Outlined c (p.parameterList c) (p.parameters.map fun v => .use (.declared v.type)) := by
  refine .enclosed (by decide) ?_ (by decide)
  induction p.parameters with
  | nil => exact .nil
  | cons v rest ih => exact (outlined_parameter v).commaSeparated_cons ih (by simp)

theorem outlined_head (p : Prototype) : Outlined c (p.head c) [.use (.declared p.returnType)] :=
  .append (.occurrence p.returnType)
    (.cons_plain (isPlainText_brackets_append _ (by decide)) (.plain trivial))

theorem isPlain_layout (t : ShaderType) : ∀ f ∈ t.layout, f.IsPlain := by
  have hformat : ∀ keyword, t.formatKeyword? = some keyword → IsPlainText keyword := by
    unfold ShaderType.formatKeyword?
    cases t.imageFormat <;> split_ifs <;> intro keyword h <;> cases h <;> decide
  unfold ShaderType.layout
  split
  · simp
  · simp only [List.forall_mem_append]
    refine ⟨⟨⟨by decide, ?_⟩, ?_⟩, by decide⟩
    · cases t.location? with
      | none => simp
      | some n =>
        refine List.forall_mem_singleton.mpr (isPlainText_of_chars ?_)
        exact plain_chars_append (by decide) (plain_chars_repr n)
    · cases h : t.formatKeyword? with
      | none => simp
      | some keyword =>
        dsimp only
        split_ifs
        · exact List.forall_mem_singleton.mpr (hformat keyword h)
        · exact List.forall_mem_singleton.mpr trivial

/-! ### Nodes -/

namespace Node

mutual

/-- **The fragments of a node have the uses of the node.** -/
theorem outlined_fragments : (n : Node) → Outlined c (n.fragments c) n.outline
  | symbol v => .plain trivial
  | constant type values => .constant type values
  | unary op operand type emulated => by
    rw [fragments, outline]
    cases hform : op.form with
    | around before after =>
      obtain ⟨hbefore, hafter⟩ := op.isPlainText_of_form hform
      exact .enclosed hbefore (outlined_fragments operand) hafter
    | call name =>
      exact .cons_plain (f := .intrinsic name emulated) trivial
        (.enclosed (by decide) (outlined_fragments operand) (by decide))
  | binary op left right type clamped => by
    rw [fragments, outline]
    cases hform : op.form with
    | between separator =>
      exact .cons_plain (f := .text "(") (by decide) ((outlined_fragments left).between
        (op.isPlainText_of_form hform) ((outlined_fragments right).append_plain (by decide)))
    | index computed =>
      dsimp only
      split_ifs
      · exact (outlined_fragments left).append (outlined_clampedIndex (outlined_fragments right))
      · exact (outlined_fragments left).append
          (.enclosed (by decide) (outlined_fragments right) (by decide))
    | member ofBlock => exact outlined_memberSelection (outlined_fragments left)
  | ternary condition whenTrue whenFalse type =>
    .cons_plain (f := .text "((") (by decide) ((outlined_fragments condition).between (by decide)
      ((outlined_fragments whenTrue).between (by decide)
        ((outlined_fragments whenFalse).append_plain (by decide))))
  | swizzle operand offsets type => by
    simpa [fragments, outline] using
      (outlined_fragments operand).append (outlined_swizzleSelection offsets)
  | call callee arguments type emulated => by
    rw [fragments, outline]
    exact (outlined_callee callee type emulated).append
      (.enclosed (by decide) (outlined_each arguments) (by decide))
  | prototype head => (outlined_head head).append (outlined_parameterList head)
  | invariantDeclaration v => .cons_plain (f := .text "invariant ") (by decide) (.plain trivial)
  | declaration [] => .fail _ _
  | declaration (first :: rest) => by
    simpa [fragments, outline] using (Outlined.of_plain (isPlain_layout first.var.type)).append
      ((Outlined.occurrence first.var.type).between (s := " ") (by decide)
        (outlined_declarators (first :: rest)))
  | block statements => .block (outlined_statements statements)
  | ifElse condition whenTrue whenFalse => by
    have helse : Outlined c
        (if whenFalse.isSome then .text "else\n" :: bodyFragments c whenFalse else [])
        (bodyOutline whenFalse) := by
      cases whenFalse with
      | none => exact .nil
      | some statements =>
        exact .cons_plain (f := .text "else\n") (by decide) (outlined_body (some statements))
    exact .cons_plain (f := .text "if (") (by decide) ((outlined_fragments condition).between
      (by decide) (.scope ((outlined_body whenTrue).append helse)))
  | switch selector body => by
    rw [fragments, outline]
    refine .cons_plain (f := .text "switch (") (by decide) ((outlined_fragments selector).append ?_)
    cases body with
    | none => exact .plain (f := .text ") \x7b\x7d\n") (by decide)
    | some statements =>
      exact .cons_plain (f := .text ") ") (by decide) (outlined_body (some statements))
  | case none => .plain (f := .text "default:\n") (by decide)
  | case (some node) => .enclosed (by decide) (outlined_fragments node) (by decide)
  | loop kind init condition step body true => by
    rw [fragments.eq_def, outline.eq_def]
    dsimp only
    cases CountingLoop.ofLoop kind init condition step with
    | error obstacle => exact .scope (.fail _ _)
    | ok l =>
      cases body with
      | none => exact .absent l
      | some statements => exact .copies l (outlined_statements statements)
  | loop .forLoop init condition step body false =>
    .scope (.cons_plain (f := .text "for (") (by decide) ((outlined_optional init).between
      (by decide) ((outlined_optional condition).between (by decide)
        ((outlined_optional step).between (by decide) (outlined_body body)))))
  | loop .whileLoop init condition step body false =>
    .scope (.cons_plain (f := .text "while (") (by decide)
      ((outlined_condition .whileLoop condition).between (by decide) (outlined_body body)))
  | loop .doWhileLoop init condition step body false =>
    .scope (.cons_plain (f := .text "do\n") (by decide) ((outlined_body body).between (by decide)
      ((outlined_condition .doWhileLoop condition).append_plain (by decide))))
  | branch kind value => by
    rw [fragments, outline]
    refine .cons_plain (f := .text kind.keyword) (by cases kind <;> decide) ?_
    split_ifs
    · exact outlined_optional value
    · exact .nil
  | function head body => by
    simpa [fragments, outline, Prototype.outline] using (outlined_head head).append
      (.scope ((outlined_parameterList head).append (.block (outlined_statements body))))

theorem outlined_each : (nodes : List Node) →
    Outlined c (Fragment.commaSeparated (eachFragments c nodes)) (eachOutline nodes)
  | [] => .nil
  | node :: rest =>
    (outlined_fragments node).commaSeparated_cons (outlined_each rest) fun h => by
      cases rest with
      | nil => rfl
      | cons => cases h

theorem outlined_statements : (nodes : List Node) →
    Outlined c (statementFragments c nodes) (eachOutline nodes)
  | [] => .nil
  | node :: rest => by
    rw [statementFragments, eachOutline]
    refine .append ?_ (outlined_statements rest)
    split_ifs
    · exact (outlined_fragments node).append_plain (by decide)
    · simpa using outlined_fragments node

theorem outlined_optional : (node : Option Node) →
    Outlined c (optionalFragments c node) (optionalOutline node)
  | none => .nil
  | some node => outlined_fragments node

theorem outlined_condition (kind : LoopKind) : (condition : Option Node) →
    Outlined c (conditionFragments c kind condition) (optionalOutline condition)
  | none => .fail _ _
  | some node => outlined_fragments node

theorem outlined_body : (body : Option (List Node)) →
    Outlined c (bodyFragments c body) (bodyOutline body)
  | none => .plain (f := .text "\x7b\n\x7d\n") (by decide)
  | some statements => .block (outlined_statements statements)

theorem outlined_declarators : (declarators : List Declarator) →
    Outlined c (Fragment.commaSeparated (declaratorFragments c declarators))
      (declaratorOutline declarators)
  | [] => .nil
  | { var, initializer } :: rest => by
    rw [declaratorFragments, declaratorOutline]
    refine Outlined.commaSeparated_cons ?_ (outlined_declarators rest) fun h => ?_
    · refine .cons_plain (f := .variableName var.name) trivial
        (.cons_plain (f := .text var.type.brackets) (isPlainText_brackets var.type) ?_)
      cases initializer with
      | none => exact .nil
      | some node => exact .cons_plain (f := .text " = ") (by decide) (outlined_fragments node)
    · cases rest with
      | nil => rfl
      | cons next rest => cases next; cases h

end

end Node

end

end ShaderText
