import ShaderText.Proofs.Memo
import ShaderText.Proofs.Operands

/-! # The order of operands

The text of a tree has a place for each of its operands. A `Template` is the list of its tokens with
the places left open, and `Fragment.Prints` says of fragments, which depend on the names of the
operands, that all names fill one and the same template, with its places in their order; or that
there is an error whatever the names. The rules for `Prints` follow the layout of fragments, so by
induction on the tree every operand has one place, where the structure of the tree has it
(`Node.prints_fragments`).

**So the text of a tree is made of pieces that do not depend on the names of the operands, with
these names between them, each once and in order (`Renderer.operands_in_order`).** This is so for
trees that are written as a whole (`Node.IsWrittenOnce`): they have no loop to unroll, whose body is
repeated, and no part that their kind of loop or branch is written without. -/

namespace ShaderText

/-! ### Templates -/

/-- Where names are not hashed, a name of the user is printed as it is. -/
theorem print_used (r : Renderer) {n : Name} (h : n.isInternal = false) :
    (Token.used n).print r id = n.text := by
  have hspelling : (r.variableSpelling n).text id = n.text := by
    unfold Renderer.variableSpelling Name.spelling
    rw [h, if_neg Bool.false_ne_true]
    split_ifs with hknows hempty
    · rfl
    · exact hempty.symm
    · rfl
  exact hspelling

/-- Tokens, with open places between them. -/
abbrev Template := List (Token ⊕ Nat)

namespace Template

/-- The token that stands at a place. -/
def fill (σ : Nat → Name) : Token ⊕ Nat → Token
  | .inl t => t
  | .inr i => .used (σ i)

/-- The open places, from front to back. -/
def places (p : Template) : List Nat := p.filterMap Sum.getRight?

@[simp] theorem places_append (p q : Template) : places (p ++ q) = places p ++ places q :=
  List.filterMap_append

@[simp] theorem places_map_inl (tokens : List Token) : places (tokens.map .inl) = [] := by
  unfold places
  rw [List.filterMap_map, List.filterMap_eq_nil_iff]
  exact fun _ _ => rfl

@[simp] theorem map_fill_map_inl (σ : Nat → Name) (tokens : List Token) :
    (tokens.map .inl).map (fill σ) = tokens := by
  rw [List.map_map]
  exact List.map_id tokens

/-- **A template has a text before its first place and one after each place.** They do not depend
on the names that are filled in. -/
theorem exists_gaps (r : Renderer) (p : Template) {k n : Nat}
    (hplaces : p.places = List.range' k n) :
    ∃ (lead : String) (gap : Nat → String),
      ∀ σ, (∀ i ∈ List.range' k n, (σ i).isInternal = false) →
        String.join ((p.map (fill σ)).map (Token.print r id)) =
          lead ++ String.join ((List.range' k n).map fun i => (σ i).text ++ gap i) := by
  induction p generalizing k n with
  | nil =>
    rw [← hplaces]
    exact ⟨"", fun _ => "", fun _ _ => rfl⟩
  | cons part rest ih =>
    cases part with
    | inl t =>
      obtain ⟨lead, gap, h⟩ := ih hplaces
      refine ⟨t.print r id ++ lead, gap, fun σ hσ => ?_⟩
      rw [List.map_cons, List.map_cons, String.join_cons, h σ hσ, String.append_assoc]
      rfl
    | inr i =>
      cases n with
      | zero => cases hplaces
      | succ n =>
        obtain ⟨rfl, hrest⟩ : i = k ∧ places rest = List.range' (k + 1) n :=
          List.cons.inj hplaces
        obtain ⟨lead, gap, h⟩ := ih hrest
        refine ⟨"", Function.update gap i lead, fun σ hσ => ?_⟩
        rw [List.range'_succ] at hσ ⊢
        obtain ⟨hfirst, hothers⟩ := List.forall_mem_cons.mp hσ
        -- the text after the first place is the lead of the rest
        have hgap : ∀ j ∈ List.range' (i + 1) n,
            (σ j).text ++ Function.update gap i lead j = (σ j).text ++ gap j := by
          intro j hj
          have hne : j ≠ i := by
            have := List.mem_range'_1.mp hj
            omega
          rw [Function.update_of_ne hne]
        rw [List.map_cons, List.map_cons, String.join_cons, h σ hothers, List.map_cons,
          String.join_cons, List.map_congr_left hgap, Function.update_self, String.empty_append,
          String.append_assoc]
        exact congrArg (· ++ _) (print_used r hfirst)

end Template

namespace Fragment

/-- Fragments that depend on the names of operands, and come to an error for all names or to one
template with the places `k`, `k + 1`, ... up to their number `n`. -/
def Prints (c : Config) (k n : Nat) (fs : (Nat → Name) → List Fragment) : Prop :=
  ∀ depth declared,
    (∀ σ, ∃ cause, traceAll c (fs σ) (fun _ => none) depth declared = .error cause) ∨
    ∃ (p : Template) (declared' : List StructId), p.places = List.range' k n ∧
      ∀ σ, traceAll c (fs σ) (fun _ => none) depth declared =
        .ok (p.map (Template.fill σ), declared')

variable {c : Config} {k m n : Nat} {fs gs : (Nat → Name) → List Fragment}

/-! ### Rules for the layout of fragments -/

/-- Fragments without operands. -/
theorem prints_const (fs : List Fragment) : Prints c k 0 fun _ => fs := by
  intro depth declared
  cases h : traceAll c fs (fun _ => none) depth declared with
  | error cause => exact .inl fun _ => ⟨cause, h⟩
  | ok x =>
    refine .inr ⟨x.1.map .inl, x.2, Template.places_map_inl x.1, fun σ => ?_⟩
    rw [Template.map_fill_map_inl]
    exact h

theorem Prints.append (h : Prints c k m fs) (h' : Prints c (k + m) n gs) :
    Prints c k (m + n) fun σ => fs σ ++ gs σ := by
  intro depth declared
  rcases h depth declared with herror | ⟨p, declared', hplaces, hp⟩
  · refine .inl fun σ => ?_
    obtain ⟨cause, hcause⟩ := herror σ
    exact ⟨cause, by rw [traceAll_append, Trace.seq, hcause]⟩
  · rcases h' depth declared' with herror | ⟨q, declared'', hplaces', hq⟩
    · refine .inl fun σ => ?_
      obtain ⟨cause, hcause⟩ := herror σ
      exact ⟨cause, by rw [traceAll_append, Trace.seq, hp]; simp only [hcause]⟩
    · refine .inr ⟨p ++ q, declared'', ?_, fun σ => ?_⟩
      · rw [Template.places_append, hplaces, hplaces', List.range'_append_1]
      · rw [traceAll_append, Trace.seq, hp]
        simp only [hq, List.map_append]

theorem Prints.append_const (h : Prints c k n fs) (gs : List Fragment) :
    Prints c k n fun σ => fs σ ++ gs :=
  h.append (prints_const gs)

theorem Prints.const_append (h : Prints c k n fs) (front : List Fragment) :
    Prints c k n fun σ => front ++ fs σ := by
  have hfront : Prints c k 0 fun _ => front := prints_const front
  have hboth : Prints c k (0 + n) fun σ => front ++ fs σ := hfront.append h
  rwa [Nat.zero_add] at hboth

theorem Prints.text_cons (h : Prints c k n fs) (s : String) :
    Prints c k n fun σ => .text s :: fs σ :=
  h.const_append [.text s]

/-- A text between two lists of fragments. -/
theorem Prints.append_text_cons (h : Prints c k m fs) (s : String) (h' : Prints c (k + m) n gs) :
    Prints c k (m + n) fun σ => fs σ ++ .text s :: gs σ :=
  h.append (h'.text_cons s)

/-- What cannot be written, whatever the names. -/
theorem prints_fail (cause : (Nat → Name) → RenderError) :
    Prints c k n fun σ => [.fail (cause σ)] :=
  fun _ _ => .inl fun σ => ⟨.error (cause σ), rfl⟩

/-- An operand at its place. -/
theorem prints_reference (id : SymbolId) : Prints c k 1 fun σ => [.reference id (σ k)] :=
  fun _ declared => .inr ⟨[.inr k], declared, rfl, fun _ => rfl⟩

theorem Prints.scope (h : Prints c k n fs) : Prints c k n fun σ => [.scope (fs σ)] := by
  intro depth declared
  simp only [traceAll_singleton, trace]
  exact h (depth + 1) declared

theorem Prints.block (h : Prints c k n fs) : Prints c k n fun σ => blockFragments (fs σ) :=
  (h.scope.append_const [.brace "\x7d\n"]).const_append [.brace "\x7b\n"]

end Fragment

/-! ### Trees that are written as a whole -/

namespace Node

mutual

/-- Trees each part of which is written once: no loop is unrolled, only `for` loops have an initial
statement and a step, and only `return` has a value. -/
def IsWrittenOnce : Node → Prop
  | symbol _ | constant .. | prototype _ | invariantDeclaration _ => True
  | unary _ operand _ _ => operand.IsWrittenOnce
  | binary _ left right _ _ => left.IsWrittenOnce ∧ right.IsWrittenOnce
  | ternary condition whenTrue whenFalse _ =>
    condition.IsWrittenOnce ∧ whenTrue.IsWrittenOnce ∧ whenFalse.IsWrittenOnce
  | swizzle operand _ _ => operand.IsWrittenOnce
  | call _ arguments _ _ => EachWrittenOnce arguments
  | declaration declarators => DeclaratorsWrittenOnce declarators
  | block statements => EachWrittenOnce statements
  | ifElse condition whenTrue whenFalse =>
    condition.IsWrittenOnce ∧ BodyWrittenOnce whenTrue ∧ BodyWrittenOnce whenFalse
  | switch selector body => selector.IsWrittenOnce ∧ BodyWrittenOnce body
  | case label => OptionWrittenOnce label
  | loop kind init condition step body unroll =>
    unroll = false ∧ (kind ≠ .forLoop → init = none ∧ step = none) ∧ OptionWrittenOnce init ∧
      OptionWrittenOnce condition ∧ OptionWrittenOnce step ∧ BodyWrittenOnce body
  | branch kind value => (kind ≠ .return → value = none) ∧ OptionWrittenOnce value
  | function _ body => EachWrittenOnce body

def EachWrittenOnce : List Node → Prop
  | [] => True
  | node :: rest => node.IsWrittenOnce ∧ EachWrittenOnce rest

def OptionWrittenOnce : Option Node → Prop
  | none => True
  | some node => node.IsWrittenOnce

def BodyWrittenOnce : Option (List Node) → Prop
  | none => True
  | some statements => EachWrittenOnce statements

def DeclaratorsWrittenOnce : List Declarator → Prop
  | [] => True
  | { initializer, .. } :: rest => OptionWrittenOnce initializer ∧ DeclaratorsWrittenOnce rest

end

/-! ### The places of a tree -/

section

variable {c : Config}

open Fragment

/-- The member that is selected does not depend on the names of operands. -/
theorem prints_memberSelection (ofBlock : Bool) {left right : Node} {k : Nat}
    (h : Prints c k left.operands.length fun σ => (left.assign σ k).fragments c) :
    Prints c k (left.operands.length + right.operands.length) fun σ =>
      memberSelection ofBlock (left.assign σ k)
        (right.assign σ (k + left.operands.length)) ((left.assign σ k).fragments c) := by
  simp only [memberSelection, asInt?_assign, type?_assign]
  cases hindex : right.asInt? with
  | none => exact prints_fail _
  | some index =>
    cases left.type? with
    | none => exact prints_fail _
    | some t =>
      rw [operands_of_asInt? hindex]
      exact h.append_const [.text ".", t.memberName ofBlock index]

theorem prints_clampedIndex {left right : Node} {k m : Nat}
    (h : Prints c (k + m) right.operands.length fun σ => (right.assign σ (k + m)).fragments c) :
    Prints c (k + m) right.operands.length fun σ =>
      clampedIndex c (left.assign σ k) ((right.assign σ (k + m)).fragments c) := by
  simp only [clampedIndex, type?_assign]
  cases left.type? with
  | none => exact prints_fail _
  | some t =>
    dsimp only
    split_ifs
    · exact prints_fail _
    · cases c.clamping with
      | byIntrinsic => exact (h.append_const [.text _]).text_cons _
      | byHelper => exact (h.append_const [.text _]).text_cons _

/-- The name of a declared variable and its initial value. -/
theorem prints_initializer (var : Variable) (initializer : Option Node) {k : Nat}
    (h : Prints c k (optionalOperands initializer).length fun σ =>
      optionalFragments c (assignOptional σ k initializer)) :
    Prints c k (optionalOperands initializer).length fun σ =>
      .variableName var.name :: .text var.type.brackets ::
        (if (assignOptional σ k initializer).isSome then
          .text " = " :: optionalFragments c (assignOptional σ k initializer) else []) := by
  simp only [isSome_assignOptional]
  cases initializer with
  | none => exact prints_const [.variableName var.name, .text var.type.brackets]
  | some node => exact h.const_append [.variableName var.name, .text var.type.brackets, .text " = "]

mutual

/-- **Every operand has one place in the text of a tree,** in the order of its structure. -/
theorem prints_fragments : (n : Node) → n.IsWrittenOnce → (k : Nat) →
    Prints c k n.operands.length fun σ => (n.assign σ k).fragments c
  | symbol v, _, _ => prints_reference v.id
  | constant .., _, _ | prototype _, _, _ | invariantDeclaration _, _, _ => prints_const _
  | unary op operand type emulated, hn, k => by
    have hoperand := prints_fragments operand hn k
    simp only [assign, fragments]
    cases op.form with
    | around before after => exact (hoperand.append_const [.text after]).text_cons before
    | call name =>
      exact (hoperand.const_append [.intrinsic name emulated, .text "("]).append_const [.text ")"]
  | binary op left right type clamped, ⟨hleft, hright⟩, k => by
    have hleft := prints_fragments left hleft k
    have hright := prints_fragments right hright (k + left.operands.length)
    simp only [assign, operands, fragments, List.length_append]
    cases op.form with
    | between separator =>
      exact (hleft.append_text_cons separator (hright.append_const [.text ")"])).text_cons "("
    | index computed =>
      dsimp only
      split_ifs
      · exact hleft.append (prints_clampedIndex hright)
      · exact hleft.append_text_cons "[" (hright.append_const [.text "]"])
    | member ofBlock => exact prints_memberSelection ofBlock hleft
  | ternary condition whenTrue whenFalse type, ⟨hcondition, htrue, hfalse⟩, k => by
    have hcondition := prints_fragments condition hcondition k
    have htrue := prints_fragments whenTrue htrue (k + condition.operands.length)
    have hfalse := prints_fragments whenFalse hfalse
      (k + condition.operands.length + whenTrue.operands.length)
    simp only [assign, operands, fragments, List.length_append]
    exact (hcondition.append_text_cons ") ? (" (htrue.append_text_cons ") : ("
      (hfalse.append_const [.text "))"]))).text_cons "(("
  | swizzle operand offsets type, hn, k =>
    (prints_fragments operand hn k).append_const (swizzleSelection offsets)
  | call callee arguments type emulated, hn, k =>
    (((prints_arguments arguments hn k).append_const [.text ")"]).text_cons "(").const_append
      (callee.fragments type emulated)
  | declaration [], _, _ => prints_const [.fail (.malformed .emptyDeclaration)]
  | declaration ({ var, initializer } :: rest), hn, k =>
    ((prints_declarators ({ var, initializer } :: rest) hn k).text_cons " ").const_append
      (var.type.layout ++ var.type.occurrence c)
  | block statements, hn, k => (prints_statements statements hn k).block
  | ifElse condition whenTrue whenFalse, ⟨hcondition, htrue, hfalse⟩, k => by
    have hcondition := prints_fragments condition hcondition k
    have htrue := prints_body whenTrue htrue (k + condition.operands.length)
    have hfalse := prints_body whenFalse hfalse
      (k + condition.operands.length + (bodyOperands whenTrue).length)
    simp only [assign, operands, fragments, List.length_append, isSome_assignBody]
    refine (hcondition.append ((Prints.scope ?_).const_append [.text ")\n"])).text_cons "if ("
    cases whenFalse with
    | none => exact htrue.append_const []
    | some statements => exact htrue.append_text_cons "else\n" hfalse
  | switch selector body, ⟨hselector, hbody⟩, k => by
    have hselector := prints_fragments selector hselector k
    have hbody := prints_body body hbody (k + selector.operands.length)
    simp only [assign, operands, fragments, List.length_append, isSome_assignBody]
    refine Prints.text_cons ?_ "switch ("
    cases body with
    | none => exact hselector.append_const [.text ") \x7b\x7d\n"]
    | some statements => exact hselector.append_text_cons ") " hbody
  | case none, _, _ => prints_const [.text "default:\n"]
  | case (some label), hn, k =>
    ((prints_fragments label hn k).append_const [.text "):\n"]).text_cons "case ("
  | loop .forLoop init condition step body unroll,
      ⟨hunroll, _, hinit, hcondition, hstep, hbody⟩, k => by
    subst hunroll
    have hinit := prints_optional init hinit k
    have hcondition := prints_optional condition hcondition (k + (optionalOperands init).length)
    have hstep := prints_optional step hstep
      (k + (optionalOperands init).length + (optionalOperands condition).length)
    have hbody := prints_body body hbody
      (k + (optionalOperands init).length + (optionalOperands condition).length +
        (optionalOperands step).length)
    simp only [assign, operands, fragments, List.length_append, Bool.false_eq_true, if_false]
    exact ((hinit.append_text_cons "; " (hcondition.append_text_cons "; "
      (hstep.append_text_cons ")\n" hbody))).text_cons "for (").scope
  | loop .whileLoop init condition step body unroll,
      ⟨hunroll, hnone, _, hcondition, _, hbody⟩, k => by
    obtain ⟨rfl, rfl⟩ := hnone (by decide)
    subst hunroll
    have hcondition := prints_condition .whileLoop condition hcondition k
    have hbody := prints_body body hbody (k + (optionalOperands condition).length)
    simp only [assign, operands, optionalOperands, fragments, List.length_append, List.length_nil,
      Nat.add_zero, Nat.zero_add, Bool.false_eq_true, if_false]
    exact ((hcondition.append_text_cons ")\n" hbody).text_cons "while (").scope
  | loop .doWhileLoop init condition step body unroll,
      ⟨hunroll, hnone, _, hcondition, _, hbody⟩, k => by
    obtain ⟨rfl, rfl⟩ := hnone (by decide)
    subst hunroll
    have hbody := prints_body body hbody k
    have hcondition := prints_condition .doWhileLoop condition hcondition
      (k + (bodyOperands body).length)
    simp only [assign, operands, optionalOperands, fragments, List.length_append, List.length_nil,
      Nat.add_zero, Nat.zero_add, Bool.false_eq_true, if_false]
    exact ((hbody.append_text_cons "while (" (hcondition.append_const [.text ");\n"])).text_cons
      "do\n").scope
  | branch kind value, ⟨hvalue, hn⟩, k => by
    have hoptional := prints_optional value hn k
    simp only [assign, operands, fragments]
    refine Prints.text_cons ?_ kind.keyword
    by_cases hkind : kind = .return
    · simpa only [if_pos hkind] using hoptional
    · simp only [if_neg hkind, hvalue hkind]
      exact prints_const []
  | function head body, hn, k =>
    (((prints_statements body hn k).block.const_append (head.parameterList c)).scope).const_append
      (head.head c)

theorem prints_arguments : (nodes : List Node) → EachWrittenOnce nodes → (k : Nat) →
    Prints c k (eachOperands nodes).length fun σ =>
      Fragment.commaSeparated (eachFragments c (assignEach σ k nodes))
  | [], _, _ => prints_const []
  | [node], ⟨hnode, _⟩, k => by
    have hnode := prints_fragments node hnode k
    simpa [assignEach, eachFragments, eachOperands] using hnode
  | node :: next :: rest, ⟨hnode, hrest⟩, k => by
    have hnode := prints_fragments node hnode k
    have hrest := prints_arguments (next :: rest) hrest (k + node.operands.length)
    rw [eachOperands, List.length_append]
    simp only [assignEach, eachFragments, Fragment.commaSeparated_cons _ (List.cons_ne_nil _ _)]
    exact hnode.append_text_cons ", " hrest

theorem prints_statements : (nodes : List Node) → EachWrittenOnce nodes → (k : Nat) →
    Prints c k (eachOperands nodes).length fun σ => statementFragments c (assignEach σ k nodes)
  | [], _, _ => prints_const []
  | node :: rest, ⟨hnode, hrest⟩, k => by
    have hnode := prints_fragments node hnode k
    have hrest := prints_statements rest hrest (k + node.operands.length)
    simp only [assignEach, statementFragments, isSimpleStatement_assign, eachOperands,
      List.length_append]
    exact (hnode.append_const _).append hrest

theorem prints_optional : (n : Option Node) → OptionWrittenOnce n → (k : Nat) →
    Prints c k (optionalOperands n).length fun σ => optionalFragments c (assignOptional σ k n)
  | none, _, _ => prints_const []
  | some node, hn, k => prints_fragments node hn k

theorem prints_condition (kind : LoopKind) : (n : Option Node) → OptionWrittenOnce n → (k : Nat) →
    Prints c k (optionalOperands n).length fun σ =>
      conditionFragments c kind (assignOptional σ k n)
  | none, _, _ => prints_const [.fail (.malformed (.conditionlessLoop kind))]
  | some node, hn, k => prints_fragments node hn k

theorem prints_body : (body : Option (List Node)) → BodyWrittenOnce body → (k : Nat) →
    Prints c k (bodyOperands body).length fun σ => bodyFragments c (assignBody σ k body)
  | none, _, _ => prints_const [.text "\x7b\n\x7d\n"]
  | some statements, hn, k => (prints_statements statements hn k).block

theorem prints_declarators : (list : List Declarator) → DeclaratorsWrittenOnce list → (k : Nat) →
    Prints c k (declaratorOperands list).length fun σ =>
      Fragment.commaSeparated (declaratorFragments c (assignDeclarators σ k list))
  | [], _, _ => prints_const []
  | [{ var, initializer }], ⟨hinitializer, _⟩, k => by
    have hfirst := prints_initializer var initializer (prints_optional initializer hinitializer k)
    simpa [assignDeclarators, declaratorFragments, declaratorOperands] using hfirst
  | { var, initializer } :: { var := next, initializer := other } :: rest, ⟨hinitializer, hrest⟩,
      k => by
    have hfirst := prints_initializer var initializer (prints_optional initializer hinitializer k)
    have hrest := prints_declarators ({ var := next, initializer := other } :: rest) hrest
      (k + (optionalOperands initializer).length)
    rw [declaratorOperands, List.length_append]
    exact hfirst.append_text_cons ", " hrest

end

end

end Node

namespace Renderer

open Node

/-- **Every operand is printed once, in the order of the structure of the tree.** The names of the
operands can be assigned at will, and nothing else of the tree is touched by that. Where names are
not hashed, a tree that is written as a whole cannot be written, whatever names its operands have;
or its text has the names of the operands in their order, and between them texts that do not depend
on these names. -/
theorem operands_in_order {r : Renderer} (hhash : r.config.hash? = none) (seed : NameTable)
    {root : Node} (h : root.IsWrittenOnce) :
    (∀ σ, (root.assign σ 0).operands.map Variable.name =
      (List.range root.operands.length).map σ) ∧
    (∀ σ, root.operands.map Variable.name = (List.range root.operands.length).map σ →
      root.assign σ 0 = root) ∧
    ∃ g : Nat → String,
      (∀ σ, (∀ i < root.operands.length, (σ i).isInternal = false) →
        ∃ cause, r.renderFrom seed (root.assign σ 0) = .error cause) ∨
      (∀ σ, (∀ i < root.operands.length, (σ i).isInternal = false) →
        (r.renderFrom seed (root.assign σ 0)).map Rendered.source =
          .ok (g 0 ++ String.join ((List.range root.operands.length).map fun i =>
            (σ i).text ++ g (i + 1)))) := by
  have hrange : ∀ σ, placeNames σ 0 root.operands.length =
      (List.range root.operands.length).map σ := fun σ => by
    rw [placeNames, List.range_eq_range']
  refine ⟨fun σ => (map_name_operands_assign σ root 0).trans (hrange σ),
    fun σ hσ => assign_eq_self root (hσ.trans (hrange σ).symm), ?_⟩
  rcases prints_fragments (c := r.config) root h 0 0 [] with herror | ⟨p, declared, hplaces, hp⟩
  · refine ⟨fun _ => "", .inl fun σ _ => ?_⟩
    obtain ⟨cause, hcause⟩ := herror σ
    refine ⟨r.constantError seed cause, ?_⟩
    rw [renderFrom_eq_spellAll, tokens, Node.trace, hcause]
    rfl
  · obtain ⟨lead, gap, hgaps⟩ := p.exists_gaps r hplaces
    refine ⟨fun i => i.casesOn lead gap, .inr fun σ hσ => ?_⟩
    have hspelling : r.userSpelling seed = id := by
      unfold userSpelling
      rw [hhash]
      rfl
    have hnames : ∀ i ∈ List.range' 0 root.operands.length, (σ i).isInternal = false := by
      rw [← List.range_eq_range']
      exact fun i hi => hσ i (List.mem_range.mp hi)
    have htokens : r.tokens (root.assign σ 0) = .ok (p.map (Template.fill σ)) := by
      rw [tokens, Node.trace, hp]
      rfl
    rw [source_renderFrom, hspelling, renderPlain, htokens]
    dsimp only
    rw [hgaps σ hnames, List.range_eq_range']
    rfl

/-- `do { total = total + step; } while (total < limit);` -/
def accumulation : Node :=
  let float (id : Nat) (name : String) : Node :=
    .symbol { id := ⟨id⟩, name := { text := name }, type := .scalar .float }
  .loop .doWhileLoop none
    (some (.binary .less (float 0 "total") (float 2 "limit") (.scalar .bool) false)) none
    (some [.binary .assign (float 0 "total")
      (.binary .add (float 0 "total") (float 1 "step") (.scalar .float) false)
      (.scalar .float) false]) false

/-- The body of a loop is before its condition, in the tree and in the text. -/
theorem operands_in_order_accumulation :
    accumulation.IsWrittenOnce ∧
      accumulation.operands.map (·.name.text) = ["total", "total", "step", "total", "limit"] ∧
      ∃ g : Nat → String, ∀ σ, (∀ i < 5, (σ i).isInternal = false) →
        (({} : Renderer).renderFrom .empty (accumulation.assign σ 0)).map Rendered.source =
          .ok (g 0 ++ String.join ((List.range 5).map fun i => (σ i).text ++ g (i + 1))) := by
  have hwritten : accumulation.IsWrittenOnce := by
    simp [accumulation, IsWrittenOnce, OptionWrittenOnce, BodyWrittenOnce, EachWrittenOnce]
  refine ⟨hwritten, by rfl, ?_⟩
  obtain ⟨-, -, g, hfails | hsucceeds⟩ :=
    operands_in_order (r := {}) rfl .empty hwritten
  · obtain ⟨cause, hcause⟩ := hfails (fun _ => { text := "x" }) fun _ _ => rfl
    cases hcause
  · exact ⟨g, hsucceeds⟩

end Renderer

end ShaderText
