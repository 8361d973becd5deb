import ShaderText.Proofs.Bindings
import ShaderText.Proofs.Unrollable
import ShaderText.Proofs.Unrolling

/-! # Substitution: the copies of a loop as trees of their own

While a loop is unrolled its counter stands for a value. The same text comes from the tree in which
every use of the counter is replaced by that value as a constant (`Node.substitute`), rendered
without the counter: `Node.sameTrace_substitute`, by induction on the tree. So a loop is written as
its body with one value after another substituted (`CountingLoop.write_unrolled_eq_substituted`).

The value takes the place of a variable everywhere but in these places, where the two are told apart
(`Node.AllowsLiteral`): a use at another type than scalar `int`, the position of a member, an
`invariant` declaration, and the header of a loop that is unrolled itself, which is read and not
written. An inner loop with the same counter hides the outer one, and is left as it is. -/

namespace ShaderText

/-! ### Substituting a value for a variable -/

/-- A value that a signed constant can have. -/
def IsSigned (value : Int) : Prop :=
  Int32.minValue.toInt ≤ value ∧ value ≤ Int32.maxValue.toInt

/-- The scalar `int` constant of a value. -/
def Node.integer (value : Int) : Node := .constant (.scalar .int) [.int (Int32.ofInt value)]

/-- The variable of an initializer that declares one variable, which an unrolled loop counts
with. -/
def Node.index? : Option Node → Option SymbolId
  | some (.declaration [{ var, .. }]) => some var.id
  | _ => none

namespace Node

mutual

/-- The tree with a value for every use of a variable, except in unrolled loops that count with it
themselves. -/
def substitute (id : SymbolId) (value : Int) : Node → Node
  | symbol v => if v.id = id then integer value else symbol v
  | constant type values => constant type values
  | unary op operand type emulated => unary op (operand.substitute id value) type emulated
  | binary op left right type clamped =>
    binary op (left.substitute id value) (right.substitute id value) type clamped
  | ternary condition whenTrue whenFalse type =>
    ternary (condition.substitute id value) (whenTrue.substitute id value)
      (whenFalse.substitute id value) type
  | swizzle operand offsets type => swizzle (operand.substitute id value) offsets type
  | call callee arguments type emulated =>
    call callee (substituteAll id value arguments) type emulated
  | prototype head => prototype head
  | invariantDeclaration v => invariantDeclaration v
  | declaration declarators => declaration (substituteDeclarators id value declarators)
  | block statements => block (substituteAll id value statements)
  | ifElse condition whenTrue whenFalse =>
    ifElse (condition.substitute id value) (substituteBody id value whenTrue)
      (substituteBody id value whenFalse)
  | switch selector body => switch (selector.substitute id value) (substituteBody id value body)
  | case label => case (substituteOptional id value label)
  | loop kind init condition step body unroll =>
    if unroll && index? init == some id then loop kind init condition step body unroll
    else
      loop kind (substituteOptional id value init) (substituteOptional id value condition)
        (substituteOptional id value step) (substituteBody id value body) unroll
  | branch kind result => branch kind (substituteOptional id value result)
  | function head body => function head (substituteAll id value body)

def substituteAll (id : SymbolId) (value : Int) : List Node → List Node
  | [] => []
  | node :: rest => node.substitute id value :: substituteAll id value rest

def substituteOptional (id : SymbolId) (value : Int) : Option Node → Option Node
  | none => none
  | some node => some (node.substitute id value)

def substituteBody (id : SymbolId) (value : Int) : Option (List Node) → Option (List Node)
  | none => none
  | some statements => some (substituteAll id value statements)

def substituteDeclarators (id : SymbolId) (value : Int) : List Declarator → List Declarator
  | [] => []
  | { var, initializer } :: rest =>
    { var, initializer := substituteOptional id value initializer } ::
      substituteDeclarators id value rest

end

/-! ### Trees without a variable -/

mutual

/-- No use of a variable is in the tree. -/
def Avoids (id : SymbolId) : Node → Prop
  | symbol v => v.id ≠ id
  | constant .. | prototype _ | invariantDeclaration _ => True
  | unary _ operand _ _ => operand.Avoids id
  | binary _ left right _ _ => left.Avoids id ∧ right.Avoids id
  | ternary condition whenTrue whenFalse _ =>
    condition.Avoids id ∧ whenTrue.Avoids id ∧ whenFalse.Avoids id
  | swizzle operand _ _ => operand.Avoids id
  | call _ arguments _ _ => AllAvoid id arguments
  | declaration declarators => DeclaratorsAvoid id declarators
  | block statements => AllAvoid id statements
  | ifElse condition whenTrue whenFalse =>
    condition.Avoids id ∧ BodyAvoids id whenTrue ∧ BodyAvoids id whenFalse
  | switch selector body => selector.Avoids id ∧ BodyAvoids id body
  | case label => OptionalAvoids id label
  | loop _ init condition step body _ =>
    OptionalAvoids id init ∧ OptionalAvoids id condition ∧ OptionalAvoids id step ∧
      BodyAvoids id body
  | branch _ result => OptionalAvoids id result
  | function _ body => AllAvoid id body

def AllAvoid (id : SymbolId) : List Node → Prop
  | [] => True
  | node :: rest => node.Avoids id ∧ AllAvoid id rest

def OptionalAvoids (id : SymbolId) : Option Node → Prop
  | none => True
  | some node => node.Avoids id

def BodyAvoids (id : SymbolId) : Option (List Node) → Prop
  | none => True
  | some statements => AllAvoid id statements

def DeclaratorsAvoid (id : SymbolId) : List Declarator → Prop
  | [] => True
  | { initializer, .. } :: rest => OptionalAvoids id initializer ∧ DeclaratorsAvoid id rest

end

mutual

theorem substitute_of_avoids {id : SymbolId} (value : Int) :
    (n : Node) → n.Avoids id → n.substitute id value = n
  | symbol v, h => by rw [substitute, if_neg h]
  | constant .., _ | prototype _, _ | invariantDeclaration _, _ => by rw [substitute]
  | unary _ operand _ _, h | swizzle operand _ _, h => by
    rw [substitute, substitute_of_avoids value operand h]
  | binary _ left right _ _, h => by
    rw [substitute, substitute_of_avoids value left h.1, substitute_of_avoids value right h.2]
  | ternary condition whenTrue whenFalse _, h => by
    rw [substitute, substitute_of_avoids value condition h.1,
      substitute_of_avoids value whenTrue h.2.1, substitute_of_avoids value whenFalse h.2.2]
  | call _ arguments _ _, h => by rw [substitute, substituteAll_of_avoids value arguments h]
  | declaration declarators, h => by
    rw [substitute, substituteDeclarators_of_avoids value declarators h]
  | block statements, h => by rw [substitute, substituteAll_of_avoids value statements h]
  | ifElse condition whenTrue whenFalse, h => by
    rw [substitute, substitute_of_avoids value condition h.1,
      substituteBody_of_avoids value whenTrue h.2.1, substituteBody_of_avoids value whenFalse h.2.2]
  | switch selector body, h => by
    rw [substitute, substitute_of_avoids value selector h.1,
      substituteBody_of_avoids value body h.2]
  | case label, h => by rw [substitute, substituteOptional_of_avoids value label h]
  | loop _ init condition step body _, h => by
    rw [substitute, substituteOptional_of_avoids value init h.1,
      substituteOptional_of_avoids value condition h.2.1,
      substituteOptional_of_avoids value step h.2.2.1, substituteBody_of_avoids value body h.2.2.2,
      ite_self]
  | branch _ result, h => by rw [substitute, substituteOptional_of_avoids value result h]
  | function _ body, h => by rw [substitute, substituteAll_of_avoids value body h]

theorem substituteAll_of_avoids {id : SymbolId} (value : Int) :
    (nodes : List Node) → AllAvoid id nodes → substituteAll id value nodes = nodes
  | [], _ => rfl
  | node :: rest, h => by
    rw [substituteAll, substitute_of_avoids value node h.1, substituteAll_of_avoids value rest h.2]

theorem substituteOptional_of_avoids {id : SymbolId} (value : Int) :
    (n : Option Node) → OptionalAvoids id n → substituteOptional id value n = n
  | none, _ => rfl
  | some node, h => by rw [substituteOptional, substitute_of_avoids value node h]

theorem substituteBody_of_avoids {id : SymbolId} (value : Int) :
    (body : Option (List Node)) → BodyAvoids id body → substituteBody id value body = body
  | none, _ => rfl
  | some statements, h => by rw [substituteBody, substituteAll_of_avoids value statements h]

theorem substituteDeclarators_of_avoids {id : SymbolId} (value : Int) :
    (declarators : List Declarator) → DeclaratorsAvoid id declarators →
      substituteDeclarators id value declarators = declarators
  | [], _ => rfl
  | { initializer, .. } :: rest, h => by
    rw [substituteDeclarators, substituteOptional_of_avoids value initializer h.1,
      substituteDeclarators_of_avoids value rest h.2]

end

end Node

/-! ### Places that a value may take -/

/-- The type of a single signed integer. -/
def ShaderType.IsScalarInt (t : ShaderType) : Prop :=
  t.basic = .int ∧ t.cols = 1 ∧ t.rows = 1 ∧ t.arraySize = none ∧
    t.structDef = none ∧ t.blockDef = none

variable {c : Config} {id : SymbolId} {value : Int}

namespace Node

mutual

/-- A value may take the place of a variable in the tree. -/
def AllowsLiteral (id : SymbolId) : Node → Prop
  | symbol v => v.id = id → v.type.IsScalarInt
  | constant .. | prototype _ => True
  | unary _ operand _ _ => operand.AllowsLiteral id
  | binary op left right _ _ =>
    left.AllowsLiteral id ∧ right.AllowsLiteral id ∧
      ∀ ofBlock, op.form = .member ofBlock → right.refersTo id = false
  | ternary condition whenTrue whenFalse _ =>
    condition.AllowsLiteral id ∧ whenTrue.AllowsLiteral id ∧ whenFalse.AllowsLiteral id
  | swizzle operand _ _ => operand.AllowsLiteral id
  | call _ arguments _ _ => AllAllowLiteral id arguments
  | invariantDeclaration v => v.id ≠ id
  | declaration declarators => DeclaratorsAllowLiteral id declarators
  | block statements => AllAllowLiteral id statements
  | ifElse condition whenTrue whenFalse =>
    condition.AllowsLiteral id ∧ BodyAllowsLiteral id whenTrue ∧ BodyAllowsLiteral id whenFalse
  | switch selector body => selector.AllowsLiteral id ∧ BodyAllowsLiteral id body
  | case label => OptionalAllowsLiteral id label
  | loop _ init condition step body unroll =>
    if unroll then
      ∀ index, index? init = some index → index ≠ id →
        (OptionalAvoids id init ∧ OptionalAvoids id condition ∧ OptionalAvoids id step) ∧
          BodyAllowsLiteral id body
    else
      OptionalAllowsLiteral id init ∧ OptionalAllowsLiteral id condition ∧
        OptionalAllowsLiteral id step ∧ BodyAllowsLiteral id body
  | branch _ result => OptionalAllowsLiteral id result
  | function _ body => AllAllowLiteral id body

def AllAllowLiteral (id : SymbolId) : List Node → Prop
  | [] => True
  | node :: rest => node.AllowsLiteral id ∧ AllAllowLiteral id rest

def OptionalAllowsLiteral (id : SymbolId) : Option Node → Prop
  | none => True
  | some node => node.AllowsLiteral id

def BodyAllowsLiteral (id : SymbolId) : Option (List Node) → Prop
  | none => True
  | some statements => AllAllowLiteral id statements

def DeclaratorsAllowLiteral (id : SymbolId) : List Declarator → Prop
  | [] => True
  | { initializer, .. } :: rest =>
    OptionalAllowsLiteral id initializer ∧ DeclaratorsAllowLiteral id rest

end

/-! ### What is read of a tree -/

@[simp] theorem isSome_substituteOptional (n : Option Node) :
    (substituteOptional id value n).isSome = n.isSome := by cases n <;> rfl

@[simp] theorem isSome_substituteBody (body : Option (List Node)) :
    (substituteBody id value body).isSome = body.isSome := by cases body <;> rfl

theorem isSimpleStatement_substitute (n : Node) :
    (n.substitute id value).isSimpleStatement = n.isSimpleStatement := by
  cases n <;> rw [substitute] <;> (try split_ifs) <;> rfl

/-- What is read of a tree without writing it stays, unless the whole tree is the variable. -/
theorem read_substitute {n : Node} (h : n.refersTo id = false) :
    (n.substitute id value).type? = n.type? ∧
      (n.substitute id value).description = n.description ∧
        (n.substitute id value).asInt? = n.asInt? := by
  cases n with
  | symbol v => rw [substitute, if_neg (by simpa [refersTo] using h)]; exact ⟨rfl, rfl, rfl⟩
  | loop => rw [substitute]; split_ifs <;> exact ⟨rfl, rfl, rfl⟩
  | _ => simp [substitute, type?, description, asInt?]

theorem substitute_of_refersTo {n : Node} (h : n.refersTo id = true) (value : Int) :
    ∃ v, n = .symbol v ∧ v.id = id ∧ n.substitute id value = integer value := by
  obtain ⟨v, rfl, hv⟩ := CountingLoop.eq_symbol_of_refersTo h
  exact ⟨v, rfl, hv, by rw [substitute, if_pos hv]⟩

end Node

/-- A scalar has no members. -/
theorem ShaderType.IsScalarInt.memberName {t : ShaderType} (h : t.IsScalarInt) (ofBlock : Bool)
    (index : Int) : t.memberName ofBlock index = (scalar .int).memberName ofBlock index := by
  obtain ⟨-, -, -, -, hstruct, hblock⟩ := h
  unfold ShaderType.memberName
  rw [hstruct, hblock]
  rfl

namespace Node

theorem memberSelection_substitute {ofBlock : Bool} {owner position : Node}
    (howner : owner.AllowsLiteral id) (hposition : position.refersTo id = false)
    (operand : List Fragment) :
    memberSelection ofBlock (owner.substitute id value) (position.substitute id value) operand =
      memberSelection ofBlock owner position operand := by
  unfold memberSelection
  rw [(read_substitute hposition).2.2]
  cases hrefers : owner.refersTo id with
  | false => rw [(read_substitute hrefers).1]
  | true =>
    obtain ⟨v, rfl, hv, hsubstitute⟩ := substitute_of_refersTo hrefers value
    have htype : v.type.IsScalarInt := howner hv
    rw [hsubstitute]
    cases position.asInt? with
    | none => rfl
    | some index => simp only [integer, type?, htype.memberName]

theorem clampedIndex_substitute {indexed : Node} (h : indexed.AllowsLiteral id)
    (index : List Fragment) :
    clampedIndex c (indexed.substitute id value) index = clampedIndex c indexed index := by
  unfold clampedIndex
  cases hrefers : indexed.refersTo id with
  | false => rw [(read_substitute hrefers).1, (read_substitute hrefers).2.1]
  | true =>
    obtain ⟨v, rfl, hv, hsubstitute⟩ := substitute_of_refersTo hrefers value
    obtain ⟨-, hcols, -, hsize, -, -⟩ : v.type.IsScalarInt := h hv
    have hlast : v.type.lastIndex = (ShaderType.scalar .int).lastIndex := by
      simp only [ShaderType.lastIndex, hcols, hsize, ShaderType.scalar]
    simp [hsubstitute, integer, type?, hsize, hlast, ShaderType.scalar]

end Node

namespace Fragment.SameTrace

variable {b b' : Bindings} {fs fs' : List Fragment}

theorem memberSelection (ofBlock : Bool) (owner position : Node) (h : SameTrace c b b' fs fs') :
    SameTrace c b b' (memberSelection ofBlock owner position fs)
      (memberSelection ofBlock owner position fs') := by
  unfold ShaderText.memberSelection
  cases position.asInt? with
  | none => exact fun _ => rfl
  | some index =>
    cases owner.type? with
    | none => exact fun _ => rfl
    | some t => exact h.append (of_isClosed (by simp [isClosed_holdsOfNames.memberName]))

theorem clampedIndex (indexed : Node) (h : SameTrace c b b' fs fs') :
    SameTrace c b b' (clampedIndex c indexed fs) (clampedIndex c indexed fs') := by
  unfold ShaderText.clampedIndex
  cases indexed.type? with
  | none => exact fun _ => rfl
  | some t =>
    dsimp only
    split_ifs
    · exact fun _ => rfl
    · cases c.clamping with
      | _ => exact (h.append (of_isClosed (by simp))).text _

theorem block (h : SameTrace c b b' fs fs') :
    SameTrace c b b' (blockFragments fs) (blockFragments fs') :=
  .cons (fun _ => rfl) ((scope h).append (fun _ => rfl))

/-- The loop around copies that come to the same. -/
theorem unrolledLoop (l : CountingLoop)
    (h : ∀ value : Int, SameTrace c (Function.update b l.var.id (some value))
      (Function.update b' l.var.id (some value)) fs fs') :
    SameTrace c b b' (l.header ++ [.unrolled l.counter l.iterations fs, .text "\x7d\n"])
      (l.header ++ [.unrolled l.counter l.iterations fs', .text "\x7d\n"]) :=
  (of_isClosed (isClosed_holdsOfNames.loopHeader l)).append
    ((unrolled h).append (of_isClosed (by simp)))

end Fragment.SameTrace

/-! ### The substitution lemma -/

namespace CountingLoop

/-- A loop that is recognised counts with the variable of its initializer. -/
theorem index?_of_ofLoop {kind : LoopKind} {init condition step : Option Node} {l : CountingLoop}
    (h : ofLoop kind init condition step = .ok l) : Node.index? init = some l.var.id := by
  obtain ⟨first, rfl⟩ := exists_init_of_ofLoop h
  rfl

theorem ofLoop_of_declared {kind : LoopKind} {init : Option Node} {obstacle : UnrollObstacle}
    (h : declared kind init = .error obstacle) (condition step : Option Node) :
    ofLoop kind init condition step = .error obstacle := by
  unfold ofLoop
  rw [h]
  rfl

/-- Without an initializer of one variable there is no counting loop, whatever is substituted. -/
theorem declared_of_index? {init : Option Node} (h : Node.index? init = none) (id : SymbolId)
    (value : Int) (kind : LoopKind) :
    ∃ obstacle, declared kind init = .error obstacle ∧
      declared kind (Node.substituteOptional id value init) = .error obstacle := by
  by_cases hkind : kind = .forLoop
  · subst hkind
    cases init with
    | none => exact ⟨_, rfl, rfl⟩
    | some node =>
      cases node with
      | declaration declarators =>
        match declarators, h with
        | [], _ => exact ⟨_, rfl, rfl⟩
        | [⟨_, _⟩], h => cases h
        | ⟨_, _⟩ :: ⟨_, _⟩ :: _, _ => exact ⟨.notOneVariable, rfl, rfl⟩
      | symbol v =>
        refine ⟨.initNotDeclaration, rfl, ?_⟩
        rw [Node.substituteOptional, Node.substitute]
        split_ifs <;> rfl
      | loop =>
        refine ⟨.initNotDeclaration, rfl, ?_⟩
        rw [Node.substituteOptional, Node.substitute]
        split_ifs <;> rfl
      | _ => exact ⟨_, rfl, rfl⟩
  · exact ⟨.notForLoop, if_pos hkind, if_pos hkind⟩

end CountingLoop

/-- The constant of a value is its digits. -/
theorem Node.trace_integer (hvalue : IsSigned value)
    (bindings : Bindings) (depth : Nat) :
    Fragment.traceAll c ((integer value).fragments c) bindings depth =
      .emit [.text value.repr] := by
  have hconstant : (Int32.ofInt value).toInt = value :=
    Int32.toInt_ofInt_of_le hvalue.1 (Int.lt_add_one_of_le hvalue.2)
  have hscalar : ShaderType.constantTrace c (.scalar .int) [.int (Int32.ofInt value)] =
      .emit [.text (String.join [(Int32.ofInt value).toInt.repr])] := rfl
  rw [integer, fragments, Fragment.traceAll_singleton, Fragment.trace, hscalar, hconstant,
    String.join_cons, String.join_nil, String.append_empty]

namespace Node

open Fragment (SameTrace isClosed_holdsOfNames)

mutual

/-- **To substitute a value for a variable is to bind the variable to it.** -/
theorem sameTrace_substitute (hvalue : IsSigned value) :
    (n : Node) → n.AllowsLiteral id → (b : Bindings) →
      SameTrace c b (Function.update b id (some value)) ((n.substitute id value).fragments c)
        (n.fragments c)
  | symbol v, _, b => by
    rw [substitute]
    split_ifs with hv
    · intro depth
      rw [trace_integer hvalue, fragments, Fragment.traceAll_singleton, Fragment.trace, hv,
        Function.update_self]
    · refine SameTrace.singleton fun depth => ?_
      rw [Fragment.trace, Fragment.trace, Function.update_of_ne hv]
  | constant .., _, b => by
    rw [substitute, fragments]
    exact fun _ => rfl
  | unary op operand type emulated, h, b => by
    have hoperand := sameTrace_substitute hvalue operand h b
    rw [substitute, fragments, fragments]
    cases op.form with
    | around before after => exact (hoperand.append (.of_isClosed (by simp))).text before
    | call name =>
      exact ((SameTrace.of_isClosed (by simp)).append hoperand).append (.of_isClosed (by simp))
  | binary op left right type clamped, h, b => by
    have hleft := sameTrace_substitute hvalue left h.1 b
    have hright := sameTrace_substitute hvalue right h.2.1 b
    rw [substitute, fragments, fragments]
    cases hform : op.form with
    | between separator =>
      exact (hleft.append ((hright.append (.of_isClosed (by simp))).text separator)).text "("
    | index computed =>
      dsimp only
      split_ifs
      · rw [clampedIndex_substitute h.1]
        exact hleft.append (hright.clampedIndex left)
      · exact hleft.append ((hright.append (.of_isClosed (by simp))).text "[")
    | member ofBlock =>
      dsimp only
      rw [memberSelection_substitute h.1 (h.2.2 ofBlock hform)]
      exact hleft.memberSelection ofBlock left right
  | ternary condition whenTrue whenFalse type, h, b => by
    have hcondition := sameTrace_substitute hvalue condition h.1 b
    have htrue := sameTrace_substitute hvalue whenTrue h.2.1 b
    have hfalse := sameTrace_substitute hvalue whenFalse h.2.2 b
    rw [substitute, fragments, fragments]
    exact (hcondition.append ((htrue.append ((hfalse.append
      (.of_isClosed (by simp))).text ") : (")).text ") ? (")).text "(("
  | swizzle operand offsets type, h, b => by
    rw [substitute, fragments, fragments]
    exact (sameTrace_substitute hvalue operand h b).append
      (.of_isClosed (isClosed_holdsOfNames.swizzleSelection offsets))
  | call callee arguments type emulated, h, b => by
    have harguments := SameTrace.commaSeparated (eachSameTrace_substitute hvalue arguments h b)
    rw [substitute, fragments, fragments]
    exact (SameTrace.of_isClosed
      (isClosed_holdsOfNames.calleeFragments type emulated callee)).append
        ((harguments.append (.of_isClosed (by simp))).text "(")
  | prototype head, _, b => by
    rw [substitute, fragments]
    exact (SameTrace.of_isClosed (isClosed_holdsOfNames.head c head)).append
      (.of_isClosed (isClosed_holdsOfNames.parameterList c head))
  | invariantDeclaration v, h, b => by
    rw [substitute, fragments]
    refine SameTrace.text _ (.singleton fun depth => ?_)
    rw [Fragment.trace, Fragment.trace, Function.update_of_ne h]
  | declaration [], _, b => by
    rw [substitute, substituteDeclarators]
    exact fun _ => rfl
  | declaration ({ var, initializer } :: rest), h, b => by
    have hdeclarators := SameTrace.commaSeparated
      (declaratorsSameTrace_substitute hvalue ({ var, initializer } :: rest) h b)
    rw [substituteDeclarators] at hdeclarators
    rw [substitute, substituteDeclarators, fragments, fragments]
    exact ((SameTrace.of_isClosed (isClosed_holdsOfNames.layout var.type)).append
      (.of_isClosed (isClosed_holdsOfNames.occurrence c var.type))).append (hdeclarators.text " ")
  | block statements, h, b => by
    rw [substitute, fragments, fragments]
    exact (statementsSameTrace_substitute hvalue statements h b).block
  | ifElse condition whenTrue whenFalse, h, b => by
    have hcondition := sameTrace_substitute hvalue condition h.1 b
    have htrue := bodySameTrace_substitute hvalue whenTrue h.2.1 b
    have hfalse := bodySameTrace_substitute hvalue whenFalse h.2.2 b
    rw [substitute, fragments, fragments, isSome_substituteBody]
    refine (hcondition.append ((SameTrace.scope (htrue.append ?_)).text ")\n")).text "if ("
    split_ifs
    · exact hfalse.text "else\n"
    · exact fun _ => rfl
  | switch selector body, h, b => by
    have hselector := sameTrace_substitute hvalue selector h.1 b
    have hbody := bodySameTrace_substitute hvalue body h.2 b
    rw [substitute, fragments, fragments, isSome_substituteBody]
    refine (hselector.append ?_).text "switch ("
    split_ifs
    · exact hbody.text ") "
    · exact .of_isClosed (by simp)
  | case label, h, b => by
    have hlabel := optionalSameTrace_substitute hvalue label h b
    rw [substitute, fragments, fragments, isSome_substituteOptional]
    split_ifs
    · exact (hlabel.append (.of_isClosed (by simp))).text "case ("
    · exact .of_isClosed (by simp)
  | loop kind init condition step body true, h, b => by
    by_cases hindex : index? init = some id
    · -- the inner loop binds the variable anew, so its body is rendered under the same bindings
      rw [substitute, hindex, if_pos (by simp)]
      simp only [fragments, if_true]
      refine SameTrace.scope ?_
      cases hloop : CountingLoop.ofLoop kind init condition step with
      | error obstacle => exact fun _ => rfl
      | ok l =>
        refine SameTrace.unrolledLoop l fun other depth => ?_
        have hid : l.var.id = id := by
          rw [CountingLoop.index?_of_ofLoop hloop] at hindex
          exact Option.some.inj hindex
        rw [hid, Function.update_idem]
    · rw [substitute, if_neg (by simpa using hindex)]
      simp only [fragments, if_true]
      refine SameTrace.scope ?_
      cases hother : index? init with
      | none =>
        obtain ⟨obstacle, hplain, hsubstituted⟩ :=
          CountingLoop.declared_of_index? hother id value kind
        rw [CountingLoop.ofLoop_of_declared hplain, CountingLoop.ofLoop_of_declared hsubstituted]
        exact fun _ => rfl
      | some other =>
        have hid : other ≠ id := by
          rintro rfl
          exact hindex hother
        obtain ⟨⟨hinit, hcondition, hstep⟩, hbody⟩ := h other hother hid
        rw [substituteOptional_of_avoids value init hinit,
          substituteOptional_of_avoids value condition hcondition,
          substituteOptional_of_avoids value step hstep]
        cases hloop : CountingLoop.ofLoop kind init condition step with
        | error obstacle => exact fun _ => rfl
        | ok l =>
          have hcounter : l.var.id = other := by
            rw [CountingLoop.index?_of_ofLoop hloop] at hother
            exact Option.some.inj hother
          -- the counters differ, so that the order in which they are bound does not matter
          refine SameTrace.unrolledLoop l fun next => ?_
          rw [hcounter, Function.update_comm hid.symm]
          exact bodySameTrace_substitute hvalue body hbody _
  | loop kind init condition step body false, h, b => by
    have hinit := optionalSameTrace_substitute hvalue init h.1 b
    have hcondition := optionalSameTrace_substitute hvalue condition h.2.1 b
    have hstep := optionalSameTrace_substitute hvalue step h.2.2.1 b
    have hbody := bodySameTrace_substitute hvalue body h.2.2.2 b
    have hrequired := conditionSameTrace_substitute hvalue kind condition h.2.1 b
    rw [substitute, Bool.false_and, if_neg Bool.false_ne_true]
    simp only [fragments, if_neg Bool.false_ne_true]
    refine SameTrace.scope ?_
    cases kind with
    | forLoop =>
      exact (hinit.append ((hcondition.append ((hstep.append (hbody.text ")\n")).text
        "; ")).text "; ")).text "for ("
    | whileLoop => exact (hrequired.append (hbody.text ")\n")).text "while ("
    | doWhileLoop =>
      exact (hbody.append ((hrequired.append (.of_isClosed (by simp))).text "while (")).text "do\n"
  | branch kind result, h, b => by
    rw [substitute, fragments, fragments]
    refine SameTrace.text _ ?_
    split_ifs
    · exact optionalSameTrace_substitute hvalue result h b
    · exact fun _ => rfl
  | function head body, h, b => by
    rw [substitute, fragments, fragments]
    exact (SameTrace.of_isClosed (isClosed_holdsOfNames.head c head)).append
      (.scope ((SameTrace.of_isClosed (isClosed_holdsOfNames.parameterList c head)).append
        (statementsSameTrace_substitute hvalue body h b).block))

theorem eachSameTrace_substitute (hvalue : IsSigned value) :
    (nodes : List Node) → AllAllowLiteral id nodes → (b : Bindings) →
      List.Forall₂ (SameTrace c b (Function.update b id (some value)))
        (eachFragments c (substituteAll id value nodes)) (eachFragments c nodes)
  | [], _, _ => .nil
  | node :: rest, h, b =>
    .cons (sameTrace_substitute hvalue node h.1 b)
      (eachSameTrace_substitute hvalue rest h.2 b)

theorem statementsSameTrace_substitute (hvalue : IsSigned value) :
    (nodes : List Node) → AllAllowLiteral id nodes → (b : Bindings) →
      SameTrace c b (Function.update b id (some value))
        (statementFragments c (substituteAll id value nodes)) (statementFragments c nodes)
  | [], _, _ => fun _ => rfl
  | node :: rest, h, b => by
    rw [substituteAll, statementFragments, statementFragments, isSimpleStatement_substitute]
    refine ((sameTrace_substitute hvalue node h.1 b).append (.of_isClosed ?_)).append
      (statementsSameTrace_substitute hvalue rest h.2 b)
    split_ifs <;> simp

theorem optionalSameTrace_substitute (hvalue : IsSigned value) :
    (n : Option Node) → OptionalAllowsLiteral id n → (b : Bindings) →
      SameTrace c b (Function.update b id (some value))
        (optionalFragments c (substituteOptional id value n)) (optionalFragments c n)
  | none, _, _ => fun _ => rfl
  | some node, h, b => sameTrace_substitute hvalue node h b

theorem conditionSameTrace_substitute (hvalue : IsSigned value)
    (kind : LoopKind) : (n : Option Node) → OptionalAllowsLiteral id n → (b : Bindings) →
      SameTrace c b (Function.update b id (some value))
        (conditionFragments c kind (substituteOptional id value n)) (conditionFragments c kind n)
  | none, _, _ => fun _ => rfl
  | some node, h, b => sameTrace_substitute hvalue node h b

theorem bodySameTrace_substitute (hvalue : IsSigned value) :
    (body : Option (List Node)) → BodyAllowsLiteral id body → (b : Bindings) →
      SameTrace c b (Function.update b id (some value))
        (bodyFragments c (substituteBody id value body)) (bodyFragments c body)
  | none, _, _ => fun _ => rfl
  | some statements, h, b => (statementsSameTrace_substitute hvalue statements h b).block

theorem declaratorsSameTrace_substitute (hvalue : IsSigned value) :
    (declarators : List Declarator) → DeclaratorsAllowLiteral id declarators → (b : Bindings) →
      List.Forall₂ (SameTrace c b (Function.update b id (some value)))
        (declaratorFragments c (substituteDeclarators id value declarators))
        (declaratorFragments c declarators)
  | [], _, _ => .nil
  | { var, initializer } :: rest, h, b => by
    have hinitializer := optionalSameTrace_substitute hvalue initializer h.1 b
    have hrest := declaratorsSameTrace_substitute hvalue rest h.2 b
    rw [substituteDeclarators, declaratorFragments, declaratorFragments, isSome_substituteOptional]
    refine .cons (.cons (fun _ => rfl) (.text _ ?_)) hrest
    split_ifs
    · exact hinitializer.text " = "
    · exact fun _ => rfl

end

end Node

/-! ### Unrolled loops -/

/-- Writes the body of a compound statement into a context. -/
def Node.writeBody (r : Renderer) (body : Option (List Node)) (c : Context) :
    Except RenderError Context :=
  Fragment.writeAll r (bodyFragments r.config body) c

namespace CountingLoop

/-- The first value and the bound of a loop are signed constants. -/
def HasSignedBounds (init condition : Option Node) : Prop :=
  (∃ var type start,
    init = some (.declaration [{ var, initializer := some (.constant type [.int start]) }])) ∧
  ∃ op left type bound conditionType clamped,
    condition = some (.binary op left (.constant type [.int bound]) conditionType clamped)

variable {kind : LoopKind} {init condition step : Option Node} {l : CountingLoop}

/-- A loop between signed constants counts within their range. -/
theorem values_fit (h : ofLoop kind init condition step = .ok l)
    (hbounds : HasSignedBounds init condition) {value : Int} (hvalue : value ∈ l.values) :
    IsSigned value := by
  obtain ⟨p, comparison, bound, hparts, hcounts, hbefore, -⟩ := parts_of_ofLoop h
  obtain ⟨⟨_, _, start, rfl⟩, _, _, _, last, _, _, rfl⟩ := hbounds
  obtain ⟨var, first, condition, step⟩ := p
  obtain ⟨hinit, hcondition, -⟩ := LoopParts.ofNodes?_eq_some_iff.mp hparts
  cases hinit
  cases hcondition
  have hstart : l.start = start.toInt := (Option.some.inj hcounts.starts).symm
  have hbound : bound = last.toInt := (Option.some.inj hcounts.compares.2.2).symm
  obtain ⟨k, hk, rfl⟩ := List.mem_map.mp hvalue
  have hbetween := (hbefore k (List.mem_range.mp hk)).2
  have := start.minValue_le_toInt
  have := start.toInt_le
  have := last.minValue_le_toInt
  have := last.toInt_le
  simp only [IsSigned, valueAt]
  omega

/-- A copy of the body is the body with the value substituted, without the counter. -/
theorem writeCopy_eq_writeBody {body : Option (List Node)}
    (hbody : Node.BodyAllowsLiteral l.var.id body) (hvalue : IsSigned value)
    (r : Renderer) (c : Context) :
    l.writeCopy r body value c = Node.writeBody r (Node.substituteBody l.var.id value body) c := by
  rw [writeCopy_eq_perform, Node.writeBody, Fragment.writeAll_eq_perform,
    Node.bodySameTrace_substitute hvalue body hbody]

/-- So are the copies one after another, for values that a signed constant can have. -/
theorem foldlM_writeCopy_eq_writeBody {body : Option (List Node)}
    (hbody : Node.BodyAllowsLiteral l.var.id body) (r : Renderer) {values : List Int}
    (hvalues : ∀ value ∈ values, IsSigned value) (c : Context) :
    values.foldlM (fun c value => l.writeCopy r body value c) c =
      values.foldlM (fun c value =>
        Node.writeBody r (Node.substituteBody l.var.id value body) c) c := by
  induction values generalizing c with
  | nil => rfl
  | cons value rest ih =>
    obtain ⟨hvalue, hrest⟩ := List.forall_mem_cons.mp hvalues
    rw [List.foldlM_cons, List.foldlM_cons, l.writeCopy_eq_writeBody hbody hvalue]
    exact congrArg _ (funext (ih hrest))

/-- **Unrolling is substitution.** In any context, a loop that counts between signed constants is
written as the loop that runs once, around its body with the values `start + k * step` in place of
the counter, one after another; each is written in the context that the last one left, and the first
error is the error of the loop. -/
theorem write_unrolled_eq_substituted (h : ofLoop kind init condition step = .ok l)
    (hbounds : HasSignedBounds init condition) {body : Option (List Node)}
    (hbody : Node.BodyAllowsLiteral l.var.id body) (r : Renderer) (c : Context) :
    (Node.loop kind init condition step body true).write r c =
      ((List.range l.iterations).foldlM (fun c (k : Nat) =>
          Node.writeBody r (Node.substituteBody l.var.id (l.start + k * l.step) body) c)
        (l.writeHeader r c.enterScope)).map fun c => (c.write "\x7d\n").leaveScope := by
  have hvalues : ∀ value ∈ l.values, IsSigned value := fun _ => values_fit h hbounds
  rw [Node.write_unrolled h body r c, foldlM_writeCopy_eq_writeBody hbody r hvalues, values,
    List.foldlM_map]
  rfl

/-- The counters of a loop and of the loop in it. -/
def outerCounter : Variable := { id := ⟨0⟩, name := { text := "i" }, type := .scalar .int }

def innerCounter : Variable := { id := ⟨1⟩, name := { text := "j" }, type := .scalar .int }

/-- `for (int j = 0; j < 2; ++j) i + j;`, to be unrolled. -/
def innerLoop : Node :=
  .loop .forLoop (some (innerCounter.startingAt 0)) (some (innerCounter.below 2))
    (some innerCounter.increment)
    (some [.binary .add (.symbol outerCounter) (.symbol innerCounter) (.scalar .int) false]) true

theorem write_nested_unrolled :
    Node.BodyAllowsLiteral outerCounter.id (some [innerLoop]) ∧
    (Node.loop .forLoop (some (outerCounter.startingAt 3)) (some (outerCounter.below 5))
        (some outerCounter.increment) (some [innerLoop]) true).write {} {} =
      ((List.range 2).foldlM (fun c (k : Nat) =>
          Node.writeBody {} (Node.substituteBody outerCounter.id (3 + k * 1) (some [innerLoop])) c)
        (({} : Context).enterScope.write "for (int i = 0; i < 1; ++i)\n\x7b\n")).map
          fun c => (c.write "\x7d\n").leaveScope := by
  have hbounds : HasSignedBounds (some (outerCounter.startingAt 3)) (some (outerCounter.below 5)) :=
    ⟨⟨_, _, _, rfl⟩, _, _, _, _, _, _, rfl⟩
  have hallows : Node.BodyAllowsLiteral outerCounter.id (some [innerLoop]) := by
    have hids : innerCounter.id ≠ outerCounter.id := by decide
    have hheader : Node.OptionalAvoids outerCounter.id (some (innerCounter.startingAt 0)) ∧
        Node.OptionalAvoids outerCounter.id (some (innerCounter.below 2)) ∧
          Node.OptionalAvoids outerCounter.id (some innerCounter.increment) :=
      ⟨⟨trivial, trivial⟩, ⟨hids, trivial⟩, hids⟩
    have hscalar : outerCounter.type.IsScalarInt := ⟨rfl, rfl, rfl, rfl, rfl, rfl⟩
    have hsum : Node.BodyAllowsLiteral outerCounter.id
        (some [.binary .add (.symbol outerCounter) (.symbol innerCounter) (.scalar .int) false]) :=
      ⟨⟨fun _ => hscalar, fun h => absurd h hids, nofun⟩, trivial⟩
    exact ⟨fun _ _ _ => ⟨hheader, hsum⟩, trivial⟩
  exact ⟨hallows, write_unrolled_eq_substituted (ofLoop_below rfl rfl rfl 3 5 (by decide)) hbounds
    hallows {} {}⟩

end CountingLoop

end ShaderText
