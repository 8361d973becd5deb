import ShaderText.Node
import Mathlib.Data.List.Range

/-! # The operands of a tree

The operands of a tree are the variables it refers to in its expressions, in the order of its
structure (`Node.operands`): the left one before the right one, conditions before branches,
arguments, initial values and statements in the order of their lists. `Node.assign` gives them other
names, each place its own, and changes nothing else: the places of a tree have the names that are
assigned to them (`Node.map_name_operands_assign`), and a tree whose places have these names already
stays as it is (`Node.assign_eq_self`). -/

namespace ShaderText

namespace Node

mutual

/-- The variables that the expressions of a tree refer to, in the order of its structure. -/
def operands : Node → List Variable
  | symbol v => [v]
  | constant .. | prototype _ | invariantDeclaration _ => []
  | unary _ operand _ _ => operand.operands
  | binary _ left right _ _ => left.operands ++ right.operands
  | ternary condition whenTrue whenFalse _ =>
    condition.operands ++ (whenTrue.operands ++ whenFalse.operands)
  | swizzle operand _ _ => operand.operands
  | call _ arguments _ _ => eachOperands arguments
  | declaration declarators => declaratorOperands declarators
  | block statements => eachOperands statements
  | ifElse condition whenTrue whenFalse =>
    condition.operands ++ (bodyOperands whenTrue ++ bodyOperands whenFalse)
  | switch selector body => selector.operands ++ bodyOperands body
  | case label => optionalOperands label
  | loop kind init condition step body _ =>
    match kind with
    | .doWhileLoop =>
      optionalOperands init ++ (optionalOperands step ++
        (bodyOperands body ++ optionalOperands condition))
    | _ =>
      optionalOperands init ++ (optionalOperands condition ++
        (optionalOperands step ++ bodyOperands body))
  | branch _ value => optionalOperands value
  | function _ body => eachOperands body

def eachOperands : List Node → List Variable
  | [] => []
  | node :: rest => node.operands ++ eachOperands rest

def optionalOperands : Option Node → List Variable
  | none => []
  | some node => node.operands

def bodyOperands : Option (List Node) → List Variable
  | none => []
  | some statements => eachOperands statements

def declaratorOperands : List Declarator → List Variable
  | [] => []
  | { initializer, .. } :: rest => optionalOperands initializer ++ declaratorOperands rest

end

mutual

/-- The tree whose operands have the names that `σ` assigns to their places, of which the first is
place `k`. -/
def assign (σ : Nat → Name) (k : Nat) : Node → Node
  | symbol v => symbol { v with name := σ k }
  | constant type values => constant type values
  | unary op operand type emulated => unary op (operand.assign σ k) type emulated
  | binary op left right type clamped =>
    binary op (left.assign σ k) (right.assign σ (k + left.operands.length)) type clamped
  | ternary condition whenTrue whenFalse type =>
    ternary (condition.assign σ k) (whenTrue.assign σ (k + condition.operands.length))
      (whenFalse.assign σ (k + condition.operands.length + whenTrue.operands.length)) type
  | swizzle operand offsets type => swizzle (operand.assign σ k) offsets type
  | call callee arguments type emulated => call callee (assignEach σ k arguments) type emulated
  | prototype head => prototype head
  | invariantDeclaration v => invariantDeclaration v
  | declaration declarators => declaration (assignDeclarators σ k declarators)
  | block statements => block (assignEach σ k statements)
  | ifElse condition whenTrue whenFalse =>
    ifElse (condition.assign σ k) (assignBody σ (k + condition.operands.length) whenTrue)
      (assignBody σ (k + condition.operands.length + (bodyOperands whenTrue).length) whenFalse)
  | switch selector body =>
    switch (selector.assign σ k) (assignBody σ (k + selector.operands.length) body)
  | case label => case (assignOptional σ k label)
  | loop kind init condition step body unroll =>
    let afterInit := k + (optionalOperands init).length
    match kind with
    | .doWhileLoop =>
      let afterStep := afterInit + (optionalOperands step).length
      loop .doWhileLoop (assignOptional σ k init)
        (assignOptional σ (afterStep + (bodyOperands body).length) condition)
        (assignOptional σ afterInit step) (assignBody σ afterStep body) unroll
    | kind =>
      let afterCondition := afterInit + (optionalOperands condition).length
      loop kind (assignOptional σ k init) (assignOptional σ afterInit condition)
        (assignOptional σ afterCondition step)
        (assignBody σ (afterCondition + (optionalOperands step).length) body) unroll
  | branch kind value => branch kind (assignOptional σ k value)
  | function head body => function head (assignEach σ k body)

def assignEach (σ : Nat → Name) (k : Nat) : List Node → List Node
  | [] => []
  | node :: rest => node.assign σ k :: assignEach σ (k + node.operands.length) rest

def assignOptional (σ : Nat → Name) (k : Nat) : Option Node → Option Node
  | none => none
  | some node => some (node.assign σ k)

def assignBody (σ : Nat → Name) (k : Nat) : Option (List Node) → Option (List Node)
  | none => none
  | some statements => some (assignEach σ k statements)

def assignDeclarators (σ : Nat → Name) (k : Nat) : List Declarator → List Declarator
  | [] => []
  | { var, initializer } :: rest =>
    { var, initializer := assignOptional σ k initializer } ::
      assignDeclarators σ (k + (optionalOperands initializer).length) rest

end

/-! ### The names of the places -/

/-- The names that are assigned to `count` places from place `k` on. -/
def placeNames (σ : Nat → Name) (k count : Nat) : List Name := (List.range' k count).map σ

theorem placeNames_add (σ : Nat → Name) (k m n : Nat) :
    placeNames σ k (m + n) = placeNames σ k m ++ placeNames σ (k + m) n := by
  unfold placeNames
  rw [← List.map_append, List.range'_append_1]

theorem length_placeNames (σ : Nat → Name) (k count : Nat) :
    (placeNames σ k count).length = count := by
  unfold placeNames
  rw [List.length_map, List.length_range']

mutual

/-- **The operands have the names that are assigned to their places.** -/
theorem map_name_operands_assign (σ : Nat → Name) : (n : Node) → (k : Nat) →
    (n.assign σ k).operands.map Variable.name = placeNames σ k n.operands.length
  | symbol v, k => rfl
  | constant .., k | prototype _, k | invariantDeclaration _, k => rfl
  | unary _ operand _ _, k | swizzle operand _ _, k => map_name_operands_assign σ operand k
  | binary _ left right _ _, k => by
    simp only [assign, operands, List.map_append, List.length_append, placeNames_add,
      map_name_operands_assign σ left, map_name_operands_assign σ right]
  | ternary condition whenTrue whenFalse _, k => by
    simp only [assign, operands, List.map_append, List.length_append, placeNames_add,
      map_name_operands_assign σ condition, map_name_operands_assign σ whenTrue,
      map_name_operands_assign σ whenFalse]
  | call _ arguments _ _, k => map_name_assignEach σ arguments k
  | declaration declarators, k => map_name_assignDeclarators σ declarators k
  | block statements, k => map_name_assignEach σ statements k
  | ifElse condition whenTrue whenFalse, k => by
    simp only [assign, operands, List.map_append, List.length_append, placeNames_add,
      map_name_operands_assign σ condition, map_name_assignBody σ whenTrue,
      map_name_assignBody σ whenFalse]
  | switch selector body, k => by
    simp only [assign, operands, List.map_append, List.length_append, placeNames_add,
      map_name_operands_assign σ selector, map_name_assignBody σ body]
  | case label, k => map_name_assignOptional σ label k
  | loop kind init condition step body _, k => by
    cases kind <;>
      simp only [assign, operands, List.map_append, List.length_append, placeNames_add,
        map_name_assignOptional σ init, map_name_assignOptional σ condition,
        map_name_assignOptional σ step, map_name_assignBody σ body]
  | branch _ value, k => map_name_assignOptional σ value k
  | function _ body, k => map_name_assignEach σ body k

theorem map_name_assignEach (σ : Nat → Name) : (nodes : List Node) → (k : Nat) →
    (eachOperands (assignEach σ k nodes)).map Variable.name =
      placeNames σ k (eachOperands nodes).length
  | [], _ => rfl
  | node :: rest, k => by
    simp only [assignEach, eachOperands, List.map_append, List.length_append, placeNames_add,
      map_name_operands_assign σ node, map_name_assignEach σ rest]

theorem map_name_assignOptional (σ : Nat → Name) : (n : Option Node) → (k : Nat) →
    (optionalOperands (assignOptional σ k n)).map Variable.name =
      placeNames σ k (optionalOperands n).length
  | none, _ => rfl
  | some node, k => map_name_operands_assign σ node k

theorem map_name_assignBody (σ : Nat → Name) : (body : Option (List Node)) → (k : Nat) →
    (bodyOperands (assignBody σ k body)).map Variable.name =
      placeNames σ k (bodyOperands body).length
  | none, _ => rfl
  | some statements, k => map_name_assignEach σ statements k

theorem map_name_assignDeclarators (σ : Nat → Name) : (list : List Declarator) → (k : Nat) →
    (declaratorOperands (assignDeclarators σ k list)).map Variable.name =
      placeNames σ k (declaratorOperands list).length
  | [], _ => rfl
  | { var, initializer } :: rest, k => by
    simp only [assignDeclarators, declaratorOperands, List.map_append, List.length_append,
      placeNames_add, map_name_assignOptional σ initializer, map_name_assignDeclarators σ rest]

end

/-- Names of operands in a row are those of the first and those of the others. -/
theorem map_name_append_eq_iff {σ : Nat → Name} {k : Nat} {front back : List Variable} :
    (front ++ back).map Variable.name = placeNames σ k (front ++ back).length ↔
      front.map Variable.name = placeNames σ k front.length ∧
        back.map Variable.name = placeNames σ (k + front.length) back.length := by
  have hlength : (front.map Variable.name).length = (placeNames σ k front.length).length := by
    rw [List.length_map, length_placeNames]
  rw [List.map_append, List.length_append, placeNames_add]
  exact ⟨fun h => List.append_inj h hlength, fun ⟨hfront, hback⟩ => by rw [hfront, hback]⟩

mutual

/-- **A tree is the assignment of the names that its operands have.** -/
theorem assign_eq_self {σ : Nat → Name} : (n : Node) → {k : Nat} →
    n.operands.map Variable.name = placeNames σ k n.operands.length → n.assign σ k = n
  | symbol { id, name, type }, k, h => by
    have hname : name = σ k := List.singleton_inj.mp h
    rw [assign, hname]
  | constant .., _, _ | prototype _, _, _ | invariantDeclaration _, _, _ => rfl
  | unary _ operand _ _, k, h | swizzle operand _ _, k, h => by
    rw [assign, assign_eq_self operand h]
  | binary _ left right _ _, k, h => by
    obtain ⟨hleft, hright⟩ := map_name_append_eq_iff.mp h
    rw [assign, assign_eq_self left hleft, assign_eq_self right hright]
  | ternary condition whenTrue whenFalse _, k, h => by
    obtain ⟨hcondition, hrest⟩ := map_name_append_eq_iff.mp h
    obtain ⟨htrue, hfalse⟩ := map_name_append_eq_iff.mp hrest
    rw [assign, assign_eq_self condition hcondition, assign_eq_self whenTrue htrue,
      assign_eq_self whenFalse hfalse]
  | call _ arguments _ _, k, h => by rw [assign, assignEach_eq_self arguments h]
  | declaration declarators, k, h => by rw [assign, assignDeclarators_eq_self declarators h]
  | block statements, k, h => by rw [assign, assignEach_eq_self statements h]
  | ifElse condition whenTrue whenFalse, k, h => by
    obtain ⟨hcondition, hrest⟩ := map_name_append_eq_iff.mp h
    obtain ⟨htrue, hfalse⟩ := map_name_append_eq_iff.mp hrest
    rw [assign, assign_eq_self condition hcondition, assignBody_eq_self whenTrue htrue,
      assignBody_eq_self whenFalse hfalse]
  | switch selector body, k, h => by
    obtain ⟨hselector, hbody⟩ := map_name_append_eq_iff.mp h
    rw [assign, assign_eq_self selector hselector, assignBody_eq_self body hbody]
  | case label, k, h => by rw [assign, assignOptional_eq_self label h]
  | loop .doWhileLoop init condition step body _, k, h => by
    obtain ⟨hinit, hrest⟩ := map_name_append_eq_iff.mp h
    obtain ⟨hstep, hrest⟩ := map_name_append_eq_iff.mp hrest
    obtain ⟨hbody, hcondition⟩ := map_name_append_eq_iff.mp hrest
    simp only [assign, assignOptional_eq_self init hinit, assignOptional_eq_self step hstep,
      assignBody_eq_self body hbody, assignOptional_eq_self condition hcondition]
  | loop .forLoop init condition step body _, k, h
  | loop .whileLoop init condition step body _, k, h => by
    obtain ⟨hinit, hrest⟩ := map_name_append_eq_iff.mp h
    obtain ⟨hcondition, hrest⟩ := map_name_append_eq_iff.mp hrest
    obtain ⟨hstep, hbody⟩ := map_name_append_eq_iff.mp hrest
    simp only [assign, assignOptional_eq_self init hinit, assignOptional_eq_self step hstep,
      assignBody_eq_self body hbody, assignOptional_eq_self condition hcondition]
  | branch _ value, k, h => by rw [assign, assignOptional_eq_self value h]
  | function _ body, k, h => by rw [assign, assignEach_eq_self body h]

theorem assignEach_eq_self {σ : Nat → Name} : (nodes : List Node) → {k : Nat} →
    (eachOperands nodes).map Variable.name = placeNames σ k (eachOperands nodes).length →
      assignEach σ k nodes = nodes
  | [], _, _ => rfl
  | node :: rest, k, h => by
    obtain ⟨hnode, hrest⟩ := map_name_append_eq_iff.mp h
    rw [assignEach, assign_eq_self node hnode, assignEach_eq_self rest hrest]

theorem assignOptional_eq_self {σ : Nat → Name} : (n : Option Node) → {k : Nat} →
    (optionalOperands n).map Variable.name = placeNames σ k (optionalOperands n).length →
      assignOptional σ k n = n
  | none, _, _ => rfl
  | some node, _, h => congrArg some (assign_eq_self node h)

theorem assignBody_eq_self {σ : Nat → Name} : (body : Option (List Node)) → {k : Nat} →
    (bodyOperands body).map Variable.name = placeNames σ k (bodyOperands body).length →
      assignBody σ k body = body
  | none, _, _ => rfl
  | some statements, _, h => congrArg some (assignEach_eq_self statements h)

theorem assignDeclarators_eq_self {σ : Nat → Name} : (list : List Declarator) → {k : Nat} →
    (declaratorOperands list).map Variable.name = placeNames σ k (declaratorOperands list).length →
      assignDeclarators σ k list = list
  | [], _, _ => rfl
  | { var, initializer } :: rest, k, h => by
    obtain ⟨hinitializer, hrest⟩ := map_name_append_eq_iff.mp h
    rw [assignDeclarators, assignOptional_eq_self initializer hinitializer,
      assignDeclarators_eq_self rest hrest]

end

/-! ### What is read of a node -/

variable (σ : Nat → Name) (k : Nat)

@[simp] theorem type?_assign (n : Node) : (n.assign σ k).type? = n.type? := by
  cases n with
  | loop kind => cases kind <;> rfl
  | _ => rfl

@[simp] theorem asInt?_assign (n : Node) : (n.assign σ k).asInt? = n.asInt? := by
  cases n with
  | loop kind => cases kind <;> rfl
  | _ => rfl

@[simp] theorem isSimpleStatement_assign (n : Node) :
    (n.assign σ k).isSimpleStatement = n.isSimpleStatement := by
  cases n with
  | loop kind => cases kind <;> rfl
  | _ => rfl

@[simp] theorem isSome_assignOptional (n : Option Node) :
    (assignOptional σ k n).isSome = n.isSome := by
  cases n <;> rfl

@[simp] theorem isSome_assignBody (body : Option (List Node)) :
    (assignBody σ k body).isSome = body.isSome := by
  cases body <;> rfl

/-- A constant position has no operands. -/
theorem operands_of_asInt? {n : Node} {value : Int} (h : n.asInt? = some value) :
    n.operands = [] := by
  cases n with
  | constant => rfl
  | _ => cases h

end Node

end ShaderText
