import ShaderText.CountingLoop
import ShaderText.TypeName
import Mathlib.Logic.Function.Basic
import Mathlib.Tactic.SplitIfs

/-! # Relabelling: a tree with other labels

A tree carries labels that its rendering looks at in a few places only: the identities of variables,
structs and blocks, the names of everything, and the parts of a type that a target may drop. A
`Relabelling` replaces them throughout, in all nodes, types and definitions, members of members
included (`Relabelling.node`, `Relabelling.type`). The shape of the tree stays as it is, and so does
what is read of it without being written: a constant position, the form of a counting loop
(`Relabelling.ofLoop_optional`), the number of values of a type
(`Relabelling.componentCount_type`). -/

namespace ShaderText

/-- Other labels for those of a tree. What is not given is kept. -/
structure Relabelling where
  symbol : SymbolId → SymbolId := id
  structId : StructId → StructId := id
  blockId : BlockId → BlockId := id
  /-- The name of a variable or parameter. -/
  name : Name → Name := id
  functionName : FunctionName → FunctionName := id
  /-- The name of a struct or block. -/
  typeName : String → String := id
  /-- The name of a member of the struct that had the name `owner`. -/
  member : (owner : String) → String → String := fun _ field => field
  blockMember : String → String := id
  precision : Precision → Precision := id
  qualifier : Qualifier → Qualifier := id
  invariant : Bool → Bool := id

namespace Relabelling

/-! ### Types -/

mutual

def type (m : Relabelling) : ShaderType → ShaderType
  | { basic, precision, qualifier, invariant, memory, location, imageFormat, cols, rows, arraySize,
      structDef, blockDef } =>
    { basic, precision := m.precision precision, qualifier := m.qualifier qualifier,
      invariant := m.invariant invariant, memory, location, imageFormat, cols, rows, arraySize,
      structDef := m.structDef? structDef, blockDef := m.blockDef? blockDef }

def structDef? (m : Relabelling) : Option StructDef → Option StructDef
  | none => none
  | some { id, name, fields } =>
    some { id := m.structId id, name := m.typeName name, fields := m.fields (m.member name) fields }

def blockDef? (m : Relabelling) : Option BlockDef → Option BlockDef
  | none => none
  | some { id, name, fields, storage, packing } =>
    some { id := m.blockId id, name := m.typeName name, fields := m.fields m.blockMember fields,
           storage, packing }

/-- Members, each with its name changed by `rename`. -/
def fields (m : Relabelling) (rename : String → String) : List Field → List Field
  | [] => []
  | { name, type } :: rest => { name := rename name, type := m.type type } :: m.fields rename rest

end

def structDef (m : Relabelling) (d : StructDef) : StructDef :=
  { id := m.structId d.id, name := m.typeName d.name,
    fields := m.fields (m.member d.name) d.fields }

def blockDef (m : Relabelling) (d : BlockDef) : BlockDef :=
  { id := m.blockId d.id, name := m.typeName d.name, fields := m.fields m.blockMember d.fields,
    storage := d.storage, packing := d.packing }

variable (m : Relabelling)

/-- What is replaced in a type, and what is kept. -/
theorem type_eq (t : ShaderType) :
    m.type t = { t with
      precision := m.precision t.precision, qualifier := m.qualifier t.qualifier,
      invariant := m.invariant t.invariant, structDef := m.structDef? t.structDef,
      blockDef := m.blockDef? t.blockDef } := by
  cases t; rw [type]

@[simp] theorem structDef_type (t : ShaderType) :
    (m.type t).structDef = t.structDef.map m.structDef := by
  rw [type_eq]
  rcases t.structDef with _ | ⟨_, _, _⟩
  · rfl
  · rw [structDef?]; rfl

@[simp] theorem blockDef_type (t : ShaderType) :
    (m.type t).blockDef = t.blockDef.map m.blockDef := by
  rw [type_eq]
  rcases t.blockDef with _ | ⟨_, _, _, _, _⟩
  · rfl
  · rw [blockDef?]; rfl

@[simp] theorem basic_type (t : ShaderType) : (m.type t).basic = t.basic := by rw [type_eq]

@[simp] theorem precision_type (t : ShaderType) :
    (m.type t).precision = m.precision t.precision := by rw [type_eq]

@[simp] theorem qualifier_type (t : ShaderType) :
    (m.type t).qualifier = m.qualifier t.qualifier := by rw [type_eq]

@[simp] theorem invariant_type (t : ShaderType) :
    (m.type t).invariant = m.invariant t.invariant := by rw [type_eq]

@[simp] theorem memory_type (t : ShaderType) : (m.type t).memory = t.memory := by rw [type_eq]

@[simp] theorem location_type (t : ShaderType) : (m.type t).location = t.location := by
  rw [type_eq]

@[simp] theorem imageFormat_type (t : ShaderType) :
    (m.type t).imageFormat = t.imageFormat := by rw [type_eq]

@[simp] theorem cols_type (t : ShaderType) : (m.type t).cols = t.cols := by rw [type_eq]

@[simp] theorem rows_type (t : ShaderType) : (m.type t).rows = t.rows := by rw [type_eq]

@[simp] theorem arraySize_type (t : ShaderType) : (m.type t).arraySize = t.arraySize := by
  rw [type_eq]

@[simp] theorem isArray_type (t : ShaderType) : (m.type t).isArray = t.isArray := by
  unfold ShaderType.isArray
  rw [arraySize_type]

@[simp] theorem brackets_type (t : ShaderType) : (m.type t).brackets = t.brackets := by
  unfold ShaderType.brackets
  rw [arraySize_type]

theorem fields_eq_map (rename : String → String) (fields : List Field) :
    m.fields rename fields =
      fields.map fun f => { name := rename f.name, type := m.type f.type } := by
  induction fields with
  | nil => rfl
  | cons f rest ih => cases f; rw [Relabelling.fields, ih, List.map_cons]

mutual

theorem elementWord_type : (t : ShaderType) → (m.type t).elementWord = t.elementWord
  | { structDef := some { id, name, fields }, .. } => by
    rw [type, structDef?, ShaderType.elementWord, ShaderType.elementWord,
      fieldsWord_fields (m.member name) fields]
  | { structDef := none, .. } => by
    rw [type, structDef?, ShaderType.elementWord, ShaderType.elementWord]

theorem fieldsWord_fields (rename : String → String) : (fields : List Field) →
    ShaderType.fieldsWord (m.fields rename fields) = ShaderType.fieldsWord fields
  | [] => rfl
  | { name, type } :: rest => by
    rw [Relabelling.fields, ShaderType.fieldsWord, ShaderType.fieldsWord,
      elementWord_type type, fieldsWord_fields rename rest, arraySize_type]

end

@[simp] theorem componentCount_type (t : ShaderType) :
    (m.type t).componentCount = t.componentCount := by
  rw [ShaderType.componentCount, elementWord_type, ShaderType.componentCount]

/-! ### Nodes -/

def var (m : Relabelling) (v : Variable) : Variable :=
  { id := m.symbol v.id, name := m.name v.name, type := m.type v.type }

def prototype (m : Relabelling) (p : Prototype) : Prototype :=
  { name := m.functionName p.name, returnType := m.type p.returnType,
    parameters := p.parameters.map m.var }

def callee (m : Relabelling) : Callee → Callee
  | .function name => .function (m.functionName name)
  | .constructor => .constructor
  | .intrinsic op => .intrinsic op

mutual

/-- The tree with other labels. -/
def node (m : Relabelling) : Node → Node
  | .symbol v => .symbol (m.var v)
  | .constant type values => .constant (m.type type) values
  | .unary op operand type emulated => .unary op (m.node operand) (m.type type) emulated
  | .binary op left right type clamped =>
    .binary op (m.node left) (m.node right) (m.type type) clamped
  | .ternary condition whenTrue whenFalse type =>
    .ternary (m.node condition) (m.node whenTrue) (m.node whenFalse) (m.type type)
  | .swizzle operand offsets type => .swizzle (m.node operand) offsets (m.type type)
  | .call callee arguments type emulated =>
    .call (m.callee callee) (m.nodes arguments) (m.type type) emulated
  | .prototype head => .prototype (m.prototype head)
  | .invariantDeclaration v => .invariantDeclaration (m.var v)
  | .declaration declarators => .declaration (m.declarators declarators)
  | .block statements => .block (m.nodes statements)
  | .ifElse condition whenTrue whenFalse =>
    .ifElse (m.node condition) (m.body whenTrue) (m.body whenFalse)
  | .switch selector body => .switch (m.node selector) (m.body body)
  | .case label => .case (m.optional label)
  | .loop kind init condition step body unroll =>
    .loop kind (m.optional init) (m.optional condition) (m.optional step) (m.body body) unroll
  | .branch kind value => .branch kind (m.optional value)
  | .function head body => .function (m.prototype head) (m.nodes body)

def nodes (m : Relabelling) : List Node → List Node
  | [] => []
  | node :: rest => m.node node :: m.nodes rest

def optional (m : Relabelling) : Option Node → Option Node
  | none => none
  | some node => some (m.node node)

def body (m : Relabelling) : Option (List Node) → Option (List Node)
  | none => none
  | some statements => some (m.nodes statements)

def declarators (m : Relabelling) : List Declarator → List Declarator
  | [] => []
  | { var, initializer } :: rest =>
    { var := m.var var, initializer := m.optional initializer } :: m.declarators rest

end

attribute [simp] node

/-! ### What is read of a node -/

@[simp] theorem isSome_optional (n : Option Node) : (m.optional n).isSome = n.isSome := by
  cases n <;> rfl

@[simp] theorem isSome_body (body : Option (List Node)) : (m.body body).isSome = body.isSome := by
  cases body <;> rfl

theorem optional_eq_map (n : Option Node) : m.optional n = n.map m.node := by cases n <;> rfl

@[simp] theorem isSimpleStatement_node (n : Node) :
    (m.node n).isSimpleStatement = n.isSimpleStatement := by
  cases n <;> rw [node] <;> rfl

@[simp] theorem type?_node (n : Node) : (m.node n).type? = n.type?.map m.type := by
  cases n <;> rw [node] <;> rfl

@[simp] theorem asInt?_node (n : Node) : (m.node n).asInt? = n.asInt? := by
  cases n with
  | constant type values =>
    rw [node]
    rcases values with _ | ⟨_ | _ | _ | _, _ | ⟨_, _⟩⟩ <;> rfl
  | _ => rw [node]; rfl

theorem refersTo_node (hm : Function.Injective m.symbol) (id : SymbolId) (n : Node) :
    (m.node n).refersTo (m.symbol id) = n.refersTo id := by
  cases n with
  | symbol v =>
    rw [node, Node.refersTo, Node.refersTo, Bool.eq_iff_iff, beq_iff_eq, beq_iff_eq]
    exact hm.eq_iff
  | _ => rw [node]; rfl

/-! ### Counting loops -/

/-- A loop with the label of its counter changed. -/
def countingLoop (l : CountingLoop) : CountingLoop := { l with var := m.var l.var }

variable {m} (hm : Function.Injective m.symbol)

theorem declared_optional (kind : LoopKind) (init : Option Node) :
    CountingLoop.declared kind (m.optional init) =
      (CountingLoop.declared kind init).map fun d => (m.var d.1, d.2) := by
  unfold CountingLoop.declared
  split_ifs
  · rfl
  · cases init with
    | none => rfl
    | some n =>
      rw [optional_eq_map, Option.map_some]
      cases n with
      | declaration declarators =>
        rw [node]
        match declarators with
        | [] => rfl
        | [{ var, initializer }] =>
          simp only [Relabelling.declarators, Relabelling.var, basic_type, cols_type, isArray_type,
            optional_eq_map, Option.bind_map]
          have hvalue : initializer.bind (Node.asInt? ∘ m.node) = initializer.bind Node.asInt? :=
            congrArg initializer.bind (funext m.asInt?_node)
          rw [hvalue]
          split_ifs
          · rfl
          · cases initializer.bind Node.asInt? <;> rfl
        | ⟨_, _⟩ :: ⟨_, _⟩ :: _ => rfl
      | _ => rw [node]; rfl

include hm

theorem tested_optional (id : SymbolId) (condition : Option Node) :
    CountingLoop.tested (m.symbol id) (m.optional condition) =
      CountingLoop.tested id condition := by
  cases condition with
  | none => rfl
  | some n =>
    rw [optional_eq_map, Option.map_some]
    cases n with
    | binary op left right type clamped =>
      simp only [node, CountingLoop.tested, m.refersTo_node hm, asInt?_node]
    | _ => rw [node]; rfl

theorem stepped_optional (id : SymbolId) (step : Option Node) :
    CountingLoop.stepped (m.symbol id) (m.optional step) = CountingLoop.stepped id step := by
  cases step with
  | none => rfl
  | some n =>
    rw [optional_eq_map, Option.map_some]
    cases n with
    | unary op operand type emulated => simp only [node, CountingLoop.stepped, m.refersTo_node hm]
    | binary op left right type clamped =>
      simp only [node, CountingLoop.stepped, m.refersTo_node hm, asInt?_node]
    | _ => rw [node]; rfl

/-- **The form of a counting loop does not depend on its labels.** -/
theorem ofLoop_optional (kind : LoopKind) (init condition step : Option Node) :
    CountingLoop.ofLoop kind (m.optional init) (m.optional condition) (m.optional step) =
      (CountingLoop.ofLoop kind init condition step).map m.countingLoop := by
  unfold CountingLoop.ofLoop
  rw [declared_optional]
  rcases CountingLoop.declared kind init with obstacle | ⟨var, start⟩
  · rfl
  · have hid : (m.var var).id = m.symbol var.id := rfl
    simp only [Except.map, bind, Except.bind, hid, tested_optional hm, stepped_optional hm]
    rcases CountingLoop.tested var.id condition with obstacle | ⟨comparison, bound⟩
    · rfl
    · rcases CountingLoop.stepped var.id step with obstacle | amount
      · rfl
      · dsimp only
        split_ifs
        · rfl
        · rcases comparison.tripCount start bound amount with _ | iterations
          · rfl
          · dsimp only
            split_ifs <;> rfl

end Relabelling

end ShaderText
