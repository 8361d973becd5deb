import ShaderText.Name.Reserved
import ShaderText.Node

/-! # The names in a tree

`Node.names` lists the names that a program brings into a tree: those of variables and parameters,
of functions without their encoded parameters, and, in every type of the tree, of structs and blocks
and of their members. A property of all of them is one of the names of each part
(`ShaderType.forall_mem_names`); the type that an expression carries has its names among those of
the expression (`Node.names_subset_of_type?`). -/

namespace ShaderText

/-! ### Types -/

namespace ShaderType

mutual

/-- The names in a type: those of its definitions and of all members. -/
def names : ShaderType → List String
  | { structDef, blockDef, .. } => structNames structDef ++ blockNames blockDef

def structNames : Option StructDef → List String
  | none => []
  | some { name, fields, .. } => name :: memberNames fields

def blockNames : Option BlockDef → List String
  | none => []
  | some { name, fields, .. } => name :: memberNames fields

/-- The names of members and of their types. -/
def memberNames : List Field → List String
  | [] => []
  | { name, type } :: rest => name :: (type.names ++ memberNames rest)

end

theorem forall_mem_memberNames {p : String → Prop} {fields : List Field} :
    (∀ s ∈ memberNames fields, p s) ↔ ∀ f ∈ fields, p f.name ∧ ∀ s ∈ f.type.names, p s := by
  induction fields with
  | nil => simp [memberNames]
  | cons f rest ih =>
    obtain ⟨name, type⟩ := f
    rw [memberNames, List.forall_mem_cons, List.forall_mem_append, ih, List.forall_mem_cons,
      and_assoc]

/-- **The names in a type are those of its definitions,** with their members. -/
theorem forall_mem_names {p : String → Prop} {t : ShaderType} :
    (∀ s ∈ t.names, p s) ↔
      (∀ d, t.structDef = some d → p d.name ∧ ∀ f ∈ d.fields, p f.name ∧ ∀ s ∈ f.type.names, p s) ∧
      ∀ d, t.blockDef = some d → p d.name ∧ ∀ f ∈ d.fields, p f.name ∧ ∀ s ∈ f.type.names, p s := by
  obtain ⟨_, _, _, _, _, _, _, _, _, _, structDef, blockDef⟩ := t
  rw [names, List.forall_mem_append]
  refine and_congr ?_ ?_
  · rcases structDef with _ | ⟨_, name, fields⟩
    · simp [structNames]
    · simp [structNames, ← forall_mem_memberNames]
  · rcases blockDef with _ | ⟨_, name, fields, _, _⟩
    · simp [blockNames]
    · simp [blockNames, ← forall_mem_memberNames]

end ShaderType

/-! ### Nodes -/

def Variable.names (v : Variable) : List String := v.name.text :: v.type.names

/-- The name of a function without its encoded parameters. -/
def FunctionName.names (f : FunctionName) : List String := [Reserved.unmangled f.mangled]

def Prototype.names (p : Prototype) : List String :=
  p.name.names ++ (p.returnType.names ++ p.parameters.flatMap Variable.names)

def Callee.names : Callee → List String
  | function name => name.names
  | constructor | intrinsic _ => []

namespace Node

mutual

/-- The names in a tree. -/
def names : Node → List String
  | symbol v | invariantDeclaration v => v.names
  | constant type _ => type.names
  | unary _ operand type _ => operand.names ++ type.names
  | binary _ left right type _ => left.names ++ (right.names ++ type.names)
  | ternary condition whenTrue whenFalse type =>
    condition.names ++ (whenTrue.names ++ (whenFalse.names ++ type.names))
  | swizzle operand _ type => operand.names ++ type.names
  | call callee arguments type _ => callee.names ++ (eachNames arguments ++ type.names)
  | prototype head => head.names
  | declaration declarators => declaratorNames declarators
  | block statements => eachNames statements
  | ifElse condition whenTrue whenFalse =>
    condition.names ++ (bodyNames whenTrue ++ bodyNames whenFalse)
  | switch selector body => selector.names ++ bodyNames body
  | case label => optionalNames label
  | loop _ init condition step body _ =>
    optionalNames init ++ (optionalNames condition ++ (optionalNames step ++ bodyNames body))
  | branch _ value => optionalNames value
  | function head body => head.names ++ eachNames body

def eachNames : List Node → List String
  | [] => []
  | node :: rest => node.names ++ eachNames rest

def optionalNames : Option Node → List String
  | none => []
  | some node => node.names

def bodyNames : Option (List Node) → List String
  | none => []
  | some statements => eachNames statements

def declaratorNames : List Declarator → List String
  | [] => []
  | { var, initializer } :: rest =>
    var.names ++ (optionalNames initializer ++ declaratorNames rest)

end

/-- The type of an expression brings no other names. -/
theorem names_subset_of_type? {n : Node} {t : ShaderType} (h : n.type? = some t) :
    t.names ⊆ n.names := by
  intro s hs
  cases n <;> cases h <;> simp [names, Variable.names, Prototype.names, hs]

end Node

end ShaderText
