import ShaderText.Proofs.Token
import ShaderText.Proofs.Trace

/-! # Mentions: where a tree names its entities

A name in the text of a tree stands for an `Entity`: a variable, a type, a member or a function. A
`Mention` is one place of the tree that such a name comes from, and says in which part the entity is
named there: a variable by a declarator, as a parameter, in the header of the loop around unrolled
copies or by a reference; a type by its body, by name alone, as a constructor or in a constant; a
member in a body or by an access; a function in its head or by a call.

`Node.mentions` lists the mentions of a tree in the order of its text. It is read off the tree: no
fragment and no token takes part. Two things depend on more than the node at hand:

* a reference to the counter of a loop that is being unrolled is replaced by a number and mentions
  nothing, so `Node.sites` goes down the tree with the counters of the loops around a node;
* a struct is written with its body where it occurs first and by name later, so `mentionsAfter` goes
  along the sites with the structs written so far. -/

namespace ShaderText

/-- What a name in the text stands for. -/
inductive Entity where
  | variable (name : Name)
  | type (name : TypeName)
  | member (owner field : String)
  | blockMember (field : String)
  | function (name : FunctionName)
  deriving DecidableEq, Repr

/-- A place of a tree that a name in its text comes from. -/
inductive Mention where
  | declarator (name : Name)
  | parameter (name : Name)
  /-- A variable in the header of the loop around unrolled copies. -/
  | loopHeader (name : Name)
  /-- A variable in an expression or an invariant declaration. -/
  | reference (name : Name)
  /-- A struct or a block where its body is written. -/
  | body (name : String)
  /-- A type where it is written without a body. -/
  | byName (name : TypeName)
  | constructor (name : TypeName)
  | constant (name : TypeName)
  /-- A member in the body of a struct. -/
  | structField (owner field : String)
  /-- A member in the body of a block. -/
  | blockField (field : String)
  | structAccess (owner field : String)
  | blockAccess (field : String)
  /-- A function where it is declared or defined. -/
  | functionHead (name : FunctionName)
  /-- A function where it is called, and not emulated. -/
  | call (name : FunctionName)
  deriving DecidableEq, Repr

namespace Mention

def entity : Mention → Entity
  | declarator name | parameter name | loopHeader name | reference name => .variable name
  | body name => .type (.userDefined name)
  | byName name | constructor name | constant name => .type name
  | structField owner field | structAccess owner field => .member owner field
  | blockField field | blockAccess field => .blockMember field
  | functionHead name | call name => .function name

/-- The token that a mention is written as. -/
def token : Mention → Token
  | declarator name | loopHeader name => .declared name
  | parameter name => .parameter name
  | reference name => .used name
  | body name => .typeName (.userDefined name)
  | byName name | constructor name | constant name => .typeName name
  | structField owner field | structAccess owner field => .member owner field
  | blockField field | blockAccess field => .blockMember field
  | functionHead name | call name => .function name false

def isParameter : Mention → Bool
  | parameter _ => true
  | _ => false

theorem eq_parameter {m : Mention} (h : m.isParameter = true) : ∃ name, m = parameter name := by
  cases m with
  | parameter name => exact ⟨name, rfl⟩
  | _ => cases h

end Mention

/-! ### Types -/

namespace ShaderType

/-- The name of a type, if it has one. -/
def spelled (t : ShaderType) : List TypeName :=
  match t.spelling with
  | .ok name => [name]
  | .error _ => []

/-- The names in a constant whose elements have the names `element`. -/
def namesArranged (t : ShaderType) (element : List TypeName) : List TypeName :=
  match t.arraySize with
  | none => element
  | some n => t.spelled ++ (List.replicate n element).flatten

/-- The names in an element that is not a struct: that of its constructor, for several values. -/
def namesInPlain (t : ShaderType) : List TypeName := if 1 < t.componentCount then t.spelled else []

mutual

/-- The names in one element of a constant, in the order of its text. -/
def namesInElement : ShaderType → List TypeName
  | t@{ structDef := some { name, fields, .. }, .. } =>
    if t.basic = .struct then .userDefined name :: namesInMembers fields else t.namesInPlain
  | t@{ structDef := none, .. } => if t.basic = .struct then [] else t.namesInPlain

/-- The names in the members of a constant, in the order of its text. -/
def namesInMembers : List Field → List TypeName
  | [] => []
  | { type, .. } :: rest => type.namesArranged (namesInElement type) ++ namesInMembers rest

end

/-- The names in a constant, in the order of its text. -/
def namesInConstant (t : ShaderType) : List TypeName := t.namesArranged t.namesInElement

end ShaderType

/-- The mentions of a member: of its type, and the member itself. -/
def Field.mentions (member : Mention) (f : Field) : List Mention :=
  f.type.spelled.map .byName ++ [member]

def StructDef.mentions (d : StructDef) : List Mention :=
  .body d.name :: d.fields.flatMap fun f => f.mentions (.structField d.name f.name)

def BlockDef.mentions (d : BlockDef) : List Mention :=
  .body d.name :: d.fields.flatMap fun f => f.mentions (.blockField f.name)

/-! ### Sites -/

/-- A part of a tree that has mentions of its own. -/
inductive Site where
  | mention (m : Mention)
  /-- The type of a declaration, of a parameter or of what a function returns. -/
  | occurrence (t : ShaderType)

namespace Site

/-- The mentions of a site after the structs `declared`: a struct that is not among them is written
with its body, and so is a block wherever it occurs. -/
def mentions (declared : List StructId) : Site → List Mention
  | mention m => [m]
  | occurrence t =>
    match t.basic with
    | .struct =>
      match t.structDef with
      | some d =>
        if isWritten declared d.id d.name then t.spelled.map .byName else d.mentions
      | none => []
    | .block =>
      match t.blockDef with
      | some d => d.mentions
      | none => []
    | _ => t.spelled.map .byName

/-- The structs that are written after a site. -/
def declare (declared : List StructId) : Site → List StructId
  | mention _ => declared
  | occurrence t =>
    match t.basic, t.structDef with
    | .struct, some d =>
      if isWritten declared d.id d.name then declared else withBody declared d.id d.name
    | _, _ => declared

end Site

/-- The mentions of sites in a row. -/
def mentionsAfter (declared : List StructId) : List Site → List Mention
  | [] => []
  | site :: rest => site.mentions declared ++ mentionsAfter (site.declare declared) rest

/-! ### Nodes -/

/-- A reference to a variable mentions it, unless it is the counter of a loop around. -/
def Variable.referenceSites (counters : List SymbolId) (v : Variable) : List Site :=
  if v.id ∈ counters then [] else [.mention (.reference v.name)]

/-- A parameter: its type, and its name unless it has none. -/
def Variable.parameterSites (p : Variable) : List Site :=
  .occurrence p.type :: if p.name.text = "" then [] else [.mention (.parameter p.name)]

/-- The returned type, the function itself, and its parameters. -/
def Prototype.sites (p : Prototype) : List Site :=
  .occurrence p.returnType :: .mention (.functionHead p.name) ::
    p.parameters.flatMap Variable.parameterSites

/-- What is called: a function that is not emulated, or the type whose constructor it is. -/
def Callee.sites (type : ShaderType) (emulated : Bool) : Callee → List Site
  | function name => if emulated then [] else [.mention (.call name)]
  | constructor => type.spelled.map fun name => .mention (.constructor name)
  | intrinsic _ => []

/-- The member of a type at a position. -/
def ShaderType.accessSites (t : ShaderType) (ofBlock : Bool) (index : Int) : List Site :=
  if ofBlock then
    match t.blockDef with
    | none => []
    | some d => (fieldAt? d.fields index).toList.map fun f => .mention (.blockAccess f.name)
  else
    match t.structDef with
    | none => []
    | some d => (fieldAt? d.fields index).toList.map fun f => .mention (.structAccess d.name f.name)

/-- The three names in the header of the loop around unrolled copies. -/
def CountingLoop.headerSites (l : CountingLoop) : List Site :=
  List.replicate 3 (.mention (.loopHeader l.var.name))

namespace Node

/-- The member that a constant position selects from an owner. -/
def accessSites (ofBlock : Bool) (owner position : Node) : List Site :=
  match position.asInt?, owner.type? with
  | some index, some t => t.accessSites ofBlock index
  | _, _ => []

mutual

/-- The sites of a tree in the order of its text, where `counters` count the loops around it that
are unrolled. -/
def sites (counters : List SymbolId) : Node → List Site
  | symbol v | invariantDeclaration v => v.referenceSites counters
  | constant type _ => type.namesInConstant.map fun name => .mention (.constant name)
  | unary _ operand _ _ => operand.sites counters
  | binary op left right _ _ =>
    match op.form with
    | .between _ | .index _ => left.sites counters ++ right.sites counters
    | .member ofBlock => left.sites counters ++ accessSites ofBlock left right
  | ternary condition whenTrue whenFalse _ =>
    condition.sites counters ++ (whenTrue.sites counters ++ whenFalse.sites counters)
  | swizzle operand _ _ => operand.sites counters
  | call callee arguments type emulated =>
    callee.sites type emulated ++ eachSites counters arguments
  | prototype head => head.sites
  | declaration declarators =>
    match declarators with
    | [] => []
    | first :: _ => .occurrence first.var.type :: declaratorSites counters declarators
  | block statements => eachSites counters statements
  | ifElse condition whenTrue whenFalse =>
    condition.sites counters ++ (bodySites counters whenTrue ++ bodySites counters whenFalse)
  | switch selector body => selector.sites counters ++ bodySites counters body
  | case label => optionalSites counters label
  | loop kind init condition step body unroll =>
    if unroll then
      match CountingLoop.ofLoop kind init condition step with
      | .error _ => []
      | .ok l =>
        l.headerSites ++
          (List.replicate l.iterations (bodySites (l.var.id :: counters) body)).flatten
    else
      match kind with
      | .forLoop =>
        optionalSites counters init ++ (optionalSites counters condition ++
          (optionalSites counters step ++ bodySites counters body))
      | .whileLoop => optionalSites counters condition ++ bodySites counters body
      | .doWhileLoop => bodySites counters body ++ optionalSites counters condition
  | branch kind value => if kind = .return then optionalSites counters value else []
  | function head body => head.sites ++ eachSites counters body

def eachSites (counters : List SymbolId) : List Node → List Site
  | [] => []
  | node :: rest => node.sites counters ++ eachSites counters rest

def optionalSites (counters : List SymbolId) : Option Node → List Site
  | none => []
  | some node => node.sites counters

def bodySites (counters : List SymbolId) : Option (List Node) → List Site
  | none => []
  | some statements => eachSites counters statements

def declaratorSites (counters : List SymbolId) : List Declarator → List Site
  | [] => []
  | { var, initializer } :: rest =>
    .mention (.declarator var.name) ::
      (optionalSites counters initializer ++ declaratorSites counters rest)

end

/-- **The mentions of a tree,** in the order of its text. -/
def mentions (root : Node) : List Mention := mentionsAfter [] (root.sites [])

end Node

end ShaderText
