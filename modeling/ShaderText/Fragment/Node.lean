import ShaderText.Fragment.Type
import ShaderText.Name.Reserved

/-!
# Fragments of expressions, statements and definitions

`Node.fragments` lays a tree out. Operands are laid out in the order of the source, each once, and
every operator brings its own parentheses. Two kinds of expression need more than their form: a
computed index that is clamped (`clampedIndex`), and the member of a struct or block, whose constant
position is resolved to a name (`memberSelection`).

A block is enclosed in braces unless it is the outermost scope of the pass. Branches, loops and
functions open a scope for the blocks they hold; a `switch` does not, its block is the only brace.
A simple statement of a block is ended by a semicolon.
-/

namespace ShaderText

/-! ### Parts of expressions -/

/-- The letter of a component. -/
def componentLetter? : Nat → Option Char
  | 0 => some 'x'
  | 1 => some 'y'
  | 2 => some 'z'
  | 3 => some 'w'
  | _ => none

/-- The selection of components by their letters. -/
def swizzleSelection (offsets : List Nat) : List Fragment :=
  match offsets.mapM componentLetter? with
  | some letters => [.text (String.ofList ('.' :: letters))]
  | none => [.fail (.malformed .swizzleOffset)]

/-- A member of a list at a position that may be negative or too large. -/
def fieldAt? (fields : List Field) (index : Int) : Option Field :=
  if index < 0 then none else fields[index.toNat]?

/-- The name of the member of a type at a position. -/
def ShaderType.memberName (t : ShaderType) (ofBlock : Bool) (index : Int) : Fragment :=
  if ofBlock then
    match t.blockDef with
    | none => .fail (.malformed .missingBlockDef)
    | some d =>
      match fieldAt? d.fields index with
      | some f => .blockMember f.name
      | none => .fail (.fieldIndexOutOfRange d.name index d.fields.length)
  else
    match t.structDef with
    | none => .fail (.malformed .missingStructDef)
    | some d =>
      match fieldAt? d.fields index with
      | some f => .member d.name f.name
      | none => .fail (.fieldIndexOutOfRange d.name index d.fields.length)

/-- The member that the constant `position` selects from `owner`, which is laid out as `operand`. -/
def memberSelection (ofBlock : Bool) (owner position : Node) (operand : List Fragment) :
    List Fragment :=
  match position.asInt?, owner.type? with
  | none, _ => [.fail (.malformed .fieldIndexNotConstant)]
  | some _, none => [.fail (.malformed .untypedOwner)]
  | some index, some t => operand ++ [.text ".", t.memberName ofBlock index]

/-- The last index of a type: of the array, or else of the vector or matrix. -/
def ShaderType.lastIndex (t : ShaderType) : Int := (t.arraySize.getD t.cols : Nat) - 1

/-- An index in brackets, kept between `0` and the last index of `indexed`. -/
def clampedIndex (c : Config) (indexed : Node) (index : List Fragment) : List Fragment :=
  match indexed.type? with
  | none => [.fail (.malformed .untypedIndexed)]
  | some t =>
    if t.arraySize = some 0 then [.fail (.zeroLengthArray indexed.description)]
    else
      match c.clamping with
      | .byIntrinsic =>
        .text "[int(clamp(float(" ::
          (index ++ [.text ("), 0.0, float(" ++ t.lastIndex.repr ++ ")))]")])
      | .byHelper =>
        .text ("[" ++ Reserved.clampHelper ++ "(") ::
          (index ++ [.text (", 0, " ++ t.lastIndex.repr ++ ")]")])

/-- The name of what is called; a constructor has the name of the type. -/
def Callee.fragments (type : ShaderType) (emulated : Bool) : Callee → List Fragment
  | function name => [.function name emulated]
  | constructor => [type.nameFragment, .text type.brackets]
  | intrinsic op => [.intrinsic op.name emulated]

/-! ### Parts of declarations and statements -/

/-- A parameter: its type, and its name unless it has none. -/
def parameterFragments (c : Config) (p : Variable) : List Fragment :=
  p.type.occurrence c ++
    (if p.name.text = "" then [] else [.text " ", .parameterName p.name]) ++ [.text p.type.brackets]

def Prototype.parameterList (c : Config) (p : Prototype) : List Fragment :=
  .text "(" :: (Fragment.commaSeparated (p.parameters.map (parameterFragments c)) ++ [.text ")"])

/-- The returned type and the name of a function. -/
def Prototype.head (c : Config) (p : Prototype) : List Fragment :=
  p.returnType.occurrence c ++
    [.text (p.returnType.brackets ++ " "), .function p.name false]

/-- The loop around the copies of an unrolled one. It runs once, so that `break` and `continue` stay
inside a loop. -/
def CountingLoop.header (l : CountingLoop) : List Fragment :=
  [.text "for (int ", .variableName l.var.name, .text " = 0; ", .variableName l.var.name,
    .text " < 1; ++", .variableName l.var.name, .text ")\n\x7b\n"]

/-- The block of statements that are laid out as `statements`. -/
def blockFragments (statements : List Fragment) : List Fragment :=
  [.brace "\x7b\n", .scope statements, .brace "\x7d\n"]

/-- The keyword of a branch; what follows `return` is its value. -/
def BranchKind.keyword : BranchKind → String
  | discard => "discard"
  | «break» => "break"
  | «continue» => "continue"
  | «return» => "return "

/-! ### Nodes -/

namespace Node

mutual

/-- The fragments of a node. -/
def fragments (c : Config) : Node → List Fragment
  | symbol v => [.reference v.id v.name]
  | constant type values => [.constant type values]
  | unary op operand _ emulated =>
    match op.form with
    | .around before after => .text before :: (operand.fragments c ++ [.text after])
    | .call name =>
      [.intrinsic name emulated, .text "("] ++ operand.fragments c ++ [.text ")"]
  | binary op left right _ clamped =>
    match op.form with
    | .between separator =>
      .text "(" :: (left.fragments c ++ .text separator :: (right.fragments c ++ [.text ")"]))
    | .index computed =>
      if computed && clamped then
        left.fragments c ++ clampedIndex c left (right.fragments c)
      else left.fragments c ++ .text "[" :: (right.fragments c ++ [.text "]"])
    | .member ofBlock => memberSelection ofBlock left right (left.fragments c)
  | ternary condition whenTrue whenFalse _ =>
    .text "((" :: (condition.fragments c ++ .text ") ? (" :: (whenTrue.fragments c ++
      .text ") : (" :: (whenFalse.fragments c ++ [.text "))"])))
  | swizzle operand offsets _ => operand.fragments c ++ swizzleSelection offsets
  | call callee arguments type emulated =>
    callee.fragments type emulated ++
      .text "(" :: (Fragment.commaSeparated (eachFragments c arguments) ++ [.text ")"])
  | prototype head => head.head c ++ head.parameterList c
  | invariantDeclaration v => [.text "invariant ", .reference v.id v.name]
  | declaration declarators =>
    match declarators with
    | [] => [.fail (.malformed .emptyDeclaration)]
    | first :: _ =>
      first.var.type.layout ++ first.var.type.occurrence c ++
        .text " " :: Fragment.commaSeparated (declaratorFragments c declarators)
  | block statements => blockFragments (statementFragments c statements)
  | ifElse condition whenTrue whenFalse =>
    .text "if (" :: (condition.fragments c ++ [.text ")\n",
      .scope (bodyFragments c whenTrue ++
        (if whenFalse.isSome then .text "else\n" :: bodyFragments c whenFalse else []))])
  | switch selector body =>
    .text "switch (" :: (selector.fragments c ++
      (if body.isSome then .text ") " :: bodyFragments c body else [.text ") \x7b\x7d\n"]))
  | case label =>
    if label.isSome then .text "case (" :: (optionalFragments c label ++ [.text "):\n"])
    else [.text "default:\n"]
  | loop kind init condition step body unroll =>
    [.scope
      (if unroll then
        match CountingLoop.ofLoop kind init condition step with
        | .error obstacle => [.fail (.unroll obstacle)]
        | .ok l =>
          l.header ++ [.unrolled l.counter l.iterations (bodyFragments c body), .text "\x7d\n"]
      else
        match kind with
        | .forLoop =>
          .text "for (" :: (optionalFragments c init ++ .text "; " ::
            (optionalFragments c condition ++ .text "; " ::
              (optionalFragments c step ++ .text ")\n" :: bodyFragments c body)))
        | .whileLoop =>
          .text "while (" :: (conditionFragments c kind condition ++
            .text ")\n" :: bodyFragments c body)
        | .doWhileLoop =>
          .text "do\n" :: (bodyFragments c body ++
            .text "while (" :: (conditionFragments c kind condition ++ [.text ");\n"])))]
  | branch kind value =>
    .text kind.keyword :: (if kind = .return then optionalFragments c value else [])
  | function head body =>
    head.head c ++
      [.scope (head.parameterList c ++ blockFragments (statementFragments c body))]

/-- The fragments of each node of a list. -/
def eachFragments (c : Config) : List Node → List (List Fragment)
  | [] => []
  | node :: rest => node.fragments c :: eachFragments c rest

/-- The fragments of the statements of a block. -/
def statementFragments (c : Config) : List Node → List Fragment
  | [] => []
  | node :: rest =>
    node.fragments c ++ (if node.isSimpleStatement then [.text ";\n"] else []) ++
      statementFragments c rest

/-- The fragments of a node that may be absent. -/
def optionalFragments (c : Config) : Option Node → List Fragment
  | none => []
  | some node => node.fragments c

/-- The condition of a loop that cannot be written without one. -/
def conditionFragments (c : Config) (kind : LoopKind) : Option Node → List Fragment
  | none => [.fail (.malformed (.conditionlessLoop kind))]
  | some node => node.fragments c

/-- The body of a compound statement; a missing one is an empty block. -/
def bodyFragments (c : Config) : Option (List Node) → List Fragment
  | none => [.text "\x7b\n\x7d\n"]
  | some statements => blockFragments (statementFragments c statements)

/-- The names, array sizes and initial values of the variables of a declaration. -/
def declaratorFragments (c : Config) : List Declarator → List (List Fragment)
  | [] => []
  | { var, initializer } :: rest =>
    (.variableName var.name :: .text var.type.brackets ::
      (if initializer.isSome then .text " = " :: optionalFragments c initializer else [])) ::
      declaratorFragments c rest

end

end Node

end ShaderText
