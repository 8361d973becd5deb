import ShaderText.Proofs.ConstantValues
import ShaderText.Proofs.Unrollable

/-! # Well-formed trees

A tree need not be fit to be written. `Node.WellFormed` says which trees are, without a word about
fragments or passes: the nodes are listed in the order in which they are written (`Node.visited`),
and each has a condition of its own (`Node.WritableAfter`). The copies of an unrolled loop list its
body once each; what the text does not hold, such as the header of an unrolled loop or the position
of a member, is not listed but only inspected.

The one condition that looks beyond its node is that on the members of structs and blocks. They are
written by name, so a struct among them must have been written before, as the type of an earlier
declaration, parameter or returned type (`StructDef.IsDeclaredIn`). Conditions of this kind are
`EachAfter`: they hold of each item of a list after what the items in front of it have written.

A constant must have as many values as its type. Counts of types are words, and a tree that is well
formed by them (`Node.WellFormedByCounts`) is so exactly if no count wraps around
(`Node.wellFormed_iff_of_hasValueList`). -/

namespace ShaderText

/-! ### Conditions that depend on what is written before -/

section

variable {α : Type} {writes : α → List ShaderType} {holds : List ShaderType → α → Prop}
  {written : List ShaderType} {items front back : List α} {item : α}

/-- A condition that holds of each item of a list after the types that are written before it: those
of `written` and those that the items in front of it write. -/
def EachAfter (writes : α → List ShaderType) (holds : List ShaderType → α → Prop)
    (written : List ShaderType) (items : List α) : Prop :=
  ∀ front item back, items = front ++ item :: back → holds (written ++ front.flatMap writes) item

theorem eachAfter_nil : EachAfter writes holds written [] := by
  intro front item back h
  simp at h

theorem eachAfter_cons :
    EachAfter writes holds written (item :: back) ↔
      holds written item ∧ EachAfter writes holds (written ++ writes item) back := by
  constructor
  · intro h
    refine ⟨by simpa using h [] item back rfl, fun front next rest heq => ?_⟩
    have hnext := h (item :: front) next rest (by rw [heq]; rfl)
    rwa [List.flatMap_cons, ← List.append_assoc] at hnext
  · rintro ⟨hitem, hback⟩ front next rest heq
    cases front with
    | nil =>
      cases heq
      simpa using hitem
    | cons first front =>
      cases heq
      rw [List.flatMap_cons, ← List.append_assoc]
      exact hback front next rest rfl

theorem eachAfter_append :
    EachAfter writes holds written (front ++ back) ↔
      EachAfter writes holds written front ∧
        EachAfter writes holds (written ++ front.flatMap writes) back := by
  induction front generalizing written with
  | nil => simp [eachAfter_nil]
  | cons item front ih =>
    rw [List.cons_append, eachAfter_cons, eachAfter_cons, ih, List.flatMap_cons, List.append_assoc,
      and_assoc]

/-- A condition that has one part which is the same wherever an item stands. -/
theorem eachAfter_iff_and {holds' : List ShaderType → α → Prop} {always : α → Prop}
    (h : ∀ item ∈ items, ∀ written, holds written item ↔ holds' written item ∧ always item) :
    EachAfter writes holds written items ↔
      EachAfter writes holds' written items ∧ ∀ item ∈ items, always item := by
  induction items generalizing written with
  | nil => simp [eachAfter_nil]
  | cons item items ih =>
    rw [List.forall_mem_cons] at h ⊢
    rw [eachAfter_cons, eachAfter_cons, h.1, ih h.2, and_and_and_comm]

end

/-! ### Types that can be written -/

/-- A type whose text brings the body of a named struct, here or earlier. -/
def ShaderType.Introduces (t : ShaderType) (id : StructId) : Prop :=
  t.basic = .struct ∧ ∃ d, t.structDef = some d ∧ d.name ≠ "" ∧ d.id = id

/-- A named struct whose body is written once `written` are. -/
def StructDef.IsDeclaredIn (written : List ShaderType) (d : StructDef) : Prop :=
  d.name ≠ "" ∧ ∃ t ∈ written, t.Introduces d.id

/-- A member that can be written: its type has a name, and is no struct that is still to come. -/
structure Field.WritableAfter (written : List ShaderType) (f : Field) : Prop where
  spellable : f.type.IsSpellable
  declared : f.type.basic = .struct → ∀ d, f.type.structDef = some d → d.IsDeclaredIn written

namespace ShaderType

/-- A type that can be written where a declaration, a parameter or a function names it. -/
structure WritableAfter (written : List ShaderType) (t : ShaderType) : Prop where
  memory : t.memory.keywords ≠ [] → t.basic.isImage = true
  spellable : t.IsSpellable
  /-- A struct is written with its members unless it has been written before. -/
  structMembers : t.basic = .struct → ∀ d, t.structDef = some d → ¬ d.IsDeclaredIn written →
    ∀ f ∈ d.fields, f.WritableAfter written
  /-- An interface block is written with its members wherever it occurs. -/
  blockMembers : t.basic = .block → ∀ d, t.blockDef = some d →
    ∀ f ∈ d.fields, f.WritableAfter written

/-- Types that can be written one after another. -/
abbrev EachWritableAfter (written types : List ShaderType) : Prop :=
  EachAfter (fun t => [t]) WritableAfter written types

/-- A type whose layout can be written: the format of an image needs one of two qualifiers. -/
def HasWritableLayout (t : ShaderType) : Prop :=
  t.basic.isImage = true → t.imageFormat ≠ .unspecified →
    t.qualifier = .temporary ∨ t.qualifier = .uniform

/-- The members that a selection of a struct or of a block chooses from. -/
def members? (t : ShaderType) (ofBlock : Bool) : Option (List Field) :=
  if ofBlock then t.blockDef.map BlockDef.fields else t.structDef.map StructDef.fields

end ShaderType

/-- The types in the head of a function, in the order in which they are written. -/
def Prototype.types (p : Prototype) : List ShaderType :=
  p.returnType :: p.parameters.map Variable.type

/-! ### Nodes that can be written -/

/-- Operands that an operator of some form can be written with: a clamped index needs a last one to
clamp to, and a member needs a constant position that its owner has. -/
def BinaryForm.Fits (left right : Node) (clamped : Bool) : BinaryForm → Prop
  | between _ => True
  | index computed =>
    computed = true → clamped = true → ∃ t, left.type? = some t ∧ t.arraySize ≠ some 0
  | member ofBlock =>
    ∃ index t members, right.asInt? = some index ∧ left.type? = some t ∧
      t.members? ofBlock = some members ∧ 0 ≤ index ∧ index < members.length

namespace Node

/-- The types that a node writes itself. -/
def writtenTypes : Node → List ShaderType
  | declaration (first :: _) => [first.var.type]
  | prototype head | function head _ => head.types
  | _ => []

/-- The condition on a node, whatever its parts are, after some types are written. A constant has as
many values as `size` says that its type has. -/
def WritableBy (size : ShaderType → Nat) (written : List ShaderType) : Node → Prop
  | constant type values =>
    values.length = size type ∧ ∀ part ∈ type.constantTypes, part.IsSpellable
  | binary op left right _ clamped => op.form.Fits left right clamped
  | swizzle _ offsets _ => ∀ offset ∈ offsets, offset ≤ 3
  | call callee _ type _ => callee = .constructor → type.IsSpellable
  | declaration declarators =>
    match declarators with
    | [] => False
    | first :: _ => first.var.type.HasWritableLayout ∧ first.var.type.WritableAfter written
  | prototype head | function head _ => ShaderType.EachWritableAfter written head.types
  | loop kind init condition step _ unroll =>
    if unroll then ∃ l : CountingLoop, l.Describes kind init condition step
    else kind ≠ .forLoop → condition.isSome
  | _ => True

/-- The condition on a node, with the number of values that a constant of a type takes. -/
abbrev WritableAfter : List ShaderType → Node → Prop := WritableBy ShaderType.valueCount

mutual

/-- The nodes of a tree that are written, each before its parts, in the order of the text. -/
def visited : Node → List Node
  | symbol v => [symbol v]
  | constant type values => [constant type values]
  | unary op operand type emulated => unary op operand type emulated :: operand.visited
  | binary op left right type clamped =>
    binary op left right type clamped :: (left.visited ++
      match op.form with
      | .member _ => []
      | _ => right.visited)
  | ternary condition whenTrue whenFalse type =>
    ternary condition whenTrue whenFalse type ::
      (condition.visited ++ (whenTrue.visited ++ whenFalse.visited))
  | swizzle operand offsets type => swizzle operand offsets type :: operand.visited
  | call callee arguments type emulated =>
    call callee arguments type emulated :: visitedEach arguments
  | prototype head => [prototype head]
  | invariantDeclaration v => [invariantDeclaration v]
  | declaration declarators => declaration declarators :: visitedDeclarators declarators
  | block statements => block statements :: visitedEach statements
  | ifElse condition whenTrue whenFalse =>
    ifElse condition whenTrue whenFalse ::
      (condition.visited ++ (visitedBody whenTrue ++ visitedBody whenFalse))
  | switch selector body => switch selector body :: (selector.visited ++ visitedBody body)
  | case label => case label :: visitedOption label
  | loop kind init condition step body unroll =>
    loop kind init condition step body unroll ::
      if unroll then
        match CountingLoop.ofLoop kind init condition step with
        | .ok l => (List.replicate l.iterations (visitedBody body)).flatten
        | .error _ => []
      else
        match kind with
        | .forLoop =>
          visitedOption init ++ (visitedOption condition ++
            (visitedOption step ++ visitedBody body))
        | .whileLoop => visitedOption condition ++ visitedBody body
        | .doWhileLoop => visitedBody body ++ visitedOption condition
  | branch kind value =>
    branch kind value :: if kind = .return then visitedOption value else []
  | function head body => function head body :: visitedEach body

def visitedEach : List Node → List Node
  | [] => []
  | node :: rest => node.visited ++ visitedEach rest

def visitedOption : Option Node → List Node
  | none => []
  | some node => node.visited

def visitedBody : Option (List Node) → List Node
  | none => []
  | some statements => visitedEach statements

def visitedDeclarators : List Declarator → List Node
  | [] => []
  | { initializer, .. } :: rest => visitedOption initializer ++ visitedDeclarators rest

end

/-- Nodes that can be written one after another. -/
abbrev EachWritableAfter (written : List ShaderType) (nodes : List Node) : Prop :=
  EachAfter writtenTypes WritableAfter written nodes

/-- A tree that can be written: every node that is written meets its condition where it stands. -/
def WellFormed (root : Node) : Prop := EachWritableAfter [] root.visited

/-! ### Counts in words -/

/-- A tree that is well formed by the counts of its types, which are words. -/
def WellFormedByCounts (root : Node) : Prop :=
  EachAfter writtenTypes (WritableBy ShaderType.objectSize) [] root.visited

/-- A constant has a list of values whose length is a word. -/
def HasValueList : Node → Prop
  | constant _ values => values.length < 2 ^ 64
  | _ => True

/-- The count of a constant does not wrap around. -/
def HasCount : Node → Prop
  | constant type _ => type.valueCount < 2 ^ 64
  | _ => True

/-- Where the length of its list is a word, a constant has the right number of values exactly if it
has as many as are counted and the count is right. -/
theorem writableAfter_iff_of_hasValueList {n : Node} (h : n.HasValueList)
    (written : List ShaderType) :
    n.WritableAfter written ↔ n.WritableBy ShaderType.objectSize written ∧ n.HasCount := by
  cases n with
  | constant type values =>
    have hvalues : values.length < 2 ^ 64 := h
    show (values.length = type.valueCount ∧ _) ↔
      (values.length = type.objectSize ∧ _) ∧ type.valueCount < 2 ^ 64
    constructor
    · rintro ⟨hlength, hspellable⟩
      have hcount : type.valueCount < 2 ^ 64 := hlength ▸ hvalues
      exact ⟨⟨hlength.trans (ShaderType.objectSize_eq_valueCount_iff.mpr hcount).symm, hspellable⟩,
        hcount⟩
    · rintro ⟨⟨hlength, hspellable⟩, hcount⟩
      exact ⟨hlength.trans (ShaderType.objectSize_eq_valueCount_iff.mpr hcount), hspellable⟩
  | _ => exact (and_iff_left trivial).symm

/-- **A tree is well formed exactly if it is by the counts of its types and these do not wrap.** -/
theorem wellFormed_iff_of_hasValueList {root : Node} (h : ∀ n ∈ root.visited, n.HasValueList) :
    root.WellFormed ↔ root.WellFormedByCounts ∧ ∀ n ∈ root.visited, n.HasCount :=
  eachAfter_iff_and fun n hn => writableAfter_iff_of_hasValueList (h n hn)

end Node

end ShaderText
