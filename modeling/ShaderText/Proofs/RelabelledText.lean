import ShaderText.Proofs.RelabelledTrace
import ShaderText.Proofs.Memo

/-! # The text of relabelled trees

Every part of a tree is laid out as the relabelled part is, label for label: types and members
(`Relabelling.relates_occurrence`), expressions, statements and functions. By induction on the tree
**a tree and the relabelled one both fail, for reasons that correspond, or both come to the same
tokens up to the labels (`Relabelling.corresponds_tokens`).** -/

namespace ShaderText

namespace Relabelling

variable {m : Relabelling} {c : Config}

/-! ### Types -/

theorem relates_keywordText (keyword : String) :
    m.Relates c (keywordText keyword) (keywordText keyword) := by
  unfold keywordText
  split_ifs
  · exact relates_nil
  · exact relates_text _

theorem relates_nameFragment (t : ShaderType) :
    m.Relates c [t.nameFragment] [(m.type t).nameFragment] := by
  unfold ShaderType.nameFragment
  rw [spelling_type]
  cases t.spelling with
  | error cause => exact relates_same_fail cause
  | ok name => exact relates_typeName name

section

variable (hm : m.Respects c)

include hm

theorem relates_reference_type (t : ShaderType) :
    m.Relates c (t.reference c) ((m.type t).reference c) := by
  refine Relates.append ?_ (relates_nameFragment t)
  rw [precision_type]
  split_ifs with hprecision
  · rw [hm.precision_eq hprecision]
    exact relates_keywordText _
  · exact relates_nil

theorem relates_requirement (f : Field) (name : String) :
    m.Relates c f.requirement (Field.requirement { name, type := m.type f.type }) := by
  unfold Field.requirement
  simp only [basic_type, structDef_type]
  split_ifs
  · cases f.type.structDef with
    | none => exact relates_same_fail _
    | some d => exact relates_singleton fun _ _ _ _ => relatesTrace_require hm d.id d.name
  · exact relates_nil

/-- A member with other labels. -/
theorem relates_field (f : Field) (rename : String → String) {name name' : Fragment}
    (hname : m.Relates c [name] [name']) :
    m.Relates c (f.fragments c name)
      (Field.fragments c name' { name := rename f.name, type := m.type f.type }) := by
  have htail := (hname.append_text (f.type.brackets ++ ";\n")).text_cons " "
  unfold Field.fragments
  rw [brackets_type]
  exact ((relates_requirement hm f _).append (relates_reference_type hm f.type)).append htail

theorem relates_fields (rename : String → String) {name name' : String → Fragment}
    (hname : ∀ field, m.Relates c [name field] [name' (rename field)]) (fields : List Field) :
    m.Relates c (fields.flatMap fun f => f.fragments c (name f.name))
      ((m.fields rename fields).flatMap fun f => f.fragments c (name' f.name)) := by
  induction fields with
  | nil => exact relates_nil
  | cons f rest ih =>
    rw [fields_eq_map, List.map_cons, ← fields_eq_map, List.flatMap_cons, List.flatMap_cons]
    exact (relates_field hm f rename (hname f.name)).append ih

theorem relates_structBody (d : StructDef) :
    m.Relates c (d.body c) ((m.structDef d).body c) := by
  have hfields := relates_fields hm (m.member d.name)
    (fun field => relates_member d.name field) d.fields
  exact ((((relates_typeName (.userDefined d.name)).append_text "\x7b\n").text_cons
    "struct ").append hfields).append_text "\x7d"

theorem relates_blockBody (d : BlockDef) :
    m.Relates c (d.body c) ((m.blockDef d).body c) := by
  have hfields := relates_fields hm m.blockMember relates_blockMember d.fields
  exact (((relates_typeName (.userDefined d.name)).append_text "\x7b\n").append
    hfields).append_text "\x7d"

theorem relates_typeBody (t : ShaderType) : m.Relates c (t.body c) ((m.type t).body c) := by
  have hreference := relates_reference_type hm t
  unfold ShaderType.body
  rw [basic_type, structDef_type, blockDef_type]
  split
  · cases t.structDef with
    | none => exact relates_same_fail _
    | some d =>
      exact relates_singleton fun b b' hb depth => RelatesTrace.once hm
        (relates_structBody hm d b b' hb depth) (hreference b b' hb depth) d.id d.name
  · cases t.blockDef with
    | none => exact relates_same_fail _
    | some d => exact relates_blockBody hm d
  · exact hreference

omit hm in
theorem relates_blockLayout (t : ShaderType) :
    m.Relates c t.blockLayout (m.type t).blockLayout := by
  unfold ShaderType.blockLayout
  rw [basic_type, blockDef_type]
  split_ifs
  · cases t.blockDef with
    | none => exact relates_same_fail _
    | some d => exact relates_text _
  · exact relates_nil

omit hm in
theorem relates_memoryQualifiers (t : ShaderType) :
    m.Relates c t.memoryQualifiers (m.type t).memoryQualifiers := by
  unfold ShaderType.memoryQualifiers
  rw [basic_type, memory_type]
  induction t.memory.keywords with
  | nil => exact relates_nil
  | cons keyword rest ih =>
    refine Relates.cons ?_ ih
    split_ifs
    · exact relates_text _
    · exact relates_same_fail _

/-- The storage qualifier that is written. -/
theorem storageText_qualifier (q : Qualifier) :
    (if (m.qualifier q).isStorageFree then "" else c.storageKeyword (m.qualifier q)) =
      if q.isStorageFree then "" else c.storageKeyword q := by
  have hfree : ∀ q : Qualifier, q.isStorageFree = true → c.storageKeyword q = "" := by
    intro q hq
    simp only [Qualifier.isStorageFree, Bool.or_eq_true, beq_iff_eq] at hq
    rcases hq with rfl | rfl <;> rfl
  have hall : ∀ q : Qualifier, (if q.isStorageFree then "" else c.storageKeyword q) =
      c.storageKeyword q := by
    intro q
    split_ifs with hq
    · exact (hfree q hq).symm
    · rfl
  rw [hall, hall, hm.storageKeyword_eq]

/-- **A type with its qualifiers, and the relabelled one.** -/
theorem relates_occurrence (t : ShaderType) :
    m.Relates c (t.occurrence c) ((m.type t).occurrence c) := by
  have hinvariant : (m.invariant t.invariant && !c.removesInvariant) =
      (t.invariant && !c.removesInvariant) := by
    cases hremoves : c.removesInvariant with
    | true => rw [Bool.not_true, Bool.and_false, Bool.and_false]
    | false => rw [hm.invariant_eq hremoves]
  unfold ShaderType.occurrence
  rw [invariant_type, hinvariant, qualifier_type, storageText_qualifier hm]
  refine ((((?_ : m.Relates c _ _).append (relates_blockLayout t)).append
    (relates_keywordText _)).append (relates_memoryQualifiers t)).append (relates_typeBody hm t)
  split_ifs
  · exact relates_text _
  · exact relates_nil

theorem relates_layout (t : ShaderType) : m.Relates c t.layout (m.type t).layout := by
  have hlocation : (m.type t).location? = t.location? := by
    unfold ShaderType.location?
    rw [qualifier_type, hm.acceptsLocation_eq, location_type]
  have hformat : (m.type t).formatKeyword? = t.formatKeyword? := by
    unfold ShaderType.formatKeyword?
    rw [basic_type, imageFormat_type]
  unfold ShaderType.layout
  rw [basic_type, hlocation, hformat, qualifier_type, hm.acceptsImageFormat_eq]
  by_cases hnone : t.basic = .block ∨ (t.location? = none ∧ t.formatKeyword? = none)
  · simp only [if_pos hnone]
    exact relates_nil
  · simp only [if_neg hnone]
    refine (((relates_text _).append ?_).append ?_).append_text ") "
    · cases t.location? with
      | none => exact relates_nil
      | some n => exact relates_text _
    · cases t.formatKeyword? with
      | none => exact relates_nil
      | some keyword =>
        dsimp only
        split_ifs
        · exact relates_text _
        · exact relates_fail (.imageFormatContext t.qualifier)

/-! ### Parts of functions -/

theorem relates_parameter (p : Variable) :
    m.Relates c (parameterFragments c p) (parameterFragments c (m.var p)) := by
  have hname : m.Relates c
      (if p.name.text = "" then [] else [.text " ", .parameterName p.name])
      (if (m.name p.name).text = "" then [] else [.text " ", .parameterName (m.name p.name)]) := by
    by_cases hempty : p.name.text = ""
    · rw [if_pos hempty, if_pos ((hm.name_eq_empty_iff p.name).mpr hempty)]
      exact relates_nil
    · rw [if_neg hempty, if_neg (mt (hm.name_eq_empty_iff p.name).mp hempty)]
      exact (relates_parameterName p.name).text_cons " "
  show m.Relates c (p.type.occurrence c ++ _ ++ [.text p.type.brackets])
    ((m.type p.type).occurrence c ++ _ ++ [.text (m.type p.type).brackets])
  rw [brackets_type]
  exact ((relates_occurrence hm p.type).append hname).append_text p.type.brackets

theorem relates_parameterList (p : Prototype) :
    m.Relates c (p.parameterList c) ((m.prototype p).parameterList c) := by
  have hparameters : List.Forall₂ (m.Relates c) (p.parameters.map (parameterFragments c))
      ((m.prototype p).parameters.map (parameterFragments c)) := by
    rw [prototype, List.map_map, List.forall₂_map_left_iff, List.forall₂_map_right_iff]
    exact List.forall₂_same.mpr fun v _ => relates_parameter hm v
  exact ((relates_commaSeparated hparameters).append_text ")").text_cons "("

theorem relates_head (p : Prototype) : m.Relates c (p.head c) ((m.prototype p).head c) := by
  have hname := (relates_function (m := m) (c := c) p.name false).text_cons
    (p.returnType.brackets ++ " ")
  unfold Prototype.head
  rw [prototype, brackets_type]
  exact (relates_occurrence hm p.returnType).append hname

omit hm in
/-- The loop around the copies. -/
theorem relates_header (l : CountingLoop) :
    m.Relates c l.header (m.countingLoop l).header := by
  have hname := relates_variableName (m := m) (c := c) l.var.name
  exact (relates_text _).append (hname.append ((relates_text _).append (hname.append
    ((relates_text _).append (hname.append (relates_text _))))))

end

/-! ### Parts of expressions -/

/-- The name of a member at a position. -/
theorem relates_memberName (t : ShaderType) (ofBlock : Bool) (index : Int) :
    m.Relates c [t.memberName ofBlock index] [(m.type t).memberName ofBlock index] := by
  have hfield : ∀ (rename : String → String) (fields : List Field),
      fieldAt? (m.fields rename fields) index =
        (fieldAt? fields index).map fun f => { name := rename f.name, type := m.type f.type } := by
    intro rename fields
    rw [fields_eq_map]
    unfold fieldAt?
    split_ifs
    · rfl
    · exact List.getElem?_map
  have hlength : ∀ (rename : String → String) (fields : List Field),
      (m.fields rename fields).length = fields.length := by
    intro rename fields
    rw [fields_eq_map, List.length_map]
  unfold ShaderType.memberName
  rw [structDef_type, blockDef_type]
  split_ifs
  · cases t.blockDef with
    | none => exact relates_same_fail _
    | some d =>
      simp only [Option.map_some, blockDef, hfield, hlength]
      cases fieldAt? d.fields index with
      | none => exact relates_fail (.fieldIndexOutOfRange d.name index d.fields.length)
      | some f => exact relates_blockMember f.name
  · cases t.structDef with
    | none => exact relates_same_fail _
    | some d =>
      simp only [Option.map_some, structDef, hfield, hlength]
      cases fieldAt? d.fields index with
      | none => exact relates_fail (.fieldIndexOutOfRange d.name index d.fields.length)
      | some f => exact relates_member d.name f.name

theorem relates_memberSelection (ofBlock : Bool) (owner position : Node)
    {operand operand' : List Fragment} (h : m.Relates c operand operand') :
    m.Relates c (memberSelection ofBlock owner position operand)
      (memberSelection ofBlock (m.node owner) (m.node position) operand') := by
  unfold memberSelection
  rw [asInt?_node, type?_node]
  cases position.asInt? with
  | none => exact relates_same_fail _
  | some index =>
    cases owner.type? with
    | none => exact relates_same_fail _
    | some t => exact h.append ((relates_memberName t ofBlock index).text_cons ".")

theorem relates_zeroLengthArray (indexed : Node) :
    m.Relates c [.fail (.zeroLengthArray indexed.description)]
      [.fail (.zeroLengthArray (m.node indexed).description)] := by
  cases indexed with
  | symbol v =>
    rw [node]
    exact relates_fail (.zeroLengthArray v.name)
  | _ => rw [node]; exact relates_same_fail _

theorem relates_clampedIndex (indexed : Node) {index index' : List Fragment}
    (h : m.Relates c index index') :
    m.Relates c (clampedIndex c indexed index) (clampedIndex c (m.node indexed) index') := by
  unfold clampedIndex
  rw [type?_node]
  cases indexed.type? with
  | none => exact relates_same_fail _
  | some t =>
    have hlast : (m.type t).lastIndex = t.lastIndex := by
      unfold ShaderType.lastIndex
      rw [arraySize_type, cols_type]
    simp only [Option.map_some, arraySize_type, hlast]
    split_ifs
    · exact relates_zeroLengthArray indexed
    · cases c.clamping with
      | byIntrinsic => exact (h.append_text _).text_cons _
      | byHelper => exact (h.append_text _).text_cons _

theorem relates_callee (callee : Callee) (t : ShaderType) (emulated : Bool) :
    m.Relates c (callee.fragments t emulated)
      ((m.callee callee).fragments (m.type t) emulated) := by
  cases callee with
  | function name => exact relates_function name emulated
  | constructor =>
    show m.Relates c [t.nameFragment, .text t.brackets]
      [(m.type t).nameFragment, .text (m.type t).brackets]
    rw [brackets_type]
    exact (relates_nameFragment t).append_text t.brackets
  | intrinsic op => exact relates_intrinsic op.name emulated

theorem relates_swizzleSelection (offsets : List Nat) :
    m.Relates c (swizzleSelection offsets) (swizzleSelection offsets) := by
  unfold swizzleSelection
  cases offsets.mapM componentLetter? with
  | none => exact relates_same_fail _
  | some letters => exact relates_text _

/-! ### Nodes -/

mutual

/-- **A tree is laid out as the relabelled one is.** -/
theorem relates_node (hm : m.Respects c) : (n : Node) →
    m.Relates c (n.fragments c) ((m.node n).fragments c)
  | .symbol v => relates_reference v.id v.name
  | .constant type values => relates_constant type values
  | .unary op operand type emulated => by
    have hoperand := relates_node hm operand
    rw [node, Node.fragments, Node.fragments]
    cases op.form with
    | around before after => exact (hoperand.append_text after).text_cons before
    | call name =>
      exact (((relates_intrinsic name emulated).append_text "(").append hoperand).append_text ")"
  | .binary op left right type clamped => by
    have hleft := relates_node hm left
    have hright := relates_node hm right
    rw [node, Node.fragments, Node.fragments]
    cases op.form with
    | between separator =>
      exact (hleft.append ((hright.append_text ")").text_cons separator)).text_cons "("
    | index computed =>
      dsimp only
      split_ifs
      · exact hleft.append (relates_clampedIndex left hright)
      · exact hleft.append ((hright.append_text "]").text_cons "[")
    | member ofBlock => exact relates_memberSelection ofBlock left right hleft
  | .ternary condition whenTrue whenFalse type => by
    have hcondition := relates_node hm condition
    have htrue := relates_node hm whenTrue
    have hfalse := (relates_node hm whenFalse).append_text "))"
    rw [node, Node.fragments, Node.fragments]
    exact (hcondition.append ((htrue.append (hfalse.text_cons ") : (")).text_cons
      ") ? (")).text_cons "(("
  | .swizzle operand offsets type => by
    rw [node, Node.fragments, Node.fragments]
    exact (relates_node hm operand).append (relates_swizzleSelection offsets)
  | .call callee arguments type emulated => by
    have harguments := (relates_commaSeparated (relates_each hm arguments)).append_text ")"
    rw [node, Node.fragments, Node.fragments]
    exact (relates_callee callee type emulated).append (harguments.text_cons "(")
  | .prototype head => (relates_head hm head).append (relates_parameterList hm head)
  | .invariantDeclaration v => (relates_reference v.id v.name).text_cons "invariant "
  | .declaration [] => relates_same_fail _
  | .declaration ({ var, initializer } :: rest) => by
    have hdeclarators :=
      relates_commaSeparated (relates_declarators hm ({ var, initializer } :: rest))
    rw [node, declarators, Node.fragments, Node.fragments]
    exact ((relates_layout hm var.type).append (relates_occurrence hm var.type)).append
      (hdeclarators.text_cons " ")
  | .block statements => (relates_statements hm statements).block
  | .ifElse condition whenTrue whenFalse => by
    have hcondition := relates_node hm condition
    have htrue := relates_body hm whenTrue
    have hfalse : m.Relates c
        (if whenFalse.isSome then .text "else\n" :: Node.bodyFragments c whenFalse else [])
        (if (m.body whenFalse).isSome then
          .text "else\n" :: Node.bodyFragments c (m.body whenFalse) else []) := by
      rw [isSome_body]
      split_ifs
      · exact (relates_body hm whenFalse).text_cons "else\n"
      · exact relates_nil
    rw [node, Node.fragments, Node.fragments]
    exact (hcondition.append ((htrue.append hfalse).scope.text_cons ")\n")).text_cons "if ("
  | .switch selector body => by
    have hselector := relates_node hm selector
    have hbody : m.Relates c
        (if body.isSome then .text ") " :: Node.bodyFragments c body
          else [.text ") \x7b\x7d\n"])
        (if (m.body body).isSome then .text ") " :: Node.bodyFragments c (m.body body)
          else [.text ") \x7b\x7d\n"]) := by
      rw [isSome_body]
      split_ifs
      · exact (relates_body hm body).text_cons ") "
      · exact relates_text _
    rw [node, Node.fragments, Node.fragments]
    exact (hselector.append hbody).text_cons "switch ("
  | .case label => by
    rw [node, Node.fragments, Node.fragments, isSome_optional]
    split_ifs
    · exact ((relates_optional hm label).append_text "):\n").text_cons "case ("
    · exact relates_text _
  | .loop kind init condition step body true => by
    have hbody := relates_body hm body
    rw [node, Node.fragments.eq_def, Node.fragments.eq_def]
    dsimp only
    rw [ofLoop_optional hm.symbol_injective]
    cases CountingLoop.ofLoop kind init condition step with
    | error obstacle => exact (relates_same_fail _).scope
    | ok l =>
      exact ((relates_header l).append ((hbody.unrolled hm l).append_text "\x7d\n")).scope
  | .loop .forLoop init condition step body false => by
    have hbody := (relates_body hm body).text_cons ")\n"
    have hstep := ((relates_optional hm step).append hbody).text_cons "; "
    have hcondition := ((relates_optional hm condition).append hstep).text_cons "; "
    exact (((relates_optional hm init).append hcondition).text_cons "for (").scope
  | .loop .whileLoop init condition step body false => by
    have hbody := (relates_body hm body).text_cons ")\n"
    exact (((relates_condition hm .whileLoop condition).append hbody).text_cons "while (").scope
  | .loop .doWhileLoop init condition step body false => by
    have hcondition := (relates_condition hm .doWhileLoop condition).append_text ");\n"
    exact (((relates_body hm body).append (hcondition.text_cons "while (")).text_cons "do\n").scope
  | .branch kind value => by
    rw [node, Node.fragments, Node.fragments]
    refine Relates.text_cons ?_ kind.keyword
    split_ifs
    · exact relates_optional hm value
    · exact relates_nil
  | .function head body =>
    (relates_head hm head).append
      ((relates_parameterList hm head).append (relates_statements hm body).block).scope

theorem relates_each (hm : m.Respects c) : (nodes : List Node) → List.Forall₂ (m.Relates c)
    (Node.eachFragments c nodes) (Node.eachFragments c (m.nodes nodes))
  | [] => .nil
  | node :: rest => .cons (relates_node hm node) (relates_each hm rest)

theorem relates_statements (hm : m.Respects c) : (nodes : List Node) →
    m.Relates c (Node.statementFragments c nodes) (Node.statementFragments c (m.nodes nodes))
  | [] => relates_nil
  | node :: rest => by
    have hend : m.Relates c (if node.isSimpleStatement then [.text ";\n"] else [])
        (if (m.node node).isSimpleStatement then [.text ";\n"] else []) := by
      rw [isSimpleStatement_node]
      split_ifs
      · exact relates_text _
      · exact relates_nil
    exact ((relates_node hm node).append hend).append (relates_statements hm rest)

theorem relates_optional (hm : m.Respects c) : (n : Option Node) →
    m.Relates c (Node.optionalFragments c n) (Node.optionalFragments c (m.optional n))
  | none => relates_nil
  | some node => relates_node hm node

theorem relates_condition (hm : m.Respects c) (kind : LoopKind) : (n : Option Node) →
    m.Relates c (Node.conditionFragments c kind n) (Node.conditionFragments c kind (m.optional n))
  | none => relates_same_fail _
  | some node => relates_node hm node

theorem relates_body (hm : m.Respects c) : (body : Option (List Node)) →
    m.Relates c (Node.bodyFragments c body) (Node.bodyFragments c (m.body body))
  | none => relates_text _
  | some statements => (relates_statements hm statements).block

theorem relates_declarators (hm : m.Respects c) : (list : List Declarator) →
    List.Forall₂ (m.Relates c) (Node.declaratorFragments c list)
      (Node.declaratorFragments c (m.declarators list))
  | [] => .nil
  | { var, initializer } :: rest => by
    have hinitializer : m.Relates c
        (if initializer.isSome then .text " = " :: Node.optionalFragments c initializer else [])
        (if (m.optional initializer).isSome then
          .text " = " :: Node.optionalFragments c (m.optional initializer) else []) := by
      rw [isSome_optional]
      split_ifs
      · exact (relates_optional hm initializer).text_cons " = "
      · exact relates_nil
    rw [declarators, Node.declaratorFragments, Node.declaratorFragments]
    refine .cons ?_ (relates_declarators hm rest)
    show m.Relates c (.variableName var.name :: .text var.type.brackets :: _)
      (.variableName (m.name var.name) :: .text (m.type var.type).brackets :: _)
    rw [brackets_type]
    exact (relates_variableName var.name).cons (hinitializer.text_cons var.type.brackets)

end

/-- **A tree and the relabelled one come to the same tokens up to the labels,** or both fail. -/
theorem corresponds_trace (hm : m.Respects c) (root : Node) :
    m.Corresponds m.outcome (root.trace c []) ((m.node root).trace c []) :=
  relates_node hm root (fun _ => none) (fun _ => none) (fun _ => rfl) 0 []

theorem corresponds_tokens {r : Renderer} (hm : m.Respects r.config) (root : Node) :
    m.Corresponds (List.map m.token) (r.tokens root) (r.tokens (m.node root)) :=
  (corresponds_trace hm root).map fun _ => rfl

end Relabelling

end ShaderText
