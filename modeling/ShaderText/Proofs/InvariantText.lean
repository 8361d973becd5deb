import ShaderText.Proofs.BracketedText
import ShaderText.Proofs.InvariantTypes
import ShaderText.Proofs.WellFormed

/-! # The keyword `invariant` in texts

Two parts of a tree ask for the keyword `invariant`: the flag of a type, and the declaration that a
variable is invariant. Some targets are to do without the keyword. On these the flag is not written,
but the declaration is, as on any other target.

By induction on the tree the keyword occurs in a text as often as a declaration of invariance is
visited (`Fragment.counts_node`). **So a text without it is that of a tree in which none is visited
(`Renderer.occurrences_invariant`).** -/

namespace ShaderText

/-- A renderer that makes the keyword of no name, for a target that does without the flag. -/
structure Renderer.DropsInvariant (r : Renderer) (ρ : String → String) : Prop where
  names : r.KeepsNames ρ LacksInvariant
  removes : r.config.removesInvariant = true

namespace Fragment

variable {r : Renderer} {ρ : String → String} {closed : Bool} {fs : List Fragment}
  {nodes : List Node}

section

variable (hr : r.KeepsNames ρ LacksInvariant)

include hr

/-! ### Parts of expressions -/

theorem counts_memberName {t : ShaderType} (ht : ∀ s ∈ t.names, LacksInvariant s) (ofBlock : Bool)
    (index : Int) : Counts r ρ false [t.memberName ofBlock index] [] := by
  rcases t.memberName_of_names ht ofBlock index with ⟨owner, field, hname, hfield⟩ |
    ⟨field, hname, hfield⟩ | ⟨cause, hname⟩
  · rw [hname]
    exact counts_member hr owner hfield
  · rw [hname]
    exact counts_blockMember hr hfield
  · rw [hname]
    exact counts_fail cause

theorem counts_memberSelection (ofBlock : Bool) {owner : Node} (position : Node)
    (howner : ∀ s ∈ owner.names, LacksInvariant s) (h : Counts r ρ closed fs nodes) :
    Counts r ρ false (memberSelection ofBlock owner position fs) (nodes ++ []) := by
  unfold memberSelection
  cases position.asInt? with
  | none => exact counts_fail _
  | some index =>
    cases htype : owner.type? with
    | none => exact counts_fail _
    | some t =>
      have ht : ∀ s ∈ t.names, LacksInvariant s :=
        fun s hs => howner s (Node.names_subset_of_type? htype hs)
      exact h.append_text_cons (counts_memberName hr ht ofBlock index) (by decide)

omit hr in
/-- A clamped index after what is indexed. -/
theorem counts_clampedIndex (indexed : Node) {operand : List Fragment} {nodes' : List Node}
    (h : Counts r ρ closed operand nodes) (h' : Counts r ρ false fs nodes') :
    Counts r ρ true (operand ++ clampedIndex r.config indexed fs) (nodes ++ nodes') := by
  unfold clampedIndex
  cases indexed.type? with
  | none => exact counts_append_fail _ _
  | some t =>
    have hclosing : ∀ {before after : String}, IsPunctuation before → after.toList ≠ [] →
        EndsWithGap after.toList → MissesLetters after →
          IsPunctuation (before ++ t.lastIndex.repr ++ after) := by
      rintro before after ⟨hne, hbegins, -, hmisses⟩ hne' hends hforeign
      refine ⟨?_, ?_, ?_, (hmisses.append (missesLetters_int_repr _)).append hforeign⟩
      · simp [hne']
      · obtain ⟨ch, rest, hbefore⟩ := List.exists_cons_of_ne_nil hne
        rw [hbefore] at hbegins
        simp only [String.toList_append, hbefore]
        exact hbegins
      · rw [String.toList_append]
        exact hends.of_append hne'
    dsimp only
    by_cases hsize : t.arraySize = some 0
    · rw [if_pos hsize]
      exact counts_append_fail _ _
    · rw [if_neg hsize]
      cases r.config.clamping with
      | byIntrinsic =>
        have hindex := h'.append_text (hclosing (by decide : IsPunctuation "), 0.0, float(")
          (by decide : ")))]".toList ≠ []) (by decide) (by decide))
        exact h.append_text_cons hindex (by decide)
      | byHelper =>
        have hindex := h'.append_text (hclosing (by decide : IsPunctuation ", 0, ")
          (by decide : ")]".toList ≠ []) (by decide) (by decide))
        exact h.append_text_cons hindex (by decide)

omit hr in
theorem counts_swizzleSelection {offsets : List Nat} (h : Counts r ρ closed fs nodes) :
    Counts r ρ false (fs ++ swizzleSelection offsets) nodes := by
  have hletters : ∀ letter ∈ ['x', 'y', 'z', 'w'], letter ≠ 'v' := by decide
  unfold swizzleSelection
  cases hoffsets : offsets.mapM componentLetter? with
  | none => exact counts_append_fail _ _
  | some letters =>
    refine h.append_ending ⟨?_, MissesLetter.lacksInvariant ⟨'v', by decide, ?_⟩⟩
    · rw [String.toList_ofList]
      exact fun ch hch => by cases hch; decide
    · rw [String.toList_ofList, List.mem_cons, not_or]
      exact ⟨by decide, fun hmem =>
        hletters _ ((mem_of_mapM_componentLetter hoffsets).2 _ hmem) rfl⟩

theorem counts_intrinsic {name : String} (h : LacksInvariant name) (emulated : Bool) :
    Counts r ρ false [.intrinsic name emulated] [] :=
  counts_name hr (t := .intrinsic name emulated) (fun _ _ => rfl) h

theorem counts_function {name : FunctionName} (h : ∀ s ∈ name.names, LacksInvariant s)
    (emulated : Bool) : Counts r ρ false [.function name emulated] [] :=
  counts_name hr (t := .function name emulated) (fun _ _ => rfl) (h _ List.mem_cons_self)

theorem counts_callee {callee : Callee} {t : ShaderType}
    (hcallee : ∀ s ∈ callee.names, LacksInvariant s) (ht : ∀ s ∈ t.names, LacksInvariant s)
    (emulated : Bool) : Counts r ρ false (callee.fragments t emulated) [] := by
  cases callee with
  | function name => exact counts_function hr hcallee emulated
  | constructor => exact (counts_nameFragment hr ht).append_ending (isEnding_brackets t)
  | intrinsic op => exact counts_intrinsic hr op.lacksInvariant_name emulated

/-! ### Parts of declarations and statements -/

variable (hremoves : r.config.removesInvariant = true)

include hremoves

theorem counts_parameter {p : Variable} (hp : ∀ s ∈ p.names, LacksInvariant s) :
    Counts r ρ false (parameterFragments r.config p) [] := by
  obtain ⟨hname, htype⟩ := List.forall_mem_cons.mp hp
  have hoccurrence := counts_occurrence hr hremoves htype
  have hparameter : Counts r ρ false [.parameterName p.name] [] :=
    counts_name hr (t := .parameter p.name) (fun _ _ => rfl) hname
  unfold parameterFragments
  refine Counts.append_ending (?_ : Counts r ρ false _ []) (isEnding_brackets p.type)
  split_ifs
  · rw [List.append_nil]
    exact hoccurrence
  · exact hoccurrence.append_text_cons hparameter (by decide)

theorem counts_parameters (parameters : List Variable)
    (h : ∀ v ∈ parameters, ∀ s ∈ v.names, LacksInvariant s) :
    Counts r ρ false (commaSeparated (parameters.map (parameterFragments r.config))) [] := by
  induction parameters with
  | nil => exact counts_nil.unclosed
  | cons v rest ih =>
    obtain ⟨hv, hrest⟩ := List.forall_mem_cons.mp h
    exact (counts_parameter hr hremoves hv).comma_cons (ih hrest)

theorem counts_head {p : Prototype} (hp : ∀ s ∈ p.names, LacksInvariant s) :
    Counts r ρ false (p.head r.config) [] := by
  obtain ⟨hname, htypes⟩ := List.forall_mem_append.mp hp
  have htype : ∀ s ∈ p.returnType.names, LacksInvariant s := (List.forall_mem_append.mp htypes).1
  have hblank : IsPunctuation " " := by decide
  exact (counts_occurrence hr hremoves htype).append_text_cons (counts_function hr hname false)
    (hblank.brackets_append p.returnType)

/-- The parameters after the parenthesis that opens their list. -/
theorem counts_parameterList {p : Prototype} (hp : ∀ s ∈ p.names, LacksInvariant s) :
    Counts r ρ true
      (commaSeparated (p.parameters.map (parameterFragments r.config)) ++ [.text ")"]) [] := by
  refine (counts_parameters hr hremoves p.parameters fun v hv s hs => hp s ?_).append_text
    (by decide)
  unfold Prototype.names
  exact List.mem_append_right _ (List.mem_append_right _ (List.mem_flatMap.mpr ⟨v, hv, hs⟩))

omit hremoves in
/-- The loop around copies. -/
theorem counts_loopHeader {l : CountingLoop} (h : LacksInvariant l.var.name.text) :
    Counts r ρ true l.header [] := by
  have hname : Counts r ρ false [.variableName l.var.name] [] := counts_variableName hr h
  have hlast : Counts r ρ true [.variableName l.var.name, .text ")\n\x7b\n"] [] :=
    hname.append_text (by decide)
  have hsecond := hname.append_text_cons hlast (by decide : IsPunctuation " < 1; ++")
  exact (hname.append_text_cons hsecond (by decide : IsPunctuation " = 0; ")).text_cons (by decide)

end

/-! ### Nodes -/

/-- The texts around the operand of a unary operator. -/
theorem isLead_of_around {op : UnaryOp} {opening closing : String}
    (h : op.form = .around opening closing) : IsLead opening ∧ IsPunctuation closing := by
  cases op <;> cases h <;> decide

theorem isPunctuation_of_between {op : BinaryOp} {separator : String}
    (h : op.form = .between separator) : IsPunctuation separator := by
  cases op <;> cases h <;> decide

/-- The declaration that a variable is invariant has the keyword once. -/
theorem counts_invariantDeclaration (hr : r.KeepsNames ρ LacksInvariant) {v : Variable}
    (hv : LacksInvariant v.name.text) :
    Counts r ρ false (Node.fragments r.config (.invariantDeclaration v))
      [.invariantDeclaration v] := by
  intro b depth declared tokens declared' hruns hlack
  obtain ⟨_, _, back, hfirst, hback, rfl⟩ := runs_cons hruns
  obtain ⟨rfl, rfl⟩ := runs_of_emit rfl hfirst
  have hkeyword : HasKeyword 1 true "invariant ".toList := ⟨by decide, fun _ => by decide⟩
  have hname := counts_reference hr v.id hv hback (List.forall_mem_append.mp hlack).2
  exact hkeyword.append hname

mutual

/-- **The keyword occurs in the text of a tree as often as a declaration of invariance is
visited.** -/
theorem counts_node (hr : r.DropsInvariant ρ) : (n : Node) → (∀ s ∈ n.names, LacksInvariant s) →
    Counts r ρ (!n.isSimpleStatement) (n.fragments r.config) n.visited
  | .symbol v, hn => (counts_reference hr.names v.id (hn _ List.mem_cons_self)).visit rfl
  | .constant type values, hn => (counts_constant hr.names hn values).visit rfl
  | .unary op operand type emulated, hn => by
    have hoperand := counts_node hr operand (List.forall_mem_append.mp hn).1
    rw [Node.fragments, Node.visited]
    refine Counts.visit ?_ rfl
    cases hform : op.form with
    | around opening closing =>
      obtain ⟨hopening, hclosing⟩ := isLead_of_around hform
      exact (hoperand.enclosed hopening hclosing).unclosed
    | call name =>
      have hname := counts_intrinsic hr.names (op.lacksInvariant_of_form_eq_call hform) emulated
      exact (hname.append_text_cons (hoperand.append_text (by decide : IsPunctuation ")"))
        (by decide : IsPunctuation "(")).unclosed
  | .binary op left right type clamped, hn => by
    obtain ⟨hleftNames, hrest⟩ := List.forall_mem_append.mp hn
    have hleft := counts_node hr left hleftNames
    have hright := counts_node hr right (List.forall_mem_append.mp hrest).1
    rw [Node.fragments, Node.visited]
    refine Counts.visit ?_ rfl
    cases hform : op.form with
    | between separator =>
      have hend := hright.append_text (by decide : IsPunctuation ")")
      exact ((hleft.append_text_cons hend (isPunctuation_of_between hform)).text_cons
        (by decide)).unclosed
    | index computed =>
      dsimp only
      split_ifs
      · exact (counts_clampedIndex left hleft hright.unclosed).unclosed
      · exact (hleft.append_text_cons (hright.append_text (by decide : IsPunctuation "]"))
          (by decide : IsPunctuation "[")).unclosed
    | member ofBlock => exact counts_memberSelection hr.names ofBlock right hleftNames hleft
  | .ternary condition whenTrue whenFalse type, hn => by
    simp only [Node.names, List.forall_mem_append] at hn
    obtain ⟨hcondition, htrue, hfalse, -⟩ := hn
    have hcondition := counts_node hr condition hcondition
    have htrue := counts_node hr whenTrue htrue
    have hfalse := counts_node hr whenFalse hfalse
    rw [Node.fragments, Node.visited]
    refine Counts.visit ?_ rfl
    exact ((hcondition.append_text_cons (htrue.append_text_cons
      (hfalse.append_text (by decide : IsPunctuation "))")) (by decide : IsPunctuation ") : ("))
      (by decide : IsPunctuation ") ? (")).text_cons (by decide)).unclosed
  | .swizzle operand offsets type, hn => by
    have hoperand := counts_node hr operand (List.forall_mem_append.mp hn).1
    exact (counts_swizzleSelection hoperand).visit rfl
  | .call callee arguments type emulated, hn => by
    obtain ⟨hcallee, hrest⟩ := List.forall_mem_append.mp hn
    obtain ⟨harguments, htype⟩ := List.forall_mem_append.mp hrest
    have harguments := counts_arguments hr arguments harguments
    rw [Node.fragments, Node.visited]
    refine Counts.visit ?_ rfl
    exact ((counts_callee hr.names hcallee htype emulated).append_text_cons
      (harguments.append_text (by decide : IsPunctuation ")")) (by decide)).unclosed
  | .prototype head, hn => by
    rw [Node.fragments, Node.visited]
    refine Counts.visit ?_ rfl
    exact ((counts_head hr.names hr.removes hn).append_text_cons
      (counts_parameterList hr.names hr.removes hn) (by decide)).unclosed
  | .invariantDeclaration v, hn => counts_invariantDeclaration hr.names (hn _ List.mem_cons_self)
  | .declaration [], _ => counts_fail _
  | .declaration ({ var, initializer } :: rest), hn => by
    have hvar : ∀ s ∈ var.names, LacksInvariant s := (List.forall_mem_append.mp hn).1
    have htype : ∀ s ∈ var.type.names, LacksInvariant s := (List.forall_mem_cons.mp hvar).2
    have hdeclarators := counts_declarators hr ({ var, initializer } :: rest) hn
    rw [Node.fragments, Node.visited]
    refine Counts.visit ?_ rfl
    have hlayout : Counts r ρ true _ [] := counts_layout var.type
    exact (hlayout.append (counts_occurrence hr.names hr.removes htype)).append_text_cons
      hdeclarators (by decide)
  | .block statements, hn => by
    rw [Node.fragments, Node.visited]
    exact (counts_statements hr statements hn).block.visit rfl
  | .ifElse condition whenTrue whenFalse, hn => by
    simp only [Node.names, List.forall_mem_append] at hn
    obtain ⟨hcondition, htrue, hfalse⟩ := hn
    have hcondition := counts_node hr condition hcondition
    have htrue := counts_body hr whenTrue htrue
    have hfalse := counts_body hr whenFalse hfalse
    have helse : Counts r ρ true
        (if whenFalse.isSome then .text "else\n" :: Node.bodyFragments r.config whenFalse else [])
        (Node.visitedBody whenFalse) := by
      cases whenFalse with
      | none => exact counts_nil
      | some statements => exact hfalse.text_cons (by decide)
    rw [Node.fragments, Node.visited]
    refine Counts.visit ?_ rfl
    exact (hcondition.append_text_cons (htrue.append helse).scope (by decide)).text_cons (by decide)
  | .switch selector body, hn => by
    obtain ⟨hselector, hbody⟩ := List.forall_mem_append.mp hn
    have hselector := counts_node hr selector hselector
    have hbody := counts_body hr body hbody
    rw [Node.fragments, Node.visited]
    refine Counts.visit (Counts.text_cons ?_ (by decide)) rfl
    cases body with
    | none =>
      have hnothing : Counts r ρ true [] [] := counts_nil
      exact hselector.append_text_cons hnothing (by decide)
    | some statements => exact hselector.append_text_cons hbody (by decide)
  | .case none, _ => by
    rw [Node.fragments, Node.visited]
    exact (counts_lead (by decide : IsLead "default:\n")).visit rfl
  | .case (some label), hn => by
    have hlabel := counts_node hr label hn
    rw [Node.fragments, Node.visited]
    exact (hlabel.enclosed (by decide) (by decide)).visit rfl
  | .loop kind init condition step body true, hn => by
    simp only [Node.names, List.forall_mem_append] at hn
    have hbody := counts_body hr body hn.2.2.2
    rw [Node.fragments.eq_def, Node.visited.eq_def]
    refine Counts.visit (Counts.scope ?_) rfl
    cases hloop : CountingLoop.ofLoop kind init condition step with
    | error obstacle => exact counts_fail _
    | ok l =>
      have hheader := counts_loopHeader (r := r) hr.names (hn.1 _ (mem_names_of_ofLoop hloop))
      have hcopies := hbody.unrolled l.counter l.iterations
      exact hheader.append (hcopies.append_text (by decide))
  | .loop .forLoop init condition step body false, hn => by
    simp only [Node.names, List.forall_mem_append] at hn
    obtain ⟨hinit, hcondition, hstep, hbody⟩ := hn
    have hinit := counts_optional hr init hinit
    have hcondition := counts_optional hr condition hcondition
    have hstep := counts_optional hr step hstep
    have hbody := counts_body hr body hbody
    rw [Node.fragments.eq_def, Node.visited.eq_def]
    refine Counts.visit (Counts.scope ?_) rfl
    exact (hinit.append_text_cons (hcondition.append_text_cons (hstep.append_text_cons hbody
      (by decide : IsPunctuation ")\n")) (by decide)) (by decide : IsPunctuation "; ")).text_cons
      (by decide)
  | .loop .whileLoop init condition step body false, hn => by
    simp only [Node.names, List.forall_mem_append] at hn
    obtain ⟨-, hcondition, -, hbody⟩ := hn
    have hcondition := counts_condition hr .whileLoop condition hcondition
    have hbody := counts_body hr body hbody
    rw [Node.fragments.eq_def, Node.visited.eq_def]
    refine Counts.visit (Counts.scope ?_) rfl
    exact (hcondition.append_text_cons hbody (by decide : IsPunctuation ")\n")).text_cons
      (by decide)
  | .loop .doWhileLoop init condition step body false, hn => by
    simp only [Node.names, List.forall_mem_append] at hn
    obtain ⟨-, hcondition, -, hbody⟩ := hn
    have hcondition := counts_condition hr .doWhileLoop condition hcondition
    have hbody := counts_body hr body hbody
    rw [Node.fragments.eq_def, Node.visited.eq_def]
    refine Counts.visit (Counts.scope ?_) rfl
    exact (hbody.append ((hcondition.append_text (by decide : IsPunctuation ");\n")).text_cons
      (by decide : IsLead "while ("))).text_cons (by decide)
  | .branch kind value, hn => by
    have hvalue := counts_optional hr value hn
    rw [Node.fragments, Node.visited]
    refine Counts.visit ?_ rfl
    by_cases hkind : kind = .return
    · subst hkind
      exact hvalue.text_cons (by decide)
    · rw [if_neg hkind, if_neg hkind]
      refine counts_text (MissesLetter.lacksInvariant ?_)
      cases kind <;> decide
  | .function head body, hn => by
    obtain ⟨hhead, hbody⟩ := List.forall_mem_append.mp hn
    have hbody := (counts_statements hr body hbody).block
    rw [Node.fragments, Node.visited]
    refine Counts.visit ?_ rfl
    have hlist := (counts_parameterList hr.names hr.removes hhead).append hbody
    exact (counts_head hr.names hr.removes hhead).append_scope hlist (by decide : IsPunctuation "(")

theorem counts_arguments (hr : r.DropsInvariant ρ) : (nodes : List Node) →
    (∀ s ∈ Node.eachNames nodes, LacksInvariant s) →
    Counts r ρ false (commaSeparated (Node.eachFragments r.config nodes)) (Node.visitedEach nodes)
  | [], _ => counts_nil.unclosed
  | node :: rest, hn => by
    obtain ⟨hnode, hrest⟩ := List.forall_mem_append.mp hn
    exact (counts_node hr node hnode).unclosed.comma_cons
      (counts_arguments hr rest hrest)

theorem counts_statements (hr : r.DropsInvariant ρ) : (nodes : List Node) →
    (∀ s ∈ Node.eachNames nodes, LacksInvariant s) →
    Counts r ρ true (Node.statementFragments r.config nodes) (Node.visitedEach nodes)
  | [], _ => counts_nil
  | node :: rest, hn => by
    obtain ⟨hnode, hrest⟩ := List.forall_mem_append.mp hn
    have hnode := counts_node hr node hnode
    have hended : Counts r ρ true
        (node.fragments r.config ++ if node.isSimpleStatement then [.text ";\n"] else [])
        node.visited := by
      by_cases hsimple : node.isSimpleStatement = true
      · rw [if_pos hsimple]
        exact hnode.append_text (by decide)
      · rw [if_neg hsimple, List.append_nil]
        rwa [Bool.not_eq_true _ |>.mp hsimple] at hnode
    exact hended.append (counts_statements hr rest hrest)

theorem counts_optional (hr : r.DropsInvariant ρ) : (n : Option Node) →
    (∀ s ∈ Node.optionalNames n, LacksInvariant s) →
    Counts r ρ false (Node.optionalFragments r.config n) (Node.visitedOption n)
  | none, _ => counts_nil.unclosed
  | some node, hn => (counts_node hr node hn).unclosed

theorem counts_condition (hr : r.DropsInvariant ρ) (kind : LoopKind) :
    (n : Option Node) → (∀ s ∈ Node.optionalNames n, LacksInvariant s) →
    Counts r ρ false (Node.conditionFragments r.config kind n) (Node.visitedOption n)
  | none, _ => counts_fail _
  | some node, hn => (counts_node hr node hn).unclosed

theorem counts_body (hr : r.DropsInvariant ρ) :
    (body : Option (List Node)) → (∀ s ∈ Node.bodyNames body, LacksInvariant s) →
    Counts r ρ true (Node.bodyFragments r.config body) (Node.visitedBody body)
  | none, _ => counts_lead (by decide)
  | some statements, hn => (counts_statements hr statements hn).block

theorem counts_declarators (hr : r.DropsInvariant ρ) :
    (list : List Declarator) → (∀ s ∈ Node.declaratorNames list, LacksInvariant s) →
    Counts r ρ false (commaSeparated (Node.declaratorFragments r.config list))
      (Node.visitedDeclarators list)
  | [], _ => counts_nil.unclosed
  | { var, initializer } :: rest, hn => by
    simp only [Node.declaratorNames, List.forall_mem_append] at hn
    obtain ⟨hvar, hinitializer, hrest⟩ := hn
    have hinitializer := counts_optional hr initializer hinitializer
    have hname : Counts r ρ false ([.variableName var.name] ++ [.text var.type.brackets]) [] :=
      (counts_variableName hr.names (hvar _ List.mem_cons_self)).append_ending
        (isEnding_brackets var.type)
    rw [Node.declaratorFragments, Node.visitedDeclarators]
    refine Counts.comma_cons ?_ (counts_declarators hr rest hrest)
    cases initializer with
    | none => exact hname
    | some node => exact hname.append_text_cons hinitializer (by decide)

end

end Fragment

/-! ### Passes -/

namespace Renderer

/-- **The keyword is in a text for each declaration of invariance that is visited, and nowhere
else,** where the flag of a type is left out, and the names of the tree, those that the table begins
with, and those of the functions that stand in for built-in ones do not contain it. So a target that
is to do without the keyword has it once a declaration of invariance is written. -/
theorem occurrences_invariant {r : Renderer} {names : NameTable} {root : Node} {out : Rendered}
    (hremoves : r.config.removesInvariant = true)
    (hroot : ∀ name ∈ root.names, LacksInvariant name)
    (hnames : ∀ entry ∈ names.toList, LacksInvariant entry.2)
    (hemulations : ∀ name ∈ r.emulations names root, LacksInvariant name)
    (h : r.renderFrom names root = .ok out) :
    occurrences invariantKeyword out.source.toList =
        root.visited.countP Node.isInvariantDeclaration ∧
      (invariantKeyword ∈ wordsOf out.source.toList ↔
        ∃ v, .invariantDeclaration v ∈ root.visited) := by
  obtain ⟨tokens, htokens, hsource, -⟩ := tokens_of_renderFrom h
  obtain ⟨declared, hruns⟩ := runs_of_tokens htokens
  have hlack : r.EmulationsLackInvariant (r.userSpelling names) tokens := by
    intro t ht hemulated
    refine hemulations _ ?_
    unfold emulations
    rw [htokens]
    exact List.mem_map_of_mem (List.mem_filter.mpr ⟨ht, hemulated⟩)
  have hcounts := Fragment.counts_node ⟨r.keepsNames_lacksInvariant hnames, hremoves⟩ root hroot
  have hcount : occurrences invariantKeyword out.source.toList =
      root.visited.countP Node.isInvariantDeclaration := by
    rw [hsource, spellAll_fst, toList_join_print]
    exact (hcounts hruns hlack).occurrences_eq
  refine ⟨hcount, ?_⟩
  rw [← List.count_pos_iff, ← occurrences, hcount, List.countP_pos_iff]
  constructor
  · rintro ⟨n, hn, hdeclares⟩
    cases n with
    | invariantDeclaration v => exact ⟨v, hn⟩
    | _ => cases hdeclares
  · exact fun ⟨v, hv⟩ => ⟨_, hv, rfl⟩

/-- A target that is to do without the keyword: a vertex shader of version 300 in a dialect before
4.20, with the flag that drops it. -/
def withoutInvariant : Renderer where
  config :=
    { output := .glsl410Core, version := 300, stage := .vertex, stripInvariantAndCentroid := true }

/-- `invariant gl_Position;` -/
def invariantPosition : Node :=
  .block [.invariantDeclaration
    { id := ⟨1⟩, name := { text := "gl_Position" }, type := .vector .float 4 }]

theorem occurrences_invariantPosition :
    withoutInvariant.config.removesInvariant = true ∧
      ∃ out, withoutInvariant.renderFrom .empty invariantPosition = .ok out ∧
        out.source = "invariant gl_Position;\n" ∧
        occurrences invariantKeyword out.source.toList = 1 := by
  have hremoves : withoutInvariant.config.removesInvariant = true := by decide
  have hroot : ∀ name ∈ invariantPosition.names, LacksInvariant name := by
    have hmisses : ∀ name ∈ invariantPosition.names, MissesLetter name := by decide +kernel
    exact fun name hname => (hmisses name hname).lacksInvariant
  have hemulations :
      ∀ name ∈ withoutInvariant.emulations .empty invariantPosition, LacksInvariant name := by
    have hnone : withoutInvariant.emulations .empty invariantPosition = [] := by rfl
    rw [hnone]
    exact List.forall_mem_nil _
  obtain ⟨out, hout⟩ :
      ∃ out, withoutInvariant.renderFrom .empty invariantPosition = .ok out := ⟨_, rfl⟩
  obtain ⟨hcount, -⟩ :=
    occurrences_invariant hremoves hroot (List.forall_mem_nil _) hemulations hout
  refine ⟨hremoves, out, hout, ?_, hcount⟩
  cases hout
  decide +kernel

end Renderer

end ShaderText
