import ShaderText.Proofs.BracketedTypes
import ShaderText.Proofs.Unrollable

/-! # Brackets of texts

Expressions, statements and functions open and close their brackets around those of their parts, and
no part closes what another one opened. By induction on the tree nothing is awaited after the text
of a tree (`Fragment.turns_node`). **So every text is well nested, if no name that is supplied from
outside has a bracket (`Renderer.wellNested_of_renderFrom`).** -/

namespace ShaderText

namespace Fragment

variable {r : Renderer} {ρ : String → String} {awaited : List Char} {fs : List Fragment}

section

variable (hρ : AddsNoBracket ρ)

include hρ

/-! ### Parts of expressions -/

theorem turns_memberName {t : ShaderType} (ht : ∀ s ∈ t.names, IsBracketFree s) (ofBlock : Bool)
    (index : Int) : Turns r ρ awaited [t.memberName ofBlock index] awaited := by
  rcases t.memberName_of_names ht ofBlock index with ⟨owner, field, hname, hfield⟩ |
    ⟨field, hname, hfield⟩ | ⟨cause, hname⟩
  · rw [hname]
    exact turns_member hρ owner hfield
  · rw [hname]
    exact turns_blockMember hρ hfield
  · rw [hname]
    exact turns_fail cause

theorem turns_memberSelection (ofBlock : Bool) {owner : Node} (position : Node)
    (howner : ∀ s ∈ owner.names, IsBracketFree s) (h : Turns r ρ awaited fs awaited) :
    Turns r ρ awaited (memberSelection ofBlock owner position fs) awaited := by
  unfold memberSelection
  cases position.asInt? with
  | none => exact turns_fail _
  | some index =>
    cases htype : owner.type? with
    | none => exact turns_fail _
    | some t =>
      have ht : ∀ s ∈ t.names, IsBracketFree s :=
        fun s hs => howner s (Node.names_subset_of_type? htype hs)
      exact h.append ((turns_memberName hρ ht ofBlock index).text_cons
        (IsBracketFree.shifts (by decide)))

omit hρ in
/-- What a clamped index opens before the index, it closes after it. -/
theorem turns_clampedIndex (indexed : Node) (h : Turns r ρ [] fs []) :
    Turns r ρ [] (clampedIndex r.config indexed fs) [] := by
  have hclosing : ∀ {before after : String} {last : Int} {opened reopened : List Char},
      Shifts opened before.toList reopened → Shifts reopened after.toList [] →
      Shifts opened (before ++ last.repr ++ after).toList [] := by
    intro before after last opened reopened hbefore hafter
    rw [String.toList_append, String.toList_append]
    exact (hbefore.append (isBracketFree_int_repr last).shifts).append hafter
  unfold clampedIndex
  cases indexed.type? with
  | none => exact turns_fail _
  | some t =>
    dsimp only
    by_cases hsize : t.arraySize = some 0
    · rw [if_pos hsize]
      exact turns_fail _
    · rw [if_neg hsize]
      cases r.config.clamping with
      | byIntrinsic =>
        have hopening : Shifts [] "[int(clamp(float(".toList [')', ')', ')', ']'] := by decide
        have hbound : Shifts [')', ')', ')', ']'] "), 0.0, float(".toList [')', ')', ')', ']'] := by
          decide
        exact h.enclosed hopening (hclosing hbound (by decide))
      | byHelper =>
        have hopening : Shifts [] ("[" ++ Reserved.clampHelper ++ "(").toList [')', ']'] := by
          decide
        have hbound : Shifts [')', ']'] ", 0, ".toList [')', ']'] := by decide
        exact h.enclosed hopening (hclosing hbound (by decide))

omit hρ in
theorem turns_swizzleSelection (offsets : List Nat) :
    Turns r ρ awaited (swizzleSelection offsets) awaited := by
  have hletters : ∀ letter ∈ ['x', 'y', 'z', 'w'], isBracket letter = false := by decide
  unfold swizzleSelection
  cases hoffsets : offsets.mapM componentLetter? with
  | none => exact turns_fail _
  | some letters =>
    refine turns_free fun ch hch => ?_
    rw [String.toList_ofList, List.mem_cons] at hch
    rcases hch with rfl | hch
    · rfl
    · exact hletters ch ((mem_of_mapM_componentLetter hoffsets).2 ch hch)

theorem turns_intrinsic {name : String} (h : isWord name = true) (emulated : Bool) :
    Turns r ρ awaited [.intrinsic name emulated] awaited :=
  turns_name hρ (t := .intrinsic name emulated) (fun _ _ => rfl) (isBracketFree_of_isWord h)

theorem turns_function {name : FunctionName} (h : ∀ s ∈ name.names, IsBracketFree s)
    (emulated : Bool) : Turns r ρ awaited [.function name emulated] awaited :=
  turns_name hρ (t := .function name emulated) (fun _ _ => rfl) (h _ List.mem_cons_self)

theorem turns_callee {callee : Callee} {t : ShaderType}
    (hcallee : ∀ s ∈ callee.names, IsBracketFree s) (ht : ∀ s ∈ t.names, IsBracketFree s)
    (emulated : Bool) : Turns r ρ awaited (callee.fragments t emulated) awaited := by
  cases callee with
  | function name => exact turns_function hρ hcallee emulated
  | constructor => exact (turns_nameFragment hρ ht).append_text t.shifts_brackets
  | intrinsic op => exact turns_intrinsic hρ op.isWord_name emulated

/-! ### Parts of declarations and statements -/

theorem turns_parameter {p : Variable} (hp : ∀ s ∈ p.names, IsBracketFree s) :
    Turns r ρ [] (parameterFragments r.config p) [] := by
  obtain ⟨hname, htype⟩ := List.forall_mem_cons.mp hp
  have htext : Turns r ρ []
      (if p.name.text = "" then [] else [.text " ", .parameterName p.name]) [] := by
    have hparameter : Turns r ρ [] [.parameterName p.name] [] :=
      turns_name hρ (t := .parameter p.name) (fun _ _ => rfl) hname
    split_ifs
    · exact turns_nil
    · exact hparameter.text_cons (by decide)
  exact ((turns_occurrence hρ htype).append htext).append_text p.type.shifts_brackets

theorem turns_parameterList {p : Prototype} (hp : ∀ s ∈ p.names, IsBracketFree s) :
    Turns r ρ [] (p.parameterList r.config) [] := by
  have hparameters : ∀ v ∈ p.parameters, ∀ s ∈ v.names, IsBracketFree s := by
    intro v hv s hs
    refine hp s ?_
    unfold Prototype.names
    exact List.mem_append_right _ (List.mem_append_right _ (List.mem_flatMap.mpr ⟨v, hv, hs⟩))
  refine Turns.enclosed (turns_commaSeparated fun group hgroup => ?_)
    (show Shifts [] "(".toList [')'] by decide) (by decide)
  obtain ⟨v, hv, rfl⟩ := List.mem_map.mp hgroup
  exact turns_parameter hρ (hparameters v hv)

theorem turns_head {p : Prototype} (hp : ∀ s ∈ p.names, IsBracketFree s) :
    Turns r ρ [] (p.head r.config) [] := by
  obtain ⟨hname, htypes⟩ := List.forall_mem_append.mp hp
  have htype : ∀ s ∈ p.returnType.names, IsBracketFree s := (List.forall_mem_append.mp htypes).1
  have hblank : Shifts [] (p.returnType.brackets ++ " ").toList [] := by
    rw [String.toList_append]
    exact p.returnType.shifts_brackets.append (IsBracketFree.shifts (by decide))
  exact (turns_occurrence hρ htype).append ((turns_function hρ hname false).text_cons hblank)

/-- The loop around copies opens a brace. -/
theorem turns_loopHeader {l : CountingLoop} (h : IsBracketFree l.var.name.text) :
    Turns r ρ [] l.header ['\x7d'] := by
  have hname : ∀ awaited, Turns r ρ awaited [.variableName l.var.name] awaited :=
    fun _ => turns_variableName hρ h
  have hopening : Shifts [] "for (int ".toList [')'] := by decide
  have hstart : Shifts [')'] " = 0; ".toList [')'] := by decide
  have hstep : Shifts [')'] " < 1; ++".toList [')'] := by decide
  have hbrace : Shifts [')'] ")\n\x7b\n".toList ['\x7d'] := by decide
  have hlast := (hname [')']).append_text hbrace
  have hsecond := (hname [')']).append_text_cons hlast hstep
  exact ((hname [')']).append_text_cons hsecond hstart).text_cons hopening

end

/-! ### Nodes -/

/-- The texts around the operand of a unary operator are parentheses. -/
theorem shifts_around {op : UnaryOp} {opening closing : String}
    (h : op.form = .around opening closing) :
    Shifts [] opening.toList [')'] ∧ Shifts [')'] closing.toList [] := by
  cases op <;> cases h <;> decide

theorem isBracketFree_between {op : BinaryOp} {separator : String}
    (h : op.form = .between separator) : IsBracketFree separator := by
  cases op <;> cases h <;> decide

theorem mem_names_of_ofLoop {kind : LoopKind} {init condition step : Option Node} {l : CountingLoop}
    (h : CountingLoop.ofLoop kind init condition step = .ok l) :
    l.var.name.text ∈ Node.optionalNames init := by
  obtain ⟨first, rfl⟩ := CountingLoop.exists_init_of_ofLoop h
  exact List.mem_cons_self

mutual

/-- **Nothing is awaited after the text of a tree.** -/
theorem turns_node (hρ : AddsNoBracket ρ) : (n : Node) →
    (∀ s ∈ n.names, IsBracketFree s) → Turns r ρ [] (n.fragments r.config) []
  | .symbol v, hn => turns_reference hρ v.id (hn _ List.mem_cons_self)
  | .constant type values, hn => turns_constant hρ hn values
  | .unary op operand type emulated, hn => by
    have hoperand := turns_node hρ operand (List.forall_mem_append.mp hn).1
    rw [Node.fragments]
    cases hform : op.form with
    | around opening closing =>
      obtain ⟨hopening, hclosing⟩ := shifts_around hform
      exact hoperand.enclosed hopening hclosing
    | call name =>
      have hname := op.isWord_of_form_eq_call hform
      have hopening : Shifts [] "(".toList [')'] := by decide
      exact (turns_intrinsic hρ hname emulated).append (hoperand.enclosed hopening (by decide))
  | .binary op left right type clamped, hn => by
    obtain ⟨hleftNames, hrest⟩ := List.forall_mem_append.mp hn
    have hleft := turns_node hρ left hleftNames
    have hright := turns_node hρ right (List.forall_mem_append.mp hrest).1
    rw [Node.fragments]
    cases hform : op.form with
    | between separator =>
      have hopening : Shifts [] "(".toList [')'] := by decide
      have hseparator : Shifts [')'] separator.toList [')'] := (isBracketFree_between hform).shifts
      have hclosing : Shifts [')'] ")".toList [] := by decide
      have hend := (hright.within [')']).append_text hclosing
      exact ((hleft.within [')']).append_text_cons hend hseparator).text_cons hopening
    | index computed =>
      have hopening : Shifts [] "[".toList [']'] := by decide
      dsimp only
      split_ifs
      · exact hleft.append (turns_clampedIndex left hright)
      · exact hleft.append (hright.enclosed hopening (by decide))
    | member ofBlock => exact turns_memberSelection hρ ofBlock right hleftNames hleft
  | .ternary condition whenTrue whenFalse type, hn => by
    simp only [Node.names, List.forall_mem_append] at hn
    obtain ⟨hcondition, htrue, hfalse, -⟩ := hn
    have hcondition := (turns_node hρ condition hcondition).within [')', ')']
    have htrue := (turns_node hρ whenTrue htrue).within [')', ')']
    have hfalse := (turns_node hρ whenFalse hfalse).within [')', ')']
    rw [Node.fragments]
    exact (hcondition.append_text_cons (htrue.append_text_cons (hfalse.append_text (by decide))
      (by decide)) (by decide)).text_cons (by decide)
  | .swizzle operand offsets type, hn =>
    (turns_node hρ operand (List.forall_mem_append.mp hn).1).append (turns_swizzleSelection offsets)
  | .call callee arguments type emulated, hn => by
    obtain ⟨hcallee, hrest⟩ := List.forall_mem_append.mp hn
    obtain ⟨harguments, htype⟩ := List.forall_mem_append.mp hrest
    have hopening : Shifts [] "(".toList [')'] := by decide
    exact (turns_callee hρ hcallee htype emulated).append
      ((turns_commaSeparated (turns_each hρ arguments harguments)).enclosed hopening (by decide))
  | .prototype head, hn => (turns_head hρ hn).append (turns_parameterList hρ hn)
  | .invariantDeclaration v, hn =>
    (turns_reference hρ v.id (hn _ List.mem_cons_self)).text_cons (by decide)
  | .declaration [], _ => turns_fail _
  | .declaration ({ var, initializer } :: rest), hn => by
    have hvar : ∀ s ∈ var.names, IsBracketFree s := (List.forall_mem_append.mp hn).1
    have htype : ∀ s ∈ var.type.names, IsBracketFree s := (List.forall_mem_cons.mp hvar).2
    have hdeclarators :=
      turns_commaSeparated (turns_declarators hρ ({ var, initializer } :: rest) hn)
    rw [Node.fragments]
    exact ((turns_layout var.type).append (turns_occurrence hρ htype)).append
      (hdeclarators.text_cons (by decide))
  | .block statements, hn => (turns_statements hρ statements hn).block
  | .ifElse condition whenTrue whenFalse, hn => by
    simp only [Node.names, List.forall_mem_append] at hn
    obtain ⟨hcondition, htrue, hfalse⟩ := hn
    have hcondition := (turns_node hρ condition hcondition).within [')']
    have htrue := turns_body hρ whenTrue htrue
    have hfalse := turns_body hρ whenFalse hfalse
    have helse : Turns r ρ []
        (if whenFalse.isSome then .text "else\n" :: Node.bodyFragments r.config whenFalse else [])
        [] := by
      split_ifs
      · exact hfalse.text_cons (by decide)
      · exact turns_nil
    rw [Node.fragments]
    exact (hcondition.append_text_cons (htrue.append helse).scope (by decide)).text_cons (by decide)
  | .switch selector body, hn => by
    obtain ⟨hselector, hbody⟩ := List.forall_mem_append.mp hn
    have hselector := (turns_node hρ selector hselector).within [')']
    have hbody := turns_body hρ body hbody
    have hrest : Turns r ρ [')']
        (if body.isSome then .text ") " :: Node.bodyFragments r.config body
          else [.text ") \x7b\x7d\n"]) [] := by
      split_ifs
      · exact hbody.text_cons (by decide)
      · exact turns_text (by decide)
    rw [Node.fragments]
    exact (hselector.append hrest).text_cons (by decide)
  | .case label, hn => by
    have hopening : Shifts [] "case (".toList [')'] := by decide
    rw [Node.fragments]
    split_ifs
    · exact (turns_optional hρ label hn).enclosed hopening (by decide)
    · exact turns_text (by decide)
  | .loop kind init condition step body true, hn => by
    simp only [Node.names, List.forall_mem_append] at hn
    have hbody := turns_body hρ body hn.2.2.2
    rw [Node.fragments.eq_def]
    dsimp only
    cases hloop : CountingLoop.ofLoop kind init condition step with
    | error obstacle => exact (turns_fail _).scope
    | ok l =>
      have hheader := turns_loopHeader (r := r) hρ (hn.1 _ (mem_names_of_ofLoop hloop))
      have hcopies := (hbody.within ['\x7d']).unrolled l.counter l.iterations
      exact (hheader.append (hcopies.append_text (by decide))).scope
  | .loop .forLoop init condition step body false, hn => by
    simp only [Node.names, List.forall_mem_append] at hn
    obtain ⟨hinit, hcondition, hstep, hbody⟩ := hn
    have hinit := (turns_optional hρ init hinit).within [')']
    have hcondition := (turns_optional hρ condition hcondition).within [')']
    have hstep := (turns_optional hρ step hstep).within [')']
    have hbody := turns_body hρ body hbody
    rw [Node.fragments.eq_def]
    exact ((hinit.append_text_cons (hcondition.append_text_cons (hstep.append_text_cons hbody
      (by decide)) (by decide)) (by decide)).text_cons (by decide)).scope
  | .loop .whileLoop init condition step body false, hn => by
    simp only [Node.names, List.forall_mem_append] at hn
    obtain ⟨-, hcondition, -, hbody⟩ := hn
    have hcondition := (turns_condition hρ .whileLoop condition hcondition).within [')']
    have hbody := turns_body hρ body hbody
    rw [Node.fragments.eq_def]
    exact ((hcondition.append_text_cons hbody (by decide)).text_cons (by decide)).scope
  | .loop .doWhileLoop init condition step body false, hn => by
    simp only [Node.names, List.forall_mem_append] at hn
    obtain ⟨-, hcondition, -, hbody⟩ := hn
    have hcondition := (turns_condition hρ .doWhileLoop condition hcondition).within [')']
    have hbody := turns_body hρ body hbody
    rw [Node.fragments.eq_def]
    exact ((hbody.append_text_cons (hcondition.append_text (by decide)) (by decide)).text_cons
      (by decide)).scope
  | .branch kind value, hn => by
    have hkeyword : IsBracketFree kind.keyword := by cases kind <;> decide
    have hvalue := turns_optional hρ value hn
    rw [Node.fragments]
    refine Turns.text_cons ?_ hkeyword.shifts
    split_ifs
    · exact hvalue
    · exact turns_nil
  | .function head body, hn => by
    obtain ⟨hhead, hbody⟩ := List.forall_mem_append.mp hn
    exact (turns_head hρ hhead).append
      ((turns_parameterList hρ hhead).append (turns_statements hρ body hbody).block).scope

theorem turns_each (hρ : AddsNoBracket ρ) : (nodes : List Node) →
    (∀ s ∈ Node.eachNames nodes, IsBracketFree s) →
    ∀ group ∈ Node.eachFragments r.config nodes, Turns r ρ [] group []
  | [], _ => by simp [Node.eachFragments]
  | node :: rest, hn => by
    obtain ⟨hnode, hrest⟩ := List.forall_mem_append.mp hn
    exact List.forall_mem_cons.mpr ⟨turns_node hρ node hnode, turns_each hρ rest hrest⟩

theorem turns_statements (hρ : AddsNoBracket ρ) : (nodes : List Node) →
    (∀ s ∈ Node.eachNames nodes, IsBracketFree s) →
    Turns r ρ [] (Node.statementFragments r.config nodes) []
  | [], _ => turns_nil
  | node :: rest, hn => by
    obtain ⟨hnode, hrest⟩ := List.forall_mem_append.mp hn
    have hend : Turns r ρ [] (if node.isSimpleStatement then [.text ";\n"] else []) [] := by
      split_ifs
      · exact turns_text (by decide)
      · exact turns_nil
    exact ((turns_node hρ node hnode).append hend).append (turns_statements hρ rest hrest)

theorem turns_optional (hρ : AddsNoBracket ρ) : (n : Option Node) →
    (∀ s ∈ Node.optionalNames n, IsBracketFree s) →
    Turns r ρ [] (Node.optionalFragments r.config n) []
  | none, _ => turns_nil
  | some node, hn => turns_node hρ node hn

theorem turns_condition (hρ : AddsNoBracket ρ) (kind : LoopKind) :
    (n : Option Node) → (∀ s ∈ Node.optionalNames n, IsBracketFree s) →
    Turns r ρ [] (Node.conditionFragments r.config kind n) []
  | none, _ => turns_fail _
  | some node, hn => turns_node hρ node hn

theorem turns_body (hρ : AddsNoBracket ρ) :
    (body : Option (List Node)) → (∀ s ∈ Node.bodyNames body, IsBracketFree s) →
    Turns r ρ [] (Node.bodyFragments r.config body) []
  | none, _ => turns_text (by decide)
  | some statements, hn => (turns_statements hρ statements hn).block

theorem turns_declarators (hρ : AddsNoBracket ρ) :
    (list : List Declarator) → (∀ s ∈ Node.declaratorNames list, IsBracketFree s) →
    ∀ group ∈ Node.declaratorFragments r.config list, Turns r ρ [] group []
  | [], _ => by simp [Node.declaratorFragments]
  | { var, initializer } :: rest, hn => by
    simp only [Node.declaratorNames, List.forall_mem_append] at hn
    obtain ⟨hvar, hinitializer, hrest⟩ := hn
    have hinitializer := turns_optional hρ initializer hinitializer
    have hname : Turns r ρ [] [.variableName var.name] [] :=
      turns_variableName hρ (hvar _ List.mem_cons_self)
    have hvalue : Turns r ρ []
        (if initializer.isSome then
          .text " = " :: Node.optionalFragments r.config initializer else []) [] := by
      split_ifs
      · exact hinitializer.text_cons (by decide)
      · exact turns_nil
    rw [Node.declaratorFragments]
    exact List.forall_mem_cons.mpr
      ⟨hname.cons (hvalue.text_cons var.type.shifts_brackets), turns_declarators hρ rest hrest⟩

end

end Fragment

/-! ### Passes -/

namespace Renderer

/-- The names of the functions that stand in for built-in ones in a pass. -/
def emulations (r : Renderer) (names : NameTable) (root : Node) : List String :=
  match r.tokens root with
  | .ok tokens => (tokens.filter Token.isEmulated).map (Token.print r (r.userSpelling names))
  | .error _ => []

/-- **Brackets are well nested** in the text of a pass, if there are none in the names of the tree,
in those that the table begins with, and in those of the functions that stand in for built-in
ones. -/
theorem wellNested_of_renderFrom {r : Renderer} {names : NameTable} {root : Node} {out : Rendered}
    (hroot : ∀ name ∈ root.names, IsBracketFree name)
    (hnames : ∀ entry ∈ names.toList, IsBracketFree entry.2)
    (hemulations : ∀ name ∈ r.emulations names root, IsBracketFree name)
    (h : r.renderFrom names root = .ok out) : WellNested out.source.toList := by
  obtain ⟨tokens, htokens, hsource, -⟩ := tokens_of_renderFrom h
  obtain ⟨declared, hruns⟩ := runs_of_tokens htokens
  have hfree : r.FreeEmulations (r.userSpelling names) tokens := by
    intro t ht hemulated
    refine hemulations _ ?_
    unfold emulations
    rw [htokens]
    exact List.mem_map_of_mem (List.mem_filter.mpr ⟨ht, hemulated⟩)
  have hturns := Fragment.turns_node (r := r) (r.addsNoBracket_userSpelling hnames) root hroot
  rw [hsource, spellAll_fst, toList_join_print]
  exact wellNested_iff.mpr (hturns hruns hfree)

/-- The statement `x = sin(a[i]);` of an element that a computed index selects, with an emulation of
the function. -/
def emulatedElement : Node :=
  .block [.binary .assign (.symbol ⟨⟨0⟩, { text := "x" }, .scalar .float⟩)
    (.unary .sin (.binary .computedIndex
      (.symbol ⟨⟨1⟩, { text := "a" }, { ShaderType.scalar .float with arraySize := some 4 }⟩)
      (.symbol ⟨⟨2⟩, { text := "i" }, .scalar .int⟩) (.scalar .float) true)
      (.scalar .float) true) (.scalar .float) false]

/-- The brackets around a clamped index. -/
theorem wellNested_emulatedElement :
    ∃ out, ({} : Renderer).renderFrom .empty emulatedElement = .ok out ∧
      out.source = "(x = webgl_sin_emu(a[int(clamp(float(i), 0.0, float(3)))]));\n" ∧
      WellNested out.source.toList := by
  obtain ⟨out, hout⟩ : ∃ out, ({} : Renderer).renderFrom .empty emulatedElement = .ok out :=
    ⟨_, rfl⟩
  refine ⟨out, hout, ?_, wellNested_of_renderFrom (by decide +kernel) (by decide +kernel)
    (by decide +kernel) hout⟩
  cases hout
  decide +kernel

end Renderer

end ShaderText
