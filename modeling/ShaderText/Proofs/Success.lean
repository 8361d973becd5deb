import ShaderText.Proofs.Demands
import ShaderText.Proofs.Memo

/-! # A pass succeeds exactly on well-formed trees

`Fragment.Writes` is the demand of a list of nodes: that each can be written after those before it.
A node whose own condition fails has fragments that fail, wherever it stands
(`Fragment.Writes.of_not_writable`); where it holds, only the parts of the node are left
(`Fragment.Writes.of_writable`). Declarations and functions write types first, and their parts after
these (`Fragment.Writes.of_demands`). The induction over a tree follows the layout of each node
(`Node.writes_fragments`).

**A pass succeeds if and only if its tree is well formed**, whatever the renderer and the table it
starts from, and so if and only if it is well formed by the counts of its types and no count wraps
around (`Renderer.renderFrom_isOk_iff_wellFormed`). -/

namespace ShaderText

namespace Fragment

variable {c : Config} {fs gs group : List Fragment} {types types' : List ShaderType}
  {ok ok' : List ShaderType → Prop} {nodes nodes' : List Node} {n : Node}

/-! ### Lists of nodes -/

/-- Fragments that write nodes one after another. -/
def Writes (c : Config) (fs : List Fragment) (nodes : List Node) : Prop :=
  Demands c fs (nodes.flatMap Node.writtenTypes) fun written => Node.EachWritableAfter written nodes

theorem AreFree.writes (h : AreFree c fs) : Writes c fs [] :=
  h.demands.congr fun _ => iff_of_true trivial eachAfter_nil

theorem Writes.append (h : Writes c fs nodes) (h' : Writes c gs nodes') :
    Writes c (fs ++ gs) (nodes ++ nodes') := by
  unfold Writes
  rw [List.flatMap_append]
  exact (Demands.append h h').congr fun _ => eachAfter_append.symm

theorem Writes.after_free (h : Writes c gs nodes) (hf : AreFree c fs) : Writes c (fs ++ gs) nodes :=
  Demands.after_free h hf

theorem Writes.before_free (h : Writes c fs nodes) (hf : AreFree c gs) :
    Writes c (fs ++ gs) nodes :=
  Demands.before_free h hf

theorem Writes.after_text (h : Writes c fs nodes) (s : String) : Writes c (.text s :: fs) nodes :=
  h.after_free (areFree_text s)

theorem Writes.before_text (h : Writes c fs nodes) (s : String) :
    Writes c (fs ++ [.text s]) nodes :=
  h.before_free (areFree_text s)

theorem Writes.scope (h : Writes c fs nodes) : Writes c [.scope fs] nodes := Demands.scope h

theorem areFree_brace (s : String) : AreFree c [.brace s] := areFree_singleton fun _ _ => ⟨_, rfl⟩

theorem Writes.block (h : Writes c fs nodes) : Writes c (blockFragments fs) nodes :=
  (h.scope.before_free (areFree_brace _)).after_free (areFree_brace _)

/-- As many copies of the nodes as there are values of the counter. -/
theorem Writes.unrolled (h : Writes c fs nodes) (counter : Counter) (copies : Nat) :
    Writes c [.unrolled counter copies fs] (List.replicate copies nodes).flatten := by
  intro b depth
  rw [traceAll_singleton, trace]
  generalize hid : counter.id = id
  induction copies generalizing counter with
  | zero => exact (Trace.demands_emit []).congr fun _ => iff_of_true trivial eachAfter_nil
  | succ copies ih =>
    rw [Counter.values, Trace.each, List.replicate_succ, List.flatten_cons, List.flatMap_append]
    exact ((h _ depth).seq (ih counter.next hid)).congr fun _ => eachAfter_append.symm

theorem Demands.commaSeparated_cons {rest : List (List Fragment)} (h : Demands c group types ok)
    (h' : Demands c (commaSeparated rest) types' ok') :
    Demands c (commaSeparated (group :: rest)) (types ++ types') fun written =>
      ok written ∧ ok' (written ++ types) := by
  by_cases hrest : rest = []
  · subst hrest
    have happend := h.append h'
    rwa [commaSeparated_nil, List.append_nil, ← commaSeparated_singleton group] at happend
  · rw [Fragment.commaSeparated_cons group hrest]
    exact h.append (h'.after_free (areFree_text ", "))

theorem Writes.commaSeparated_cons {rest : List (List Fragment)} (h : Writes c group nodes)
    (h' : Writes c (commaSeparated rest) nodes') :
    Writes c (commaSeparated (group :: rest)) (nodes ++ nodes') := by
  unfold Writes
  rw [List.flatMap_append]
  exact (Demands.commaSeparated_cons h h').congr fun _ => eachAfter_append.symm

/-! ### A node and its parts -/

/-- A node that meets its condition and writes no type leaves the rest to its parts. -/
theorem Writes.of_writable (hn : ∀ written, n.WritableAfter written) (htypes : n.writtenTypes = [])
    (h : Writes c fs nodes) : Writes c fs (n :: nodes) := by
  unfold Writes
  rw [List.flatMap_cons, htypes, List.nil_append]
  refine h.congr fun written => (eachAfter_cons.trans ?_).symm
  rw [htypes, List.append_nil]
  exact and_iff_right (hn written)

/-- A node that does not meet its condition cannot be written. -/
theorem Writes.of_not_writable (hn : ∀ written, ¬ n.WritableAfter written) (h : Fail c fs) :
    Writes c fs (n :: nodes) :=
  (h.demands _).congr fun written => iff_of_false not_false fun heach =>
    hn written (eachAfter_cons.mp heach).1

/-- A node that writes types, and its parts after them. -/
theorem Writes.of_demands (h : Demands c fs n.writtenTypes fun written => n.WritableAfter written)
    (h' : Writes c gs nodes) : Writes c (fs ++ gs) (n :: nodes) := by
  unfold Writes
  rw [List.flatMap_cons]
  exact (h.append h').congr fun _ => eachAfter_cons.symm

/-! ### The parts of expressions -/

theorem areFree_constant {t : ShaderType} {values : List Scalar}
    (h : values.length = t.valueCount ∧ ∀ part ∈ t.constantTypes, part.IsSpellable) :
    AreFree c [.constant t values] := by
  obtain ⟨tokens, htokens⟩ := (ShaderType.constantTokens_isOk_iff (c := c)).mpr h
  refine areFree_singleton fun b depth => ⟨tokens, funext fun declared => ?_⟩
  rw [trace, ShaderType.constantTrace_eq, htokens]
  rfl

theorem fail_constant {t : ShaderType} {values : List Scalar}
    (h : ¬ (values.length = t.valueCount ∧ ∀ part ∈ t.constantTypes, part.IsSpellable)) :
    Fail c [.constant t values] := by
  intro b depth declared result hr
  rw [traceAll_singleton, trace, ShaderType.constantTrace_eq] at hr
  cases htokens : t.constantTokens c values with
  | error cause => rw [htokens] at hr; cases hr
  | ok tokens => exact h (ShaderType.constantTokens_isOk_iff.mp ⟨tokens, htokens⟩)

theorem componentLetter?_isSome_iff (offset : Nat) :
    (componentLetter? offset).isSome ↔ offset ≤ 3 := by
  rcases offset with _ | _ | _ | _ | n <;> simp [componentLetter?]

theorem mapM_componentLetter?_isSome_iff (offsets : List Nat) :
    (offsets.mapM componentLetter?).isSome ↔ ∀ offset ∈ offsets, offset ≤ 3 := by
  induction offsets with
  | nil => simp
  | cons offset rest ih =>
    rw [List.forall_mem_cons, ← componentLetter?_isSome_iff, ← ih, List.mapM_cons]
    cases componentLetter? offset with
    | none => simp
    | some letter => cases rest.mapM componentLetter? <;> simp

theorem fieldAt?_isSome_iff (fields : List Field) (index : Int) :
    (fieldAt? fields index).isSome ↔ 0 ≤ index ∧ index < fields.length := by
  unfold fieldAt?
  split_ifs with hneg
  · exact iff_of_false (by simp) (by omega)
  · have hsome : fields[index.toNat]?.isSome ↔ index.toNat < fields.length := by simp
    rw [hsome]
    omega

/-- The name of a member, if there is one. -/
theorem areFree_memberName {t : ShaderType} {ofBlock : Bool} {index : Int} {members : List Field}
    (hmembers : t.members? ofBlock = some members) (hindex : (fieldAt? members index).isSome) :
    AreFree c [t.memberName ofBlock index] := by
  obtain ⟨f, hf⟩ := Option.isSome_iff_exists.mp hindex
  unfold ShaderType.members? at hmembers
  unfold ShaderType.memberName
  split_ifs at hmembers ⊢ with hblock
  · obtain ⟨d, hd, rfl⟩ := Option.map_eq_some_iff.mp hmembers
    simp only [hd, hf]
    exact areFree_singleton fun _ _ => ⟨_, rfl⟩
  · obtain ⟨d, hd, rfl⟩ := Option.map_eq_some_iff.mp hmembers
    simp only [hd, hf]
    exact areFree_singleton fun _ _ => ⟨_, rfl⟩

theorem fail_memberName {t : ShaderType} {ofBlock : Bool} {index : Int}
    (h : ∀ members, t.members? ofBlock = some members → ¬ (fieldAt? members index).isSome) :
    Fail c [t.memberName ofBlock index] := by
  unfold ShaderType.members? at h
  unfold ShaderType.memberName
  split_ifs at h ⊢ with hblock
  · cases hd : t.blockDef with
    | none => exact fail_singleton _
    | some d =>
      have hnone := Option.not_isSome_iff_eq_none.mp (h d.fields (by rw [hd]; rfl))
      simp only [hnone]
      exact fail_singleton _
  · cases hd : t.structDef with
    | none => exact fail_singleton _
    | some d =>
      have hnone := Option.not_isSome_iff_eq_none.mp (h d.fields (by rw [hd]; rfl))
      simp only [hnone]
      exact fail_singleton _

/-- The selection of a member at a constant position. -/
theorem writes_memberSelection {op : BinaryOp} {ofBlock : Bool} (hform : op.form = .member ofBlock)
    {left right : Node} {type : ShaderType} {clamped : Bool} (h : Writes c fs nodes) :
    Writes c (memberSelection ofBlock left right fs)
      (.binary op left right type clamped :: nodes) := by
  have hwritable : ∀ written, (Node.binary op left right type clamped).WritableAfter written ↔
      (BinaryForm.member ofBlock).Fits left right clamped := fun written => by
    rw [← hform]
    exact Iff.rfl
  by_cases hn : (BinaryForm.member ofBlock).Fits left right clamped
  · refine .of_writable (fun written => (hwritable written).mpr hn) rfl ?_
    · obtain ⟨index, t, members, hindex, htype, hmembers, hbounds⟩ := hn
      have hname := areFree_memberName (c := c) hmembers
        ((fieldAt?_isSome_iff members index).mpr hbounds)
      unfold memberSelection
      rw [hindex, htype]
      exact h.before_free ((areFree_text ".").append hname)
  · refine .of_not_writable (fun written => mt (hwritable written).mp hn) ?_
    · unfold memberSelection
      split
      · exact fail_singleton _
      · exact fail_singleton _
      · rename_i index t hindex htype
        refine Fail.append_right (Fail.append_right (fail_memberName ?_) [.text "."]) fs
        intro members hmembers hsome
        exact hn ⟨index, t, members, hindex, htype, hmembers,
          (fieldAt?_isSome_iff members index).mp hsome⟩

/-- An index between its bounds. -/
theorem writes_clampedIndex {op : BinaryOp} (hform : op.form = .index true) {left right : Node}
    {type : ShaderType} (h : Writes c fs nodes) (h' : Writes c gs nodes') :
    Writes c (fs ++ clampedIndex c left gs)
      (.binary op left right type true :: (nodes ++ nodes')) := by
  have hwritable : ∀ written, (Node.binary op left right type true).WritableAfter written ↔
      ∃ t, left.type? = some t ∧ t.arraySize ≠ some 0 := fun written => by
    show op.form.Fits left right true ↔ _
    rw [hform]
    simp [BinaryForm.Fits]
  by_cases hn : ∃ t, left.type? = some t ∧ t.arraySize ≠ some 0
  · refine .of_writable (fun written => (hwritable written).mpr hn) rfl ?_
    · obtain ⟨t, htype, hsize⟩ := hn
      refine h.append ?_
      unfold clampedIndex
      rw [htype]
      dsimp only
      rw [if_neg hsize]
      split
      · exact (h'.before_text _).after_text _
      · exact (h'.before_text _).after_text _
  · refine .of_not_writable (fun written => mt (hwritable written).mp hn) (Fail.append_right ?_ fs)
    · unfold clampedIndex
      split
      · exact fail_singleton _
      · rename_i t htype
        rw [if_pos (Decidable.not_not.mp fun hsize => hn ⟨t, htype, hsize⟩)]
        exact fail_singleton _

theorem areFree_callee {callee : Callee} {type : ShaderType} (emulated : Bool)
    (h : callee = .constructor → type.IsSpellable) :
    AreFree c (callee.fragments type emulated) := by
  cases callee with
  | function name => exact areFree_singleton fun _ _ => ⟨_, rfl⟩
  | constructor => exact (areFree_nameFragment (h rfl)).append (areFree_text _)
  | intrinsic op => exact areFree_singleton fun _ _ => ⟨_, rfl⟩

theorem areFree_swizzleSelection {offsets : List Nat} (h : ∀ offset ∈ offsets, offset ≤ 3) :
    AreFree c (swizzleSelection offsets) := by
  obtain ⟨letters, hletters⟩ :=
    Option.isSome_iff_exists.mp ((mapM_componentLetter?_isSome_iff offsets).mpr h)
  unfold swizzleSelection
  rw [hletters]
  exact areFree_text _

theorem fail_swizzleSelection {offsets : List Nat} (h : ¬ ∀ offset ∈ offsets, offset ≤ 3) :
    Fail c (swizzleSelection offsets) := by
  rw [← mapM_componentLetter?_isSome_iff, Option.not_isSome_iff_eq_none] at h
  unfold swizzleSelection
  rw [h]
  exact fail_singleton _

/-! ### Declarations and functions -/

theorem areFree_layout {t : ShaderType} (h : t.HasWritableLayout) : AreFree c t.layout := by
  unfold ShaderType.layout
  by_cases hnone : t.basic = .block ∨ (t.location? = none ∧ t.formatKeyword? = none)
  · rw [if_pos hnone]
    exact .nil
  · rw [if_neg hnone]
    refine ((AreFree.append (areFree_text _) ?_).append ?_).append (areFree_text _)
    · cases t.location? with
      | none => exact .nil
      | some n => exact areFree_text _
    · cases hkeyword : t.formatKeyword? with
      | none => exact .nil
      | some keyword =>
        unfold ShaderType.formatKeyword? at hkeyword
        split_ifs at hkeyword with himage
        have hformat : t.imageFormat ≠ .unspecified := by
          intro hunspecified
          rw [hunspecified] at hkeyword
          cases hkeyword
        have haccepts : t.qualifier.acceptsImageFormat = true := by
          rcases h himage hformat with hq | hq <;> rw [hq] <;> rfl
        simp only [haccepts, if_true]
        exact areFree_text _

theorem fail_layout {t : ShaderType} (h : ¬ t.HasWritableLayout) : Fail c t.layout := by
  simp only [ShaderType.HasWritableLayout, Classical.not_imp, not_or] at h
  obtain ⟨himage, hformat, hqualifier⟩ := h
  have hblock : t.basic ≠ .block := by
    intro hbasic
    rw [hbasic] at himage
    cases himage
  have hspecified : t.imageFormat ∈ ImageFormat.specified := by
    cases hkeyword : t.imageFormat <;> simp [ImageFormat.specified] at hformat ⊢
    exact hformat hkeyword
  obtain ⟨keyword, hkeyword⟩ :=
    Option.isSome_iff_exists.mp (ImageFormat.mem_specified_iff.mp hspecified)
  have hformat? : t.formatKeyword? = some keyword := by
    unfold ShaderType.formatKeyword?
    rw [if_pos himage, hkeyword]
  have haccepts : ¬ t.qualifier.acceptsImageFormat = true := by
    simpa [Qualifier.acceptsImageFormat] using hqualifier
  unfold ShaderType.layout
  rw [if_neg (by simp [hblock, hformat?]), hformat?]
  simp only [if_neg haccepts]
  exact ((fail_singleton _).append_right _).append_left _

/-- The layout and the type of a declaration. -/
theorem demands_declaredType (t : ShaderType) :
    Demands c (t.layout ++ t.occurrence c) [t] fun written =>
      t.HasWritableLayout ∧ t.WritableAfter written := by
  by_cases hlayout : t.HasWritableLayout
  · exact ((demands_occurrence t).after_free (areFree_layout hlayout)).congr fun _ =>
      (and_iff_right hlayout).symm
  · exact (((fail_layout hlayout).append_left _).demands [t]).congr fun _ =>
      iff_of_false not_false fun h => hlayout h.1

theorem demands_parameters (parameters : List Variable) :
    Demands c (commaSeparated (parameters.map (parameterFragments c)))
      (parameters.map Variable.type) fun written =>
        ShaderType.EachWritableAfter written (parameters.map Variable.type) := by
  induction parameters with
  | nil => exact AreFree.nil.demands.congr fun _ => iff_of_true trivial eachAfter_nil
  | cons p rest ih =>
    have hname : AreFree c
        ((if p.name.text = "" then [] else [.text " ", .parameterName p.name]) ++
          [.text p.type.brackets]) := by
      split_ifs
      · exact areFree_text _
      · exact ((areFree_text " ").append (areFree_singleton fun _ _ => ⟨_, rfl⟩)).append
          (areFree_text _)
    have hparameter : Demands c (parameterFragments c p) [p.type] fun written =>
        p.type.WritableAfter written := by
      unfold parameterFragments
      rw [List.append_assoc]
      exact (demands_occurrence p.type).before_free hname
    rw [List.map_cons]
    exact (hparameter.commaSeparated_cons ih).congr fun _ => eachAfter_cons.symm

theorem demands_head (p : Prototype) :
    Demands c (p.head c) [p.returnType] fun written => p.returnType.WritableAfter written :=
  (demands_occurrence p.returnType).before_free
    ((areFree_text _).append (areFree_singleton fun _ _ => ⟨_, rfl⟩))

theorem demands_parameterList (p : Prototype) :
    Demands c (p.parameterList c) (p.parameters.map Variable.type) fun written =>
      ShaderType.EachWritableAfter written (p.parameters.map Variable.type) :=
  ((demands_parameters p.parameters).before_free (areFree_text ")")).after_free (areFree_text "(")

theorem writes_prototype (p : Prototype) :
    Writes c (p.head c ++ p.parameterList c) [.prototype p] := by
  have hhead : Demands c (p.head c ++ p.parameterList c) p.types fun written =>
      ShaderType.EachWritableAfter written p.types :=
    ((demands_head p).append (demands_parameterList p)).congr fun _ => eachAfter_cons.symm
  have hwrites := Writes.of_demands (n := .prototype p) hhead (AreFree.nil (c := c)).writes
  rwa [List.append_nil] at hwrites

/-- A function, which opens a scope before its parameters. -/
theorem writes_function (p : Prototype) (body : List Node) (h : Writes c fs nodes) :
    Writes c (p.head c ++ [.scope (p.parameterList c ++ fs)]) (.function p body :: nodes) := by
  have hparts := (demands_head (c := c) p).append ((demands_parameterList p).append h).scope
  refine hparts.congr fun written => ?_
  have hhead : ShaderType.EachWritableAfter written p.types ↔ p.returnType.WritableAfter written ∧
      ShaderType.EachWritableAfter (written ++ [p.returnType]) (p.parameters.map Variable.type) :=
    eachAfter_cons
  have hnode : Node.EachWritableAfter written (.function p body :: nodes) ↔
      ShaderType.EachWritableAfter written p.types ∧
        Node.EachWritableAfter (written ++ p.types) nodes := eachAfter_cons
  rw [hnode, hhead, and_assoc, List.append_assoc, Prototype.types, List.singleton_append]

end Fragment

/-! ### Nodes -/

namespace Node

open Fragment

variable {c : Config}

mutual

/-- **The fragments of a tree write its nodes.** -/
theorem writes_fragments : (n : Node) → Writes c (n.fragments c) n.visited
  | symbol v => .of_writable (fun _ => trivial) rfl (areFree_reference v.id v.name).writes
  | constant type values => by
    rw [fragments, visited]
    by_cases h : values.length = type.valueCount ∧ ∀ part ∈ type.constantTypes, part.IsSpellable
    · exact .of_writable (fun _ => h) rfl (areFree_constant h).writes
    · exact .of_not_writable (fun _ => h) (fail_constant h)
  | unary op operand type emulated => by
    rw [fragments, visited]
    have hoperand := writes_fragments operand
    refine .of_writable (fun _ => trivial) rfl ?_
    cases op.form with
    | around before after => exact (hoperand.before_text after).after_text before
    | call name =>
      exact (hoperand.after_free (fun _ _ => ⟨_, rfl⟩)).before_text ")"
  | binary op left right type clamped => by
    have hleft := writes_fragments left
    have hright := writes_fragments right
    rw [fragments, visited]
    cases hform : op.form with
    | between separator =>
      refine .of_writable (fun written => ?_) rfl
        ((hleft.append ((hright.before_text ")").after_text separator)).after_text "(")
      show op.form.Fits left right clamped
      rw [hform]
      trivial
    | index computed =>
      by_cases hclamped : (computed && clamped) = true
      · obtain ⟨rfl, rfl⟩ := Bool.and_eq_true_iff.mp hclamped
        exact writes_clampedIndex hform hleft hright
      · dsimp only
        rw [if_neg hclamped]
        refine .of_writable (fun written => ?_) rfl
          (hleft.append ((hright.before_text "]").after_text "["))
        show op.form.Fits left right clamped
        rw [hform]
        exact fun hcomputed hclamp => absurd (Bool.and_eq_true_iff.mpr ⟨hcomputed, hclamp⟩) hclamped
    | member ofBlock =>
      rw [List.append_nil]
      exact writes_memberSelection hform hleft
  | ternary condition whenTrue whenFalse type => by
    have hcondition := writes_fragments condition
    have htrue := writes_fragments whenTrue
    have hfalse := (writes_fragments whenFalse).before_text "))"
    have hbranches := (htrue.append (hfalse.after_text ") : (")).after_text ") ? ("
    rw [fragments, visited]
    exact .of_writable (fun _ => trivial) rfl ((hcondition.append hbranches).after_text "((")
  | swizzle operand offsets type => by
    rw [fragments, visited]
    by_cases h : ∀ offset ∈ offsets, offset ≤ 3
    · exact .of_writable (fun _ => h) rfl
        ((writes_fragments operand).before_free (areFree_swizzleSelection h))
    · exact .of_not_writable (fun _ => h) ((fail_swizzleSelection h).append_right _)
  | call callee arguments type emulated => by
    have harguments := writes_each arguments
    rw [fragments, visited]
    by_cases h : callee = .constructor → type.IsSpellable
    · exact .of_writable (fun _ => h) rfl
        (((harguments.before_text ")").after_text "(").after_free (areFree_callee emulated h))
    · obtain ⟨rfl, hspellable⟩ := Classical.not_imp.mp h
      exact .of_not_writable (fun _ => h)
        (((fail_nameFragment hspellable).append_left _).append_left _)
  | prototype head => writes_prototype head
  | invariantDeclaration v =>
    .of_writable (fun _ => trivial) rfl
      ((areFree_text "invariant ").append (areFree_reference v.id v.name)).writes
  | declaration [] => .of_not_writable (fun _ => not_false) (fail_singleton _)
  | declaration (first :: rest) => by
    have hdeclarators := writes_declarators (first :: rest)
    rw [fragments, visited]
    exact .of_demands (demands_declaredType first.var.type) (hdeclarators.after_text " ")
  | block statements => by
    rw [fragments, visited]
    exact .of_writable (fun _ => trivial) rfl (writes_statements statements).block
  | ifElse condition whenTrue whenFalse => by
    have hcondition := writes_fragments condition
    have htrue := writes_body whenTrue
    have hfalse : Writes c
        (if whenFalse.isSome then .text "else\n" :: bodyFragments c whenFalse else [])
        (visitedBody whenFalse) := by
      cases whenFalse with
      | none => exact AreFree.nil.writes
      | some statements => exact (writes_body (some statements)).after_text "else\n"
    rw [fragments, visited]
    exact .of_writable (fun _ => trivial) rfl
      ((hcondition.append ((htrue.append hfalse).scope.after_text ")\n")).after_text "if (")
  | switch selector body => by
    have hselector := writes_fragments selector
    have hbody : Writes c
        (if body.isSome then .text ") " :: bodyFragments c body else [.text ") \x7b\x7d\n"])
        (visitedBody body) := by
      cases body with
      | none => exact (areFree_text _).writes
      | some statements => exact (writes_body (some statements)).after_text ") "
    rw [fragments, visited]
    exact .of_writable (fun _ => trivial) rfl ((hselector.append hbody).after_text "switch (")
  | case label => by
    rw [fragments, visited]
    refine .of_writable (fun _ => trivial) rfl ?_
    cases label with
    | none => exact (areFree_text _).writes
    | some node => exact ((writes_fragments node).before_text "):\n").after_text "case ("
  | loop kind init condition step body true => by
    rw [fragments.eq_def, visited.eq_def]
    dsimp only
    cases hl : CountingLoop.ofLoop kind init condition step with
    | error obstacle =>
      refine .of_not_writable (fun _ h => ?_) (fail_scope (fail_singleton _))
      obtain ⟨l, hdescribes⟩ := h
      rw [CountingLoop.ofLoop_eq_ok_iff.mpr hdescribes] at hl
      cases hl
    | ok l =>
      have hcopies := ((writes_body body).unrolled l.counter l.iterations).before_text "\x7d\n"
      exact .of_writable (fun _ => ⟨l, CountingLoop.ofLoop_eq_ok_iff.mp hl⟩) rfl
        (hcopies.after_free fun _ _ => ⟨_, rfl⟩).scope
  | loop .forLoop init condition step body false => by
    have hbody := (writes_body body).after_text ")\n"
    have hstep := ((writes_optional step).append hbody).after_text "; "
    have hcondition := ((writes_optional condition).append hstep).after_text "; "
    exact .of_writable (fun _ h => absurd rfl h) rfl
      (((writes_optional init).append hcondition).after_text "for (").scope
  | loop .whileLoop init (some condition) step body false =>
    .of_writable (fun _ _ => rfl) rfl (((writes_fragments condition).append
      ((writes_body body).after_text ")\n")).after_text "while (").scope
  | loop .doWhileLoop init (some condition) step body false =>
    .of_writable (fun _ _ => rfl) rfl (((writes_body body).append
      (((writes_fragments condition).before_text ");\n").after_text "while (")).after_text
        "do\n").scope
  | loop .whileLoop init none step body false =>
    .of_not_writable (fun _ h => Bool.false_ne_true (h (by decide)))
      (fail_scope (((fail_singleton _).append_left _).append_right [.text "while ("]))
  | loop .doWhileLoop init none step body false =>
    .of_not_writable (fun _ h => Bool.false_ne_true (h (by decide)))
      (fail_scope (((((fail_singleton _).append_left [.text ");\n"]).append_right
        [.text "while ("]).append_right (bodyFragments c body)).append_right [.text "do\n"]))
  | branch kind value => by
    rw [fragments, visited]
    refine .of_writable (fun _ => trivial) rfl (Writes.after_text ?_ kind.keyword)
    split_ifs
    · exact writes_optional value
    · exact AreFree.nil.writes
  | function head body => writes_function head body (writes_statements body).block

/-- The arguments of a call. -/
theorem writes_each : (nodes : List Node) →
    Writes c (commaSeparated (eachFragments c nodes)) (visitedEach nodes)
  | [] => AreFree.nil.writes
  | node :: rest => by
    rw [eachFragments, visitedEach]
    exact (writes_fragments node).commaSeparated_cons (writes_each rest)

/-- The statements of a block. -/
theorem writes_statements : (nodes : List Node) →
    Writes c (statementFragments c nodes) (visitedEach nodes)
  | [] => AreFree.nil.writes
  | node :: rest => by
    rw [statementFragments, visitedEach]
    have hend : AreFree c (if node.isSimpleStatement then [.text ";\n"] else []) := by
      split_ifs
      · exact areFree_text _
      · exact .nil
    exact ((writes_fragments node).before_free hend).append (writes_statements rest)

theorem writes_optional : (node : Option Node) →
    Writes c (optionalFragments c node) (visitedOption node)
  | none => AreFree.nil.writes
  | some node => writes_fragments node

/-- The body of a compound statement. -/
theorem writes_body : (body : Option (List Node)) →
    Writes c (bodyFragments c body) (visitedBody body)
  | none => (areFree_text _).writes
  | some statements => (writes_statements statements).block

/-- The initial values of a declaration. -/
theorem writes_declarators : (declarators : List Declarator) →
    Writes c (commaSeparated (declaratorFragments c declarators)) (visitedDeclarators declarators)
  | [] => AreFree.nil.writes
  | { var, initializer } :: rest => by
    rw [declaratorFragments, visitedDeclarators]
    have hinitializer : Writes c
        (if initializer.isSome then .text " = " :: optionalFragments c initializer else [])
        (visitedOption initializer) := by
      cases initializer with
      | none => exact AreFree.nil.writes
      | some node => exact (writes_fragments node).after_text " = "
    have hname : AreFree c [.variableName var.name, .text var.type.brackets] :=
      fun _ _ => ⟨_, rfl⟩
    exact Writes.commaSeparated_cons (hinitializer.after_free hname) (writes_declarators rest)

end

end Node

namespace Renderer

/-- A pass succeeds if and only if its tree is well formed. -/
theorem exists_renderFrom_iff (r : Renderer) (names : NameTable) (root : Node) :
    (∃ out, r.renderFrom names root = .ok out) ↔ root.WellFormed := by
  have hagrees : Agrees [] [] := fun id => by simp
  have hdemands := Node.writes_fragments (c := r.config) root (fun _ => none) 0
  have htrace : (∃ result, root.trace r.config [] = .ok result) ↔ root.WellFormed :=
    hdemands.succeeds_iff hagrees
  rw [← htrace]
  constructor
  · rintro ⟨out, h⟩
    obtain ⟨tokens, htokens, -⟩ := tokens_of_renderFrom h
    obtain ⟨declared, hruns⟩ := runs_of_tokens htokens
    exact ⟨(tokens, declared), hruns⟩
  · rintro ⟨result, hresult⟩
    have htokens : r.tokens root = .ok result.1 := by
      unfold tokens
      rw [hresult]
      rfl
    exact ⟨_, renderFrom_of_tokens htokens names⟩

/-- **A pass succeeds if and only if its tree is well formed.** Neither the configuration and the
built-in names nor the table that it starts from make a difference. The counts of the types say the
same of a tree, **unless the count of one of its constants wraps around: then a pass fails on it,**
although the counts may allow it. -/
theorem renderFrom_isOk_iff_wellFormed (r : Renderer) (names : NameTable) (root : Node) :
    ((∃ out, r.renderFrom names root = .ok out) ↔ root.WellFormed) ∧
    ((∀ n ∈ root.visited, n.HasValueList) →
      ((∃ out, r.renderFrom names root = .ok out) ↔
        root.WellFormedByCounts ∧ ∀ n ∈ root.visited, n.HasCount)) := by
  have hpass := r.exists_renderFrom_iff names root
  exact ⟨hpass, fun hlists => hpass.trans (Node.wellFormed_iff_of_hasValueList hlists)⟩

/-- A constant array of `2 ^ 64` values is well formed by its count, `0`, if it has none, but a pass
on it fails. -/
theorem renderFrom_fails_wideArray :
    (∀ n ∈ (Node.constant wideArray []).visited, n.HasValueList) ∧
    (Node.constant wideArray []).WellFormedByCounts ∧
    ¬ ∃ out, ({} : Renderer).renderFrom .empty (.constant wideArray []) = .ok out := by
  have hvisited : (Node.constant wideArray []).visited = [.constant wideArray []] := by
    rw [Node.visited]
  have hlists : ∀ n ∈ (Node.constant wideArray []).visited, n.HasValueList := by
    rw [hvisited, List.forall_mem_singleton]
    show 0 < 2 ^ 64
    decide
  have hspellable : ∀ part ∈ wideArray.constantTypes, part.IsSpellable := by decide +kernel
  have hcounts : (Node.constant wideArray []).WellFormedByCounts := by
    unfold Node.WellFormedByCounts
    rw [hvisited, eachAfter_cons]
    exact ⟨⟨objectSize_wideArray.symm, hspellable⟩, eachAfter_nil⟩
  refine ⟨hlists, hcounts, fun hout => ?_⟩
  have hcount : wideArray.valueCount < 2 ^ 64 :=
    (((renderFrom_isOk_iff_wellFormed {} .empty _).2 hlists).mp hout).2 (.constant wideArray [])
      (by rw [hvisited]; exact List.mem_cons_self)
  rw [valueCount_wideArray] at hcount
  exact Nat.lt_irrefl _ hcount

end Renderer

end ShaderText
