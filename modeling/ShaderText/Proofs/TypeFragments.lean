import ShaderText.Fragment.Node
import Mathlib.Tactic.SplitIfs

/-! # Types and heads: fragments that only name things

The fragments of a type, of the head of a function, of a selection or of the callee of a call are of
few kinds: text, names that are declared or belong to a type, struct bodies made of the same, and
failures. No use of a variable, no constant, no brace or scope and no copies are among them. A
property that these kinds have (`Fragment.HoldsOfNames`) therefore holds of all fragments of a type
(`HoldsOfNames.occurrence`, `HoldsOfNames.layout`) and of a head (`HoldsOfNames.head`,
`HoldsOfNames.parameterList`). The definitions are taken apart here once. -/

namespace ShaderText

namespace Fragment

/-- A property of the fragments that name things, and of the bodies of structs made of such. -/
structure HoldsOfNames (p : Fragment → Prop) : Prop where
  text : ∀ s, p (.text s)
  variableName : ∀ name, p (.variableName name)
  parameterName : ∀ name, p (.parameterName name)
  typeName : ∀ name, p (.typeName name)
  member : ∀ owner field, p (.member owner field)
  blockMember : ∀ field, p (.blockMember field)
  function : ∀ name emulated, p (.function name emulated)
  intrinsic : ∀ name emulated, p (.intrinsic name emulated)
  requireStruct : ∀ id name, p (.requireStruct id name)
  structBody : ∀ id name body later, (∀ f ∈ body, p f) → (∀ f ∈ later, p f) →
    p (.structBody id name body later)
  fail : ∀ cause, p (.fail cause)

/-- What holds of the comma and of each group holds of the groups with commas between them. -/
theorem forall_mem_commaSeparated {p : Fragment → Prop} (hcomma : p (.text ", "))
    {groups : List (List Fragment)} (h : ∀ group ∈ groups, ∀ f ∈ group, p f) :
    ∀ f ∈ commaSeparated groups, p f := by
  induction groups with
  | nil => simp
  | cons group rest ih =>
    cases rest with
    | nil => simpa using h
    | cons next rest =>
      rw [List.forall_mem_cons] at h
      rw [commaSeparated_cons group (List.cons_ne_nil next rest), List.forall_mem_append,
        List.forall_mem_cons]
      exact ⟨h.1, hcomma, ih h.2⟩

namespace HoldsOfNames

variable {p : Fragment → Prop} (h : HoldsOfNames p)

include h

/-! ### Types -/

theorem keywordText (keyword : String) : ∀ f ∈ ShaderText.keywordText keyword, p f := by
  unfold ShaderText.keywordText
  split_ifs <;> simp [h.text]

theorem nameFragment (t : ShaderType) : p t.nameFragment := by
  unfold ShaderType.nameFragment
  cases t.spelling with
  | ok name => exact h.typeName name
  | error cause => exact h.fail cause

theorem typeReference (c : Config) (t : ShaderType) : ∀ f ∈ t.reference c, p f := by
  rw [ShaderType.reference, List.forall_mem_append, List.forall_mem_singleton]
  refine ⟨?_, h.nameFragment t⟩
  split_ifs
  · exact h.keywordText _
  · simp

theorem fieldFragments (c : Config) {name : Fragment} (hname : p name) (f : Field) :
    ∀ g ∈ f.fragments c name, p g := by
  rw [Field.fragments, List.forall_mem_append, List.forall_mem_append]
  refine ⟨⟨?_, h.typeReference c f.type⟩, by simp [h.text, hname]⟩
  unfold Field.requirement
  split_ifs
  · cases f.type.structDef <;> simp [h.requireStruct, h.fail]
  · simp

theorem fields (c : Config) {name : Field → Fragment} (hname : ∀ f, p (name f))
    (fields : List Field) : ∀ g ∈ fields.flatMap fun f => f.fragments c (name f), p g := by
  intro g hg
  obtain ⟨f, -, hf⟩ := List.mem_flatMap.mp hg
  exact h.fieldFragments c (hname f) f g hf

theorem structDefBody (c : Config) (d : StructDef) : ∀ f ∈ d.body c, p f := by
  rw [StructDef.body, List.forall_mem_append, List.forall_mem_append]
  exact ⟨⟨by simp [h.text, h.typeName], h.fields c (fun _ => h.member ..) d.fields⟩,
    by simp [h.text]⟩

theorem blockDefBody (c : Config) (d : BlockDef) : ∀ f ∈ d.body c, p f := by
  rw [BlockDef.body, List.forall_mem_append, List.forall_mem_append]
  exact ⟨⟨by simp [h.text, h.typeName], h.fields c (fun _ => h.blockMember _) d.fields⟩,
    by simp [h.text]⟩

theorem typeBody (c : Config) (t : ShaderType) : ∀ f ∈ t.body c, p f := by
  unfold ShaderType.body
  split
  · split
    · rename_i d _
      exact List.forall_mem_singleton.mpr
        (h.structBody d.id d.name _ _ (h.structDefBody c d) (h.typeReference c t))
    · simp [h.fail]
  · split
    · rename_i d _
      exact h.blockDefBody c d
    · simp [h.fail]
  · exact h.typeReference c t

theorem occurrence (c : Config) (t : ShaderType) : ∀ f ∈ t.occurrence c, p f := by
  have hinvariant : ∀ f ∈ (if t.invariant && !c.removesInvariant then
      [Fragment.text "invariant "] else []), p f := by
    split_ifs <;> simp [h.text]
  have hlayout : ∀ f ∈ t.blockLayout, p f := by
    unfold ShaderType.blockLayout
    split_ifs
    · cases t.blockDef <;> simp [BlockDef.layout, h.text, h.fail]
    · simp
  have hmemory : ∀ f ∈ t.memoryQualifiers, p f := by
    intro f hf
    obtain ⟨keyword, -, rfl⟩ := List.mem_map.mp hf
    split_ifs
    · exact h.text _
    · exact h.fail _
  rw [ShaderType.occurrence]
  simp only [List.forall_mem_append]
  exact ⟨⟨⟨⟨hinvariant, hlayout⟩, h.keywordText _⟩, hmemory⟩, h.typeBody c t⟩

theorem layout (t : ShaderType) : ∀ f ∈ t.layout, p f := by
  unfold ShaderType.layout
  split
  · simp
  · simp only [List.forall_mem_append]
    refine ⟨⟨⟨by simp [h.text], ?_⟩, ?_⟩, by simp [h.text]⟩
    · cases t.location? <;> simp [h.text]
    · cases t.formatKeyword? with
      | none => simp
      | some keyword =>
        dsimp only
        split <;> simp [h.text, h.fail]

/-! ### Selections, callees and heads -/

theorem memberName (t : ShaderType) (ofBlock : Bool) (index : Int) :
    p (t.memberName ofBlock index) := by
  unfold ShaderType.memberName
  split_ifs
  · cases t.blockDef with
    | none => exact h.fail _
    | some d =>
      dsimp only
      cases fieldAt? d.fields index with
      | none => exact h.fail _
      | some f => exact h.blockMember f.name
  · cases t.structDef with
    | none => exact h.fail _
    | some d =>
      dsimp only
      cases fieldAt? d.fields index with
      | none => exact h.fail _
      | some f => exact h.member d.name f.name

theorem swizzleSelection (offsets : List Nat) :
    ∀ f ∈ ShaderText.swizzleSelection offsets, p f := by
  unfold ShaderText.swizzleSelection
  cases offsets.mapM componentLetter? <;> simp [h.text, h.fail]

theorem calleeFragments (type : ShaderType) (emulated : Bool) (callee : Callee) :
    ∀ f ∈ callee.fragments type emulated, p f := by
  cases callee <;> simp [Callee.fragments, h.function, h.intrinsic, h.nameFragment, h.text]

theorem parameterFragments (c : Config) (v : Variable) :
    ∀ f ∈ ShaderText.parameterFragments c v, p f := by
  rw [ShaderText.parameterFragments, List.forall_mem_append, List.forall_mem_append]
  refine ⟨⟨h.occurrence c v.type, ?_⟩, by simp [h.text]⟩
  split_ifs <;> simp [h.text, h.parameterName]

theorem head (c : Config) (head : Prototype) : ∀ f ∈ head.head c, p f := by
  rw [Prototype.head, List.forall_mem_append]
  exact ⟨h.occurrence c head.returnType, by simp [h.text, h.function]⟩

theorem parameterList (c : Config) (head : Prototype) : ∀ f ∈ head.parameterList c, p f := by
  rw [Prototype.parameterList, List.forall_mem_cons, List.forall_mem_append]
  refine ⟨h.text _, forall_mem_commaSeparated (h.text _) ?_, by simp [h.text]⟩
  intro group hgroup
  obtain ⟨parameter, -, rfl⟩ := List.mem_map.mp hgroup
  exact h.parameterFragments c parameter

theorem loopHeader (l : CountingLoop) : ∀ f ∈ l.header, p f := by
  simp [CountingLoop.header, h.text, h.variableName]

end HoldsOfNames

end Fragment

end ShaderText
