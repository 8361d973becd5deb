import ShaderText.Proofs.BracketedTokens
import ShaderText.Proofs.TextInvariant

/-! # Brackets of types

`Fragment.Turns` says of fragments which closing brackets are awaited before and after whatever text
they come to. There is one rule for each way of putting fragments together: in a row, in the braces
of a block, in each copy of an unrolled loop, with commas in between. By these rules the layout of a
type and its occurrence, with the body of a struct or block where there is one, leave nothing open
(`Fragment.turns_layout`, `Fragment.turns_occurrence`). -/

namespace ShaderText

namespace Fragment

/-- Fragments before whose text `before` is awaited, and after it `after`, unless the name of a
function that stands in for a built-in one has brackets. -/
def Turns (r : Renderer) (ρ : String → String) (before : List Char) (fs : List Fragment)
    (after : List Char) : Prop :=
  ∀ ⦃b depth declared tokens declared'⦄, Runs r.config b depth fs declared tokens declared' →
    r.FreeEmulations ρ tokens → Shifts before (r.charsOf ρ tokens) after

variable {r : Renderer} {ρ : String → String} {before middle after awaited : List Char}
  {f : Fragment} {fs gs : List Fragment} {s : String}

/-! ### Putting fragments together -/

theorem turns_nil : Turns r ρ awaited [] awaited := by
  intro b depth declared tokens declared' hr _
  obtain ⟨rfl, -⟩ := runs_nil hr
  exact shifts_nil

theorem Turns.append (h : Turns r ρ before fs middle) (h' : Turns r ρ middle gs after) :
    Turns r ρ before (fs ++ gs) after := by
  intro b depth declared tokens declared' hr hfree
  obtain ⟨front, _, back, hfront, hback, rfl⟩ := runs_append hr
  obtain ⟨hfree, hfree'⟩ := List.forall_mem_append.mp hfree
  rw [r.charsOf_append]
  exact (h hfront hfree).append (h' hback hfree')

theorem Turns.cons (h : Turns r ρ before [f] middle) (h' : Turns r ρ middle fs after) :
    Turns r ρ before (f :: fs) after :=
  h.append h'

/-- What is awaited outside does not matter. -/
theorem Turns.around (h : Turns r ρ before fs after) (outer : List Char) :
    Turns r ρ (before ++ outer) fs (after ++ outer) :=
  fun _ _ _ _ _ hr hfree => (h hr hfree).around outer

/-- Fragments of a well-nested text, where something is awaited. -/
theorem Turns.within (h : Turns r ρ [] fs []) (awaited : List Char) :
    Turns r ρ awaited fs awaited :=
  h.around awaited

theorem turns_text (h : Shifts before s.toList after) : Turns r ρ before [.text s] after := by
  intro b depth declared tokens declared' hr _
  obtain ⟨rfl, -⟩ := runs_of_emit rfl hr
  simpa using h

theorem Turns.text_cons (h : Turns r ρ middle fs after) (hs : Shifts before s.toList middle) :
    Turns r ρ before (.text s :: fs) after :=
  (turns_text hs).cons h

theorem Turns.append_text (h : Turns r ρ before fs middle) (hs : Shifts middle s.toList after) :
    Turns r ρ before (fs ++ [.text s]) after :=
  h.append (turns_text hs)

/-- A text in front of which and behind which others stand. -/
theorem Turns.append_text_cons (h : Turns r ρ before fs middle) {middle' : List Char}
    (h' : Turns r ρ middle' gs after) (hs : Shifts middle s.toList middle') :
    Turns r ρ before (fs ++ .text s :: gs) after :=
  h.append (h'.text_cons hs)

/-- A well-nested text between an opening and a closing one. -/
theorem Turns.enclosed {opening closing : String} (h : Turns r ρ [] fs [])
    (hopening : Shifts [] opening.toList awaited) (hclosing : Shifts awaited closing.toList []) :
    Turns r ρ [] (.text opening :: (fs ++ [.text closing])) [] :=
  ((h.within awaited).append_text hclosing).text_cons hopening

theorem turns_fail (cause : RenderError) : Turns r ρ before [.fail cause] after := by
  intro b depth declared tokens declared' hr _
  cases runs_singleton.mp hr

theorem Turns.scope (h : Turns r ρ before fs after) : Turns r ρ before [.scope fs] after :=
  fun _ _ _ _ _ hr hfree => h (runs_singleton.mp hr) hfree

/-- The braces of a block come in pairs, if there are any. -/
theorem Turns.block (h : Turns r ρ [] fs []) : Turns r ρ [] (blockFragments fs) [] := by
  intro b depth declared tokens declared' hr hfree
  obtain ⟨inner, hinner, rfl⟩ := runs_blockFragments hr
  split_ifs at hfree ⊢
  · have hopening : Shifts [] "\x7b\n".toList ['\x7d'] := by decide
    have hclosing : Shifts ['\x7d'] "\x7d\n".toList [] := by decide
    have hfree' : r.FreeEmulations ρ inner := fun t ht =>
      hfree t (List.mem_cons_of_mem _ (List.mem_append_left _ ht))
    simpa using hopening.append (((h hinner hfree').around ['\x7d']).append hclosing)
  · exact h hinner hfree

theorem Turns.each {copy : Int → Trace}
    (h : ∀ value ⦃declared tokens declared'⦄, copy value declared = .ok (tokens, declared') →
      r.FreeEmulations ρ tokens → Shifts awaited (r.charsOf ρ tokens) awaited)
    (values : List Int) {declared declared' : List StructId} {tokens : List Token}
    (hr : Trace.each copy values declared = .ok (tokens, declared'))
    (hfree : r.FreeEmulations ρ tokens) : Shifts awaited (r.charsOf ρ tokens) awaited := by
  induction values generalizing declared tokens with
  | nil =>
    cases hr
    exact shifts_nil
  | cons value rest ih =>
    obtain ⟨front, _, back, hfront, hback, rfl⟩ := Trace.exists_of_seq hr
    obtain ⟨hfree, hfree'⟩ := List.forall_mem_append.mp hfree
    rw [r.charsOf_append]
    exact (h value hfront hfree).append (ih hback hfree')

/-- Copies after each of which the same is awaited as before it. -/
theorem Turns.unrolled (h : Turns r ρ awaited fs awaited) (counter : Counter) (copies : Nat) :
    Turns r ρ awaited [.unrolled counter copies fs] awaited :=
  fun _ _ _ _ _ hr hfree =>
    Turns.each (fun _ _ _ _ hcopy => h hcopy) _ (runs_singleton.mp hr) hfree

theorem Turns.structBody (h : Turns r ρ before fs after) (h' : Turns r ρ before gs after)
    (id : StructId) (name : String) : Turns r ρ before [.structBody id name fs gs] after := by
  intro b depth declared tokens declared' hr hfree
  have hrun : Trace.once id name (traceAll r.config fs b depth) (traceAll r.config gs b depth)
      declared = .ok (tokens, declared') := runs_singleton.mp hr
  unfold Trace.once at hrun
  split_ifs at hrun
  · exact h' hrun hfree
  · cases hbody : traceAll r.config fs b depth declared with
    | error cause => rw [hbody] at hrun; cases hrun
    | ok x =>
      rw [hbody] at hrun
      cases hrun
      exact h hbody hfree

theorem turns_requireStruct (id : StructId) (name : String) :
    Turns r ρ awaited [.requireStruct id name] awaited := by
  intro b depth declared tokens declared' hr _
  have hrun : Trace.require id name declared = .ok (tokens, declared') := runs_singleton.mp hr
  unfold Trace.require at hrun
  split_ifs at hrun
  cases hrun
  exact shifts_nil

theorem turns_commaSeparated {groups : List (List Fragment)}
    (h : ∀ group ∈ groups, Turns r ρ awaited group awaited) :
    Turns r ρ awaited (commaSeparated groups) awaited := by
  induction groups with
  | nil => exact turns_nil
  | cons group rest ih =>
    obtain ⟨hgroup, hrest⟩ := List.forall_mem_cons.mp h
    cases rest with
    | nil => simpa using hgroup
    | cons next rest =>
      rw [commaSeparated_cons group (List.cons_ne_nil next rest)]
      exact hgroup.append_text_cons (ih hrest) (IsBracketFree.shifts (by decide))

theorem turns_flatMap {α : Type} {items : List α} {fragments : α → List Fragment}
    (h : ∀ item ∈ items, Turns r ρ awaited (fragments item) awaited) :
    Turns r ρ awaited (items.flatMap fragments) awaited := by
  induction items with
  | nil => exact turns_nil
  | cons item rest ih =>
    obtain ⟨hitem, hrest⟩ := List.forall_mem_cons.mp h
    exact hitem.append (ih hrest)

/-! ### Names and constants -/

theorem turns_free (h : IsBracketFree s) : Turns r ρ awaited [.text s] awaited :=
  turns_text h.shifts

theorem turns_keywordText {keyword : String} (h : IsBracketFree keyword) :
    Turns r ρ awaited (keywordText keyword) awaited := by
  unfold keywordText
  split_ifs
  · exact turns_nil
  · exact turns_free (isBracketFree_append.mpr ⟨h, by decide⟩)

section

variable (hρ : AddsNoBracket ρ)

include hρ

/-- A fragment that is written as a single name. -/
theorem turns_name {t : Token} (hf : ∀ b depth, f.trace r.config b depth = .emit [t])
    (h : t.HasName IsBracketFree) : Turns r ρ awaited [f] awaited := by
  intro b depth declared tokens declared' hr hfree
  obtain ⟨rfl, -⟩ := runs_of_emit (hf b depth) hr
  simpa using (Token.isBracketFree_print hρ h hfree).shifts

theorem turns_userDefined {name : String} (h : IsBracketFree name) :
    Turns r ρ awaited [.typeName (.userDefined name)] awaited :=
  turns_name hρ (t := .typeName (.userDefined name)) (fun _ _ => rfl) h

theorem turns_member (owner : String) {field : String} (h : IsBracketFree field) :
    Turns r ρ awaited [.member owner field] awaited :=
  turns_name hρ (t := .member owner field) (fun _ _ => rfl) h

theorem turns_blockMember {field : String} (h : IsBracketFree field) :
    Turns r ρ awaited [.blockMember field] awaited :=
  turns_name hρ (t := .blockMember field) (fun _ _ => rfl) h

theorem turns_variableName {name : Name} (h : IsBracketFree name.text) :
    Turns r ρ awaited [.variableName name] awaited :=
  turns_name hρ (t := .declared name) (fun _ _ => rfl) h

theorem turns_reference (id : SymbolId) {name : Name} (h : IsBracketFree name.text) :
    Turns r ρ awaited [.reference id name] awaited := by
  intro b depth declared tokens declared' hr hfree
  rcases yields_reference ⟨depth, declared, declared', hr⟩ with ⟨value, -, rfl⟩ | ⟨-, rfl⟩
  · simpa using (isBracketFree_int_repr value).shifts
  · simpa using (Token.isBracketFree_print (t := .used name) hρ h hfree).shifts

theorem turns_constant {t : ShaderType} (ht : ∀ s ∈ t.names, IsBracketFree s)
    (values : List Scalar) : Turns r ρ [] [.constant t values] [] :=
  fun _ depth declared _ declared' hr _ =>
    ShaderType.shifts_constantTokens hρ ht (yields_constant ⟨depth, declared, declared', hr⟩)

/-! ### Types -/

theorem turns_nameFragment {t : ShaderType} (ht : ∀ s ∈ t.names, IsBracketFree s) :
    Turns r ρ awaited [t.nameFragment] awaited := by
  unfold ShaderType.nameFragment
  cases hname : t.spelling with
  | error cause => exact turns_fail cause
  | ok name =>
    exact turns_name hρ (fun _ _ => rfl) (ShaderType.isBracketFree_of_spelling ht hname)

theorem turns_typeReference {t : ShaderType} (ht : ∀ s ∈ t.names, IsBracketFree s) :
    Turns r ρ awaited (t.reference r.config) awaited := by
  have hprecision : IsBracketFree (t.precision.keyword?.getD "") := by
    cases t.precision <;> decide
  refine Turns.append ?_ (turns_nameFragment hρ ht)
  split_ifs
  · exact turns_keywordText hprecision
  · exact turns_nil

omit hρ in
theorem turns_requirement (f : Field) : Turns r ρ awaited f.requirement awaited := by
  unfold Field.requirement
  split_ifs
  · cases f.type.structDef with
    | none => exact turns_fail _
    | some d => exact turns_requireStruct d.id d.name
  · exact turns_nil

theorem turns_field {f : Field} {name : Fragment} (ht : ∀ s ∈ f.type.names, IsBracketFree s)
    (hname : Turns r ρ awaited [name] awaited) :
    Turns r ρ awaited (f.fragments r.config name) awaited := by
  have hend : Shifts awaited (f.type.brackets ++ ";\n").toList awaited := by
    rw [String.toList_append]
    exact f.type.shifts_brackets.append (IsBracketFree.shifts (by decide))
  have hblank : Shifts awaited " ".toList awaited := IsBracketFree.shifts (by decide)
  exact ((turns_requirement f).append (turns_typeReference hρ ht)).append
    ((hname.append_text hend).text_cons hblank)

/-- The members of a struct or block in their braces. -/
theorem turns_members {fields : List Field} {name : Field → Fragment}
    (hfields : ∀ f ∈ fields, ∀ s ∈ f.type.names, IsBracketFree s)
    (hname : ∀ f ∈ fields, Turns r ρ ['\x7d'] [name f] ['\x7d']) :
    Turns r ρ [] (.text "\x7b\n" ::
      (fields.flatMap (fun f => f.fragments r.config (name f)) ++ [.text "\x7d"])) [] := by
  have hmembers : Turns r ρ ['\x7d'] (fields.flatMap fun f => f.fragments r.config (name f))
      ['\x7d'] :=
    turns_flatMap fun f hf => turns_field hρ (hfields f hf) (hname f hf)
  exact (hmembers.append_text (by decide)).text_cons (by decide)

theorem turns_structBody {d : StructDef} (hname : IsBracketFree d.name)
    (hfields : ∀ f ∈ d.fields, IsBracketFree f.name ∧ ∀ s ∈ f.type.names, IsBracketFree s) :
    Turns r ρ [] (d.body r.config) [] := by
  have hmembers := turns_members (r := r) hρ (fun f hf => (hfields f hf).2)
    fun f hf => turns_member hρ d.name (hfields f hf).1
  exact ((turns_userDefined hρ hname).append hmembers).text_cons (by decide)

theorem turns_blockBody {d : BlockDef} (hname : IsBracketFree d.name)
    (hfields : ∀ f ∈ d.fields, IsBracketFree f.name ∧ ∀ s ∈ f.type.names, IsBracketFree s) :
    Turns r ρ [] (d.body r.config) [] := by
  have hmembers := turns_members (r := r) hρ (fun f hf => (hfields f hf).2)
    fun f hf => turns_blockMember hρ (hfields f hf).1
  exact (turns_userDefined hρ hname).append hmembers

theorem turns_typeBody {t : ShaderType} (ht : ∀ s ∈ t.names, IsBracketFree s) :
    Turns r ρ [] (t.body r.config) [] := by
  obtain ⟨hstruct, hblock⟩ := ShaderType.forall_mem_names.mp ht
  have hreference : Turns r ρ [] (t.reference r.config) [] := turns_typeReference hρ ht
  unfold ShaderType.body
  split
  · cases hd : t.structDef with
    | none => exact turns_fail _
    | some d =>
      obtain ⟨hname, hfields⟩ := hstruct d hd
      exact (turns_structBody hρ hname hfields).structBody hreference d.id d.name
  · cases hd : t.blockDef with
    | none => exact turns_fail _
    | some d =>
      obtain ⟨hname, hfields⟩ := hblock d hd
      exact turns_blockBody hρ hname hfields
  · exact hreference

omit hρ in
theorem turns_blockLayout (t : ShaderType) : Turns r ρ [] t.blockLayout [] := by
  have hlayout : ∀ (storage : BlockStorage) (packing : MatrixPacking),
      Shifts [] ("layout(" ++ storage.keyword ++ ", " ++ packing.keyword ++ ") ").toList [] := by
    intro storage packing
    have hstorage : IsBracketFree storage.keyword := by cases storage <;> decide
    have hcomma : IsBracketFree ", " := by decide
    have hpacking : IsBracketFree packing.keyword := by cases packing <;> decide
    have hopening : Shifts [] "layout(".toList [')'] := by decide
    have hclosing : Shifts [')'] ") ".toList [] := by decide
    simp only [String.toList_append]
    exact (((hopening.append hstorage.shifts).append hcomma.shifts).append
      hpacking.shifts).append hclosing
  unfold ShaderType.blockLayout
  split_ifs
  · cases t.blockDef with
    | none => exact turns_fail _
    | some d => exact turns_text (hlayout d.storage d.packing)
  · exact turns_nil

omit hρ in
theorem turns_storageText (c : Config) (q : Qualifier) :
    Turns r ρ awaited (keywordText (if q.isStorageFree then "" else c.storageKeyword q))
      awaited := by
  have hkeyword : IsBracketFree (c.storageKeyword q) := by
    unfold Config.storageKeyword
    cases q <;> dsimp only <;> (try split) <;> decide
  refine turns_keywordText ?_
  split_ifs
  · decide
  · exact hkeyword

omit hρ in
theorem turns_memoryQualifiers (t : ShaderType) :
    Turns r ρ awaited t.memoryQualifiers awaited := by
  have hkeywords : ∀ keyword ∈ t.memory.keywords, IsBracketFree (keyword ++ " ") := by
    simp only [MemoryAccess.keywords, List.forall_mem_append]
    refine ⟨⟨⟨⟨?_, ?_⟩, ?_⟩, ?_⟩, ?_⟩ <;> split_ifs <;> decide
  have hqualifiers : t.memoryQualifiers = t.memory.keywords.flatMap fun keyword =>
      [if t.basic.isImage then .text (keyword ++ " ")
        else .fail (.memoryQualifierOnNonImage keyword)] :=
    List.map_eq_flatMap
  rw [hqualifiers]
  refine turns_flatMap fun keyword hkeyword => ?_
  split_ifs
  · exact turns_free (hkeywords keyword hkeyword)
  · exact turns_fail _

theorem turns_occurrence {t : ShaderType} (ht : ∀ s ∈ t.names, IsBracketFree s) :
    Turns r ρ [] (t.occurrence r.config) [] := by
  have hinvariant : Turns r ρ []
      (if t.invariant && !r.config.removesInvariant then [.text "invariant "] else []) [] := by
    split_ifs
    · exact turns_text (by decide)
    · exact turns_nil
  exact (((hinvariant.append (turns_blockLayout t)).append
    (turns_storageText r.config t.qualifier)).append (turns_memoryQualifiers t)).append
      (turns_typeBody hρ ht)

omit hρ in
theorem turns_layout (t : ShaderType) : Turns r ρ [] t.layout [] := by
  have hkeyword : ∀ keyword, t.formatKeyword? = some keyword → IsBracketFree keyword := by
    intro keyword h
    unfold ShaderType.formatKeyword? at h
    split_ifs at h
    revert h
    cases t.imageFormat <;> rintro ⟨⟩ <;> decide
  have hopening : Turns r ρ [] [.text "layout("] [')'] := turns_text (by decide)
  have hclosing : Shifts [')'] ") ".toList [] := by decide
  unfold ShaderType.layout
  by_cases hlayout : t.basic = .block ∨ (t.location? = none ∧ t.formatKeyword? = none)
  · rw [if_pos hlayout]
    exact turns_nil
  · rw [if_neg hlayout]
    refine ((hopening.append (?_ : Turns r ρ [')'] _ [')'])).append ?_).append_text hclosing
    · cases t.location? with
      | none => exact turns_nil
      | some n => exact turns_free (isBracketFree_append.mpr ⟨by decide, isBracketFree_repr n⟩)
    · cases hformat : t.formatKeyword? with
      | none => exact turns_nil
      | some keyword =>
        dsimp only
        split_ifs
        · exact turns_free (hkeyword keyword hformat)
        · exact turns_fail _

end

end Fragment

end ShaderText
