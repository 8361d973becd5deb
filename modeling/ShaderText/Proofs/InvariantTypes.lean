import ShaderText.Proofs.InvariantTokens
import ShaderText.Proofs.TextInvariant

/-! # The keyword `invariant` in types

`Fragment.Counts` says of fragments that the keyword `invariant` occurs in their text as often as
there are declarations of invariance among some nodes. There is one rule for each way of putting
fragments together; where a name is next to another text, one of the two has to begin or end without
a word. By these rules a type brings the keyword into no text of a target that does without its flag
(`Fragment.counts_occurrence`). -/

namespace ShaderText

/-- The declaration that a variable is invariant. -/
def Node.isInvariantDeclaration : Node → Bool
  | invariantDeclaration _ => true
  | _ => false

/-- The functions that stand in for built-in ones have names without the keyword. -/
def Renderer.EmulationsLackInvariant (r : Renderer) (ρ : String → String) (tokens : List Token) :
    Prop :=
  ∀ t ∈ tokens, t.isEmulated = true → LacksInvariant (t.print r ρ)

namespace Fragment

/-- Fragments in whose text the keyword occurs as often as there are declarations of invariance
among the nodes, unless the name of a function that stands in for a built-in one contains it; and
whose text ends without a word, if it is `closed`. -/
def Counts (r : Renderer) (ρ : String → String) (closed : Bool) (fs : List Fragment)
    (nodes : List Node) : Prop :=
  ∀ ⦃b depth declared tokens declared'⦄, Runs r.config b depth fs declared tokens declared' →
    r.EmulationsLackInvariant ρ tokens →
      HasKeyword (nodes.countP Node.isInvariantDeclaration) closed (r.charsOf ρ tokens)

variable {r : Renderer} {ρ : String → String} {closed closed' : Bool} {f : Fragment}
  {fs gs : List Fragment} {nodes nodes' : List Node} {s : String}

/-! ### Putting fragments together -/

theorem Counts.unclosed (h : Counts r ρ closed fs nodes) : Counts r ρ false fs nodes :=
  fun _ _ _ _ _ hruns hlack => (h hruns hlack).unclosed

/-- A node that is not itself a declaration of invariance. -/
theorem Counts.visit (h : Counts r ρ closed fs nodes) {n : Node}
    (hn : n.isInvariantDeclaration = false) : Counts r ρ closed fs (n :: nodes) := by
  unfold Counts
  rw [List.countP_cons_of_neg (by rw [hn]; exact Bool.false_ne_true)]
  exact h

theorem counts_nil : Counts r ρ true [] [] := by
  intro b depth declared tokens declared' hruns _
  obtain ⟨rfl, -⟩ := runs_nil hruns
  exact hasKeyword_nil

theorem Counts.append (h : Counts r ρ true fs nodes) (h' : Counts r ρ closed gs nodes') :
    Counts r ρ closed (fs ++ gs) (nodes ++ nodes') := by
  intro b depth declared tokens declared' hruns hlack
  obtain ⟨front, _, back, hfront, hback, rfl⟩ := runs_append hruns
  obtain ⟨hlack, hlack'⟩ := List.forall_mem_append.mp hlack
  rw [r.charsOf_append, List.countP_append]
  exact (h hfront hlack).append (h' hback hlack')

theorem counts_text (hs : LacksInvariant s) : Counts r ρ false [.text s] [] := by
  intro b depth declared tokens declared' hruns _
  obtain ⟨rfl, -⟩ := runs_of_emit rfl hruns
  simpa using hs.hasKeyword

theorem counts_lead (hs : IsLead s) : Counts r ρ true [.text s] [] := by
  intro b depth declared tokens declared' hruns _
  obtain ⟨rfl, -⟩ := runs_of_emit rfl hruns
  simpa using hs.hasKeyword

theorem Counts.text_cons (h : Counts r ρ closed fs nodes) (hs : IsLead s) :
    Counts r ρ closed (.text s :: fs) nodes :=
  (counts_lead hs).append h

/-- A text that may stand after a name. -/
theorem Counts.append_ending (h : Counts r ρ closed fs nodes) (hs : IsEnding s) :
    Counts r ρ false (fs ++ [.text s]) nodes := by
  intro b depth declared tokens declared' hruns hlack
  obtain ⟨front, _, back, hfront, hback, rfl⟩ := runs_append hruns
  obtain ⟨rfl, -⟩ := runs_of_emit rfl hback
  simpa using (h hfront (List.forall_mem_append.mp hlack).1).append_ending hs

theorem Counts.append_text (h : Counts r ρ closed fs nodes) (hs : IsPunctuation s) :
    Counts r ρ true (fs ++ [.text s]) nodes := by
  intro b depth declared tokens declared' hruns hlack
  obtain ⟨front, _, back, hfront, hback, rfl⟩ := runs_append hruns
  obtain ⟨rfl, -⟩ := runs_of_emit rfl hback
  simpa using (h hfront (List.forall_mem_append.mp hlack).1).append_text hs

/-- Punctuation between two parts. -/
theorem Counts.append_text_cons (h : Counts r ρ closed fs nodes)
    (h' : Counts r ρ closed' gs nodes') (hs : IsPunctuation s) :
    Counts r ρ closed' (fs ++ .text s :: gs) (nodes ++ nodes') := by
  rw [List.append_cons]
  exact (h.append_text hs).append h'

/-- A part between two texts. -/
theorem Counts.enclosed (h : Counts r ρ closed fs nodes) {opening closing : String}
    (hopening : IsLead opening) (hclosing : IsPunctuation closing) :
    Counts r ρ true (.text opening :: (fs ++ [.text closing])) nodes :=
  (h.append_text hclosing).text_cons hopening

/-- What comes to an error has no text. -/
theorem counts_append_fail (fs : List Fragment) (cause : RenderError) :
    Counts r ρ closed (fs ++ [.fail cause]) nodes := by
  intro b depth declared tokens declared' hruns _
  obtain ⟨front, _, back, hfront, hback, rfl⟩ := runs_append hruns
  cases runs_singleton.mp hback

theorem counts_fail (cause : RenderError) : Counts r ρ closed [.fail cause] nodes :=
  counts_append_fail [] cause

theorem Counts.scope (h : Counts r ρ closed fs nodes) : Counts r ρ closed [.scope fs] nodes :=
  fun _ _ _ _ _ hruns hlack => h (runs_singleton.mp hruns) hlack

/-- A scope that begins with punctuation. -/
theorem Counts.append_scope (h : Counts r ρ closed fs nodes) (h' : Counts r ρ closed' gs nodes')
    (hs : IsPunctuation s) :
    Counts r ρ closed' (fs ++ [.scope (.text s :: gs)]) (nodes ++ nodes') := by
  intro b depth declared tokens declared' hruns hlack
  obtain ⟨front, _, others, hfront, hothers, rfl⟩ := runs_append hruns
  obtain ⟨_, _, back, hfirst, hback, rfl⟩ := runs_cons (runs_singleton.mp hothers)
  obtain ⟨rfl, rfl⟩ := runs_of_emit rfl hfirst
  obtain ⟨hlack, hlack'⟩ := List.forall_mem_append.mp hlack
  have hfront := (h hfront hlack).append_text hs
  have hback := h' hback (List.forall_mem_append.mp hlack').2
  rw [List.countP_append]
  simpa using hfront.append hback

/-- A block ends with its brace, or with its last statement. -/
theorem Counts.block (h : Counts r ρ true fs nodes) :
    Counts r ρ true (blockFragments fs) nodes := by
  intro b depth declared tokens declared' hruns hlack
  obtain ⟨inner, hinner, rfl⟩ := runs_blockFragments hruns
  split_ifs at hlack ⊢
  · have hlack' : r.EmulationsLackInvariant ρ inner := fun t ht =>
      hlack t (List.mem_cons_of_mem _ (List.mem_append_left _ ht))
    have hopening : IsLead "\x7b\n" := by decide
    have hclosing : IsPunctuation "\x7d\n" := by decide
    simpa using hopening.hasKeyword.append ((h hinner hlack').append_text hclosing)
  · exact h hinner hlack

theorem Counts.each {copy : Int → Trace}
    (h : ∀ value ⦃declared tokens declared'⦄, copy value declared = .ok (tokens, declared') →
      r.EmulationsLackInvariant ρ tokens →
        HasKeyword (nodes.countP Node.isInvariantDeclaration) true (r.charsOf ρ tokens))
    (values : List Int) {declared declared' : List StructId} {tokens : List Token}
    (hruns : Trace.each copy values declared = .ok (tokens, declared'))
    (hlack : r.EmulationsLackInvariant ρ tokens) :
    HasKeyword ((List.replicate values.length nodes).flatten.countP Node.isInvariantDeclaration)
      true (r.charsOf ρ tokens) := by
  induction values generalizing declared tokens with
  | nil =>
    cases hruns
    exact hasKeyword_nil
  | cons value rest ih =>
    obtain ⟨front, _, back, hfront, hback, rfl⟩ := Trace.exists_of_seq hruns
    obtain ⟨hlack, hlack'⟩ := List.forall_mem_append.mp hlack
    rw [r.charsOf_append, List.length_cons, List.replicate_succ, List.flatten_cons,
      List.countP_append]
    exact (h value hfront hlack).append (ih hback hlack')

/-- Copies have the keyword as often as they have the nodes. -/
theorem Counts.unrolled (h : Counts r ρ true fs nodes) (counter : Counter) (copies : Nat) :
    Counts r ρ true [.unrolled counter copies fs] (List.replicate copies nodes).flatten := by
  intro b depth declared tokens declared' hruns hlack
  have hcopies := Counts.each (fun _ _ _ _ hcopy => h hcopy) _ (runs_singleton.mp hruns) hlack
  rwa [Counter.length_values] at hcopies

theorem Counts.structBody (h : Counts r ρ closed fs nodes) (h' : Counts r ρ closed gs nodes)
    (id : StructId) (name : String) : Counts r ρ closed [.structBody id name fs gs] nodes := by
  intro b depth declared tokens declared' hruns hlack
  have hrun : Trace.once id name (traceAll r.config fs b depth) (traceAll r.config gs b depth)
      declared = .ok (tokens, declared') := runs_singleton.mp hruns
  unfold Trace.once at hrun
  split_ifs at hrun
  · exact h' hrun hlack
  · cases hbody : traceAll r.config fs b depth declared with
    | error cause => rw [hbody] at hrun; cases hrun
    | ok x =>
      rw [hbody] at hrun
      cases hrun
      exact h hbody hlack

theorem counts_requireStruct (id : StructId) (name : String) :
    Counts r ρ true [.requireStruct id name] [] := by
  intro b depth declared tokens declared' hruns _
  have hrun : Trace.require id name declared = .ok (tokens, declared') := runs_singleton.mp hruns
  unfold Trace.require at hrun
  split_ifs at hrun
  cases hrun
  exact hasKeyword_nil

/-- Groups with commas between them. -/
theorem Counts.comma_cons {group : List Fragment} {rest : List (List Fragment)}
    (h : Counts r ρ false group nodes) (h' : Counts r ρ false (commaSeparated rest) nodes') :
    Counts r ρ false (commaSeparated (group :: rest)) (nodes ++ nodes') := by
  cases rest with
  | nil =>
    intro b depth declared tokens declared' hruns hlack
    rw [commaSeparated_singleton] at hruns
    -- nothing is written for the other nodes
    have hrest : Runs r.config b depth [] declared [] declared := rfl
    have hnone : HasKeyword _ false (r.charsOf ρ []) := h' hrest (List.forall_mem_nil _)
    rw [List.countP_append, ← hnone.occurrences_eq]
    exact h hruns hlack
  | cons next rest =>
    rw [commaSeparated_cons group (List.cons_ne_nil next rest)]
    exact h.append_text_cons h' (by decide)

theorem counts_flatMap {α : Type} {items : List α} {fragments : α → List Fragment}
    (h : ∀ item ∈ items, Counts r ρ true (fragments item) []) :
    Counts r ρ true (items.flatMap fragments) [] := by
  induction items with
  | nil => exact counts_nil
  | cons item rest ih =>
    obtain ⟨hitem, hrest⟩ := List.forall_mem_cons.mp h
    exact hitem.append (ih hrest)

/-! ### Names and constants -/

section

variable (hr : r.KeepsNames ρ LacksInvariant)

include hr

/-- A fragment that is written as a single name. -/
theorem counts_name {t : Token} (hf : ∀ b depth, f.trace r.config b depth = .emit [t])
    (h : t.HasName LacksInvariant) : Counts r ρ false [f] [] := by
  intro b depth declared tokens declared' hruns hlack
  obtain ⟨rfl, -⟩ := runs_of_emit (hf b depth) hruns
  simpa using (Token.print_of_hasName hr h (hlack t List.mem_cons_self)).hasKeyword

theorem counts_reference (id : SymbolId) {name : Name} (h : LacksInvariant name.text) :
    Counts r ρ false [.reference id name] [] := by
  intro b depth declared tokens declared' hruns hlack
  rcases yields_reference ⟨depth, declared, declared', hruns⟩ with ⟨value, -, rfl⟩ | ⟨-, rfl⟩
  · simpa using (missesLetters_int_repr value).missesLetter.lacksInvariant.hasKeyword
  · simpa using (Token.print_of_hasName (t := .used name) hr h
      (hlack _ List.mem_cons_self)).hasKeyword

theorem counts_userDefined {name : String} (h : LacksInvariant name) :
    Counts r ρ false [.typeName (.userDefined name)] [] :=
  counts_name hr (t := .typeName (.userDefined name)) (fun _ _ => rfl) h

theorem counts_member (owner : String) {field : String} (h : LacksInvariant field) :
    Counts r ρ false [.member owner field] [] :=
  counts_name hr (t := .member owner field) (fun _ _ => rfl) h

theorem counts_blockMember {field : String} (h : LacksInvariant field) :
    Counts r ρ false [.blockMember field] [] :=
  counts_name hr (t := .blockMember field) (fun _ _ => rfl) h

theorem counts_variableName {name : Name} (h : LacksInvariant name.text) :
    Counts r ρ false [.variableName name] [] :=
  counts_name hr (t := .declared name) (fun _ _ => rfl) h

theorem counts_constant {t : ShaderType} (ht : ∀ s ∈ t.names, LacksInvariant s)
    (values : List Scalar) : Counts r ρ false [.constant t values] [] :=
  fun _ depth declared _ declared' hruns _ =>
    ShaderType.hasKeyword_constantTokens hr ht (yields_constant ⟨depth, declared, declared', hruns⟩)

/-! ### Types -/

theorem counts_nameFragment {t : ShaderType} (ht : ∀ s ∈ t.names, LacksInvariant s) :
    Counts r ρ false [t.nameFragment] [] := by
  unfold ShaderType.nameFragment
  cases hname : t.spelling with
  | error cause => exact counts_fail cause
  | ok name =>
    exact counts_name hr (fun _ _ => rfl) (ShaderType.lacksInvariant_of_spelling ht hname)

omit hr in
theorem isLead_keyword {keyword : String} (h : MissesLetter keyword) : IsLead (keyword ++ " ") := by
  refine ⟨?_, h.append (by decide)⟩
  rw [String.toList_append]
  exact EndsWithGap.of_append (by decide) (by decide)

omit hr in
theorem counts_keywordText {keyword : String} (h : MissesLetter keyword) :
    Counts r ρ true (keywordText keyword) [] := by
  unfold keywordText
  split_ifs
  · exact counts_nil
  · exact counts_lead (isLead_keyword h)

theorem counts_typeReference {t : ShaderType} (ht : ∀ s ∈ t.names, LacksInvariant s) :
    Counts r ρ false (t.reference r.config) [] := by
  have hprecision : MissesLetter (t.precision.keyword?.getD "") := by
    cases t.precision <;> decide
  have hfront : Counts r ρ true
      (if r.config.writesPrecision then keywordText (t.precision.keyword?.getD "") else []) [] := by
    split_ifs
    · exact counts_keywordText hprecision
    · exact counts_nil
  exact hfront.append (counts_nameFragment hr ht)

omit hr in
theorem counts_requirement (f : Field) : Counts r ρ true f.requirement [] := by
  unfold Field.requirement
  split_ifs
  · cases f.type.structDef with
    | none => exact counts_fail _
    | some d => exact counts_requireStruct d.id d.name
  · exact counts_nil

theorem counts_field {f : Field} {name : Fragment} (ht : ∀ s ∈ f.type.names, LacksInvariant s)
    (hname : Counts r ρ false [name] []) : Counts r ρ true (f.fragments r.config name) [] := by
  have hend : IsPunctuation ";\n" := by decide
  have hreference := (counts_requirement f).append (counts_typeReference hr ht)
  exact hreference.append_text_cons (hname.append_text (hend.brackets_append f.type))
    (by decide)

/-- The members of a struct or block in their braces. -/
theorem counts_members {fields : List Field} {name : Field → Fragment}
    (hfields : ∀ f ∈ fields, ∀ s ∈ f.type.names, LacksInvariant s)
    (hname : ∀ f ∈ fields, Counts r ρ false [name f] []) :
    Counts r ρ true (fields.flatMap (fun f => f.fragments r.config (name f)) ++ [.text "\x7d"])
      [] := by
  have hmembers : Counts r ρ true (fields.flatMap fun f => f.fragments r.config (name f)) [] :=
    counts_flatMap fun f hf => counts_field hr (hfields f hf) (hname f hf)
  exact hmembers.append_text (by decide)

theorem counts_structBody {d : StructDef} (hname : LacksInvariant d.name)
    (hfields : ∀ f ∈ d.fields, LacksInvariant f.name ∧ ∀ s ∈ f.type.names, LacksInvariant s) :
    Counts r ρ true (d.body r.config) [] := by
  have hmembers := counts_members (r := r) hr (fun f hf => (hfields f hf).2)
    fun f hf => counts_member hr d.name (hfields f hf).1
  have hopening : IsPunctuation "\x7b\n" := by decide
  exact ((counts_userDefined hr hname).append_text_cons hmembers hopening).text_cons (by decide)

theorem counts_blockBody {d : BlockDef} (hname : LacksInvariant d.name)
    (hfields : ∀ f ∈ d.fields, LacksInvariant f.name ∧ ∀ s ∈ f.type.names, LacksInvariant s) :
    Counts r ρ true (d.body r.config) [] := by
  have hmembers := counts_members (r := r) hr (fun f hf => (hfields f hf).2)
    fun f hf => counts_blockMember hr (hfields f hf).1
  exact (counts_userDefined hr hname).append_text_cons hmembers (by decide)

theorem counts_typeBody {t : ShaderType} (ht : ∀ s ∈ t.names, LacksInvariant s) :
    Counts r ρ false (t.body r.config) [] := by
  obtain ⟨hstruct, hblock⟩ := ShaderType.forall_mem_names.mp ht
  have hreference : Counts r ρ false (t.reference r.config) [] := counts_typeReference hr ht
  unfold ShaderType.body
  split
  · cases hd : t.structDef with
    | none => exact counts_fail _
    | some d =>
      obtain ⟨hname, hfields⟩ := hstruct d hd
      exact (counts_structBody hr hname hfields).unclosed.structBody hreference d.id d.name
  · cases hd : t.blockDef with
    | none => exact counts_fail _
    | some d =>
      obtain ⟨hname, hfields⟩ := hblock d hd
      exact (counts_blockBody hr hname hfields).unclosed
  · exact hreference

omit hr in
theorem counts_blockLayout (t : ShaderType) : Counts r ρ true t.blockLayout [] := by
  have hlayout : ∀ (storage : BlockStorage) (packing : MatrixPacking),
      IsLead ("layout(" ++ storage.keyword ++ ", " ++ packing.keyword ++ ") ") := by
    intro storage packing
    cases storage <;> cases packing <;> decide
  unfold ShaderType.blockLayout
  split_ifs
  · cases t.blockDef with
    | none => exact counts_fail _
    | some d => exact counts_lead (hlayout d.storage d.packing)
  · exact counts_nil

omit hr in
theorem counts_storageText (c : Config) (q : Qualifier) :
    Counts r ρ true (keywordText (if q.isStorageFree then "" else c.storageKeyword q)) [] := by
  have hkeyword : MissesLetter (c.storageKeyword q) := by
    unfold Config.storageKeyword
    cases q <;> dsimp only <;> (try split) <;> decide
  refine counts_keywordText ?_
  split_ifs
  · decide
  · exact hkeyword

omit hr in
theorem counts_memoryQualifiers (t : ShaderType) : Counts r ρ true t.memoryQualifiers [] := by
  have hkeywords : ∀ keyword ∈ t.memory.keywords, MissesLetter keyword := by
    simp only [MemoryAccess.keywords, List.forall_mem_append]
    refine ⟨⟨⟨⟨?_, ?_⟩, ?_⟩, ?_⟩, ?_⟩ <;> split_ifs <;> decide
  have hqualifiers : t.memoryQualifiers = t.memory.keywords.flatMap fun keyword =>
      [if t.basic.isImage then .text (keyword ++ " ")
        else .fail (.memoryQualifierOnNonImage keyword)] :=
    List.map_eq_flatMap
  rw [hqualifiers]
  refine counts_flatMap fun keyword hkeyword => ?_
  split_ifs
  · exact counts_lead (isLead_keyword (hkeywords keyword hkeyword))
  · exact counts_fail _

/-- **A type does not bring the keyword with it** where its flag is left out. -/
theorem counts_occurrence (hremoves : r.config.removesInvariant = true) {t : ShaderType}
    (ht : ∀ s ∈ t.names, LacksInvariant s) : Counts r ρ false (t.occurrence r.config) [] := by
  unfold ShaderType.occurrence
  rw [hremoves, Bool.not_true, Bool.and_false, if_neg Bool.false_ne_true]
  exact (((counts_nil.append (counts_blockLayout t)).append
    (counts_storageText r.config t.qualifier)).append (counts_memoryQualifiers t)).append
      (counts_typeBody hr ht)

omit hr in
theorem counts_layout (t : ShaderType) : Counts r ρ true t.layout [] := by
  have hkeyword : ∀ keyword, t.formatKeyword? = some keyword → MissesLetter keyword := by
    intro keyword h
    unfold ShaderType.formatKeyword? at h
    split_ifs at h
    revert h
    cases t.imageFormat <;> rintro ⟨⟩ <;> decide
  -- no qualifier accepts both a location and the format of an image
  have hone : ∀ n, t.location? = some n → t.qualifier.acceptsImageFormat = false := by
    intro n h
    unfold ShaderType.location? at h
    split_ifs at h with haccepts
    revert haccepts
    cases t.qualifier <;> decide
  have hopening : Counts r ρ true [.text "layout("] [] := counts_lead (by decide)
  have hclosing : IsPunctuation ") " := by decide
  unfold ShaderType.layout
  by_cases hlayout : t.basic = .block ∨ (t.location? = none ∧ t.formatKeyword? = none)
  · rw [if_pos hlayout]
    exact counts_nil
  · rw [if_neg hlayout]
    refine Counts.append_text (?_ : Counts r ρ false _ []) hclosing
    cases hlocation : t.location? with
    | none =>
      refine (hopening.append counts_nil).append (?_ : Counts r ρ false _ [])
      cases hformat : t.formatKeyword? with
      | none => exact counts_nil.unclosed
      | some keyword =>
        dsimp only
        split_ifs
        · exact counts_text (hkeyword keyword hformat).lacksInvariant
        · exact counts_fail _
    | some n =>
      have hnumber : MissesLetter ("location = " ++ n.repr) :=
        MissesLetter.append (by decide) (missesLetters_repr n)
      cases t.formatKeyword? with
      | none =>
        dsimp only
        rw [List.append_nil]
        exact hopening.append (counts_text hnumber.lacksInvariant)
      | some keyword =>
        dsimp only
        rw [hone n hlocation, if_neg Bool.false_ne_true]
        exact counts_append_fail _ _

end

end Fragment

end ShaderText
