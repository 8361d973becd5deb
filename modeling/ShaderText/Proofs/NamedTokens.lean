import ShaderText.Proofs.Mentions
import ShaderText.Proofs.TextInvariant

/-! # Named tokens: the names in a text are the mentions of its tree

Of the tokens of a text, those that name an entity (`Token.isNamed`) are the mentions of the tree,
each as the token that it is to be written as, in the same order and with nothing left out
(`Renderer.namedTokens_tokens`). `Fragment.Mentions` says this of fragments and sites, after any
structs that are written before. The rules for it follow the ways of putting fragments together,
with two of its own: an occurrence of a type is one site (`mentions_occurrence`), and the copies of
an unrolled body have its sites once each (`Mentions.unrolled`). The induction over the tree then
only applies rules (`Node.mentions_fragments`). -/

namespace ShaderText

namespace Token

/-- What a token stands for; emulated functions and fixed text stand for nothing in the tree. -/
def entity? : Token → Option Entity
  | declared name | parameter name | used name => some (.variable name)
  | typeName name => some (.type name)
  | member owner field => some (.member owner field)
  | blockMember field => some (.blockMember field)
  | function name false => some (.function name)
  | function _ true | text _ | intrinsic _ _ => none

def isNamed (t : Token) : Bool := t.entity?.isSome

end Token

@[simp] theorem Mention.entity?_token (m : Mention) : m.token.entity? = some m.entity := by
  cases m <;> rfl

@[simp] theorem Mention.isNamed_token (m : Mention) : m.token.isNamed = true := by
  rw [Token.isNamed, m.entity?_token]
  rfl

/-- The tokens that name an entity. -/
def namedTokens (tokens : List Token) : List Token := tokens.filter Token.isNamed

@[simp] theorem namedTokens_nil : namedTokens [] = [] := rfl

@[simp] theorem namedTokens_append (front back : List Token) :
    namedTokens (front ++ back) = namedTokens front ++ namedTokens back := List.filter_append ..

@[simp] theorem namedTokens_text_cons (s : String) (tokens : List Token) :
    namedTokens (.text s :: tokens) = namedTokens tokens := rfl

@[simp] theorem namedTokens_typeName_cons (name : TypeName) (tokens : List Token) :
    namedTokens (.typeName name :: tokens) = .typeName name :: namedTokens tokens := rfl

@[simp] theorem namedTokens_token_cons (m : Mention) (tokens : List Token) :
    namedTokens (m.token :: tokens) = m.token :: namedTokens tokens :=
  List.filter_cons_of_pos m.isNamed_token

theorem namedTokens_eq_nil {tokens : List Token} (h : ∀ t ∈ tokens, ∃ s, t = .text s) :
    namedTokens tokens = [] := by
  refine List.filter_eq_nil_iff.mpr fun t ht => ?_
  obtain ⟨s, rfl⟩ := h t ht
  exact Bool.false_ne_true

/-! ### Sites in a row -/

section

variable {declared : List StructId} {front back : List Site}

theorem mentionsAfter_append :
    mentionsAfter declared (front ++ back) =
      mentionsAfter declared front ++ mentionsAfter (front.foldl Site.declare declared) back := by
  induction front generalizing declared with
  | nil => rfl
  | cons site rest ih =>
    rw [List.cons_append, mentionsAfter, ih, mentionsAfter, List.append_assoc]
    rfl

theorem mentionsAfter_map_mention {α : Type} (f : α → Mention) (items : List α) :
    mentionsAfter declared (items.map fun a => .mention (f a)) = items.map f := by
  induction items with
  | nil => rfl
  | cons a rest ih => exact congrArg (f a :: ·) ih

theorem foldl_declare_map_mention {α : Type} (f : α → Mention) (items : List α) :
    (items.map fun a => Site.mention (f a)).foldl Site.declare declared = declared := by
  induction items with
  | nil => rfl
  | cons a rest ih => exact ih

end

/-! ### The names in constants -/

theorem namedTokens_addPiece_text (front : List Token) (s : String) :
    namedTokens (addPiece front (.text s)) = namedTokens front := by
  rw [addPiece, namedTokens_append]
  exact List.append_nil _

theorem namedTokens_addPiece_typeName (front : List Token) (name : TypeName) :
    namedTokens (addPiece front (.typeName name)) = namedTokens front ++ [.typeName name] :=
  namedTokens_append front [.typeName name]

/-- A part that adds names to a list of tokens, and otherwise text. -/
def ConstantPart.Adds (names : List TypeName) (part : ConstantPart (List Token)) : Prop :=
  ∀ values state rest state', part values state = .ok (rest, state') →
    namedTokens state' = namedTokens state ++ names.map .typeName

section

variable {names others : List TypeName} {part part' : ConstantPart (List Token)}

theorem namedTokens_foldl_addPiece {lead : List ConstantPiece}
    (hlead : ∀ p ∈ lead, ∃ s, p = .text s) (state : List Token) :
    namedTokens (lead.foldl addPiece state) = namedTokens state := by
  induction lead generalizing state with
  | nil => rfl
  | cons piece rest ih =>
    obtain ⟨⟨s, rfl⟩, hrest⟩ := List.forall_mem_cons.mp hlead
    rw [List.foldl_cons, ih hrest, namedTokens_addPiece_text]

namespace ConstantPart.Adds

theorem nothing : Adds [] fun values state => .ok (values, state) := by
  intro values state rest state' h
  cases h
  exact (List.append_nil _).symm

theorem fails (failure : ConstantFailure) : Adds names fun _ _ => .error failure := nofun

/-- One part after another, with text before them. -/
theorem seq (h : Adds names part) (h' : Adds others part') {lead : List ConstantPiece}
    (hlead : ∀ p ∈ lead, ∃ s, p = .text s) :
    Adds (names ++ others) (fun values state => do
      let (values, state) ← part values (lead.foldl addPiece state)
      part' values state) := by
  intro values state rest state' hr
  simp only [bind, Except.bind] at hr
  cases hfirst : part values (lead.foldl addPiece state) with
  | error failure =>
    rw [hfirst] at hr
    cases hr
  | ok x =>
    rw [hfirst] at hr
    rw [h' _ _ _ _ hr, h _ _ _ _ hfirst, namedTokens_foldl_addPiece hlead, List.map_append,
      List.append_assoc]

theorem constructorCall (h : Adds names part) (name : TypeName) (suffix : String) :
    Adds (name :: names) (ShaderText.constructorCall addPiece name suffix part) := by
  intro values state rest state' hr
  simp only [ShaderText.constructorCall, bind, Except.bind] at hr
  cases hinside : part values (addPiece (addPiece state (.typeName name)) (.text (suffix ++ "(")))
    with
  | error failure =>
    rw [hinside] at hr
    cases hr
  | ok x =>
    rw [hinside] at hr
    cases hr
    rw [namedTokens_addPiece_text, h _ _ _ _ hinside, namedTokens_addPiece_text,
      namedTokens_addPiece_typeName, List.append_assoc]
    rfl

theorem foldRepeated (h : Adds names part) {lead : List ConstantPiece}
    (hlead : ∀ p ∈ lead, ∃ s, p = .text s) (count : Nat) :
    Adds (List.replicate count names).flatten
      (ShaderText.foldRepeated addPiece part lead count) := by
  induction count generalizing lead with
  | zero => exact nothing
  | succ count ih =>
    rw [List.replicate_succ, List.flatten_cons]
    exact h.seq (ih (by simp)) hlead

end ConstantPart.Adds

namespace ShaderType

variable {c : Config}

theorem spelled_of_spelling {t : ShaderType} {name : TypeName} (h : t.spelling = .ok name) :
    t.spelled = [name] := by
  rw [spelled, h]

theorem foldPlain_adds (t : ShaderType) :
    ConstantPart.Adds t.namesInPlain (t.foldPlain c addPiece) := by
  intro values state rest state' h
  unfold namesInPlain
  simp only [foldPlain] at h
  by_cases hfew : values.length < t.componentCount
  · rw [if_pos hfew] at h
    cases hname : t.spelling <;> rw [hname] at h <;> cases h
  rw [if_neg hfew] at h
  by_cases hseveral : 1 < t.componentCount
  · rw [if_pos hseveral] at h ⊢
    cases hname : t.spelling with
    | error cause => rw [hname] at h; cases h
    | ok name =>
      rw [hname] at h
      cases h
      rw [namedTokens_addPiece_text, namedTokens_addPiece_text, namedTokens_addPiece_text,
        namedTokens_addPiece_typeName, spelled_of_spelling hname]
      rfl
  · rw [if_neg hseveral] at h ⊢
    cases h
    rw [namedTokens_addPiece_text]
    exact (List.append_nil _).symm

theorem foldArranged_adds (t : ShaderType) {names : List TypeName}
    {element : ConstantPart (List Token)} (h : ConstantPart.Adds names element) :
    ConstantPart.Adds (t.namesArranged names) (t.foldArranged addPiece element) := by
  unfold namesArranged foldArranged
  cases t.arraySize with
  | none => exact h
  | some n =>
    cases hname : t.spelling with
    | error cause => exact .fails _
    | ok name =>
      rw [spelled_of_spelling hname]
      exact (h.foldRepeated (by simp) n).constructorCall name t.brackets

mutual

theorem foldElement_adds : (t : ShaderType) →
    ConstantPart.Adds t.namesInElement (t.foldElement c addPiece)
  | { structDef := some { id, name, fields }, basic, .. } => by
    rw [namesInElement, foldElement]
    split_ifs
    · exact (foldMembers_adds fields (by simp)).constructorCall (.userDefined name) ""
    · exact foldPlain_adds _
  | { structDef := none, basic, .. } => by
    rw [namesInElement, foldElement]
    split_ifs
    · exact .fails _
    · exact foldPlain_adds _

theorem foldMembers_adds : (fields : List Field) → {lead : List ConstantPiece} →
    (∀ p ∈ lead, ∃ s, p = .text s) →
    ConstantPart.Adds (namesInMembers fields) (foldMembers c addPiece fields lead)
  | [], _, _ => .nothing
  | { name, type } :: rest, lead, hlead => by
    rw [namesInMembers]
    exact (foldArranged_adds type (foldElement_adds type)).seq (foldMembers_adds rest (by simp))
      hlead

end

/-- **The names in the tokens of a constant are those of its type.** -/
theorem namedTokens_constantTokens {t : ShaderType} {values : List Scalar} {tokens : List Token}
    (h : t.constantTokens c values = .ok tokens) :
    namedTokens tokens = t.namesInConstant.map .typeName :=
  foldArranged_adds t (foldElement_adds t) _ _ _ _ (foldObject_of_constantTokens h)

end ShaderType

end

/-! ### Fragments and their sites -/

namespace Fragment

/-- The names in the tokens of fragments are the mentions of sites, where `counters` count the loops
around; and the structs after the fragments are those after the sites. -/
def Mentions (c : Config) (counters : List SymbolId) (fs : List Fragment) (sites : List Site) :
    Prop :=
  ∀ b depth declared tokens declared', (∀ id, id ∈ counters ↔ (b id).isSome = true) →
    Runs c b depth fs declared tokens declared' →
      namedTokens tokens = (mentionsAfter declared sites).map Mention.token ∧
        declared' = sites.foldl Site.declare declared

/-- Fragments that come to text, if to anything. -/
def IsSilent : Fragment → Prop
  | text _ | intrinsic .. | brace _ | fail _ => True
  | _ => False

variable {c : Config} {counters : List SymbolId} {f : Fragment} {fs gs : List Fragment}
  {sites others : List Site} {m : Mention}

theorem Mentions.nil : Mentions c counters [] [] := by
  intro b depth declared tokens declared' _ h
  obtain ⟨rfl, rfl⟩ := runs_nil h
  exact ⟨rfl, rfl⟩

theorem Mentions.append (h : Mentions c counters fs sites) (h' : Mentions c counters gs others) :
    Mentions c counters (fs ++ gs) (sites ++ others) := by
  intro b depth declared tokens declared' hb hr
  obtain ⟨front, middle, back, hfront, hback, rfl⟩ := runs_append hr
  obtain ⟨hnames, rfl⟩ := h _ _ _ _ _ hb hfront
  obtain ⟨hnames', rfl⟩ := h' _ _ _ _ _ hb hback
  rw [namedTokens_append, hnames, hnames', mentionsAfter_append, List.map_append, List.foldl_append]
  exact ⟨rfl, rfl⟩

/-- A fragment that is written as one token without a name. -/
theorem mentions_of_emit {t : Token} (hf : ∀ b depth, f.trace c b depth = .emit [t])
    (ht : t.isNamed = false) : Mentions c counters [f] [] := by
  intro b depth declared tokens declared' _ hr
  obtain ⟨rfl, rfl⟩ := runs_of_emit (hf b depth) hr
  exact ⟨by simp [namedTokens, ht, mentionsAfter], rfl⟩

/-- A fragment that is written as the token of a mention. -/
theorem mentions_token (m : Mention) (hf : ∀ b depth, f.trace c b depth = .emit [m.token]) :
    Mentions c counters [f] [.mention m] := by
  intro b depth declared tokens declared' _ hr
  obtain ⟨rfl, rfl⟩ := runs_of_emit (hf b depth) hr
  exact ⟨by simp [namedTokens, mentionsAfter, Site.mentions], rfl⟩

/-- What cannot be written may have any sites. -/
theorem mentions_fail (cause : RenderError) : Mentions c counters [.fail cause] sites := by
  intro b depth declared tokens declared' _ hr
  cases runs_singleton.mp hr

theorem mentions_silent (hf : f.IsSilent) : Mentions c counters [f] [] := by
  cases f with
  | text s => exact mentions_of_emit (fun _ _ => rfl) rfl
  | intrinsic name emulated => exact mentions_of_emit (fun _ _ => rfl) rfl
  | fail cause => exact mentions_fail cause
  | brace s =>
    intro b depth declared tokens declared' _ hr
    obtain ⟨rfl, rfl⟩ := runs_of_emit rfl hr
    exact ⟨namedTokens_eq_nil fun t ht => by split_ifs at ht <;> simp_all, rfl⟩
  | _ => exact hf.elim

theorem mentions_of_silent (h : ∀ f ∈ fs, f.IsSilent) : Mentions c counters fs [] := by
  induction fs with
  | nil => exact .nil
  | cons f rest ih =>
    obtain ⟨hf, hrest⟩ := List.forall_mem_cons.mp h
    exact (mentions_silent hf).append (ih hrest)

namespace Mentions

theorem after_silent (h : Mentions c counters gs sites) (hfs : ∀ f ∈ fs, f.IsSilent) :
    Mentions c counters (fs ++ gs) sites := (mentions_of_silent hfs).append h

theorem before_silent (h : Mentions c counters fs sites) (hgs : ∀ f ∈ gs, f.IsSilent) :
    Mentions c counters (fs ++ gs) sites := by
  simpa using h.append (mentions_of_silent hgs)

theorem after_text (h : Mentions c counters fs sites) (s : String) :
    Mentions c counters (.text s :: fs) sites := by
  have hs : ∀ f ∈ [Fragment.text s], f.IsSilent := List.forall_mem_singleton.mpr trivial
  exact h.after_silent hs

theorem before_text (h : Mentions c counters fs sites) (s : String) :
    Mentions c counters (fs ++ [.text s]) sites :=
  h.before_silent (List.forall_mem_singleton.mpr trivial)

/-- Two parts with a text between them. -/
theorem between (h : Mentions c counters fs sites) (s : String)
    (h' : Mentions c counters gs others) :
    Mentions c counters (fs ++ .text s :: gs) (sites ++ others) := h.append (h'.after_text s)

theorem scope (h : Mentions c counters fs sites) : Mentions c counters [.scope fs] sites :=
  fun b depth declared tokens declared' hb hr =>
    h b (depth + 1) declared tokens declared' hb (runs_singleton.mp hr)

theorem block (h : Mentions c counters fs sites) :
    Mentions c counters (blockFragments fs) sites := by
  have hbrace : ∀ s, ∀ f ∈ [Fragment.brace s], f.IsSilent := fun _ =>
    List.forall_mem_singleton.mpr trivial
  exact (h.scope.before_silent (hbrace "\x7d\n")).after_silent (hbrace "\x7b\n")

theorem commaSeparated_cons {group : List Fragment} {rest : List (List Fragment)}
    (h : Mentions c counters group sites)
    (hrest : Mentions c counters (Fragment.commaSeparated rest) others)
    (hnil : rest = [] → others = []) :
    Mentions c counters (Fragment.commaSeparated (group :: rest)) (sites ++ others) := by
  cases rest with
  | nil => simpa [hnil rfl] using h
  | cons next rest =>
    rw [Fragment.commaSeparated_cons _ (List.cons_ne_nil _ _)]
    exact h.between ", " hrest

/-- The copies of a body, in which the counter is not mentioned. -/
theorem unrolled (counter : Counter) (h : Mentions c (counter.id :: counters) fs sites)
    (copies : Nat) :
    Mentions c counters [.unrolled counter copies fs] (List.replicate copies sites).flatten := by
  intro b depth declared tokens declared' hb hr
  have hcounted : ∀ value id, id ∈ counter.id :: counters ↔
      (Function.update b counter.id (some value) id).isSome = true := by
    intro value id
    by_cases hid : id = counter.id
    · simp [hid]
    · simp [hid, hb]
  have heach : Trace.each (fun value =>
      traceAll c fs (Function.update b counter.id (some value)) depth) (counter.values copies)
      declared = .ok (tokens, declared') := runs_singleton.mp hr
  clear hr
  rw [← Counter.length_values copies counter]
  generalize counter.values copies = values at heach ⊢
  induction values generalizing declared tokens with
  | nil =>
    cases heach
    exact ⟨rfl, rfl⟩
  | cons value rest ih =>
    obtain ⟨front, middle, back, hfront, hback, rfl⟩ := Trace.exists_of_seq heach
    obtain ⟨hnames, rfl⟩ := h _ _ _ _ _ (hcounted value) hfront
    obtain ⟨hnames', rfl⟩ := ih _ _ hback
    rw [List.length_cons, List.replicate_succ, List.flatten_cons, namedTokens_append, hnames,
      hnames', mentionsAfter_append, List.map_append, List.foldl_append]
    exact ⟨rfl, rfl⟩

end Mentions

end Fragment

/-! ### Types -/

section

variable {c : Config}

theorem namedTokens_keywordTokens (keyword : String) :
    namedTokens (keywordTokens keyword) = [] := by
  unfold keywordTokens
  split_ifs <;> rfl

theorem namedTokens_referenceTokens (t : ShaderType) :
    namedTokens (t.referenceTokens c) = (t.spelled.map Mention.byName).map Mention.token := by
  have hprecision : namedTokens (if c.writesPrecision = true then
      keywordTokens (t.precision.keyword?.getD "") else []) = [] := by
    split_ifs
    · exact namedTokens_keywordTokens _
    · rfl
  unfold ShaderType.referenceTokens ShaderType.spelled
  rw [namedTokens_append, hprecision, List.nil_append]
  cases t.spelling <;> rfl

theorem namedTokens_fields (name : Field → Token) (member : Field → Mention)
    (hname : ∀ f, name f = (member f).token) (fields : List Field) :
    namedTokens (fields.flatMap fun f => f.tokens c (name f)) =
      (fields.flatMap fun f => f.mentions (member f)).map Mention.token := by
  induction fields with
  | nil => rfl
  | cons f rest ih =>
    have hfield : namedTokens (f.tokens c (name f)) =
        (f.mentions (member f)).map Mention.token := by
      rw [Field.tokens, Field.mentions, namedTokens_append, namedTokens_referenceTokens, hname,
        List.map_append]
      simp
    rw [List.flatMap_cons, List.flatMap_cons, namedTokens_append, hfield, ih, List.map_append]

theorem StructDef.namedTokens_bodyTokens (d : StructDef) :
    namedTokens (d.bodyTokens c) = d.mentions.map Mention.token := by
  have hfields := namedTokens_fields (c := c) (fun f => .member d.name f.name)
    (fun f => .structField d.name f.name) (fun _ => rfl) d.fields
  simp [StructDef.bodyTokens, StructDef.mentions, hfields, Mention.token]

theorem BlockDef.namedTokens_bodyTokens (d : BlockDef) :
    namedTokens (d.bodyTokens c) = d.mentions.map Mention.token := by
  have hfields := namedTokens_fields (c := c) (fun f => .blockMember f.name)
    (fun f => .blockField f.name) (fun _ => rfl) d.fields
  simp [BlockDef.bodyTokens, BlockDef.mentions, hfields, Mention.token]

/-- The site of a type has the mentions that the type is written with. -/
theorem ShaderType.Written.namedTokens_eq {t : ShaderType} {declared declared' : List StructId}
    {tokens : List Token} (h : t.Written c declared tokens declared') :
    namedTokens tokens = ((Site.occurrence t).mentions declared).map Mention.token ∧
      declared' = (Site.occurrence t).declare declared := by
  cases h with
  | plain hstruct hblock =>
    rw [namedTokens_referenceTokens]
    cases hbasic : t.basic <;> first
      | exact absurd hbasic hstruct
      | exact absurd hbasic hblock
      | simp [Site.mentions, Site.declare, hbasic]
  | block d hbasic hd =>
    rw [d.namedTokens_bodyTokens]
    simp [Site.mentions, Site.declare, hbasic, hd]
  | first d hbasic hd hfirst =>
    rw [d.namedTokens_bodyTokens]
    simp [Site.mentions, Site.declare, hbasic, hd, hfirst]
  | later d hbasic hd hlater =>
    rw [namedTokens_referenceTokens]
    simp [Site.mentions, Site.declare, hbasic, hd, hlater]

open Fragment

variable {counters : List SymbolId}

theorem mentions_typeBody (t : ShaderType) :
    Mentions c counters (t.body c) [.occurrence t] := by
  intro b depth declared tokens declared' _ hr
  obtain ⟨hnames, rfl⟩ := (ShaderType.written_of_runs hr).namedTokens_eq
  exact ⟨by rw [hnames, mentionsAfter, mentionsAfter, List.append_nil], rfl⟩

theorem isSilent_keywordText (keyword : String) : ∀ f ∈ keywordText keyword, f.IsSilent := by
  unfold keywordText
  split_ifs <;> simp [IsSilent]

theorem isSilent_blockLayout (t : ShaderType) : ∀ f ∈ t.blockLayout, f.IsSilent := by
  unfold ShaderType.blockLayout
  split_ifs
  · cases t.blockDef <;> simp [IsSilent, BlockDef.layout]
  · simp

theorem isSilent_memoryQualifiers (t : ShaderType) : ∀ f ∈ t.memoryQualifiers, f.IsSilent := by
  intro f hf
  obtain ⟨keyword, -, rfl⟩ := List.mem_map.mp hf
  split_ifs <;> trivial

/-- **An occurrence of a type is one site;** its qualifiers name nothing. -/
theorem mentions_occurrence (t : ShaderType) :
    Mentions c counters (t.occurrence c) [.occurrence t] := by
  refine (mentions_typeBody t).after_silent ?_
  simp only [List.forall_mem_append]
  refine ⟨⟨⟨?_, isSilent_blockLayout t⟩, isSilent_keywordText _⟩, isSilent_memoryQualifiers t⟩
  split_ifs <;> simp [IsSilent]

theorem isSilent_layout (t : ShaderType) : ∀ f ∈ t.layout, f.IsSilent := by
  unfold ShaderType.layout
  split
  · simp
  · simp only [List.forall_mem_append]
    refine ⟨⟨⟨by simp [IsSilent], ?_⟩, ?_⟩, by simp [IsSilent]⟩
    · cases t.location? <;> simp [IsSilent]
    · cases t.formatKeyword? with
      | none => simp
      | some keyword =>
        dsimp only
        split <;> simp [IsSilent]

/-! ### The parts of a tree -/

theorem mentions_constant (t : ShaderType) (values : List Scalar) :
    Mentions c counters [.constant t values]
      (t.namesInConstant.map fun name => .mention (.constant name)) := by
  intro b depth declared tokens declared' _ hr
  have htrace : t.constantTrace c values declared = .ok (tokens, declared') := runs_singleton.mp hr
  rw [ShaderType.constantTrace_eq] at htrace
  cases htokens : t.constantTokens c values with
  | error cause => rw [htokens] at htrace; cases htrace
  | ok front =>
    rw [htokens] at htrace
    cases htrace
    rw [ShaderType.namedTokens_constantTokens htokens, mentionsAfter_map_mention,
      foldl_declare_map_mention, List.map_map]
    exact ⟨rfl, rfl⟩

/-- The name of a type whose constructor is called. -/
theorem mentions_nameFragment (t : ShaderType) :
    Mentions c counters [t.nameFragment]
      (t.spelled.map fun name => .mention (.constructor name)) := by
  unfold ShaderType.nameFragment ShaderType.spelled
  cases t.spelling with
  | ok name => exact mentions_token (.constructor name) fun _ _ => rfl
  | error cause => exact mentions_fail cause

/-- A counter of the loops around is written as its value, and any other variable as its name. -/
theorem mentions_reference (v : Variable) :
    Mentions c counters [.reference v.id v.name] (v.referenceSites counters) := by
  intro b depth declared tokens declared' hb hr
  unfold Variable.referenceSites
  cases hid : b v.id with
  | some value =>
    have hcounted : v.id ∈ counters := (hb v.id).mpr (by rw [hid]; rfl)
    have htrace : (Fragment.reference v.id v.name).trace c b depth = .emit [.text value.repr] := by
      rw [trace, hid]
    obtain ⟨rfl, rfl⟩ := runs_of_emit htrace hr
    rw [if_pos hcounted]
    exact ⟨rfl, rfl⟩
  | none =>
    have hcounted : v.id ∉ counters := fun hmem => by simpa [hid] using (hb v.id).mp hmem
    have htrace : (Fragment.reference v.id v.name).trace c b depth = .emit [.used v.name] := by
      rw [trace, hid]
    obtain ⟨rfl, rfl⟩ := runs_of_emit htrace hr
    rw [if_neg hcounted]
    exact ⟨rfl, rfl⟩

theorem mentions_callee (callee : Callee) (type : ShaderType) (emulated : Bool) :
    Mentions c counters (callee.fragments type emulated) (callee.sites type emulated) := by
  cases callee with
  | function name =>
    cases emulated with
    | true => exact mentions_of_emit (fun _ _ => rfl) rfl
    | false => exact mentions_token (.call name) fun _ _ => rfl
  | constructor => exact (mentions_nameFragment type).before_text type.brackets
  | intrinsic op => exact mentions_silent trivial

theorem mentions_memberName (t : ShaderType) (ofBlock : Bool) (index : Int) :
    Mentions c counters [t.memberName ofBlock index] (t.accessSites ofBlock index) := by
  unfold ShaderType.memberName ShaderType.accessSites
  split_ifs
  · cases t.blockDef with
    | none => exact mentions_fail _
    | some d =>
      dsimp only
      cases fieldAt? d.fields index with
      | none => exact mentions_fail _
      | some f => exact mentions_token (.blockAccess f.name) fun _ _ => rfl
  · cases t.structDef with
    | none => exact mentions_fail _
    | some d =>
      dsimp only
      cases fieldAt? d.fields index with
      | none => exact mentions_fail _
      | some f => exact mentions_token (.structAccess d.name f.name) fun _ _ => rfl

theorem mentions_memberSelection {ofBlock : Bool} {owner position : Node} {operand : List Fragment}
    {sites : List Site} (h : Mentions c counters operand sites) :
    Mentions c counters (memberSelection ofBlock owner position operand)
      (sites ++ Node.accessSites ofBlock owner position) := by
  unfold memberSelection Node.accessSites
  cases position.asInt? with
  | none => exact mentions_fail _
  | some index =>
    cases owner.type? with
    | none => exact mentions_fail _
    | some t => exact h.between "." (mentions_memberName t ofBlock index)

theorem mentions_clampedIndex {indexed : Node} {index : List Fragment} {sites : List Site}
    (h : Mentions c counters index sites) :
    Mentions c counters (clampedIndex c indexed index) sites := by
  unfold clampedIndex
  split
  · exact mentions_fail _
  split
  · exact mentions_fail _
  split
  · exact (h.before_text _).after_text _
  · exact (h.before_text _).after_text _

theorem isSilent_swizzleSelection (offsets : List Nat) :
    ∀ f ∈ swizzleSelection offsets, f.IsSilent := by
  unfold swizzleSelection
  cases offsets.mapM componentLetter? <;> simp [IsSilent]

theorem mentions_parameter (p : Variable) :
    Mentions c counters (parameterFragments c p) p.parameterSites := by
  have hname : Mentions c counters
      (if p.name.text = "" then [] else [.text " ", .parameterName p.name])
      (if p.name.text = "" then [] else [.mention (.parameter p.name)]) := by
    split_ifs
    · exact .nil
    · exact (mentions_token (.parameter p.name) fun _ _ => rfl).after_text " "
  exact ((mentions_occurrence p.type).append hname).before_text p.type.brackets

theorem mentions_parameterList (p : Prototype) :
    Mentions c counters (p.parameterList c) (p.parameters.flatMap Variable.parameterSites) := by
  refine (Mentions.before_text ?_ ")").after_text "("
  induction p.parameters with
  | nil => exact .nil
  | cons v rest ih =>
    exact (mentions_parameter v).commaSeparated_cons ih fun hnil => by
      rw [List.map_eq_nil_iff.mp hnil]
      rfl

theorem mentions_head (p : Prototype) :
    Mentions c counters (p.head c)
      [.occurrence p.returnType, .mention (.functionHead p.name)] :=
  (mentions_occurrence p.returnType).append
    ((mentions_token (.functionHead p.name) fun _ _ => rfl).after_text _)

theorem mentions_loopHeader (l : CountingLoop) :
    Mentions c counters l.header l.headerSites := by
  have hname : Mentions c counters [.variableName l.var.name]
      [.mention (.loopHeader l.var.name)] := mentions_token _ fun _ _ => rfl
  have hstep := hname.between " < 1; ++" (hname.before_text ")\n\x7b\n")
  exact (hname.between " = 0; " hstep).after_text "for (int "

namespace Node

mutual

/-- **The names in the fragments of a tree are the mentions of its sites.** -/
theorem mentions_fragments : (n : Node) → (counters : List SymbolId) →
    Mentions c counters (n.fragments c) (n.sites counters)
  | symbol v, _ => mentions_reference v
  | constant type values, _ => by
    rw [fragments, sites]
    exact mentions_constant type values
  | unary op operand type emulated, counters => by
    have hoperand := mentions_fragments operand counters
    rw [fragments, sites]
    cases op.form with
    | around before after => exact (hoperand.before_text after).after_text before
    | call name => exact (hoperand.after_silent (by simp [IsSilent])).before_text ")"
  | binary op left right type clamped, counters => by
    have hleft := mentions_fragments left counters
    have hright := mentions_fragments right counters
    rw [fragments, sites]
    cases op.form with
    | between separator =>
      exact (hleft.between separator (hright.before_text ")")).after_text "("
    | index computed =>
      dsimp only
      split_ifs
      · exact hleft.append (mentions_clampedIndex hright)
      · exact hleft.between "[" (hright.before_text "]")
    | member ofBlock => exact mentions_memberSelection hleft
  | ternary condition whenTrue whenFalse type, counters => by
    have hcondition := mentions_fragments condition counters
    have htrue := mentions_fragments whenTrue counters
    have hfalse := mentions_fragments whenFalse counters
    rw [fragments, sites]
    exact (hcondition.between ") ? (" (htrue.between ") : (" (hfalse.before_text "))"))).after_text
      "(("
  | swizzle operand offsets type, counters => by
    rw [fragments, sites]
    exact (mentions_fragments operand counters).before_silent (isSilent_swizzleSelection offsets)
  | call callee arguments type emulated, counters => by
    rw [fragments, sites]
    exact (mentions_callee callee type emulated).append
      (((mentions_each arguments counters).before_text ")").after_text "(")
  | prototype head, _ => (mentions_head head).append (mentions_parameterList head)
  | invariantDeclaration v, _ => (mentions_reference v).after_text "invariant "
  | declaration [], _ => mentions_fail _
  | declaration (first :: rest), counters => by
    have hdeclarators := mentions_declarators (first :: rest) counters
    rw [fragments, sites]
    exact (((mentions_occurrence first.var.type).after_silent
      (isSilent_layout first.var.type)).between " " hdeclarators)
  | block statements, counters => by
    rw [fragments, sites]
    exact (mentions_statements statements counters).block
  | ifElse condition whenTrue whenFalse, counters => by
    have hcondition := mentions_fragments condition counters
    have htrue := mentions_body whenTrue counters
    have hfalse : Mentions c counters
        (if whenFalse.isSome then .text "else\n" :: bodyFragments c whenFalse else [])
        (bodySites counters whenFalse) := by
      cases whenFalse with
      | none => exact .nil
      | some statements => exact (mentions_body (some statements) counters).after_text "else\n"
    rw [fragments, sites]
    exact (hcondition.between ")\n" (htrue.append hfalse).scope).after_text "if ("
  | switch selector body, counters => by
    have hselector := mentions_fragments selector counters
    have hbody : Mentions c counters
        (if body.isSome then .text ") " :: bodyFragments c body else [.text ") \x7b\x7d\n"])
        (bodySites counters body) := by
      cases body with
      | none => exact mentions_silent trivial
      | some statements => exact (mentions_body (some statements) counters).after_text ") "
    rw [fragments, sites]
    exact (hselector.append hbody).after_text "switch ("
  | case label, counters => by
    have hlabel := mentions_optional label counters
    rw [fragments, sites]
    cases label with
    | none => exact mentions_silent trivial
    | some node => exact (hlabel.before_text "):\n").after_text "case ("
  | loop kind init condition step body true, counters => by
    rw [fragments.eq_def, sites.eq_def]
    dsimp only
    cases CountingLoop.ofLoop kind init condition step with
    | error obstacle => exact Mentions.scope (mentions_fail _)
    | ok l =>
      have hcopies :=
        (mentions_body body (l.var.id :: counters)).unrolled l.counter l.iterations
      exact ((mentions_loopHeader l).append (hcopies.before_text "\x7d\n")).scope
  | loop .forLoop init condition step body false, counters => by
    have hbody := (mentions_body body counters).after_text ")\n"
    have hstep := ((mentions_optional step counters).append hbody).after_text "; "
    have hcondition := ((mentions_optional condition counters).append hstep).after_text "; "
    exact (((mentions_optional init counters).append hcondition).after_text "for (").scope
  | loop .whileLoop init condition step body false, counters =>
    (((mentions_condition .whileLoop condition counters).between ")\n"
      (mentions_body body counters)).after_text "while (").scope
  | loop .doWhileLoop init condition step body false, counters =>
    (((mentions_body body counters).between "while ("
      ((mentions_condition .doWhileLoop condition counters).before_text ");\n")).after_text
        "do\n").scope
  | branch kind value, counters => by
    rw [fragments, sites]
    refine Mentions.after_text ?_ kind.keyword
    split_ifs
    · exact mentions_optional value counters
    · exact .nil
  | function head body, counters => by
    have hbody := (mentions_statements body counters).block
    rw [fragments, sites]
    exact (mentions_head head).append ((mentions_parameterList head).append hbody).scope

/-- The arguments of a call. -/
theorem mentions_each : (nodes : List Node) → (counters : List SymbolId) →
    Mentions c counters (commaSeparated (eachFragments c nodes)) (eachSites counters nodes)
  | [], _ => .nil
  | node :: rest, counters => by
    rw [eachFragments, eachSites]
    exact (mentions_fragments node counters).commaSeparated_cons (mentions_each rest counters)
      fun hnil => by
        cases rest with
        | nil => rfl
        | cons next rest => cases hnil

/-- The statements of a block. -/
theorem mentions_statements : (nodes : List Node) → (counters : List SymbolId) →
    Mentions c counters (statementFragments c nodes) (eachSites counters nodes)
  | [], _ => .nil
  | node :: rest, counters => by
    rw [statementFragments, eachSites]
    refine ((mentions_fragments node counters).before_silent ?_).append
      (mentions_statements rest counters)
    split_ifs <;> simp [IsSilent]

theorem mentions_optional : (node : Option Node) → (counters : List SymbolId) →
    Mentions c counters (optionalFragments c node) (optionalSites counters node)
  | none, _ => .nil
  | some node, counters => mentions_fragments node counters

theorem mentions_condition (kind : LoopKind) : (node : Option Node) → (counters : List SymbolId) →
    Mentions c counters (conditionFragments c kind node) (optionalSites counters node)
  | none, _ => mentions_fail _
  | some node, counters => mentions_fragments node counters

/-- The body of a compound statement. -/
theorem mentions_body : (body : Option (List Node)) → (counters : List SymbolId) →
    Mentions c counters (bodyFragments c body) (bodySites counters body)
  | none, _ => mentions_silent trivial
  | some statements, counters => (mentions_statements statements counters).block

/-- The variables of a declaration and their initial values. -/
theorem mentions_declarators : (declarators : List Declarator) → (counters : List SymbolId) →
    Mentions c counters (commaSeparated (declaratorFragments c declarators))
      (declaratorSites counters declarators)
  | [], _ => .nil
  | { var, initializer } :: rest, counters => by
    rw [declaratorFragments, declaratorSites]
    have hinitializer : Mentions c counters
        (if initializer.isSome then .text " = " :: optionalFragments c initializer else [])
        (optionalSites counters initializer) := by
      cases initializer with
      | none => exact .nil
      | some node => exact (mentions_optional (some node) counters).after_text " = "
    have hname : Mentions c counters [.variableName var.name, .text var.type.brackets]
        [.mention (.declarator var.name)] :=
      (mentions_token (.declarator var.name) fun _ _ => rfl).before_text var.type.brackets
    refine Mentions.commaSeparated_cons (hname.append hinitializer)
      (mentions_declarators rest counters) fun hnil => ?_
    cases rest with
    | nil => rfl
    | cons next rest => cases next; cases hnil

end

end Node

end

namespace Renderer

/-- **The names in the text of a pass are the mentions of its tree,** in the same order. -/
theorem namedTokens_tokens {r : Renderer} {root : Node} {tokens : List Token}
    (h : r.tokens root = .ok tokens) : namedTokens tokens = root.mentions.map Mention.token := by
  obtain ⟨declared, hruns⟩ := runs_of_tokens h
  exact (root.mentions_fragments [] _ _ _ _ _ (by simp) hruns).1

end Renderer

end ShaderText
