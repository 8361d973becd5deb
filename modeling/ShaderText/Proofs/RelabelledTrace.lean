import ShaderText.Proofs.Literal
import ShaderText.Proofs.Relabelling
import ShaderText.Proofs.Trace
import Mathlib.Data.List.Forall2

/-! # Traces of relabelled trees

A relabelling respects a configuration (`Relabelling.Respects`) if it keeps apart what it has to
keep apart, names what has a name, and changes only what the target does not write. The trace of a
tree and that of the relabelled tree then go side by side: both fail, for reasons that correspond
(`Relabelling.Explains`), or both succeed with the same tokens up to the labels
(`Relabelling.token`), having written the same structs. `Relabelling.Relates` says so of two lists
of fragments, under bindings that agree on the variables, and is kept by every way of putting
fragments together. -/

namespace ShaderText

namespace Relabelling

/-! ### Labels in tokens and failures -/

/-- The name of a type with other labels. -/
def spelling (m : Relabelling) : TypeName → TypeName
  | .builtIn text => .builtIn text
  | .userDefined name => .userDefined (m.typeName name)

/-- A token with other labels. -/
def token (m : Relabelling) : Token → Token
  | .text s => .text s
  | .declared name => .declared (m.name name)
  | .parameter name => .parameter (m.name name)
  | .used name => .used (m.name name)
  | .typeName name => .typeName (m.spelling name)
  | .member owner field => .member (m.typeName owner) (m.member owner field)
  | .blockMember field => .blockMember (m.blockMember field)
  | .function name emulated => .function (m.functionName name) emulated
  | .intrinsic name emulated => .intrinsic name emulated

/-- Failures that differ in labels only. -/
inductive Explains (m : Relabelling) : ConstantFailure → ConstantFailure → Prop
  | same (cause : RenderError) : Explains m (.error cause) (.error cause)
  | underflow (type : TypeName) (needed available : Nat) :
    Explains m (.underflow type needed available) (.underflow (m.spelling type) needed available)
  | zeroLengthArray (n : Name) :
    Explains m (.error (.zeroLengthArray n.text)) (.error (.zeroLengthArray (m.name n).text))
  | fieldIndexOutOfRange (owner : String) (index : Int) (count : Nat) :
    Explains m (.error (.fieldIndexOutOfRange owner index count))
      (.error (.fieldIndexOutOfRange (m.typeName owner) index count))
  | imageFormatContext (q : Qualifier) :
    Explains m (.error (.imageFormatContext q)) (.error (.imageFormatContext (m.qualifier q)))
  | undeclaredMemberStruct (name : String) :
    Explains m (.error (.undeclaredMemberStruct name))
      (.error (.undeclaredMemberStruct (m.typeName name)))

/-- A relabelling that a configuration cannot tell from none, apart from the names themselves. -/
structure Respects (m : Relabelling) (c : Config) : Prop where
  symbol_injective : Function.Injective m.symbol
  structId_injective : Function.Injective m.structId
  name_eq_empty_iff : ∀ n, (m.name n).text = "" ↔ n.text = ""
  typeName_eq_empty_iff : ∀ s, m.typeName s = "" ↔ s = ""
  precision_eq : c.writesPrecision = true → ∀ p, m.precision p = p
  invariant_eq : c.removesInvariant = false → ∀ i, m.invariant i = i
  storageKeyword_eq : ∀ q, c.storageKeyword (m.qualifier q) = c.storageKeyword q
  acceptsLocation_eq : ∀ q, (m.qualifier q).acceptsLocation = q.acceptsLocation
  acceptsImageFormat_eq : ∀ q, (m.qualifier q).acceptsImageFormat = q.acceptsImageFormat

/-! ### Relabellings that keep the names -/

/-- A relabelling that leaves every name as it is. -/
structure KeepsNames (m : Relabelling) : Prop where
  name_eq : ∀ n, m.name n = n
  functionName_eq : ∀ f, m.functionName f = f
  typeName_eq : ∀ s, m.typeName s = s
  member_eq : ∀ owner field, m.member owner field = field
  blockMember_eq : ∀ s, m.blockMember s = s

namespace KeepsNames

variable {m : Relabelling} (hm : m.KeepsNames)

include hm

theorem spelling_eq (name : TypeName) : m.spelling name = name := by
  cases name with
  | builtIn text => rfl
  | userDefined text => exact congrArg TypeName.userDefined (hm.typeName_eq text)

theorem token_eq (t : Token) : m.token t = t := by
  cases t with
  | text s => rfl
  | declared name => exact congrArg Token.declared (hm.name_eq name)
  | parameter name => exact congrArg Token.parameter (hm.name_eq name)
  | used name => exact congrArg Token.used (hm.name_eq name)
  | typeName name => exact congrArg Token.typeName (hm.spelling_eq name)
  | member owner field =>
    exact congrArg₂ Token.member (hm.typeName_eq owner) (hm.member_eq owner field)
  | blockMember field => exact congrArg Token.blockMember (hm.blockMember_eq field)
  | function name emulated => exact congrArg (Token.function · emulated) (hm.functionName_eq name)
  | intrinsic name emulated => rfl

theorem map_token (tokens : List Token) : tokens.map m.token = tokens := by
  rw [funext hm.token_eq]
  exact List.map_id' tokens

/-- Failures then differ in a qualifier at most. -/
theorem eq_of_explains (hqualifier : ∀ q, m.qualifier q = q) {cause cause' : ConstantFailure}
    (h : m.Explains cause cause') : cause' = cause := by
  cases h with
  | same cause => rfl
  | underflow type needed available => rw [hm.spelling_eq]
  | zeroLengthArray n => rw [hm.name_eq]
  | fieldIndexOutOfRange owner index count => rw [hm.typeName_eq]
  | imageFormatContext q => rw [hqualifier]
  | undeclaredMemberStruct name => rw [hm.typeName_eq]

end KeepsNames

/-! ### Results that correspond -/

/-- Both fail, for corresponding reasons, or both succeed and `g` takes one result to the other. -/
inductive Corresponds (m : Relabelling) {α : Type} (g : α → α) :
    Except ConstantFailure α → Except ConstantFailure α → Prop
  | ok (a : α) : Corresponds m g (.ok a) (.ok (g a))
  | error {cause cause' : ConstantFailure} : m.Explains cause cause' →
    Corresponds m g (.error cause) (.error cause')

section

variable {m : Relabelling} {α β : Type} {g : α → α} {h : β → β}
  {x x' : Except ConstantFailure α} {k k' : α → Except ConstantFailure β}

theorem Corresponds.bind (hx : m.Corresponds g x x')
    (hk : ∀ a, m.Corresponds h (k a) (k' (g a))) : m.Corresponds h (x >>= k) (x' >>= k') := by
  cases hx with
  | ok a => exact hk a
  | error hcause => exact .error hcause

theorem Corresponds.map {f : α → β} {f' : α → β} (hx : m.Corresponds g x x')
    (hf : ∀ a, f' (g a) = h (f a)) : m.Corresponds h (x.map f) (x'.map f') := by
  cases hx with
  | ok a =>
    show m.Corresponds h (.ok (f a)) (.ok (f' (g a)))
    rw [hf]
    exact .ok (f a)
  | error hcause => exact .error hcause

end

/-! ### Constants -/

section

variable {m : Relabelling}

/-- Parts of constants that go side by side. -/
def RelatesPart (m : Relabelling) (part part' : ConstantPart (List Token)) : Prop :=
  ∀ values tokens, m.Corresponds (Prod.map id (List.map m.token))
    (part values tokens) (part' values (tokens.map m.token))

theorem spelling_type (t : ShaderType) : (m.type t).spelling = t.spelling.map m.spelling := by
  unfold ShaderType.spelling
  rw [basic_type, structDef_type, blockDef_type, cols_type, rows_type]
  split
  · cases t.structDef <;> rfl
  · cases t.blockDef <;> rfl
  · cases builtInTypeName? t.basic t.cols t.rows <;> rfl

/-- Pieces of a constant without the name of a type. -/
theorem map_foldl_addPiece {lead : List ConstantPiece}
    (hlead : ∀ piece ∈ lead, ∃ s, piece = .text s) (tokens : List Token) :
    (lead.foldl addPiece tokens).map m.token = lead.foldl addPiece (tokens.map m.token) := by
  induction lead generalizing tokens with
  | nil => rfl
  | cons piece rest ih =>
    obtain ⟨s, rfl⟩ := hlead piece List.mem_cons_self
    rw [List.foldl_cons, List.foldl_cons, ih (fun p hp => hlead p (List.mem_cons_of_mem _ hp)),
      List.map_append]
    rfl

/-- A text that ends a part of a constant. -/
theorem corresponds_addPiece (rest : List Scalar) (tokens : List Token) (s : String) :
    m.Corresponds (Prod.map id (List.map m.token)) (.ok (rest, addPiece tokens (.text s)))
      (.ok (rest, addPiece (tokens.map m.token) (.text s))) := by
  have hadd : (addPiece tokens (.text s)).map m.token = addPiece (tokens.map m.token) (.text s) :=
    List.map_append
  rw [← hadd]
  exact .ok (rest, addPiece tokens (.text s))

theorem comma_isText : ∀ piece ∈ [ConstantPiece.text ", "], ∃ s, piece = .text s := by simp

theorem relatesPart_constructorCall {part part' : ConstantPart (List Token)}
    (h : m.RelatesPart part part') (name : TypeName) (suffix : String) :
    m.RelatesPart (constructorCall addPiece name suffix part)
      (constructorCall addPiece (m.spelling name) suffix part') := by
  intro values tokens
  have hinside := h values (addPiece (addPiece tokens (.typeName name)) (.text (suffix ++ "(")))
  simp only [addPiece, List.map_append] at hinside
  exact Corresponds.bind hinside fun result => corresponds_addPiece result.1 result.2 ")"

theorem relatesPart_foldRepeated {part part' : ConstantPart (List Token)}
    (h : m.RelatesPart part part') {lead : List ConstantPiece}
    (hlead : ∀ piece ∈ lead, ∃ s, piece = .text s) (count : Nat) :
    m.RelatesPart (foldRepeated addPiece part lead count)
      (foldRepeated addPiece part' lead count) := by
  induction count generalizing lead with
  | zero => exact fun values tokens => .ok (values, tokens)
  | succ count ih =>
    intro values tokens
    have hpart := h values (lead.foldl addPiece tokens)
    rw [map_foldl_addPiece hlead] at hpart
    exact Corresponds.bind hpart fun result => ih comma_isText result.1 result.2

theorem relatesPart_foldPlain (c : Config) (t : ShaderType) :
    m.RelatesPart (t.foldPlain c addPiece) ((m.type t).foldPlain c addPiece) := by
  intro values tokens
  simp only [ShaderType.foldPlain, componentCount_type, spelling_type]
  split_ifs with hfew hseveral
  · cases t.spelling with
    | error cause => exact .error (.same cause)
    | ok name => exact .error (.underflow name _ _)
  · cases t.spelling with
    | error cause => exact .error (.same cause)
    | ok name =>
      exact relatesPart_constructorCall (fun _ tokens' => corresponds_addPiece _ tokens' _) name ""
        values tokens
  · exact corresponds_addPiece _ tokens _

theorem relatesPart_foldArranged (t : ShaderType) {element element' : ConstantPart (List Token)}
    (h : m.RelatesPart element element') :
    m.RelatesPart (t.foldArranged addPiece element)
      ((m.type t).foldArranged addPiece element') := by
  unfold ShaderType.foldArranged
  rw [arraySize_type, spelling_type, brackets_type]
  cases t.arraySize with
  | none => exact h
  | some n =>
    cases t.spelling with
    | error cause => exact fun _ _ => .error (.same cause)
    | ok name =>
      exact relatesPart_constructorCall (relatesPart_foldRepeated h (by simp) n) name t.brackets

mutual

theorem relatesPart_foldElement (c : Config) : (t : ShaderType) →
    m.RelatesPart (t.foldElement c addPiece) ((m.type t).foldElement c addPiece)
  | { structDef := some { id, name, fields }, .. } => by
    have hmembers := relatesPart_foldMembers c (m.member name) fields [] (by simp)
    rw [ShaderType.foldElement_eq, ShaderType.foldElement_eq, basic_type, structDef_type]
    split_ifs
    · exact relatesPart_constructorCall hmembers (.userDefined name) ""
    · exact relatesPart_foldPlain c _
  | { structDef := none, .. } => by
    rw [ShaderType.foldElement_eq, ShaderType.foldElement_eq, basic_type, structDef_type]
    split_ifs
    · exact fun _ _ => .error (.same _)
    · exact relatesPart_foldPlain c _

theorem relatesPart_foldMembers (c : Config) (rename : String → String) :
    (fields : List Field) → (lead : List ConstantPiece) →
    (∀ piece ∈ lead, ∃ s, piece = .text s) →
    m.RelatesPart (ShaderType.foldMembers c addPiece fields lead)
      (ShaderType.foldMembers c addPiece (m.fields rename fields) lead)
  | [], _, _ => fun values tokens => by
    rw [fields, ShaderType.foldMembers, ShaderType.foldMembers]
    exact .ok (values, tokens)
  | { name, type } :: rest, lead, hlead => fun values tokens => by
    rw [fields, ShaderType.foldMembers, ShaderType.foldMembers]
    have hmember := relatesPart_foldArranged type (relatesPart_foldElement c type) values
      (lead.foldl addPiece tokens)
    rw [map_foldl_addPiece hlead] at hmember
    exact Corresponds.bind hmember fun result =>
      relatesPart_foldMembers c rename rest [.text ", "] comma_isText result.1 result.2

end

/-- **A constant and the relabelled one.** -/
theorem corresponds_constantTokens (c : Config) (t : ShaderType) (values : List Scalar) :
    m.Corresponds (List.map m.token) (t.constantTokens c values)
      ((m.type t).constantTokens c values) := by
  have hobject := relatesPart_foldArranged t (relatesPart_foldElement (m := m) c t) values []
  unfold ShaderType.constantTokens ShaderType.foldConstant ShaderType.foldObject
  rw [List.map_nil] at hobject
  revert hobject
  generalize t.foldArranged addPiece (t.foldElement c addPiece) values [] = x
  generalize (m.type t).foldArranged addPiece ((m.type t).foldElement c addPiece) values [] = x'
  rintro (⟨rest, tokens⟩ | hcause)
  · cases rest with
    | nil => exact .ok tokens
    | cons value rest => exact .error (.same _)
  · exact .error hcause

end

/-! ### Traces -/

section

variable {m : Relabelling}

/-- What a trace succeeds with, with other labels. -/
def outcome (m : Relabelling) (result : List Token × List StructId) :
    List Token × List StructId :=
  (result.1.map m.token, result.2.map m.structId)

/-- Traces that go side by side. -/
def RelatesTrace (m : Relabelling) (t t' : Trace) : Prop :=
  ∀ declared, m.Corresponds m.outcome (t declared) (t' (declared.map m.structId))

variable {t t' first first' second second' : Trace}

theorem relatesTrace_emit (tokens : List Token) :
    m.RelatesTrace (.emit tokens) (.emit (tokens.map m.token)) :=
  fun declared => .ok (tokens, declared)

theorem relatesTrace_fail {cause cause' : RenderError}
    (h : m.Explains (.error cause) (.error cause')) :
    m.RelatesTrace (.fail (.error cause)) (.fail (.error cause')) :=
  fun _ => .error h

theorem RelatesTrace.seq (h : m.RelatesTrace first first') (h' : m.RelatesTrace second second') :
    m.RelatesTrace (first.seq second) (first'.seq second') := by
  have hbind : ∀ first second : Trace, first.seq second = fun declared =>
      first declared >>= fun front => (second front.2).map fun back =>
        (front.1 ++ back.1, back.2) := by
    intro first second
    funext declared
    unfold Trace.seq
    rcases first declared with cause | front
    · rfl
    · simp only [bind, Except.bind]
      rcases second front.2 with cause | back <;> rfl
  intro declared
  rw [hbind, hbind]
  refine (h declared).bind fun front => (h' front.2).map fun back => ?_
  simp [outcome]

theorem RelatesTrace.each {copy copy' : Int → Trace}
    (h : ∀ value, m.RelatesTrace (copy value) (copy' value)) (values : List Int) :
    m.RelatesTrace (.each copy values) (.each copy' values) := by
  induction values with
  | nil => exact relatesTrace_emit []
  | cons value rest ih => exact (h value).seq ih

theorem relatesTrace_constant (c : Config) (t : ShaderType) (values : List Scalar) :
    m.RelatesTrace (t.constantTrace c values) ((m.type t).constantTrace c values) := by
  intro declared
  rw [ShaderType.constantTrace_eq, ShaderType.constantTrace_eq]
  exact (corresponds_constantTokens c t values).map fun _ => rfl

section

variable {c : Config} (hm : m.Respects c)

include hm

/-- A relabelled struct is written where the struct is. -/
theorem isWritten_map (declared : List StructId) (id : StructId) (name : String) :
    isWritten (declared.map m.structId) (m.structId id) (m.typeName name) =
      isWritten declared id name := by
  have hmem : m.structId id ∈ declared.map m.structId ↔ id ∈ declared :=
    List.mem_map_of_injective hm.structId_injective
  unfold isWritten
  rw [Bool.eq_iff_iff, Bool.and_eq_true, Bool.and_eq_true, bne_iff_ne, bne_iff_ne,
    List.contains_iff_mem, List.contains_iff_mem, hmem, ne_eq, hm.typeName_eq_empty_iff]

theorem withBody_map (declared : List StructId) (id : StructId) (name : String) :
    withBody (declared.map m.structId) (m.structId id) (m.typeName name) =
      (withBody declared id name).map m.structId := by
  unfold withBody
  by_cases hname : name = ""
  · rw [if_pos hname, if_pos ((hm.typeName_eq_empty_iff name).mpr hname)]
  · rw [if_neg hname, if_neg (mt (hm.typeName_eq_empty_iff name).mp hname), List.map_cons]

theorem RelatesTrace.once (h : m.RelatesTrace first first') (h' : m.RelatesTrace second second')
    (id : StructId) (name : String) :
    m.RelatesTrace (.once id name first second)
      (.once (m.structId id) (m.typeName name) first' second') := by
  intro declared
  unfold Trace.once
  rw [isWritten_map hm]
  split_ifs
  · exact h' declared
  · have hfirst := h declared
    revert hfirst
    generalize first declared = x
    generalize first' (declared.map m.structId) = x'
    rintro (⟨tokens, after⟩ | hcause)
    · simp only [outcome, withBody_map hm]
      exact .ok (tokens, withBody after id name)
    · exact .error hcause

theorem relatesTrace_require (id : StructId) (name : String) :
    m.RelatesTrace (.require id name) (.require (m.structId id) (m.typeName name)) := by
  intro declared
  unfold Trace.require
  rw [isWritten_map hm]
  split_ifs
  · exact .ok ([], declared)
  · exact .error (.undeclaredMemberStruct name)

end

/-! ### Fragments -/

variable {c : Config} {f f' : Fragment} {fs fs' gs gs' : List Fragment}

/-- Fragments whose traces go side by side, where corresponding variables have the same value. -/
def Relates (m : Relabelling) (c : Config) (fs fs' : List Fragment) : Prop :=
  ∀ b b' : Bindings, (∀ id, b' (m.symbol id) = b id) → ∀ depth,
    m.RelatesTrace (Fragment.traceAll c fs b depth) (Fragment.traceAll c fs' b' depth)

theorem relates_nil : m.Relates c [] [] := fun _ _ _ _ => relatesTrace_emit []

theorem Relates.append (h : m.Relates c fs fs') (h' : m.Relates c gs gs') :
    m.Relates c (fs ++ gs) (fs' ++ gs') := by
  intro b b' hb depth
  rw [Fragment.traceAll_append, Fragment.traceAll_append]
  exact (h b b' hb depth).seq (h' b b' hb depth)

theorem relates_singleton
    (h : ∀ b b' : Bindings, (∀ id, b' (m.symbol id) = b id) → ∀ depth,
      m.RelatesTrace (f.trace c b depth) (f'.trace c b' depth)) : m.Relates c [f] [f'] := by
  intro b b' hb depth
  rw [Fragment.traceAll_singleton, Fragment.traceAll_singleton]
  exact h b b' hb depth

theorem Relates.cons (h : m.Relates c [f] [f']) (h' : m.Relates c fs fs') :
    m.Relates c (f :: fs) (f' :: fs') :=
  h.append h'

theorem relates_text (s : String) : m.Relates c [.text s] [.text s] :=
  relates_singleton fun _ _ _ _ => relatesTrace_emit [.text s]

theorem Relates.text_cons (h : m.Relates c fs fs') (s : String) :
    m.Relates c (.text s :: fs) (.text s :: fs') :=
  (relates_text s).append h

theorem Relates.append_text (h : m.Relates c fs fs') (s : String) :
    m.Relates c (fs ++ [.text s]) (fs' ++ [.text s]) :=
  h.append (relates_text s)

theorem relates_brace (s : String) : m.Relates c [.brace s] [.brace s] := by
  refine relates_singleton fun _ _ _ depth => ?_
  rw [Fragment.trace, Fragment.trace]
  split_ifs
  · exact relatesTrace_emit [.text s]
  · exact relatesTrace_emit []

theorem relates_fail {cause cause' : RenderError}
    (h : m.Explains (.error cause) (.error cause')) : m.Relates c [.fail cause] [.fail cause'] :=
  relates_singleton fun _ _ _ _ => relatesTrace_fail h

theorem relates_same_fail (cause : RenderError) : m.Relates c [.fail cause] [.fail cause] :=
  relates_fail (.same cause)

/-- A use of a variable, or the value that stands for it. -/
theorem relates_reference (id : SymbolId) (name : Name) :
    m.Relates c [.reference id name] [.reference (m.symbol id) (m.name name)] := by
  refine relates_singleton fun b b' hb _ => ?_
  rw [Fragment.trace, Fragment.trace, hb]
  cases b id with
  | none => exact relatesTrace_emit [.used name]
  | some value => exact relatesTrace_emit [.text value.repr]

theorem relates_variableName (name : Name) :
    m.Relates c [.variableName name] [.variableName (m.name name)] :=
  relates_singleton fun _ _ _ _ => relatesTrace_emit [.declared name]

theorem relates_parameterName (name : Name) :
    m.Relates c [.parameterName name] [.parameterName (m.name name)] :=
  relates_singleton fun _ _ _ _ => relatesTrace_emit [.parameter name]

theorem relates_typeName (name : TypeName) :
    m.Relates c [.typeName name] [.typeName (m.spelling name)] :=
  relates_singleton fun _ _ _ _ => relatesTrace_emit [.typeName name]

theorem relates_member (owner field : String) :
    m.Relates c [.member owner field] [.member (m.typeName owner) (m.member owner field)] :=
  relates_singleton fun _ _ _ _ => relatesTrace_emit [.member owner field]

theorem relates_blockMember (field : String) :
    m.Relates c [.blockMember field] [.blockMember (m.blockMember field)] :=
  relates_singleton fun _ _ _ _ => relatesTrace_emit [.blockMember field]

theorem relates_function (name : FunctionName) (emulated : Bool) :
    m.Relates c [.function name emulated] [.function (m.functionName name) emulated] :=
  relates_singleton fun _ _ _ _ => relatesTrace_emit [.function name emulated]

theorem relates_intrinsic (name : String) (emulated : Bool) :
    m.Relates c [.intrinsic name emulated] [.intrinsic name emulated] :=
  relates_singleton fun _ _ _ _ => relatesTrace_emit [.intrinsic name emulated]

theorem relates_constant (t : ShaderType) (values : List Scalar) :
    m.Relates c [.constant t values] [.constant (m.type t) values] :=
  relates_singleton fun _ _ _ _ => relatesTrace_constant c t values

theorem Relates.scope (h : m.Relates c fs fs') : m.Relates c [.scope fs] [.scope fs'] :=
  relates_singleton fun b b' hb depth => h b b' hb (depth + 1)

theorem Relates.block (h : m.Relates c fs fs') :
    m.Relates c (blockFragments fs) (blockFragments fs') :=
  (relates_brace _).cons (h.scope.cons (relates_brace _))

/-- Copies, in which the counters stand for the same value. -/
theorem Relates.unrolled (hm : m.Respects c) (h : m.Relates c fs fs') (l : CountingLoop) :
    m.Relates c [.unrolled l.counter l.iterations fs]
      [.unrolled (m.countingLoop l).counter (m.countingLoop l).iterations fs'] := by
  refine relates_singleton fun b b' hb depth => ?_
  have hcounters : ∀ copies value, Counter.values copies ⟨m.symbol l.var.id, value, l.step⟩ =
      Counter.values copies ⟨l.var.id, value, l.step⟩ := by
    intro copies
    induction copies with
    | zero => exact fun _ => rfl
    | succ copies ih => exact fun value => congrArg (value :: ·) (ih (value + l.step))
  have hvalues : Counter.values (m.countingLoop l).iterations (m.countingLoop l).counter =
      Counter.values l.iterations l.counter := hcounters l.iterations l.start
  rw [Fragment.trace, Fragment.trace, hvalues]
  refine RelatesTrace.each (fun value => h _ _ (fun id => ?_) depth) _
  show Function.update b' (m.symbol l.var.id) (some value) (m.symbol id) =
    Function.update b l.var.id (some value) id
  by_cases hid : id = l.var.id
  · rw [hid, Function.update_self, Function.update_self]
  · rw [Function.update_of_ne (fun h => hid (hm.symbol_injective h)), Function.update_of_ne hid, hb]

theorem relates_commaSeparated {groups groups' : List (List Fragment)}
    (h : List.Forall₂ (m.Relates c) groups groups') :
    m.Relates c (Fragment.commaSeparated groups) (Fragment.commaSeparated groups') := by
  induction h with
  | nil => exact relates_nil
  | cons hgroup hrest ih =>
    cases hrest with
    | nil => simpa using hgroup
    | cons =>
      rw [Fragment.commaSeparated_cons _ (List.cons_ne_nil _ _),
        Fragment.commaSeparated_cons _ (List.cons_ne_nil _ _)]
      exact hgroup.append (ih.text_cons ", ")

end

end Relabelling

end ShaderText
