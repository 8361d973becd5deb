import ShaderText.Proofs.WellFormed
import ShaderText.Proofs.Yield

/-! # Demands: what has to be written before, and what must hold

What a trace demands is said by `Trace.Demands`: after which types it succeeds, and which types it
writes itself. The structs whose body is written and the types that are written before are two
accounts of one thing (`Agrees`), and a trace keeps them in agreement. Demands are put together as
traces are: one after another (`Trace.Demands.seq`), and as the body of a struct that is written
once (`Trace.Demands.once`).

Fragments are free (`Fragment.AreFree`) if they are written whatever comes before them, or fail
(`Fragment.Fail`), or depend on what is written before. **An occurrence of a type demands that the
type is writable and writes it (`Fragment.demands_occurrence`).** -/

namespace ShaderText

/-! ### Structs that are written, and types -/

/-- The structs whose body is written are those that the types introduce. -/
def Agrees (declared : List StructId) (written : List ShaderType) : Prop :=
  ∀ id, id ∈ declared ↔ ∃ t ∈ written, t.Introduces id

theorem Agrees.isWritten_iff {declared : List StructId} {written : List ShaderType}
    (h : Agrees declared written) (d : StructDef) :
    isWritten declared d.id d.name = true ↔ d.IsDeclaredIn written := by
  unfold isWritten StructDef.IsDeclaredIn
  rw [Bool.and_eq_true, bne_iff_ne, List.contains_iff_mem, h d.id]

/-! ### What a trace demands -/

namespace Trace

/-- A trace that succeeds exactly after types with `ok`, and writes `types`. -/
structure Demands (t : Trace) (types : List ShaderType) (ok : List ShaderType → Prop) : Prop where
  succeeds_iff : ∀ {declared written}, Agrees declared written →
    ((∃ result, t declared = .ok result) ↔ ok written)
  agrees : ∀ {declared written result}, Agrees declared written → t declared = .ok result →
    Agrees result.2 (written ++ types)

variable {t first second : Trace} {types types' : List ShaderType}
  {ok ok' : List ShaderType → Prop}

theorem Demands.congr (h : t.Demands types ok) (hok : ∀ written, ok written ↔ ok' written) :
    t.Demands types ok' :=
  ⟨fun hd => (h.succeeds_iff hd).trans (hok _), h.agrees⟩

theorem demands_emit (tokens : List Token) : (emit tokens).Demands [] fun _ => True := by
  refine ⟨fun _ => by simp [emit], fun hd h => ?_⟩
  cases h
  rwa [List.append_nil]

theorem demands_of_fails (types : List ShaderType)
    (h : ∀ declared result, t declared ≠ .ok result) :
    t.Demands types fun _ => False :=
  ⟨fun _ => by simp [h], fun _ hr => absurd hr (h _ _)⟩

/-- Types that introduce nothing may be counted or not. -/
theorem Demands.of_not_introduces (h : t.Demands [] ok)
    (htypes : ∀ s ∈ types, ∀ id, ¬ s.Introduces id) : t.Demands types ok := by
  refine ⟨h.succeeds_iff, fun hd hr id => ?_⟩
  have hsame := h.agrees hd hr id
  rw [List.append_nil] at hsame
  rw [hsame]
  constructor
  · rintro ⟨s, hs, hid⟩
    exact ⟨s, List.mem_append_left _ hs, hid⟩
  · rintro ⟨s, hs, hid⟩
    rcases List.mem_append.mp hs with hs | hs
    · exact ⟨s, hs, hid⟩
    · exact absurd hid (htypes s hs id)

/-- One trace after another. -/
theorem Demands.seq (h : first.Demands types ok) (h' : second.Demands types' ok') :
    (first.seq second).Demands (types ++ types') fun written =>
      ok written ∧ ok' (written ++ types) := by
  refine ⟨fun {declared written} hd => ?_, fun {declared written result} hd hr => ?_⟩
  · cases hfirst : first declared with
    | error cause =>
      have hnot : ¬ ok written := fun hok => by
        obtain ⟨result, hr⟩ := (h.succeeds_iff hd).mpr hok
        rw [hfirst] at hr
        cases hr
      simp [Trace.seq, hfirst, hnot]
    | ok result =>
      have hok := (h.succeeds_iff hd).mp ⟨result, hfirst⟩
      rw [and_iff_right hok, ← h'.succeeds_iff (h.agrees hd hfirst)]
      simp only [Trace.seq, hfirst]
      cases second result.2 <;> simp
  · obtain ⟨_, middle, _, hfirst, hsecond, -⟩ := Trace.exists_of_seq hr
    have hmiddle : Agrees middle (written ++ types) := h.agrees hd hfirst
    have hlast := h'.agrees hmiddle hsecond
    rwa [List.append_assoc] at hlast

/-- The body of a struct that is written once, and from then on its name. -/
theorem Demands.once {s : ShaderType} {d : StructDef} {body later : Trace}
    (hbasic : s.basic = .struct) (hd : s.structDef = some d) (hbody : body.Demands [] ok)
    (hlater : later.Demands [] fun _ => True) :
    (Trace.once d.id d.name body later).Demands [s] fun written =>
      ¬ d.IsDeclaredIn written → ok written := by
  have hintroduces : ∀ id, s.Introduces id ↔ d.name ≠ "" ∧ d.id = id := by
    intro id
    unfold ShaderType.Introduces
    rw [hd]
    simp [hbasic]
  refine ⟨fun {declared written} ha => ?_, fun {declared written result} ha hr => ?_⟩
  · have hwritten := ha.isWritten_iff d
    by_cases hdeclared : d.IsDeclaredIn written
    · simpa [Trace.once, hwritten.mpr hdeclared, hdeclared] using hlater.succeeds_iff ha
    · rw [forall_prop_of_true hdeclared, ← hbody.succeeds_iff ha]
      unfold Trace.once
      rw [if_neg fun h => hdeclared (hwritten.mp h)]
      cases body declared <;> simp
  · intro id
    simp only [List.mem_append, List.mem_singleton, or_and_right, exists_or, exists_eq_left,
      hintroduces]
    unfold Trace.once at hr
    split_ifs at hr with hwritten
    · -- the body is written already, so `d` is among the structs as it stands
      have hsame := hlater.agrees ha hr id
      rw [List.append_nil] at hsame
      rw [hsame, iff_self_or]
      rintro ⟨-, rfl⟩
      exact ((ha.isWritten_iff d).mp hwritten).2
    · cases hresult : body declared with
      | error cause => rw [hresult] at hr; cases hr
      | ok inner =>
        rw [hresult] at hr
        cases hr
        have hsame := hbody.agrees ha hresult id
        rw [List.append_nil] at hsame
        unfold withBody
        by_cases hname : d.name = ""
        · simp [hname, hsame]
        · simp [hname, hsame, or_comm, eq_comm]

/-- The condition on a member of struct type. -/
theorem demands_require (d : StructDef) :
    (Trace.require d.id d.name).Demands [] d.IsDeclaredIn := by
  refine ⟨fun {declared written} ha => ?_, fun {declared written result} ha hr => ?_⟩
  · rw [← ha.isWritten_iff d]
    unfold Trace.require
    split_ifs with hwritten <;> simp [hwritten]
  · unfold Trace.require at hr
    split_ifs at hr
    cases hr
    rwa [List.append_nil]

end Trace

/-! ### What fragments demand -/

namespace Fragment

variable {c : Config} {f : Fragment} {fs gs : List Fragment} {types types' : List ShaderType}
  {ok ok' : List ShaderType → Prop} {nodes nodes' : List Node}

/-- What fragments demand, whatever the counters and the open scopes are. -/
def Demands (c : Config) (fs : List Fragment) (types : List ShaderType)
    (ok : List ShaderType → Prop) : Prop :=
  ∀ b depth, (traceAll c fs b depth).Demands types ok

/-- Fragments that are written whatever comes before them. -/
def AreFree (c : Config) (fs : List Fragment) : Prop :=
  ∀ b depth, ∃ tokens, traceAll c fs b depth = .emit tokens

/-- Fragments that cannot be written. -/
def Fail (c : Config) (fs : List Fragment) : Prop :=
  ∀ b depth declared result, traceAll c fs b depth declared ≠ .ok result

theorem AreFree.nil : AreFree c [] := fun _ _ => ⟨[], rfl⟩

theorem AreFree.append (h : AreFree c fs) (h' : AreFree c gs) : AreFree c (fs ++ gs) := by
  intro b depth
  obtain ⟨tokens, htokens⟩ := h b depth
  obtain ⟨tokens', htokens'⟩ := h' b depth
  exact ⟨tokens ++ tokens', by rw [traceAll_append, htokens, htokens']; rfl⟩

theorem areFree_singleton (h : ∀ b depth, ∃ tokens, f.trace c b depth = .emit tokens) :
    AreFree c [f] := by
  intro b depth
  rw [traceAll_singleton]
  exact h b depth

theorem areFree_text (s : String) : AreFree c [.text s] :=
  areFree_singleton fun _ _ => ⟨_, rfl⟩

theorem areFree_reference (id : SymbolId) (name : Name) : AreFree c [.reference id name] := by
  refine areFree_singleton fun b _ => ?_
  rw [trace]
  cases b id with
  | none => exact ⟨_, rfl⟩
  | some value => exact ⟨_, rfl⟩

theorem AreFree.demands (h : AreFree c fs) : Demands c fs [] fun _ => True := by
  intro b depth
  obtain ⟨tokens, htokens⟩ := h b depth
  rw [htokens]
  exact Trace.demands_emit tokens

theorem fail_singleton (cause : RenderError) : Fail c [.fail cause] := by
  intro b depth declared result h
  rw [traceAll_singleton] at h
  cases h

theorem Fail.append_right (h : Fail c gs) (fs : List Fragment) : Fail c (fs ++ gs) := by
  intro b depth declared result hr
  rw [traceAll_append] at hr
  obtain ⟨_, middle, _, -, hback, -⟩ := Trace.exists_of_seq hr
  exact h b depth middle _ hback

theorem Fail.append_left (h : Fail c fs) (gs : List Fragment) : Fail c (fs ++ gs) := by
  intro b depth declared result hr
  rw [traceAll_append] at hr
  obtain ⟨_, middle, _, hfront, -, -⟩ := Trace.exists_of_seq hr
  exact h b depth declared _ hfront

theorem fail_scope (h : Fail c fs) : Fail c [.scope fs] := by
  intro b depth declared result hr
  rw [traceAll_singleton] at hr
  exact h b (depth + 1) declared result hr

theorem Fail.demands (h : Fail c fs) (types : List ShaderType) :
    Demands c fs types fun _ => False :=
  fun b depth => Trace.demands_of_fails types (h b depth)

theorem Demands.congr (h : Demands c fs types ok) (hok : ∀ written, ok written ↔ ok' written) :
    Demands c fs types ok' :=
  fun b depth => (h b depth).congr hok

theorem Demands.append (h : Demands c fs types ok) (h' : Demands c gs types' ok') :
    Demands c (fs ++ gs) (types ++ types') fun written => ok written ∧ ok' (written ++ types) := by
  intro b depth
  rw [traceAll_append]
  exact (h b depth).seq (h' b depth)

theorem Demands.after_free (h : Demands c gs types ok) (hf : AreFree c fs) :
    Demands c (fs ++ gs) types ok :=
  (hf.demands.append h).congr (by simp)

theorem Demands.before_free (h : Demands c fs types ok) (hf : AreFree c gs) :
    Demands c (fs ++ gs) types ok := by
  have happend := h.append hf.demands
  rw [List.append_nil] at happend
  exact happend.congr (by simp)

theorem Demands.scope (h : Demands c fs types ok) : Demands c [.scope fs] types ok := by
  intro b depth
  rw [traceAll_singleton]
  exact h b (depth + 1)

/-! ### Types -/

theorem areFree_keywordText (keyword : String) : AreFree c (keywordText keyword) := by
  unfold keywordText
  split_ifs
  · exact .nil
  · exact areFree_text _

theorem areFree_nameFragment {t : ShaderType} (h : t.IsSpellable) : AreFree c [t.nameFragment] := by
  obtain ⟨name, hname⟩ := ShaderType.isSpellable_iff.mp h
  unfold ShaderType.nameFragment
  rw [hname]
  exact areFree_singleton fun _ _ => ⟨_, rfl⟩

theorem fail_nameFragment {t : ShaderType} (h : ¬ t.IsSpellable) : Fail c [t.nameFragment] := by
  unfold ShaderType.nameFragment
  cases hname : t.spelling with
  | error cause => exact fail_singleton cause
  | ok name => exact absurd (ShaderType.isSpellable_iff.mpr ⟨name, hname⟩) h

theorem areFree_precision (t : ShaderType) :
    AreFree c (if c.writesPrecision then keywordText (t.precision.keyword?.getD "") else []) := by
  split_ifs
  · exact areFree_keywordText _
  · exact .nil

theorem areFree_reference_of_isSpellable {t : ShaderType} (h : t.IsSpellable) :
    AreFree c (t.reference c) :=
  (areFree_precision t).append (areFree_nameFragment h)

/-- A member of a struct or block. -/
theorem demands_field {name : Fragment} (hname : AreFree c [name]) (f : Field) :
    Demands c (f.fragments c name) [] fun written => f.WritableAfter written := by
  unfold Field.fragments
  by_cases hspellable : f.type.IsSpellable
  · have htail : AreFree c (f.type.reference c ++
        ([.text " ", name, .text (f.type.brackets ++ ";\n")])) :=
      (areFree_reference_of_isSpellable hspellable).append
        ((areFree_text " ").append (hname.append (areFree_text _)))
    rw [List.append_assoc]
    refine Demands.before_free ?_ htail
    unfold Field.requirement
    split_ifs with hbasic
    · cases hd : f.type.structDef with
      | none =>
        refine ((fail_singleton _).demands []).congr fun written => ?_
        have hnot : ¬ f.type.IsSpellable := by
          unfold ShaderType.IsSpellable
          rw [hbasic, hd]
          exact Bool.false_ne_true
        exact absurd hspellable hnot
      | some d =>
        intro b depth
        rw [traceAll_singleton]
        refine (Trace.demands_require d).congr fun written =>
          ⟨fun h => ⟨hspellable, ?_⟩, fun h => ?_⟩
        · intro _ e he
          cases hd.symm.trans he
          exact h
        · exact h.declared hbasic d hd
    · exact AreFree.nil.demands.congr fun written =>
        iff_of_true trivial ⟨hspellable, fun h => absurd h hbasic⟩
  · have hfail : Fail c (f.requirement ++ f.type.reference c ++
        ([.text " ", name, .text (f.type.brackets ++ ";\n")])) :=
      (((fail_nameFragment hspellable).append_right _).append_right _).append_left _
    exact (hfail.demands []).congr fun written => iff_of_false not_false fun h =>
      hspellable h.spellable

theorem demands_fields {name : Field → Fragment} (hname : ∀ f, AreFree c [name f])
    (fields : List Field) :
    Demands c (fields.flatMap fun f => f.fragments c (name f)) [] fun written =>
      ∀ f ∈ fields, f.WritableAfter written := by
  induction fields with
  | nil => exact AreFree.nil.demands.congr (by simp)
  | cons f rest ih =>
    rw [List.flatMap_cons]
    exact ((demands_field (hname f) f).append ih).congr (by simp)

theorem demands_structBody (d : StructDef) :
    Demands c (d.body c) [] fun written => ∀ f ∈ d.fields, f.WritableAfter written :=
  ((demands_fields (fun _ => areFree_singleton fun _ _ => ⟨_, rfl⟩) d.fields).after_free
    (fun _ _ => ⟨_, rfl⟩)).before_free (areFree_text _)

theorem demands_blockBody (d : BlockDef) :
    Demands c (d.body c) [] fun written => ∀ f ∈ d.fields, f.WritableAfter written :=
  ((demands_fields (fun _ => areFree_singleton fun _ _ => ⟨_, rfl⟩) d.fields).after_free
    (fun _ _ => ⟨_, rfl⟩)).before_free (areFree_text _)

/-- The type itself, where it has a name. -/
theorem demands_body {t : ShaderType} (h : t.IsSpellable) :
    Demands c (t.body c) [t] fun written =>
      (t.basic = .struct → ∀ d, t.structDef = some d → ¬ d.IsDeclaredIn written →
        ∀ f ∈ d.fields, f.WritableAfter written) ∧
      (t.basic = .block → ∀ d, t.blockDef = some d → ∀ f ∈ d.fields, f.WritableAfter written) := by
  have hspellable := h
  unfold ShaderType.IsSpellable at h
  unfold ShaderType.body
  split
  · rename_i hbasic
    rw [hbasic] at h
    obtain ⟨d, hd⟩ := Option.isSome_iff_exists.mp h
    rw [hd]
    intro b depth
    rw [traceAll_singleton]
    refine (Trace.Demands.once hbasic hd (demands_structBody d b depth)
      ((areFree_reference_of_isSpellable hspellable).demands b depth)).congr fun written => ?_
    simp [hbasic]
  · rename_i hbasic
    rw [hbasic] at h
    obtain ⟨d, hd⟩ := Option.isSome_iff_exists.mp h
    rw [hd]
    refine fun b depth => ((demands_blockBody d b depth).congr fun written => ?_).of_not_introduces
      fun s hs id hid => ?_
    · simp [hbasic]
    · cases List.mem_singleton.mp hs
      exact absurd (hbasic.symm.trans hid.1) (by decide)
  · rename_i hstruct hblock
    refine fun b depth => (((areFree_reference_of_isSpellable hspellable).demands b depth).congr
      fun written => ?_).of_not_introduces fun s hs id hid => ?_
    · exact iff_of_true trivial ⟨fun h => (hstruct h).elim, fun h => (hblock h).elim⟩
    · cases List.mem_singleton.mp hs
      exact hstruct hid.1

/-- The memory qualifiers of a type, of which only an image may have any. -/
theorem areFree_memoryQualifiers {t : ShaderType}
    (h : t.memory.keywords ≠ [] → t.basic.isImage = true) : AreFree c t.memoryQualifiers := by
  unfold ShaderType.memoryQualifiers
  by_cases himage : t.basic.isImage = true
  · simp only [himage, if_true]
    induction t.memory.keywords with
    | nil => exact .nil
    | cons keyword rest ih => exact (areFree_text _).append ih
  · rw [Decidable.not_not.mp fun hne => himage (h hne)]
    exact .nil

theorem fail_memoryQualifiers {t : ShaderType} (hmemory : t.memory.keywords ≠ [])
    (himage : ¬ t.basic.isImage = true) : Fail c t.memoryQualifiers := by
  unfold ShaderType.memoryQualifiers
  obtain ⟨keyword, rest, hkeywords⟩ := List.exists_cons_of_ne_nil hmemory
  rw [hkeywords, List.map_cons, if_neg himage]
  exact (fail_singleton _).append_left _

theorem fail_body {t : ShaderType} (h : ¬ t.IsSpellable) : Fail c (t.body c) := by
  have hname : Fail c (t.reference c) := (fail_nameFragment h).append_right _
  unfold ShaderType.IsSpellable at h
  unfold ShaderType.body
  split
  · rename_i hbasic
    rw [hbasic] at h
    rw [Option.not_isSome_iff_eq_none.mp h]
    exact fail_singleton _
  · rename_i hbasic
    rw [hbasic] at h
    rw [Option.not_isSome_iff_eq_none.mp h]
    exact fail_singleton _
  · exact hname

theorem areFree_blockLayout {t : ShaderType} (h : t.IsSpellable) : AreFree c t.blockLayout := by
  unfold ShaderType.IsSpellable at h
  unfold ShaderType.blockLayout
  split_ifs with hbasic
  · rw [hbasic] at h
    obtain ⟨d, hd⟩ := Option.isSome_iff_exists.mp h
    rw [hd]
    exact areFree_text _
  · exact .nil

/-- **A type where a declaration, a parameter or a function names it.** -/
theorem demands_occurrence (t : ShaderType) :
    Demands c (t.occurrence c) [t] fun written => t.WritableAfter written := by
  unfold ShaderType.occurrence
  by_cases hspellable : t.IsSpellable
  · by_cases hmemory : t.memory.keywords ≠ [] → t.basic.isImage = true
    · have hinvariant : AreFree c (if t.invariant && !c.removesInvariant then [.text "invariant "]
          else []) := by
        split_ifs
        · exact areFree_text _
        · exact .nil
      refine ((demands_body hspellable).after_free (((hinvariant.append
        (areFree_blockLayout hspellable)).append (areFree_keywordText _)).append
        (areFree_memoryQualifiers hmemory))).congr fun written => ?_
      exact ⟨fun ⟨hstruct, hblock⟩ => ⟨hmemory, hspellable, hstruct, hblock⟩,
        fun h => ⟨h.structMembers, h.blockMembers⟩⟩
    · obtain ⟨hkeywords, himage⟩ := Classical.not_imp.mp hmemory
      exact ((((fail_memoryQualifiers hkeywords himage).append_right _).append_left _).demands
        [t]).congr fun written => iff_of_false not_false fun h => hmemory h.memory
  · exact (((fail_body hspellable).append_right _).demands [t]).congr fun written =>
      iff_of_false not_false fun h => hspellable h.spellable

end Fragment

end ShaderText
