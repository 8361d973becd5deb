import ShaderText.Proofs.Trace
import Mathlib.Data.List.DropRight

/-! # Additions: what a tree adds to the context it is written into

A tree is written into a context that holds the text of others already. What it adds
(`Node.addition`) is a piece of text, the renamed identifiers after it, and the structs whose body
the piece holds. To write is to put the addition into the context (`Fragment.writeAll_eq_add`), and
the addition is the same in all contexts that have the identifiers, the structs, the counters and
the open scopes in common (`Context.LooksLike`), in whatever order and with whatever text before.

* `Fragment.trace_isLocal`: what a fragment comes to depends on the set of the structs written
  before it, and the structs it writes are put in front of them. The induction over fragments is
  done here once.
* `Fragment.additionAll_append`: the addition of fragments in a row, of which only the identifiers
  and the structs are passed on.
* **`Node.write_framed`: writing appends to the text, leaves counters and scopes alone, and forgets
  no identifier and no struct; a block adds what its statements add in turn.** -/

namespace ShaderText

/-! ### Traces that look at the set of written structs only -/

namespace Trace

/-- What a trace succeeds with, before the structs that are written already. -/
def onto (declared : List StructId) (result : List Token × List StructId) :
    List Token × List StructId :=
  (result.1, result.2 ++ declared)

/-- A trace whose result depends on the set of the structs that are written already: tokens and the
structs in them, or a failure. -/
def IsLocal (t : Trace) : Prop :=
  ∀ ⦃declared declared' : List StructId⦄, (∀ id, id ∈ declared ↔ id ∈ declared') →
    ∃ outcome : Except ConstantFailure (List Token × List StructId),
      t declared = outcome.map (onto declared) ∧ t declared' = outcome.map (onto declared')

variable {t first second : Trace}

theorem emit_isLocal (tokens : List Token) : (emit tokens).IsLocal :=
  fun _ _ _ => ⟨.ok (tokens, []), rfl, rfl⟩

theorem fail_isLocal (cause : ConstantFailure) : (fail cause).IsLocal :=
  fun _ _ _ => ⟨.error cause, rfl, rfl⟩

theorem IsLocal.seq (h : first.IsLocal) (h' : second.IsLocal) : (first.seq second).IsLocal := by
  intro declared declared' hsame
  obtain ⟨outcome, hfirst, hfirst'⟩ := h hsame
  unfold Trace.seq
  rw [hfirst, hfirst']
  cases outcome with
  | error cause => exact ⟨.error cause, rfl, rfl⟩
  | ok x =>
    have hmiddle : ∀ id, id ∈ x.2 ++ declared ↔ id ∈ x.2 ++ declared' := by
      intro id
      rw [List.mem_append, List.mem_append, hsame]
    obtain ⟨outcome, hsecond, hsecond'⟩ := h' hmiddle
    refine ⟨outcome.map fun y => (x.1 ++ y.1, y.2 ++ x.2), ?_, ?_⟩
    · simp only [Except.map, onto, hsecond]
      cases outcome <;> simp
    · simp only [Except.map, onto, hsecond']
      cases outcome <;> simp

theorem IsLocal.each {copy : Int → Trace} (h : ∀ value, (copy value).IsLocal)
    (values : List Int) : (each copy values).IsLocal := by
  induction values with
  | nil => exact emit_isLocal []
  | cons value rest ih => exact (h value).seq ih

theorem isWritten_congr {declared declared' : List StructId}
    (h : ∀ id, id ∈ declared ↔ id ∈ declared') (id : StructId) (name : String) :
    isWritten declared id name = isWritten declared' id name := by
  have hmem : declared.contains id = declared'.contains id := by
    rw [Bool.eq_iff_iff, List.contains_iff_mem, List.contains_iff_mem, h]
  unfold isWritten
  rw [hmem]

theorem withBody_append (structs declared : List StructId) (id : StructId) (name : String) :
    withBody (structs ++ declared) id name = withBody structs id name ++ declared := by
  unfold withBody
  split_ifs <;> rfl

theorem IsLocal.once (h : first.IsLocal) (h' : second.IsLocal) (id : StructId) (name : String) :
    (once id name first second).IsLocal := by
  intro declared declared' hsame
  unfold Trace.once
  rw [isWritten_congr hsame]
  split_ifs
  · exact h' hsame
  · obtain ⟨outcome, hbody, hbody'⟩ := h hsame
    refine ⟨outcome.map fun x => (x.1, withBody x.2 id name), ?_, ?_⟩
    · rw [hbody]
      cases outcome <;> simp [Except.map, onto, withBody_append]
    · rw [hbody']
      cases outcome <;> simp [Except.map, onto, withBody_append]

theorem require_isLocal (id : StructId) (name : String) : (require id name).IsLocal := by
  intro declared declared' hsame
  unfold require
  rw [isWritten_congr hsame]
  split_ifs
  · exact ⟨.ok ([], []), rfl, rfl⟩
  · exact ⟨.error (.error (.undeclaredMemberStruct name)), rfl, rfl⟩

end Trace

theorem ShaderType.constantTrace_isLocal (c : Config) (t : ShaderType) (values : List Scalar) :
    (t.constantTrace c values).IsLocal := by
  intro declared declared' _
  unfold ShaderType.constantTrace
  refine ⟨(t.foldConstant c addPiece values []).map (·, []),
    ?_, ?_⟩ <;>
  cases t.foldConstant c addPiece values [] <;> rfl

namespace Fragment

mutual

theorem trace_isLocal (c : Config) : (f : Fragment) → (b : Bindings) → (depth : Nat) →
    (f.trace c b depth).IsLocal
  | text s, _, _ => Trace.emit_isLocal [.text s]
  | reference id name, b, _ => by
    rw [trace]
    cases b id with
    | some value => exact Trace.emit_isLocal _
    | none => exact Trace.emit_isLocal _
  | variableName name, _, _ => Trace.emit_isLocal [.declared name]
  | parameterName name, _, _ => Trace.emit_isLocal [.parameter name]
  | typeName name, _, _ => Trace.emit_isLocal [.typeName name]
  | member owner field, _, _ => Trace.emit_isLocal [.member owner field]
  | blockMember field, _, _ => Trace.emit_isLocal [.blockMember field]
  | function name emulated, _, _ => Trace.emit_isLocal [.function name emulated]
  | intrinsic name emulated, _, _ => Trace.emit_isLocal [.intrinsic name emulated]
  | brace _, _, _ => Trace.emit_isLocal _
  | scope body, b, depth => traceAll_isLocal c body b (depth + 1)
  | structBody id name body later, b, depth =>
    (traceAll_isLocal c body b depth).once (traceAll_isLocal c later b depth) id name
  | requireStruct id name, _, _ => Trace.require_isLocal id name
  | constant type values, _, _ => type.constantTrace_isLocal c values
  | unrolled counter copies body, b, depth =>
    Trace.IsLocal.each (fun value =>
      traceAll_isLocal c body (Function.update b counter.id (some value)) depth) _
  | fail cause, _, _ => Trace.fail_isLocal (.error cause)

theorem traceAll_isLocal (c : Config) : (fs : List Fragment) → (b : Bindings) → (depth : Nat) →
    (traceAll c fs b depth).IsLocal
  | [], _, _ => Trace.emit_isLocal []
  | f :: rest, b, depth => (trace_isLocal c f b depth).seq (traceAll_isLocal c rest b depth)

end

end Fragment

/-! ### Additions -/

/-- What is added to a context. -/
structure Addition where
  text : String
  /-- The renamed identifiers after it. -/
  names : NameTable
  /-- The structs whose body is in the text. -/
  structs : List StructId

/-- One addition after another. -/
def Addition.append (a b : Addition) : Addition :=
  { text := a.text ++ b.text, names := b.names, structs := b.structs ++ a.structs }

namespace Context

/-- What an addition leaves to the next one: the text has no part in it. -/
def after (c : Context) (a : Addition) : Context :=
  { c with names := a.names, declared := a.structs ++ c.declared }

/-- A context with an addition. -/
def add (c : Context) (a : Addition) : Context :=
  { c with source := c.source.write a.text, names := a.names, declared := a.structs ++ c.declared }

/-- Contexts that look the same to what is written into them: they differ in the text before it, and
in the order in which the structs were written. -/
structure LooksLike (c' c : Context) : Prop where
  names : c'.names = c.names
  declared : ∀ id, id ∈ c'.declared ↔ id ∈ c.declared
  counters : c'.counters = c.counters
  depth : c'.depth = c.depth

/-- A context that is another one with more text, identifiers and structs. -/
structure Extends (c' c : Context) : Prop where
  source : ∃ suffix, c'.source = c.source.write suffix
  names : ∀ identifier spelling, c.names.get? identifier = some spelling →
    c'.names.get? identifier = some spelling
  declared : ∀ id ∈ c.declared, id ∈ c'.declared
  counters : c'.counters = c.counters
  depth : c'.depth = c.depth

end Context

namespace Renderer

/-- What tokens, and the structs in them, add after some identifiers. -/
def additionOf (r : Renderer) (names : NameTable) (result : List Token × List StructId) :
    Addition :=
  { text := (r.spellAll result.1 names).1, names := (r.spellAll result.1 names).2,
    structs := result.2 }

/-- To carry a trace out is to add what it comes to. -/
theorem perform_eq_add {r : Renderer} {t : Trace} {c : Context}
    {outcome : Except ConstantFailure (List Token × List StructId)}
    (h : t c.declared = outcome.map (Trace.onto c.declared)) :
    r.perform t c =
      ((outcome.mapError (r.constantError c.names)).map (r.additionOf c.names)).map c.add := by
  unfold perform
  rw [h]
  cases outcome <;> rfl

end Renderer

namespace Fragment

/-- What fragments add to a context: what is written into it if there is no text yet. -/
def additionAll (r : Renderer) (fs : List Fragment) (c : Context) :
    Except RenderError Addition :=
  (writeAll r fs { c with source := {} }).map fun after =>
    { text := after.source.text, names := after.names,
      structs := after.declared.rdrop c.declared.length }

variable {r : Renderer} {fs gs : List Fragment} {c c' : Context}

theorem additionAll_eq_additionOf {outcome : Except ConstantFailure (List Token × List StructId)}
    (h : traceAll r.config fs c.counterValue? c.depth c.declared =
      outcome.map (Trace.onto c.declared)) :
    additionAll r fs c =
      (outcome.mapError (r.constantError c.names)).map (r.additionOf c.names) := by
  have hwrite := (writeAll_eq_perform r fs { c with source := {} }).trans
    (Renderer.perform_eq_add h)
  unfold additionAll
  rw [hwrite]
  cases outcome with
  | error cause => rfl
  | ok x =>
    have hstructs : (x.2 ++ c.declared).rdrop c.declared.length = x.2 := by simp [List.rdrop]
    simp only [Except.mapError, Except.map, Context.add, Renderer.additionOf, Source.text_write,
      String.empty_append, hstructs]

/-- **To write is to put the addition into the context.** -/
theorem writeAll_eq_add (r : Renderer) (fs : List Fragment) (c : Context) :
    writeAll r fs c = (additionAll r fs c).map c.add := by
  obtain ⟨outcome, h, -⟩ := traceAll_isLocal r.config fs c.counterValue? c.depth
    (fun id => Iff.rfl : ∀ id, id ∈ c.declared ↔ id ∈ c.declared)
  rw [writeAll_eq_perform, Renderer.perform_eq_add h, additionAll_eq_additionOf h]

/-- **The addition is the same in contexts that look the same.** -/
theorem additionAll_congr (h : c'.LooksLike c) : additionAll r fs c' = additionAll r fs c := by
  obtain ⟨outcome, hc, hc'⟩ := traceAll_isLocal r.config fs c.counterValue? c.depth
    fun id => (h.declared id).symm
  have hvalue : c'.counterValue? = c.counterValue? := by
    funext id
    unfold Context.counterValue?
    rw [h.counters]
  rw [← hvalue, ← h.depth] at hc'
  rw [additionAll_eq_additionOf hc, additionAll_eq_additionOf hc', h.names]

/-- What is written extends the context. -/
theorem extends_of_writeAll (h : writeAll r fs c = .ok c') : c'.Extends c := by
  rw [writeAll_eq_perform] at h
  obtain ⟨outcome, hlocal, -⟩ := traceAll_isLocal r.config fs c.counterValue? c.depth
    (fun id => Iff.rfl : ∀ id, id ∈ c.declared ↔ id ∈ c.declared)
  rw [Renderer.perform_eq_add hlocal] at h
  cases outcome with
  | error cause => cases h
  | ok x =>
    cases h
    refine ⟨⟨_, rfl⟩, fun identifier spelling hget => ?_,
      fun id hid => List.mem_append_right _ hid, rfl, rfl⟩
    show (r.spellAll x.1 c.names).2.get? identifier = some spelling
    rw [r.get?_spellAll]
    split_ifs with hspelled
    · rw [Renderer.userSpelling_of_get? hspelled.1 hget]
    · exact hget

/-! ### Additions one after another -/

/-- The addition of fragments in a row: the second find the identifiers and the structs that the
first leave. -/
theorem additionAll_append (r : Renderer) (fs gs : List Fragment) (c : Context) :
    additionAll r (fs ++ gs) c = (do
      let a ← additionAll r fs c
      let b ← additionAll r gs (c.after a)
      .ok (a.append b)) := by
  have hfirst : writeAll r fs { c with source := {} } =
      (additionAll r fs c).map ({ c with source := {} } : Context).add :=
    writeAll_eq_add r fs { c with source := {} }
  rw [additionAll, writeAll_append, hfirst]
  cases additionAll r fs c with
  | error cause => rfl
  | ok a =>
    have hlooks : (({ c with source := {} } : Context).add a).LooksLike (c.after a) :=
      ⟨rfl, fun _ => Iff.rfl, rfl, rfl⟩
    simp only [Except.map, bind, Except.bind]
    rw [writeAll_eq_add, additionAll_congr hlooks]
    cases additionAll r gs (c.after a) with
    | error cause => rfl
    | ok b =>
      have hstructs : (b.structs ++ (a.structs ++ c.declared)).rdrop c.declared.length =
          b.structs ++ a.structs := by simp [List.rdrop, ← List.append_assoc]
      simp only [Except.map, Context.add, Addition.append, Source.text_write, String.empty_append,
        hstructs]

/-- Text that does not depend on the context. -/
theorem additionAll_text (r : Renderer) (s : String) (c : Context) :
    additionAll r [.text s] c = .ok { text := s, names := c.names, structs := [] } := by
  have htrace : traceAll r.config [.text s] c.counterValue? c.depth c.declared =
      (Except.ok ([Token.text s], [])).map (Trace.onto c.declared) := rfl
  rw [additionAll_eq_additionOf htrace]
  simp [Except.mapError, Except.map, Renderer.additionOf, Renderer.spellAll, Token.spell]

theorem additionAll_nil (r : Renderer) (c : Context) :
    additionAll r [] c = .ok { text := "", names := c.names, structs := [] } := by
  have htrace : traceAll r.config [] c.counterValue? c.depth c.declared =
      (Except.ok ([], [])).map (Trace.onto c.declared) := rfl
  rw [additionAll_eq_additionOf htrace]
  rfl

theorem additionAll_brace (r : Renderer) (s : String) (c : Context) :
    additionAll r [.brace s] c =
      .ok { text := if 0 < c.depth then s else "", names := c.names, structs := [] } := by
  have htrace : traceAll r.config [.brace s] c.counterValue? c.depth c.declared =
      Except.map (Trace.onto c.declared) (.ok (if 0 < c.depth then [.text s] else [], [])) := by
    rw [traceAll_singleton]
    rfl
  rw [additionAll_eq_additionOf htrace]
  split_ifs
  · simp [Except.mapError, Except.map, Renderer.additionOf, Renderer.spellAll, Token.spell]
  · rfl

theorem additionAll_scope (r : Renderer) (fs : List Fragment) (c : Context) :
    additionAll r [.scope fs] c = additionAll r fs c.enterScope := by
  have hscope : ({ c with source := {} } : Context).enterScope =
      { c.enterScope with source := {} } := rfl
  unfold additionAll
  rw [writeAll_singleton, write, hscope]
  cases writeAll r fs { c.enterScope with source := {} } <;> rfl

/-- A block adds its braces, unless it is the outermost. -/
theorem additionAll_block (r : Renderer) (fs : List Fragment) (c : Context) :
    additionAll r (blockFragments fs) c = (additionAll r fs c.enterScope).map fun a =>
      { a with text := if 0 < c.depth then "\x7b\n" ++ a.text ++ "\x7d\n" else a.text } := by
  have hparts : blockFragments fs = [.brace "\x7b\n"] ++ ([.scope fs] ++ [.brace "\x7d\n"]) := rfl
  rw [hparts, additionAll_append, additionAll_brace]
  simp only [bind, Except.bind, additionAll_append, additionAll_scope, additionAll_brace]
  have hafter : ∀ text, c.after { text, names := c.names, structs := [] } = c := fun _ => rfl
  rw [hafter]
  cases additionAll r fs c.enterScope with
  | error cause => rfl
  | ok a =>
    by_cases hdepth : 0 < c.depth <;>
      simp [Except.map, Addition.append, Context.after, hdepth, String.append_assoc]

end Fragment

/-! ### Additions of trees -/

namespace Node

/-- What a tree adds to a context. -/
def addition (r : Renderer) (n : Node) (c : Context) : Except RenderError Addition :=
  Fragment.additionAll r (n.fragments r.config) c

/-- What ends a statement of a block. -/
def terminator (n : Node) : String := if n.isSimpleStatement then ";\n" else ""

/-- What statements add one after another. Each finds the identifiers and the structs that those
before it leave; of their texts it knows nothing. -/
def additionOfEach (r : Renderer) : List Node → Context → Except RenderError Addition
  | [], c => .ok { text := "", names := c.names, structs := [] }
  | n :: rest, c => do
    let first ← n.addition r c
    let others ← additionOfEach r rest (c.after first)
    .ok { text := first.text ++ n.terminator ++ others.text, names := others.names,
          structs := others.structs ++ first.structs }

theorem additionAll_statementFragments (r : Renderer) (statements : List Node) (c : Context) :
    Fragment.additionAll r (statementFragments r.config statements) c =
      additionOfEach r statements c := by
  induction statements generalizing c with
  | nil => exact Fragment.additionAll_nil r c
  | cons n rest ih =>
    have hend : ∀ c : Context,
        Fragment.additionAll r (if n.isSimpleStatement then [.text ";\n"] else []) c =
          .ok { text := n.terminator, names := c.names, structs := [] } := by
      intro c
      unfold terminator
      split_ifs
      · exact Fragment.additionAll_text r ";\n" c
      · exact Fragment.additionAll_nil r c
    rw [statementFragments, additionOfEach, Fragment.additionAll_append,
      Fragment.additionAll_append]
    show _ = (Fragment.additionAll r (n.fragments r.config) c >>= _)
    cases Fragment.additionAll r (n.fragments r.config) c with
    | error cause => rfl
    | ok first =>
      have hended : first.append { text := n.terminator, names := first.names, structs := [] } =
          { first with text := first.text ++ n.terminator } := rfl
      have hafter : (c.after first).names = first.names := rfl
      simp only [bind, Except.bind, hend, hafter, hended]
      rw [show c.after { first with text := first.text ++ n.terminator } = c.after first from rfl,
        ih]
      cases additionOfEach r rest (c.after first) with
      | error cause => rfl
      | ok others => simp [Addition.append]

/-- **Writing a tree appends to the text and leaves the rest of the context in balance.** What it
adds is the same in all contexts that have the identifiers, the structs, the counters and the open
scopes in common, whatever the text before; after it, the text has grown at its end, no identifier
and no struct is lost, and the counters and open scopes are as before. A block adds what its
statements add in turn, each with its terminator and all in the braces of the block. -/
theorem write_framed (r : Renderer) (n : Node) (c : Context) :
    n.write r c = (n.addition r c).map c.add ∧
    (∀ c', c'.LooksLike c → n.addition r c' = n.addition r c) ∧
    (∀ c', n.write r c = .ok c' → c'.Extends c) ∧
    ∀ statements, (block statements).addition r c =
      (additionOfEach r statements c.enterScope).map fun a =>
        { a with text := if 0 < c.depth then "\x7b\n" ++ a.text ++ "\x7d\n" else a.text } := by
  refine ⟨Fragment.writeAll_eq_add r _ c, fun c' h => Fragment.additionAll_congr h,
    fun c' h => Fragment.extends_of_writeAll h, fun statements => ?_⟩
  have hblock := Fragment.additionAll_block r (statementFragments r.config statements) c
  rw [additionAll_statementFragments] at hblock
  unfold addition
  rw [fragments, hblock]

end Node

end ShaderText
