import ShaderText.Constant.Lemmas
import ShaderText.Pass
import ShaderText.Proofs.Token
import Mathlib.Logic.Function.Basic

/-! # Traces: what fragments come to without text and table

Writing a fragment reads and changes a whole `Context`. Of this, the text and the table are mere
results: nothing that is written depends on them. `Fragment.trace` gives a fragment its meaning
without the two, as a `Trace`: a function from the structs whose body is written to the tokens of
the fragment and the structs whose body is written after it, or to the cause of a failure. The
values of the counters (`Bindings`) and the number of open scopes are parameters of it and not
state, so they are the same after a fragment as before it.

* `Renderer.perform` carries a trace out: it spells the tokens with the table of a context.
* **`Fragment.writeAll_eq_perform`: to write fragments is to carry their trace out.**
* `Renderer.perform_seq` is the step the induction rests on: a failure is reported in the same words
  whatever was spelled before it. -/

namespace ShaderText

/-- The values of the variables that count the loops being unrolled. -/
abbrev Bindings := SymbolId → Option Int

/-- What fragments come to. -/
def Trace : Type := List StructId → Except ConstantFailure (List Token × List StructId)

/-! ### Structs that are written -/

/-- Whether the body of a struct is among those written. -/
def isWritten (declared : List StructId) (id : StructId) (name : String) : Bool :=
  name != "" && declared.contains id

/-- The structs whose body is written after that of one more. -/
def withBody (declared : List StructId) (id : StructId) (name : String) : List StructId :=
  if name = "" then declared else id :: declared

namespace Trace

def emit (tokens : List Token) : Trace := fun declared => .ok (tokens, declared)

def fail (cause : ConstantFailure) : Trace := fun _ => .error cause

/-- One trace after another. -/
def seq (first second : Trace) : Trace := fun declared =>
  match first declared with
  | .error cause => .error cause
  | .ok (front, declared) =>
    match second declared with
    | .error cause => .error cause
    | .ok (back, declared) => .ok (front ++ back, declared)

/-- A trace for each value of a list. -/
def each (copy : Int → Trace) : List Int → Trace
  | [] => emit []
  | value :: rest => (copy value).seq (each copy rest)

/-- The body of a struct where it is not written yet, and `later` where it is. -/
def once (id : StructId) (name : String) (body later : Trace) : Trace := fun declared =>
  if isWritten declared id name then later declared
  else
    match body declared with
    | .error cause => .error cause
    | .ok (tokens, declared) => .ok (tokens, withBody declared id name)

/-- The condition that the body of a struct is written. -/
def require (id : StructId) (name : String) : Trace := fun declared =>
  if isWritten declared id name then .ok ([], declared)
  else .error (.error (.undeclaredMemberStruct name))

theorem seq_assoc (a b c : Trace) : (a.seq b).seq c = a.seq (b.seq c) := by
  funext declared
  unfold seq
  cases a declared with
  | error cause => rfl
  | ok x =>
    cases hb : b x.2 with
    | error cause => simp [hb]
    | ok y =>
      cases hc : c y.2 with
      | error cause => simp [hb, hc]
      | ok z => simp [hb, hc]

@[simp] theorem emit_nil_seq (a : Trace) : (emit []).seq a = a := by
  funext declared
  unfold seq emit
  cases h : a declared <;> simp [h]

@[simp] theorem seq_emit_nil (a : Trace) : a.seq (emit []) = a := by
  funext declared
  unfold seq emit
  cases a declared <;> simp

end Trace

/-! ### Traces of constants -/

/-- The token that a piece of a constant is. -/
def ConstantPiece.token : ConstantPiece → Token
  | text s => .text s
  | typeName name => .typeName name

/-- The tokens of a constant with one more piece. -/
abbrev addPiece (front : List Token) (piece : ConstantPiece) : List Token :=
  front ++ [piece.token]

/-- The trace of a constant. -/
def ShaderType.constantTrace (c : Config) (t : ShaderType) (values : List Scalar) : Trace :=
  fun declared =>
    (t.foldConstant c addPiece values []).map (·, declared)

/-! ### Traces of fragments -/

/-- The values that a counter takes on in a number of copies. -/
def Counter.values : Nat → Counter → List Int
  | 0, _ => []
  | n + 1, counter => counter.value :: Counter.values n counter.next

namespace Fragment

mutual

/-- The trace of a fragment. -/
def trace (c : Config) : Fragment → Bindings → Nat → Trace
  | text s, _, _ => .emit [.text s]
  | reference id name, bindings, _ =>
    match bindings id with
    | some value => .emit [.text value.repr]
    | none => .emit [.used name]
  | variableName name, _, _ => .emit [.declared name]
  | parameterName name, _, _ => .emit [.parameter name]
  | typeName name, _, _ => .emit [.typeName name]
  | member owner field, _, _ => .emit [.member owner field]
  | blockMember field, _, _ => .emit [.blockMember field]
  | function name emulated, _, _ => .emit [.function name emulated]
  | intrinsic name emulated, _, _ => .emit [.intrinsic name emulated]
  | brace s, _, depth => .emit (if 0 < depth then [.text s] else [])
  | scope body, bindings, depth => traceAll c body bindings (depth + 1)
  | structBody id name body later, bindings, depth =>
    .once id name (traceAll c body bindings depth) (traceAll c later bindings depth)
  | requireStruct id name, _, _ => .require id name
  | constant type values, _, _ => type.constantTrace c values
  | unrolled counter copies body, bindings, depth =>
    .each (fun value => traceAll c body (Function.update bindings counter.id (some value)) depth)
      (counter.values copies)
  | fail cause, _, _ => .fail (.error cause)

/-- The trace of a list of fragments. -/
def traceAll (c : Config) : List Fragment → Bindings → Nat → Trace
  | [], _, _ => .emit []
  | f :: rest, bindings, depth => (f.trace c bindings depth).seq (traceAll c rest bindings depth)

end

theorem traceAll_append (c : Config) (front back : List Fragment) (bindings : Bindings)
    (depth : Nat) :
    traceAll c (front ++ back) bindings depth =
      (traceAll c front bindings depth).seq (traceAll c back bindings depth) := by
  induction front with
  | nil => simp [traceAll]
  | cons f rest ih => rw [List.cons_append, traceAll, traceAll, ih, Trace.seq_assoc]

theorem traceAll_singleton (c : Config) (f : Fragment) (bindings : Bindings) (depth : Nat) :
    traceAll c [f] bindings depth = f.trace c bindings depth := by
  simp [traceAll]

end Fragment

/-! ### Carrying a trace out -/

namespace Renderer

/-- The context after a trace is carried out: its tokens are spelled one after another. -/
def perform (r : Renderer) (t : Trace) (c : Context) : Except RenderError Context :=
  match t c.declared with
  | .error cause => .error (r.constantError c.names cause)
  | .ok (tokens, declared) => .ok { c.writeName (r.spellAll tokens c.names) with declared }

/-- What the table makes of identifiers is all that the words for a failure depend on. -/
theorem constantError_congr {r : Renderer} {names names' : NameTable}
    (h : r.userSpelling names = r.userSpelling names') :
    r.constantError names = r.constantError names' := by
  funext cause
  cases cause with
  | error cause => rfl
  | underflow type needed available =>
    dsimp only [constantError]
    rw [r.typeName_eq_resolve, r.typeName_eq_resolve, r.resolve_fst, r.resolve_fst, h]

theorem perform_emit (r : Renderer) (tokens : List Token) (c : Context) :
    r.perform (.emit tokens) c = .ok (c.writeName (r.spellAll tokens c.names)) := rfl

theorem perform_emit_nil (r : Renderer) (c : Context) : r.perform (.emit []) c = .ok c := by
  rw [perform_emit, spellAll_nil, Context.writeName, Source.write_empty]

theorem perform_emit_singleton (r : Renderer) (t : Token) (c : Context) :
    r.perform (.emit [t]) c = .ok (c.writeName (t.spell r c.names)) := by
  rw [perform_emit, spellAll_singleton]

theorem perform_emit_text (r : Renderer) (s : String) (c : Context) :
    r.perform (.emit [.text s]) c = .ok (c.write s) :=
  perform_emit_singleton r (.text s) c

/-- **To carry out one trace after another** is to carry them out in turn. -/
theorem perform_seq (r : Renderer) (first second : Trace) (c : Context) :
    r.perform (first.seq second) c = r.perform first c >>= r.perform second := by
  unfold perform Trace.seq
  cases first c.declared with
  | error cause => rfl
  | ok x =>
    obtain ⟨front, declared⟩ := x
    have hspell := r.userSpelling_spellAll front c.names
    simp only [bind, Except.bind, Context.writeName]
    cases second declared with
    | error cause => rw [constantError_congr hspell]
    | ok y =>
      dsimp only
      rw [r.spellAll_append, Source.write_write]

/-- To carry a trace out leaves the counters and scopes of a context alone. -/
theorem counterValue?_perform {r : Renderer} {t : Trace} {c c' : Context}
    (h : r.perform t c = .ok c') : c'.counterValue? = c.counterValue? ∧ c'.depth = c.depth := by
  unfold perform at h
  cases ht : t c.declared with
  | error cause => rw [ht] at h; cases h
  | ok x => rw [ht] at h; cases h; exact ⟨rfl, rfl⟩

/-- The counters around a trace that is carried out stay as they are. -/
theorem perform_pushCounter (r : Renderer) (t : Trace) (c : Context) (counter : Counter) :
    r.perform t (c.pushCounter counter) = (r.perform t c).map (·.pushCounter counter) := by
  unfold perform
  rw [show (c.pushCounter counter).declared = c.declared from rfl,
    show (c.pushCounter counter).names = c.names from rfl]
  cases t c.declared <;> rfl

theorem perform_enterScope (r : Renderer) (t : Trace) (c : Context) :
    r.perform t c.enterScope = (r.perform t c).map (·.enterScope) := by
  unfold perform
  rw [show c.enterScope.declared = c.declared from rfl,
    show c.enterScope.names = c.names from rfl]
  cases t c.declared <;> rfl

theorem perform_once (r : Renderer) (id : StructId) (name : String) (body later : Trace)
    (c : Context) :
    r.perform (.once id name body later) c =
      if c.isDeclared id name then r.perform later c
      else (r.perform body c).map (·.declare id name) := by
  have hw : isWritten c.declared id name = c.isDeclared id name := rfl
  unfold perform Trace.once
  rw [hw]
  split_ifs
  · rfl
  · cases body c.declared with
    | error cause => rfl
    | ok x =>
      unfold withBody Context.declare
      dsimp only [Except.map]
      split_ifs <;> rfl

theorem perform_require (r : Renderer) (id : StructId) (name : String) (c : Context) :
    r.perform (.require id name) c =
      if c.isDeclared id name then .ok c else .error (.undeclaredMemberStruct name) := by
  have hw : isWritten c.declared id name = c.isDeclared id name := rfl
  unfold perform Trace.require
  rw [hw]
  split_ifs
  · exact r.perform_emit_nil c
  · rfl

/-- A constant is written by its trace. -/
theorem writeConstant_eq_perform (r : Renderer) (t : ShaderType) (values : List Scalar)
    (c : Context) :
    r.writeConstant t values c = r.perform (t.constantTrace r.config values) c := by
  -- the state of a constant in a context is the list of its tokens, spelled
  have hstep : ∀ (tokens : List Token) (piece : ConstantPiece),
      c.writeName (r.spellAll (tokens ++ [piece.token]) c.names) =
        r.writePiece (c.writeName (r.spellAll tokens c.names)) piece := by
    intro tokens piece
    rw [r.spellAll_append, spellAll_singleton]
    cases piece <;> simp [writePiece, ConstantPiece.token, Token.spell, Context.writeName,
      Context.write, Source.write_write]
  have hmaps := ShaderType.foldObject_maps
    (g := fun tokens => c.writeName (r.spellAll tokens c.names)) hstep r.config t values []
  have hnil : c.writeName (r.spellAll [] c.names) = c := by
    rw [spellAll_nil, Context.writeName, Source.write_empty]
  dsimp only at hmaps
  rw [hnil] at hmaps
  unfold writeConstant perform ShaderType.constantTrace ShaderType.foldConstant
  rw [hmaps]
  cases t.foldObject r.config addPiece values [] with
  | error cause => rfl
  | ok x =>
    obtain ⟨rest, tokens⟩ := x
    cases rest <;> rfl

end Renderer

/-! ### Writing is carrying a trace out -/

namespace Fragment

theorem counterValue?_pushCounter_eq (c : Context) (counter : Counter) :
    (c.pushCounter counter).counterValue? =
      Function.update c.counterValue? counter.id (some counter.value) := by
  funext id
  rw [c.counterValue?_pushCounter]
  by_cases h : counter.id = id
  · rw [if_pos h, h, Function.update_self]
  · rw [if_neg h, Function.update_of_ne (Ne.symm h)]

/-- The copies of a body, each of which is written by its trace. -/
theorem writeCopies_eq_perform (r : Renderer) (copy : Context → Except RenderError Context)
    (t : Int → Trace) (c : Context) (id : SymbolId) (step : Int)
    (hcopy : ∀ (c' : Context) (value : Int), c'.counterValue? = c.counterValue? →
      c'.depth = c.depth →
      copy (c'.pushCounter { id, value, step }) =
        r.perform (t value) (c'.pushCounter { id, value, step }))
    (copies : Nat) (value : Int) :
    (writeCopies copy copies (c.pushCounter { id, value, step })).map (·.popCounter) =
      r.perform (.each t (Counter.values copies { id, value, step })) c := by
  induction copies generalizing value c with
  | zero => exact (r.perform_emit_nil c).symm
  | succ copies ih =>
    rw [writeCopies, Counter.values, Trace.each, r.perform_seq, hcopy c value rfl rfl,
      r.perform_pushCounter]
    unfold Renderer.perform
    cases t value c.declared with
    | error cause => rfl
    | ok x =>
      obtain ⟨tokens, declared⟩ := x
      simp only [Except.map, bind, Except.bind, Context.stepCounter_pushCounter]
      exact ih { c.writeName (r.spellAll tokens c.names) with declared }
        (fun c' value h hd => hcopy c' value h hd) (value + step)

mutual

/-- **To write a fragment is to carry its trace out.** -/
theorem write_eq_perform (r : Renderer) : (f : Fragment) → (c : Context) →
    f.write r c = r.perform (f.trace r.config c.counterValue? c.depth) c
  | text s, c => (r.perform_emit_text s c).symm
  | reference id name, c => by
    rw [write, trace]
    cases c.counterValue? id with
    | some value => exact (r.perform_emit_text value.repr c).symm
    | none => exact (r.perform_emit_singleton (.used name) c).symm
  | variableName name, c => (r.perform_emit_singleton (.declared name) c).symm
  | parameterName name, c => (r.perform_emit_singleton (.parameter name) c).symm
  | typeName name, c => (r.perform_emit_singleton (.typeName name) c).symm
  | member owner field, c => (r.perform_emit_singleton (.member owner field) c).symm
  | blockMember field, c => (r.perform_emit_singleton (.blockMember field) c).symm
  | function name emulated, c => (r.perform_emit_singleton (.function name emulated) c).symm
  | intrinsic name emulated, c => (r.perform_emit_singleton (.intrinsic name emulated) c).symm
  | brace s, c => by
    rw [write, trace]
    split_ifs
    · exact (r.perform_emit_text s c).symm
    · exact (r.perform_emit_nil c).symm
  | scope body, c => by
    have hbody := writeAll_eq_perform r body c.enterScope
    rw [r.perform_enterScope] at hbody
    rw [write, trace, hbody]
    show _ = r.perform (traceAll r.config body c.enterScope.counterValue? c.enterScope.depth) c
    cases r.perform (traceAll r.config body c.enterScope.counterValue? c.enterScope.depth) c <;> rfl
  | structBody id name body later, c => by
    rw [write, trace, r.perform_once, writeAll_eq_perform r body c, writeAll_eq_perform r later c]
    split_ifs
    · rfl
    · cases r.perform (traceAll r.config body c.counterValue? c.depth) c <;> rfl
  | requireStruct id name, c => (r.perform_require id name c).symm
  | constant type values, c => r.writeConstant_eq_perform type values c
  | unrolled counter copies body, c => by
    rw [write, trace]
    refine Eq.trans ?_ (writeCopies_eq_perform r (writeAll r body) _ c counter.id counter.step ?_
      copies counter.value)
    · cases writeCopies (writeAll r body) copies (c.pushCounter counter) <;> rfl
    · intro c' value hc hd
      rw [writeAll_eq_perform r body, counterValue?_pushCounter_eq, hc]
      show r.perform (traceAll r.config body _ c'.depth) _ = _
      rw [hd]
  | fail cause, c => rfl

theorem writeAll_eq_perform (r : Renderer) : (fs : List Fragment) → (c : Context) →
    writeAll r fs c = r.perform (traceAll r.config fs c.counterValue? c.depth) c
  | [], c => (r.perform_emit_nil c).symm
  | f :: rest, c => by
    rw [writeAll, traceAll, r.perform_seq, write_eq_perform r f c]
    unfold Renderer.perform
    cases f.trace r.config c.counterValue? c.depth c.declared with
    | error cause => rfl
    | ok x => exact writeAll_eq_perform r rest _

end

end Fragment

end ShaderText
