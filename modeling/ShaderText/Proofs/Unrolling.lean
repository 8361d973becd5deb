import ShaderText.Proofs.NameTable
import ShaderText.Proofs.Trace
import ShaderText.Proofs.TripCount

/-! # Unrolling: the text that a counting loop is written as

An unrolled loop is written as a loop that runs once, around a copy of the body for each value of
the counter (`Fragment.write_unrolled`). A copy is the body written with the counter at its value
(`CountingLoop.writeCopy`), and leaves the counters around it as they were. -/

namespace ShaderText

namespace CountingLoop

/-! ### The loop around the copies -/

/-- The text of the loop that runs once. -/
def headerText (name : String) : String :=
  "for (int " ++ name ++ " = 0; " ++ name ++ " < 1; ++" ++ name ++ ")\n\x7b\n"

/-- The context after the loop that runs once is opened. -/
def writeHeader (l : CountingLoop) (r : Renderer) (c : Context) : Context :=
  let spelled := r.variableName l.var.name c.names
  c.writeName (headerText spelled.1, spelled.2)

/-- To spell a variable once more changes nothing. -/
theorem variableName_variableName (r : Renderer) (n : Name) (names : NameTable) :
    r.variableName n (r.variableName n names).2 = r.variableName n names := by
  rw [r.variableName_eq_resolve n names, r.variableName_eq_resolve]
  refine Prod.ext ?_ (NameTable.ext_get? fun identifier => ?_)
  · rw [r.resolve_fst, r.resolve_fst, r.userSpelling_resolve]
  · rw [r.get?_resolve, r.userSpelling_resolve, r.get?_resolve]
    split_ifs <;> rfl

theorem perform_header (l : CountingLoop) (r : Renderer) (c : Context) (bindings : Bindings)
    (depth : Nat) :
    r.perform (Fragment.traceAll r.config l.header bindings depth) c =
      .ok (l.writeHeader r c) := by
  have htrace : Fragment.traceAll r.config l.header bindings depth =
      .emit [.text "for (int ", .declared l.var.name, .text " = 0; ", .declared l.var.name,
        .text " < 1; ++", .declared l.var.name, .text ")\n\x7b\n"] := rfl
  rw [htrace, r.perform_emit]
  simp only [Renderer.spellAll, Token.spell, variableName_variableName, writeHeader, headerText,
    String.append_assoc, String.append_empty]

/-! ### The copies -/

/-- The context after a copy of the body is written, with the counter at a value. -/
def writeCopy (l : CountingLoop) (r : Renderer) (body : Option (List Node)) (value : Int)
    (c : Context) : Except RenderError Context :=
  (Fragment.writeAll r (Node.bodyFragments r.config body)
    (c.pushCounter { id := l.var.id, value, step := l.step })).map (·.popCounter)

theorem writeCopy_eq_perform (l : CountingLoop) (r : Renderer) (body : Option (List Node))
    (value : Int) (c : Context) :
    l.writeCopy r body value c =
      r.perform (Fragment.traceAll r.config (Node.bodyFragments r.config body)
        (Function.update c.counterValue? l.var.id (some value)) c.depth) c := by
  rw [writeCopy, Fragment.writeAll_eq_perform, Fragment.counterValue?_pushCounter_eq,
    r.perform_pushCounter]
  show (Except.map _ (r.perform (Fragment.traceAll _ _ _ c.depth) c)).map _ = _
  cases r.perform (Fragment.traceAll r.config (Node.bodyFragments r.config body)
    (Function.update c.counterValue? l.var.id (some value)) c.depth) c <;> rfl

theorem counter_values (n : Nat) (counter : Counter) :
    counter.values n = (List.range n).map fun k : Nat => counter.value + k * counter.step := by
  induction n generalizing counter with
  | zero => rfl
  | succ n ih =>
    rw [Counter.values, ih, List.range_succ_eq_map, List.map_cons, List.map_map]
    congr 1
    · simp
    · refine List.map_congr_left fun k _ => ?_
      simp only [Counter.next, Function.comp_apply, Nat.succ_eq_add_one, Int.natCast_add,
        Int.natCast_one, Int.add_mul, Int.one_mul]
      omega

/-- The copies of a loop are written for its values. -/
theorem values_counter (l : CountingLoop) : l.counter.values l.iterations = l.values :=
  counter_values l.iterations l.counter

end CountingLoop

/-! ### The whole loop -/

/-- The copies are written one after another, each in the context that the last one left. -/
theorem CountingLoop.foldlM_writeCopy (l : CountingLoop) (r : Renderer)
    (body : Option (List Node)) (values : List Int) (c : Context) :
    values.foldlM (fun c value => l.writeCopy r body value c) c =
      r.perform (.each (fun value => Fragment.traceAll r.config (Node.bodyFragments r.config body)
        (Function.update c.counterValue? l.var.id (some value)) c.depth) values) c := by
  induction values generalizing c with
  | nil => exact (r.perform_emit_nil c).symm
  | cons value rest ih =>
    rw [List.foldlM_cons, Trace.each, r.perform_seq, l.writeCopy_eq_perform]
    cases h : r.perform (Fragment.traceAll r.config (Node.bodyFragments r.config body)
        (Function.update c.counterValue? l.var.id (some value)) c.depth) c with
    | error e => rfl
    | ok c' =>
      obtain ⟨hv, hd⟩ := Renderer.counterValue?_perform h
      have := ih c'
      rw [hv, hd] at this
      exact this

/-- **The text of an unrolled loop**: the loop that runs once, and in it a copy of the body for each
value of the counter. -/
theorem Node.write_unrolled {kind : LoopKind} {init condition step : Option Node}
    {l : CountingLoop} (h : CountingLoop.ofLoop kind init condition step = .ok l)
    (body : Option (List Node)) (r : Renderer) (c : Context) :
    (Node.loop kind init condition step body true).write r c =
      (l.values.foldlM (fun c value => l.writeCopy r body value c)
        (l.writeHeader r c.enterScope)).map fun c => (c.write "\x7d\n").leaveScope := by
  have hfragments : (Node.loop kind init condition step body true).fragments r.config =
      [.scope (l.header ++ [.unrolled l.counter l.iterations (Node.bodyFragments r.config body),
        .text "\x7d\n"])] := by
    simp only [Node.fragments, if_true, h]
  have hcopies : ∀ c : Context,
      (Fragment.unrolled l.counter l.iterations (Node.bodyFragments r.config body)).write r c =
        l.values.foldlM (fun c value => l.writeCopy r body value c) c := fun c => by
    rw [Fragment.write_eq_perform, l.foldlM_writeCopy, ← l.values_counter]
    rfl
  rw [Node.write, hfragments, Fragment.writeAll_singleton, Fragment.write,
    Fragment.writeAll_append, Fragment.writeAll_eq_perform r l.header, l.perform_header]
  show (Fragment.writeAll r _ (l.writeHeader r c.enterScope)) >>= _ = _
  rw [Fragment.writeAll, hcopies]
  cases l.values.foldlM (fun c value => l.writeCopy r body value c)
    (l.writeHeader r c.enterScope) <;> rfl

end ShaderText
