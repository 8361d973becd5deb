import ShaderText.Proofs.TypeText

/-! # Invariants of texts

A claim about types in the text of all trees is one about the uses of types, the structs that are
written before, the tokens, and the structs that are written after them. It is an invariant
(`IsInvariant`) if it holds of plain text and of each way of writing a type, and if it is kept where
texts are put together and where one is put in braces. **An invariant holds of the text of every
tree (`Fragment.Outlined.invariant`).** -/

namespace ShaderText

open Fragment

/-! ### Scopes -/

section

variable {c : Config} {b : Bindings} {depth : Nat} {declared declared' : List StructId}
  {tokens : List Token} {fs : List Fragment}

/-- A block has its braces unless it is the outermost. -/
theorem runs_blockFragments (h : Runs c b depth (blockFragments fs) declared tokens declared') :
    ∃ inner, Runs c b (depth + 1) fs declared inner declared' ∧
      tokens = if 0 < depth then .text "\x7b\n" :: (inner ++ [.text "\x7d\n"]) else inner := by
  have hscope : Runs c b depth (.brace "\x7b\n" :: ([.scope fs] ++ [.brace "\x7d\n"]))
      declared tokens declared' := h
  obtain ⟨inner, hinner, rfl⟩ := runs_enclosed rfl rfl hscope
  refine ⟨inner, runs_singleton.mp hinner, ?_⟩
  split_ifs <;> simp

/-- The copies of an unrolled body stand in a loop, after plain text. -/
theorem runs_copies {l : CountingLoop}
    (h : Runs c b depth
      [.scope (l.header ++ [.unrolled l.counter l.iterations fs, .text "\x7d\n"])]
      declared tokens declared') :
    ∃ front inner, (∀ t ∈ front, t.IsPlain) ∧
      Trace.each (fun value =>
          traceAll c fs (Function.update b l.counter.id (some value)) (depth + 1))
        (l.counter.values l.iterations) declared = .ok (inner, declared') ∧
      tokens = front ++ .text ")\n\x7b\n" :: (inner ++ [.text "\x7d\n"]) := by
  obtain ⟨others, hothers, rfl⟩ := runs_emit_append _ rfl (runs_singleton.mp h)
  obtain ⟨inner, middle, closing, hinner, hclosing, rfl⟩ := runs_cons hothers
  obtain ⟨rfl, rfl⟩ := runs_of_emit rfl hclosing
  refine ⟨[.text "for (int ", .declared l.var.name, .text " = 0; ", .declared l.var.name,
    .text " < 1; ++", .declared l.var.name], inner, ?_, runs_singleton.mp hinner, rfl⟩
  have hplain : IsPlainText "for (int " ∧ IsPlainText " = 0; " ∧ IsPlainText " < 1; ++" := by decide
  simpa [Token.IsPlain] using hplain

theorem Counter.length_values (n : Nat) (counter : Counter) :
    (Counter.values n counter).length = n := by
  induction n generalizing counter with
  | zero => rfl
  | succ n ih => simp [Counter.values, ih]

end

/-! ### Invariants -/

/-- The texts that open the braces of a block and of the loop around copies. -/
def IsOpening (s : String) : Prop := s = "\x7b\n" ∨ s = ")\n\x7b\n"

theorem IsOpening.ne_struct {s : String} (h : IsOpening s) : s ≠ "struct " := by
  rcases h with rfl | rfl <;> decide

/-- What uses of types, the structs before, the tokens and the structs after have in common in every
part of a tree. -/
structure IsInvariant (c : Config)
    (P : List TypeUse → List StructId → List Token → List StructId → Prop) : Prop where
  append {us vs declared front middle back declared'} : P us declared front middle →
    P vs middle back declared' → P (us ++ vs) declared (front ++ back) declared'
  plain {tokens declared} : (∀ token ∈ tokens, token.IsPlain) → P [] declared tokens declared
  built {t tokens declared} : (∀ token ∈ tokens, token.IsPlain ∨
    ∃ (part : ShaderType) (name : TypeName), part.PartOf t ∧ part.spelling = .ok name ∧
      token = .typeName name) → P [.built t] declared tokens declared
  written {t tokens declared declared'} : t.Written c declared tokens declared' →
    P [.declared t] declared tokens declared'
  enclosed {opening us declared tokens declared'} : IsOpening opening →
    P us declared tokens declared' →
    P us declared (.text opening :: (tokens ++ [.text "\x7d\n"])) declared'

variable {c : Config} {P : List TypeUse → List StructId → List Token → List StructId → Prop}
  {declared declared' : List StructId} {tokens : List Token}

/-- Copies have the uses of one copy as often. -/
theorem IsInvariant.each {us : List TypeUse} {copy : Int → Trace} (hP : IsInvariant c P)
    (hcopy : ∀ value declared tokens declared', copy value declared = .ok (tokens, declared') →
      P us declared tokens declared') (values : List Int)
    (h : Trace.each copy values declared = .ok (tokens, declared')) :
    P (List.replicate values.length us).flatten declared tokens declared' := by
  induction values generalizing declared tokens with
  | nil =>
    cases h
    exact hP.plain (by simp)
  | cons value rest ih =>
    obtain ⟨front, middle, back, hfront, hback, rfl⟩ := Trace.exists_of_seq h
    exact hP.append (hcopy value _ _ _ hfront) (ih hback)

/-- The braces of a block, or none. -/
theorem IsInvariant.block {us : List TypeUse} {inner : List Token} (hP : IsInvariant c P)
    (h : P us declared inner declared') (depth : Nat) :
    P us declared (if 0 < depth then .text "\x7b\n" :: (inner ++ [.text "\x7d\n"]) else inner)
      declared' := by
  split_ifs
  · exact hP.enclosed (.inl rfl) h
  · exact h

/-- The loop around copies. -/
theorem IsInvariant.loop {us : List TypeUse} {b : Bindings} {depth : Nat} {fs : List Fragment}
    {l : CountingLoop} (hP : IsInvariant c P)
    (hcopy : ∀ b declared tokens declared', Runs c b (depth + 1) fs declared tokens declared' →
      P us declared tokens declared')
    (hr : Runs c b depth
      [.scope (l.header ++ [.unrolled l.counter l.iterations fs, .text "\x7d\n"])]
      declared tokens declared') :
    P (List.replicate l.iterations us).flatten declared tokens declared' := by
  obtain ⟨front, inner, hfront, hinner, rfl⟩ := runs_copies hr
  have hcopies := hP.each (fun _ _ _ _ hrun => hcopy _ _ _ _ hrun) _ hinner
  rw [Counter.length_values] at hcopies
  exact hP.append (hP.plain hfront) (hP.enclosed (.inr rfl) hcopies)

/-- **An invariant holds of the text of all fragments.** -/
theorem Fragment.Outlined.invariant {fs : List Fragment} {items : List Outline}
    (h : Outlined c fs items) (hP : IsInvariant c P) {b : Bindings} {depth : Nat}
    (hr : Runs c b depth fs declared tokens declared') :
    P (Outline.usesIn items) declared tokens declared' := by
  induction h generalizing b depth declared tokens declared' with
  | nil =>
    obtain ⟨rfl, rfl⟩ := runs_nil hr
    exact hP.plain (by simp)
  | append _ _ ih ih' =>
    obtain ⟨front, middle, back, hfront, hback, rfl⟩ := runs_append hr
    rw [Outline.usesIn_append]
    exact hP.append (ih hfront) (ih' hback)
  | plain hf =>
    obtain ⟨hplain, rfl⟩ := runs_of_isPlain hf hr
    exact hP.plain hplain
  | fail => cases runs_singleton.mp hr
  | name t =>
    obtain ⟨name, hname, rfl, rfl⟩ := runs_nameFragment hr
    exact hP.built (List.forall_mem_singleton.mpr (.inr ⟨t, name, .refl t, hname, rfl⟩))
  | constant t values =>
    obtain ⟨htokens, rfl⟩ := runs_constant hr
    exact hP.built htokens
  | occurrence t =>
    obtain ⟨front, back, rfl, hplain, hwritten⟩ := ShaderType.runs_occurrence hr
    simpa [Outline.usesIn, Outline.uses] using hP.append (hP.plain hplain) (hP.written hwritten)
  | scope _ ih => exact ih (runs_singleton.mp hr)
  | block _ ih =>
    obtain ⟨inner, hinner, rfl⟩ := runs_blockFragments hr
    simpa [Outline.usesIn, Outline.uses] using hP.block (ih hinner) depth
  | copies l _ ih =>
    have hcopies := hP.loop (fun _ _ _ _ hcopy => by
      obtain ⟨inner, hinner, rfl⟩ := runs_blockFragments hcopy
      exact hP.block (ih hinner) _) hr
    simpa [Outline.usesIn, Outline.uses] using hcopies
  | absent l =>
    have hcopies := hP.loop (fun _ _ _ _ hcopy => by
      obtain ⟨rfl, rfl⟩ := runs_of_emit rfl hcopy
      exact hP.plain (List.forall_mem_singleton.mpr
        (by decide : IsPlainText "\x7b\n\x7d\n"))) hr
    simpa [Outline.usesIn] using hcopies

end ShaderText
