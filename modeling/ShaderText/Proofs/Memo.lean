import ShaderText.Proofs.NameTable
import ShaderText.Proofs.Trace

/-! # The table of a pass is a memo

A pass reads its table of renamed identifiers at every name and extends it as it goes. None of this
is visible: `Renderer.renderPlain ρ` renders a tree without any table, spelling each identifier of
the user by the function `ρ`, and a pass from a table does the same with the function that the table
amounts to at the start (`Renderer.userSpelling`).

* `renderFrom_eq_spellAll`: a pass spells the tokens of the tree, or fails as the tree does.
* `source_renderFrom`: the text, or the error, is that of the rendering without a table.
* `get?_names_renderFrom`: the table of a pass has the entries it had before and the identifiers
  that the pass spelled, nothing else.
* **`renderFrom_transparent`** puts these together, with what follows for two tables that agree on
  the identifiers of the tree, and for a second pass from the table of the first. -/

namespace ShaderText

/-! ### Rendering without a table -/

/-- The trace of a tree that is the root of a pass. -/
def Node.trace (c : Config) (root : Node) : Trace :=
  Fragment.traceAll c (root.fragments c) (fun _ => none) 0

namespace Renderer

/-- The tokens of a tree, or why it cannot be written. -/
def tokens (r : Renderer) (root : Node) : Except ConstantFailure (List Token) :=
  (root.trace r.config []).map Prod.fst

/-- The error of a failure, where `ρ` spells the identifiers of the user. -/
def errorUnder (r : Renderer) (ρ : String → String) : ConstantFailure → RenderError
  | .underflow type needed available =>
    .constantUnderflow ((r.typeSpelling type).text ρ) needed available
  | .error cause => cause

/-- Renders a tree without a table: `ρ` spells the identifiers of the user. -/
def renderPlain (r : Renderer) (ρ : String → String) (root : Node) : Except RenderError String :=
  match r.tokens root with
  | .error cause => .error (r.errorUnder ρ cause)
  | .ok tokens => .ok (String.join (tokens.map (Token.print r ρ)))

/-- The identifiers of the user that the rendering of a tree spells, in its text or its error. -/
def identifiersOf (r : Renderer) (root : Node) : List String :=
  match r.tokens root with
  | .error (.underflow type _ _) => (r.typeSpelling type).identifier?.toList
  | .error (.error _) => []
  | .ok tokens => r.identifiers tokens

theorem constantError_eq_errorUnder (r : Renderer) (names : NameTable) (cause : ConstantFailure) :
    r.constantError names cause = r.errorUnder (r.userSpelling names) cause := by
  cases cause with
  | error cause => rfl
  | underflow type needed available =>
    dsimp only [constantError, errorUnder]
    rw [r.typeName_eq_resolve, r.resolve_fst]

/-- Rendering without a table depends on the spelling of the identifiers of the tree only. -/
theorem renderPlain_congr (r : Renderer) {ρ ρ' : String → String} {root : Node}
    (h : ∀ identifier ∈ r.identifiersOf root, ρ identifier = ρ' identifier) :
    r.renderPlain ρ root = r.renderPlain ρ' root := by
  unfold renderPlain
  unfold identifiersOf at h
  cases ht : r.tokens root with
  | error cause =>
    cases cause with
    | error cause => rfl
    | underflow type needed available =>
      rw [ht] at h
      dsimp only [errorUnder]
      cases hs : r.typeSpelling type with
      | fixed s => rfl
      | ofUser identifier =>
        have := h identifier (by simp [hs, Spelling.identifier?])
        rw [Spelling.text, Spelling.text, this]
  | ok tokens =>
    rw [ht] at h
    have hprint : tokens.map (Token.print r ρ) = tokens.map (Token.print r ρ') := by
      refine List.map_congr_left fun t ht => t.print_congr r fun identifier hi => ?_
      exact h identifier (List.mem_filterMap.mpr ⟨t, ht, hi⟩)
    dsimp only
    rw [hprint]

/-! ### A pass from a table -/

/-- **A pass spells the tokens of the tree**, with the table passed on from one to the next. -/
theorem renderFrom_eq_spellAll (r : Renderer) (seed : NameTable) (root : Node) :
    r.renderFrom seed root =
      match r.tokens root with
      | .error cause => .error (r.constantError seed cause)
      | .ok tokens =>
        .ok { source := (r.spellAll tokens seed).1, names := (r.spellAll tokens seed).2 } := by
  unfold renderFrom Node.write tokens Node.trace
  rw [Fragment.writeAll_eq_perform]
  unfold perform
  have hbindings : ({ names := seed } : Context).counterValue? = fun _ => none := rfl
  rw [hbindings]
  cases Fragment.traceAll r.config (root.fragments r.config) (fun _ => none) 0 [] with
  | error cause => rfl
  | ok x => simp [bind, Except.bind, Except.map, Context.writeName]

theorem renderFrom_of_tokens {r : Renderer} {root : Node} {tokens : List Token}
    (h : r.tokens root = .ok tokens) (seed : NameTable) :
    r.renderFrom seed root =
      .ok { source := (r.spellAll tokens seed).1, names := (r.spellAll tokens seed).2 } := by
  rw [renderFrom_eq_spellAll, h]

/-- A pass that succeeds has tokens, and yields what they are spelled as. -/
theorem tokens_of_renderFrom {r : Renderer} {seed : NameTable} {root : Node} {out : Rendered}
    (h : r.renderFrom seed root = .ok out) :
    ∃ tokens, r.tokens root = .ok tokens ∧ out.source = (r.spellAll tokens seed).1 ∧
      out.names = (r.spellAll tokens seed).2 := by
  rw [renderFrom_eq_spellAll] at h
  cases ht : r.tokens root with
  | error cause => rw [ht] at h; cases h
  | ok tokens => rw [ht] at h; cases h; exact ⟨tokens, rfl, rfl, rfl⟩

/-- The text or the error of a pass is that of the rendering without a table. -/
theorem source_renderFrom (r : Renderer) (seed : NameTable) (root : Node) :
    (r.renderFrom seed root).map Rendered.source = r.renderPlain (r.userSpelling seed) root := by
  rw [renderFrom_eq_spellAll]
  unfold renderPlain
  cases r.tokens root with
  | error cause => exact congrArg Except.error (r.constantError_eq_errorUnder seed cause)
  | ok tokens => dsimp only [Except.map]; rw [r.spellAll_fst]

/-- The table of a pass: the entries from before, and the identifiers that the pass spelled. -/
theorem get?_names_renderFrom {r : Renderer} {seed : NameTable} {root : Node} {out : Rendered}
    (h : r.renderFrom seed root = .ok out) (identifier : String) :
    out.names.get? identifier =
      (seed.get? identifier).or
        (if r.config.hash?.isSome ∧ identifier ∈ r.identifiersOf root then
          some (r.userSpelling seed identifier)
        else none) := by
  obtain ⟨tokens, ht, -, hnames⟩ := tokens_of_renderFrom h
  have hids : r.identifiersOf root = r.identifiers tokens := by unfold identifiersOf; rw [ht]
  rw [hnames, r.get?_spellAll, hids]
  cases hseed : seed.get? identifier with
  | none => rfl
  | some spelling =>
    split_ifs with hmem
    · rw [userSpelling_of_get? hmem.1 hseed]; rfl
    · rfl

/-- A pass from the table of an earlier pass of the same tree changes nothing. -/
theorem renderFrom_names_renderFrom {r : Renderer} {seed : NameTable} {root : Node}
    {out : Rendered} (h : r.renderFrom seed root = .ok out) :
    r.renderFrom out.names root = .ok out := by
  obtain ⟨tokens, ht, hsource, hnames⟩ := tokens_of_renderFrom h
  have hspelling : r.userSpelling out.names = r.userSpelling seed := by
    rw [hnames, r.userSpelling_spellAll]
  have htext : (r.spellAll tokens out.names).1 = out.source := by
    rw [r.spellAll_fst, hspelling, hsource, r.spellAll_fst]
  -- every identifier of the tokens is in the table already
  have htable : (r.spellAll tokens out.names).2 = out.names := by
    refine NameTable.ext_get? fun identifier => ?_
    rw [r.get?_spellAll, hspelling, hnames, r.get?_spellAll]
    split_ifs <;> rfl
  rw [renderFrom_of_tokens ht, htext, htable]

/-- **The table of a pass is transparent.** A pass gives the text or the error of a rendering
without a table; its table is the one it began with and the identifiers it spelled by their hash.
So tables that make the same of the identifiers of a tree give the same text, and a second pass from
the table of the first repeats it. -/
theorem renderFrom_transparent (r : Renderer) (seed : NameTable) (root : Node) :
    (r.renderFrom seed root).map Rendered.source = r.renderPlain (r.userSpelling seed) root ∧
    (∀ out, r.renderFrom seed root = .ok out → ∀ identifier,
      out.names.get? identifier =
        (seed.get? identifier).or
          (if r.config.hash?.isSome ∧ identifier ∈ r.identifiersOf root then
            some (r.userSpelling seed identifier)
          else none)) ∧
    (r.config.hash? = none → ∀ out, r.renderFrom seed root = .ok out → out.names = seed) ∧
    (∀ seed' : NameTable,
      (∀ identifier ∈ r.identifiersOf root,
        r.userSpelling seed identifier = r.userSpelling seed' identifier) →
      (r.renderFrom seed' root).map Rendered.source =
        (r.renderFrom seed root).map Rendered.source) ∧
    (∀ out, r.renderFrom seed root = .ok out → r.renderFrom out.names root = .ok out) := by
  refine ⟨r.source_renderFrom seed root, fun out h => get?_names_renderFrom h, ?_, ?_,
    fun out h => renderFrom_names_renderFrom h⟩
  · intro hhash out h
    refine NameTable.ext_get? fun identifier => ?_
    rw [get?_names_renderFrom h, hhash]
    simp
  · intro seed' hagree
    rw [source_renderFrom, source_renderFrom, r.renderPlain_congr hagree]

end Renderer

end ShaderText
