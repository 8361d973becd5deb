import ShaderText.Proofs.Memo

/-! # The passes of a program in any order

The passes of a program share one table, which each of them reads and extends. Still the order of
the passes is not to be seen: no pass, whether it succeeds or fails, changes what the table makes of
an identifier (`userSpelling_namesAfter`), and all that a pass adds to the table is settled by its
tree (`get?_namesAfter`). By induction on the passes the same holds of all of them together
(`map_source_renderAll`, `get?_renderAll`). **So each tree is rendered as if it were the only one,
and the last table is the same for every order (`renderAll_order_free`).** -/

namespace ShaderText.Renderer

/-! ### One pass -/

/-- The identifiers that a pass adds to the table; a pass that fails adds none. -/
def identifiersAdded (r : Renderer) (root : Node) : List String :=
  match r.tokens root with
  | .error _ => []
  | .ok tokens => r.identifiers tokens

/-- **No pass changes what the table makes of an identifier.** -/
theorem userSpelling_namesAfter (r : Renderer) (names : NameTable) (root : Node) :
    r.userSpelling (namesAfter names (r.renderFrom names root)) = r.userSpelling names := by
  rw [renderFrom_eq_spellAll]
  rcases r.tokens root with cause | tokens
  · rfl
  · exact r.userSpelling_spellAll tokens names

theorem get?_namesAfter (r : Renderer) (names : NameTable) (root : Node) (identifier : String) :
    (namesAfter names (r.renderFrom names root)).get? identifier =
      if r.config.hash?.isSome ∧ identifier ∈ r.identifiersAdded root then
        some (r.userSpelling names identifier)
      else names.get? identifier := by
  rw [renderFrom_eq_spellAll]
  unfold identifiersAdded
  rcases r.tokens root with cause | tokens
  · simp [namesAfter]
  · exact r.get?_spellAll tokens names identifier

/-! ### All passes -/

theorem renderAll_cons (r : Renderer) (names : NameTable) (root : Node) (rest : List Node) :
    r.renderAll names (root :: rest) =
      (r.renderFrom names root ::
          (r.renderAll (namesAfter names (r.renderFrom names root)) rest).1,
        (r.renderAll (namesAfter names (r.renderFrom names root)) rest).2) := rfl

/-- Each tree is rendered as if the passes before it had not been. -/
theorem map_source_renderAll (r : Renderer) (names : NameTable) (roots : List Node) :
    (r.renderAll names roots).1.map (·.map Rendered.source) =
      roots.map fun root => (r.renderFrom names root).map Rendered.source := by
  induction roots generalizing names with
  | nil => rfl
  | cons root rest ih =>
    have halone : ∀ other : Node,
        (r.renderFrom (namesAfter names (r.renderFrom names root)) other).map Rendered.source =
          (r.renderFrom names other).map Rendered.source := fun other => by
      rw [source_renderFrom, source_renderFrom, userSpelling_namesAfter]
    rw [renderAll_cons, List.map_cons, List.map_cons, ih]
    simp only [halone]

/-- The passes together do not change it either. -/
theorem userSpelling_renderAll (r : Renderer) (names : NameTable) (roots : List Node) :
    r.userSpelling (r.renderAll names roots).2 = r.userSpelling names := by
  induction roots generalizing names with
  | nil => rfl
  | cons root rest ih => rw [renderAll_cons, ih, userSpelling_namesAfter]

/-- The last table: the entries from before, and the identifiers that the passes added, each with
the spelling it had from the start. -/
theorem get?_renderAll (r : Renderer) (names : NameTable) (roots : List Node)
    (identifier : String) :
    (r.renderAll names roots).2.get? identifier =
      if r.config.hash?.isSome ∧ ∃ root ∈ roots, identifier ∈ r.identifiersAdded root then
        some (r.userSpelling names identifier)
      else names.get? identifier := by
  induction roots generalizing names with
  | nil => simp [renderAll]
  | cons root rest ih =>
    rw [renderAll_cons, ih, userSpelling_namesAfter, get?_namesAfter]
    by_cases hhash : r.config.hash?.isSome
    · by_cases hrest : ∃ other ∈ rest, identifier ∈ r.identifiersAdded other
      · have hall : ∃ other ∈ root :: rest, identifier ∈ r.identifiersAdded other :=
          hrest.imp fun _ h => ⟨List.mem_cons_of_mem root h.1, h.2⟩
        rw [if_pos ⟨hhash, hrest⟩, if_pos ⟨hhash, hall⟩]
      · rw [if_neg (hrest ·.2)]
        refine if_congr ?_ rfl rfl
        simp [hhash, hrest]
    · simp [hhash]

/-- **The passes of a program may be made in any order.** Each tree gets the text or the error it
gets when it is rendered alone, whatever is rendered before it; the last table is that of every
other order of the passes; and it has the entries of the first one as they were. -/
theorem renderAll_order_free (r : Renderer) (names : NameTable) (roots : List Node) :
    (r.renderAll names roots).1.map (·.map Rendered.source) =
        roots.map (fun root => (r.renderFrom names root).map Rendered.source) ∧
      (∀ roots', roots.Perm roots' →
        (r.renderAll names roots').2 = (r.renderAll names roots).2) ∧
      ∀ identifier spelling, names.get? identifier = some spelling →
        (r.renderAll names roots).2.get? identifier = some spelling := by
  refine ⟨r.map_source_renderAll names roots, ?_, ?_⟩
  · intro roots' hperm
    refine NameTable.ext_get? fun identifier => ?_
    have hadded : (∃ root ∈ roots', identifier ∈ r.identifiersAdded root) ↔
        ∃ root ∈ roots, identifier ∈ r.identifiersAdded root := by
      simp only [hperm.mem_iff]
    rw [get?_renderAll, get?_renderAll]
    exact if_congr (and_congr_right fun _ => hadded) rfl rfl
  · intro identifier spelling hentry
    rw [get?_renderAll]
    split_ifs with hadded
    · rw [userSpelling_of_get? hadded.1 hentry]
    · exact hentry

end ShaderText.Renderer
