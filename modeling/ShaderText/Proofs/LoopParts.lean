import ShaderText.Proofs.TripCount

/-! # Loop parts: one reading of the header of a loop

A loop that counts has a header of three nodes. `LoopParts.ofNodes?` takes them apart: into the
variable that the header declares, and the nodes of its first value, of the condition and of the
step. What is said of a header elsewhere is said of its parts, so that its shape is described here
and nowhere else.

`LoopParts.Counts` says that the parts are those of a counting loop: the variable is a scalar `int`,
and the condition compares it with a limit. What its first value, the limit and the step have to be
like is a parameter, and so is what follows from them (`IsCountingFor.mono`).

**The checks of `CountingLoop.ofLoop` read the headers of counting loops between constants, and no
others (`CountingLoop.reads_iff`).** -/

namespace ShaderText

/-! ### The parts of a header -/

/-- The variable that a loop header declares, and the nodes in the header. -/
structure LoopParts where
  var : Variable
  first : Node
  condition : Node
  step : Node

/-- The parts of a header that declares one variable and lacks no part. -/
def LoopParts.ofNodes? : Option Node → Option Node → Option Node → Option LoopParts
  | some (.declaration [{ var, initializer := some first }]), some condition, some step =>
    some { var, first, condition, step }
  | _, _, _ => none

theorem LoopParts.ofNodes?_eq_some_iff {init condition step : Option Node} {p : LoopParts} :
    ofNodes? init condition step = some p ↔
      init = some (.declaration [{ var := p.var, initializer := some p.first }]) ∧
        condition = some p.condition ∧ step = some p.step := by
  constructor
  · intro h
    unfold ofNodes? at h
    split at h
    · cases h
      exact ⟨rfl, rfl, rfl⟩
    · cases h
  · rintro ⟨rfl, rfl, rfl⟩
    rfl

/-! ### The nodes of a header -/

/-- An integer constant. -/
abbrev Node.HasValue (value : Int) (n : Node) : Prop := n.asInt? = some value

/-- A comparison of a variable with a limit. -/
def Node.Compares (id : SymbolId) (comparison : Comparison) (limit : Node → Prop) : Node → Prop
  | binary op tested bound _ _ =>
    tested.refersTo id = true ∧ op.comparison? = some comparison ∧ limit bound
  | _ => False

/-- A step that adds `amount` to a variable. -/
def Node.Adds (id : SymbolId) (amount : Int) : Node → Prop
  | unary op operand _ _ =>
    operand.refersTo id = true ∧
      ((op = .postIncrement ∨ op = .preIncrement) ∧ amount = 1 ∨
        (op = .postDecrement ∨ op = .preDecrement) ∧ amount = -1)
  | binary op left right _ _ =>
    left.refersTo id = true ∧ ∃ n, right.asInt? = some n ∧
      (op = .addAssign ∧ amount = n ∨ op = .subAssign ∧ amount = -n)
  | _ => False

theorem Node.Compares.mono {n : Node} {id : SymbolId} {comparison : Comparison}
    {limit limit' : Node → Prop} (h : n.Compares id comparison limit)
    (hlimit : ∀ m, limit m → limit' m) : n.Compares id comparison limit' := by
  cases n with
  | binary op tested bound type clamped => exact ⟨h.1, h.2.1, hlimit bound h.2.2⟩
  | _ => exact h.elim

theorem Node.Compares.exists_limit {n : Node} {id : SymbolId} {comparison : Comparison}
    {limit : Node → Prop} (h : n.Compares id comparison limit) :
    ∃ op tested bound type clamped, n = .binary op tested bound type clamped ∧ limit bound := by
  cases n with
  | binary op tested bound type clamped => exact ⟨op, tested, bound, type, clamped, rfl, h.2.2⟩
  | _ => exact h.elim

/-! ### Counting loops -/

/-- The parts of a loop that counts with a variable, from a first value to a limit. -/
structure LoopParts.Counts (p : LoopParts) (var : Variable) (comparison : Comparison)
    (first limit change : Node → Prop) : Prop where
  declares : p.var = var
  isScalarInt : var.type.basic = .int ∧ var.type.cols = 1 ∧ var.type.arraySize = none
  starts : first p.first
  compares : p.condition.Compares var.id comparison limit
  steps : change p.step

/-- A `for` loop whose parts are those of a counting loop. -/
structure IsCountingFor (kind : LoopKind) (init condition step : Option Node) (var : Variable)
    (comparison : Comparison) (first limit change : Node → Prop) : Prop where
  isFor : kind = .forLoop
  reads : ∃ p, LoopParts.ofNodes? init condition step = some p ∧
    p.Counts var comparison first limit change

theorem IsCountingFor.mono {kind : LoopKind} {init condition step : Option Node} {var : Variable}
    {comparison : Comparison} {first first' limit limit' change change' : Node → Prop}
    (h : IsCountingFor kind init condition step var comparison first limit change)
    (hfirst : ∀ n, first n → first' n) (hlimit : ∀ n, limit n → limit' n)
    (hchange : ∀ n, change n → change' n) :
    IsCountingFor kind init condition step var comparison first' limit' change' := by
  obtain ⟨hkind, p, hparts, hcounts⟩ := h
  exact ⟨hkind, p, hparts,
    { declares := hcounts.declares
      isScalarInt := hcounts.isScalarInt
      starts := hfirst _ hcounts.starts
      compares := hcounts.compares.mono hlimit
      steps := hchange _ hcounts.steps }⟩

/-! ### The checks of a loop -/

namespace CountingLoop

variable {kind : LoopKind} {init condition step : Option Node} {var : Variable} {id : SymbolId}
  {start bound amount : Int} {comparison : Comparison}

theorem declared_eq_ok_iff :
    declared kind init = .ok (var, start) ↔
      kind = .forLoop ∧
        (∃ first, init = some (.declaration [{ var, initializer := some first }]) ∧
          first.HasValue start) ∧
        var.type.basic = .int ∧ var.type.cols = 1 ∧ var.type.arraySize = none := by
  constructor
  · intro h
    unfold declared at h
    split_ifs at h with hkind
    split at h
    · rename_i v initializer
      split_ifs at h with hscalar
      split at h
      · rename_i first hfirst
        cases h
        obtain ⟨value, rfl, hvalue⟩ := Option.bind_eq_some_iff.mp hfirst
        simp only [ShaderType.isArray, ne_eq, not_or, Decidable.not_not,
          Option.not_isSome_iff_eq_none] at hscalar
        exact ⟨Decidable.not_not.mp hkind, ⟨value, rfl, hvalue⟩, hscalar⟩
      · cases h
    · cases h
    · cases h
  · rintro ⟨rfl, ⟨first, rfl, hfirst⟩, hbasic, hcols, harray⟩
    simp [declared, hbasic, hcols, ShaderType.isArray, harray, hfirst]

theorem tested_eq_ok_iff :
    tested id condition = .ok (comparison, bound) ↔
      ∃ node, condition = some node ∧ node.Compares id comparison (Node.HasValue bound) := by
  constructor
  · intro h
    unfold tested at h
    split at h
    · split at h
      · cases h
      · rename_i hop
        split_ifs at h with hleft
        split at h
        · rename_i hvalue
          cases h
          exact ⟨_, rfl, by simpa using hleft, hop, hvalue⟩
        · cases h
    · cases h
  · rintro ⟨node, rfl, hcompares⟩
    cases node with
    | binary op left right type clamped =>
      obtain ⟨hleft, hop, hbound⟩ := hcompares
      have hbound : right.asInt? = some bound := hbound
      simp [tested, hop, hleft, hbound]
    | _ => exact hcompares.elim

theorem stepped_eq_ok_iff :
    stepped id step = .ok amount ↔ ∃ node, step = some node ∧ node.Adds id amount := by
  constructor
  · intro h
    unfold stepped at h
    split at h
    · rename_i op operand type emulated
      split_ifs at h with hrefers
      refine ⟨_, rfl, by simpa using hrefers, ?_⟩
      split at h <;> cases h <;> simp
    · rename_i op left right type clamped
      split_ifs at h with hrefers
      refine ⟨_, rfl, by simpa using hrefers, ?_⟩
      split at h <;> cases h <;> exact ⟨_, ‹_›, by simp⟩
    · cases h
  · rintro ⟨node, rfl, hadds⟩
    cases node with
    | unary op operand type emulated =>
      obtain ⟨hrefers, ⟨rfl | rfl, rfl⟩ | ⟨rfl | rfl, rfl⟩⟩ := hadds <;> simp [stepped, hrefers]
    | binary op left right type clamped =>
      obtain ⟨hrefers, n, hn, ⟨rfl, rfl⟩ | ⟨rfl, rfl⟩⟩ := hadds <;> simp [stepped, hrefers, hn]
    | _ => exact hadds.elim

/-- **The checks of a loop read the header of a counting loop between constants.** -/
theorem reads_iff :
    (declared kind init = .ok (var, start) ∧ tested var.id condition = .ok (comparison, bound) ∧
        stepped var.id step = .ok amount) ↔
      IsCountingFor kind init condition step var comparison (Node.HasValue start)
        (Node.HasValue bound) (Node.Adds var.id amount) := by
  rw [declared_eq_ok_iff, tested_eq_ok_iff, stepped_eq_ok_iff]
  constructor
  · rintro ⟨⟨hkind, ⟨first, rfl, hfirst⟩, hscalar⟩, ⟨condition, rfl, hcompares⟩, step, rfl, hadds⟩
    exact ⟨hkind, { var, first, condition, step }, rfl, rfl, hscalar, hfirst, hcompares, hadds⟩
  · rintro ⟨hkind, p, hparts, rfl, hscalar, hfirst, hcompares, hadds⟩
    obtain ⟨rfl, rfl, rfl⟩ := LoopParts.ofNodes?_eq_some_iff.mp hparts
    exact ⟨⟨hkind, ⟨_, rfl, hfirst⟩, hscalar⟩, ⟨_, rfl, hcompares⟩, _, rfl, hadds⟩

end CountingLoop

end ShaderText
