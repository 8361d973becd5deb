import ShaderText.Proofs.Unrollable
import ShaderText.Proofs.Unrolling

/-! # Runs: what a counting loop does, and what its copies do

The body of a loop is an arbitrary `Action` for each value of the index: it takes a state to a state
and ends in one of five ways (`Exit`). `LoopHeader.Runs` is the run of a `for` loop over such a
body, and `LoopHeader.ofNodes?` gives the parts of a loop a header. An unrolled loop is the same
relation at the header `LoopHeader.once`, with the sequence of the copies for its body: there
`break` and `continue` end the one iteration and with it all copies that follow.

* `runs_iff_iterate`: a loop that is recognised runs through its values, and has one result.
* `runs_once_iff`: so has the loop around the copies.
* **`unrolled_eq_source_iff`: the two results are the same exactly if no `continue` matters**, that
  is, if after the first iteration that does not end normally, when it ends by `continue`, the rest
  of the loop changes nothing. `continue` in the last iteration never matters;
  `unrolled_ne_source` is a loop of two iterations where the first one does. -/

namespace ShaderText

/-- How code ends. -/
inductive Exit where
  | normal
  | break
  | continue
  | return
  | discard
  deriving DecidableEq, Repr

/-- What code does to a state, and how it ends. -/
abbrev Action (σ : Type*) := σ → σ × Exit

variable {σ : Type*}

/-- One action after another, while they end normally. -/
def Action.sequence : List (Action σ) → Action σ
  | [], s => (s, .normal)
  | action :: rest, s =>
    match action s with
    | (s, .normal) => sequence rest s
    | result => result

/-! ### Headers and runs -/

/-- The header of a `for` loop over an integer index, which may lack a value of the test or of the
next index. -/
structure LoopHeader where
  start : Int
  test : Int → Option Bool
  next : Int → Option Int

/-- The run of a loop from an index and a state. Its body never ends it by `break` or `continue`. -/
inductive LoopHeader.Runs (h : LoopHeader) (body : Int → Action σ) : Int → σ → σ × Exit → Prop
  | done {i : Int} {s : σ} : h.test i = some false → Runs h body i s (s, .normal)
  | again {i j : Int} {s s' : σ} {e : Exit} {result : σ × Exit} : h.test i = some true →
      body i s = (s', e) → e = .normal ∨ e = .continue → h.next i = some j →
      Runs h body j s' result → Runs h body i s result
  | broken {i : Int} {s s' : σ} : h.test i = some true → body i s = (s', .break) →
      Runs h body i s (s', .normal)
  | left {i : Int} {s s' : σ} {e : Exit} : h.test i = some true → body i s = (s', e) →
      e = .return ∨ e = .discard → Runs h body i s (s', e)

/-- The loop around copies: `for (int i = 0; i < 1; ++i)`. -/
def LoopHeader.once : LoopHeader where
  start := 0
  test i := some (i < 1)
  next i := some (i + 1)

/-! ### Headers read off their nodes -/

/-- The value of an operand, where the index has the value `i`. -/
def Node.operandValue? (index : SymbolId) (i : Int) : Node → Option Int
  | symbol v => if v.id = index then some i else none
  | node => node.asInt?

/-- The value of a comparison of integers. -/
def BinaryOp.compare? (a b : Int) : BinaryOp → Option Bool
  | less => some (a < b)
  | lessEqual => some (a ≤ b)
  | greater => some (b < a)
  | greaterEqual => some (b ≤ a)
  | equal => some (a = b)
  | notEqual => some (a ≠ b)
  | _ => none

/-- The value of a condition, where the index has the value `i`. -/
def Node.test? (index : SymbolId) (i : Int) : Node → Option Bool
  | binary op left right _ _ => do
    op.compare? (← left.operandValue? index i) (← right.operandValue? index i)
  | _ => none

/-- The value of the index after a step, where it had the value `i`. -/
def Node.next? (index : SymbolId) (i : Int) : Node → Option Int
  | unary op operand _ _ =>
    if operand.refersTo index then
      match op with
      | .preIncrement | .postIncrement => some (i + 1)
      | .preDecrement | .postDecrement => some (i - 1)
      | _ => none
    else none
  | binary op left right _ _ =>
    if left.refersTo index then
      match op with
      | .addAssign => (right.operandValue? index i).map (i + ·)
      | .subAssign => (right.operandValue? index i).map (i - ·)
      | _ => none
    else none
  | _ => none

/-- The header that the parts of a loop make up. -/
def LoopParts.header? (p : LoopParts) : Option LoopHeader :=
  p.first.asInt?.map fun start =>
    { start, test := fun i => p.condition.test? p.var.id i,
      next := fun i => p.step.next? p.var.id i }

/-- The header of a loop that has all its parts. -/
def LoopHeader.ofNodes? (init condition step : Option Node) : Option LoopHeader :=
  (LoopParts.ofNodes? init condition step).bind LoopParts.header?

namespace CountingLoop

/-! ### The header of a loop that is recognised -/

theorem compare?_of_comparison? {op : BinaryOp} {c : Comparison} (h : op.comparison? = some c)
    (a b : Int) : ∃ holds, op.compare? a b = some holds ∧ (holds = true ↔ c.holds a b) := by
  cases op <;> cases h <;>
    exact ⟨_, rfl, by simp only [decide_eq_true_eq, Comparison.holds, ne_eq]⟩

/-- An operand that is a constant has the same value whatever the index is. -/
theorem operandValue?_of_asInt? {n : Node} {value : Int} (h : n.asInt? = some value)
    (index : SymbolId) (i : Int) : n.operandValue? index i = some value := by
  cases n with
  | symbol v => cases h
  | _ => exact h

/-- A condition that compares the index with a constant. -/
theorem test?_of_compares {n : Node} {id : SymbolId} {c : Comparison} {bound : Int}
    (h : n.Compares id c (Node.HasValue bound)) (i : Int) :
    ∃ holds, n.test? id i = some holds ∧ (holds = true ↔ c.holds i bound) := by
  cases n with
  | binary op left right type clamped =>
    obtain ⟨hleft, hop, hbound⟩ := h
    obtain ⟨v, rfl, hv⟩ := eq_symbol_of_refersTo hleft
    obtain ⟨holds, hcompare, hiff⟩ := compare?_of_comparison? hop i bound
    refine ⟨holds, ?_, hiff⟩
    have hindex : (Node.symbol v).operandValue? id i = some i := if_pos hv
    simp [Node.test?, hindex, operandValue?_of_asInt? hbound, hcompare]
  | _ => exact h.elim

/-- A step that adds a constant to the index. -/
theorem next?_of_adds {n : Node} {id : SymbolId} {amount : Int} (h : n.Adds id amount) (i : Int) :
    n.next? id i = some (i + amount) := by
  cases n with
  | unary op operand type emulated =>
    obtain ⟨hrefers, ⟨rfl | rfl, rfl⟩ | ⟨rfl | rfl, rfl⟩⟩ := h <;>
      simp [Node.next?, hrefers, Int.sub_eq_add_neg]
  | binary op left right type clamped =>
    obtain ⟨hrefers, value, hvalue, ⟨rfl, rfl⟩ | ⟨rfl, rfl⟩⟩ := h <;>
      simp [Node.next?, hrefers, operandValue?_of_asInt? hvalue, Int.sub_eq_add_neg]
  | _ => exact h.elim

/-- **A loop that is recognised has a header**: its first value, a test that holds of its values and
fails of the next one, and a step. -/
theorem ofNodes?_of_ofLoop {kind : LoopKind} {init condition step : Option Node}
    {l : CountingLoop} (h : ofLoop kind init condition step = .ok l) :
    ∃ header, LoopHeader.ofNodes? init condition step = some header ∧ header.start = l.start ∧
      (∀ k < l.iterations, header.test (l.valueAt k) = some true) ∧
      header.test (l.valueAt l.iterations) = some false ∧
      ∀ k, header.next (l.valueAt k) = some (l.valueAt (k + 1)) := by
  obtain ⟨p, comparison, bound, hparts, hcounts, hbefore, hafter⟩ := parts_of_ofLoop h
  obtain ⟨hvar, -, hfirst, hcompares, hadds⟩ := hcounts
  refine ⟨{ start := l.start, test := fun i => p.condition.test? l.var.id i,
            next := fun i => p.step.next? l.var.id i }, ?_, rfl, fun k hk => ?_, ?_, fun k => ?_⟩
  · rw [LoopHeader.ofNodes?, hparts, Option.bind_some, LoopParts.header?, hvar, hfirst]
    rfl
  · obtain ⟨holds, htest, hiff⟩ := test?_of_compares hcompares (l.valueAt k)
    exact htest.trans (congrArg some (hiff.mpr (hbefore k hk).1))
  · obtain ⟨holds, htest, hiff⟩ := test?_of_compares hcompares (l.valueAt l.iterations)
    refine htest.trans (congrArg some ?_)
    rw [← Bool.not_eq_true, hiff]
    exact hafter
  · exact (next?_of_adds hadds (l.valueAt k)).trans (congrArg some (l.valueAt_succ k).symm)

end CountingLoop

/-! ### Results -/

/-- The result of the iterations for a list of values of the index. -/
def iterate (body : Int → Action σ) : List Int → Action σ
  | [], s => (s, .normal)
  | i :: rest, s =>
    match body i s with
    | (s, .normal) | (s, .continue) => iterate body rest s
    | (s, .break) => (s, .normal)
    | result => result

/-- How a loop ends when its last iteration ends in some way. -/
def absorb : σ × Exit → σ × Exit
  | (s, .break) | (s, .continue) => (s, .normal)
  | result => result

namespace LoopHeader

/-- **A loop runs through the values that its test holds of**, and has one result. -/
theorem runs_iff_iterate {h : LoopHeader} (value : Nat → Int) {n : Nat}
    (htest : ∀ k < n, h.test (value k) = some true) (hdone : h.test (value n) = some false)
    (hnext : ∀ k, h.next (value k) = some (value (k + 1))) (body : Int → Action σ) (m k : Nat)
    (hk : k + m = n) (s : σ) (result : σ × Exit) :
    h.Runs body (value k) s result ↔
      result = iterate body ((List.range' k m).map value) s := by
  induction m generalizing k s with
  | zero =>
    obtain rfl : k = n := by omega
    refine ⟨fun hruns => ?_, fun heq => heq ▸ .done hdone⟩
    cases hruns with
    | done => rfl
    | again ht => rw [hdone] at ht; cases ht
    | broken ht => rw [hdone] at ht; cases ht
    | left ht => rw [hdone] at ht; cases ht
  | succ m ih =>
    have ht := htest k (by omega)
    have hrest := ih (k + 1) (by omega)
    rw [List.range'_succ, List.map_cons, iterate]
    obtain ⟨s', e, hbody⟩ : ∃ s' e, body (value k) s = (s', e) := ⟨_, _, rfl⟩
    rw [hbody]
    constructor
    · intro hruns
      cases hruns with
      | done hf => rw [ht] at hf; cases hf
      | again _ hb he hj hruns =>
        rw [hbody] at hb
        cases hb
        rw [hnext k] at hj
        cases hj
        rcases he with rfl | rfl <;> exact (hrest _).mp hruns
      | broken _ hb => rw [hbody] at hb; cases hb; rfl
      | left _ hb he =>
        rw [hbody] at hb
        cases hb
        rcases he with rfl | rfl <;> rfl
    · intro heq
      cases e with
      | normal => exact .again ht hbody (.inl rfl) (hnext k) ((hrest s').mpr heq)
      | «continue» => exact .again ht hbody (.inr rfl) (hnext k) ((hrest s').mpr heq)
      | «break» => subst heq; exact .broken ht hbody
      | «return» => subst heq; exact .left ht hbody (.inl rfl)
      | discard => subst heq; exact .left ht hbody (.inr rfl)

/-- **The loop that runs once** has the result of its body, with jumps to the loop absorbed. -/
theorem runs_once_iff (body : Action σ) (s : σ) (result : σ × Exit) :
    once.Runs (fun _ => body) once.start s result ↔ result = absorb (body s) := by
  have hiterate := runs_iff_iterate (h := once) (fun k => (k : Int)) (n := 1)
    (fun k hk => by simp [once]; omega) (by simp [once]) (fun k => by simp [once])
    (fun _ => body) 1 0 rfl s result
  refine hiterate.trans ?_
  obtain ⟨s', e, hbody⟩ : ∃ s' e, body s = (s', e) := ⟨_, _, rfl⟩
  simp only [List.range'_one, List.map_cons, List.map_nil, iterate, hbody]
  cases e <;> rfl

end LoopHeader

/-! ### Copies and iterations -/

/-- Copies and iterations for the same values have the same result exactly if no `continue` matters:
where copies that end normally are followed by one that ends by `continue`, the iterations for the
rest of the values change nothing. -/
theorem absorb_sequence_eq_iterate_iff (body : Int → Action σ) (values : List Int) (s : σ) :
    absorb (Action.sequence (values.map body) s) = iterate body values s ↔
      ∀ k (hk : k < values.length) s₁ s₂,
        Action.sequence ((values.take k).map body) s = (s₁, .normal) →
        body values[k] s₁ = (s₂, .continue) →
        iterate body (values.drop (k + 1)) s₂ = (s₂, .normal) := by
  induction values generalizing s with
  | nil => exact iff_of_true rfl fun k hk => absurd hk (Nat.not_lt_zero k)
  | cons i values ih =>
    obtain ⟨s', e, hbody⟩ : ∃ s' e, body i s = (s', e) := ⟨_, _, rfl⟩
    rw [List.map_cons, Action.sequence, iterate, hbody]
    -- copies after the first one run only if the first one ends normally
    have hlater : ∀ k s₁,
        Action.sequence (((i :: values).take (k + 1)).map body) s = (s₁, .normal) ↔
          e = .normal ∧ Action.sequence ((values.take k).map body) s' = (s₁, .normal) := by
      intro k s₁
      rw [List.take_succ_cons, List.map_cons, Action.sequence, hbody]
      cases e <;> simp
    cases e with
    | normal =>
      refine (ih s').trans ⟨fun hall k hk s₁ s₂ hseq hj => ?_,
        fun hall k hk s₁ s₂ hseq hj => ?_⟩
      · cases k with
        | zero => cases hseq; rw [List.getElem_cons_zero, hbody] at hj; cases hj
        | succ k => exact hall k (Nat.lt_of_succ_lt_succ hk) s₁ s₂ ((hlater k s₁).mp hseq).2 hj
      · exact hall (k + 1) (Nat.succ_lt_succ hk) s₁ s₂ ((hlater k s₁).mpr ⟨rfl, hseq⟩) hj
    | «continue» =>
      refine ⟨fun heq k hk s₁ s₂ hseq hj => ?_, fun hall => ?_⟩
      · cases k with
        | zero => cases hseq; rw [List.getElem_cons_zero, hbody] at hj; cases hj; exact heq.symm
        | succ k => cases ((hlater k s₁).mp hseq).1
      · exact (hall 0 (Nat.zero_lt_succ _) s s' rfl hbody).symm
    | _ =>
      refine iff_of_true rfl fun k hk s₁ s₂ hseq hj => ?_
      cases k with
      | zero => cases hseq; rw [List.getElem_cons_zero, hbody] at hj; cases hj
      | succ k => cases ((hlater k s₁).mp hseq).1

namespace CountingLoop

variable {kind : LoopKind} {init condition step : Option Node} {l : CountingLoop}

/-- The values that are left after the first ones. -/
theorem drop_values (l : CountingLoop) (k : Nat) :
    l.values.drop k = (List.range' k (l.iterations - k)).map l.valueAt := by
  rw [values, List.range_eq_range', ← List.map_drop, List.drop_range']
  simp

/-- A loop that is recognised runs through what is left of its values. -/
theorem runs_iff_iterate_drop (header : LoopHeader)
    (htest : ∀ k < l.iterations, header.test (l.valueAt k) = some true)
    (hdone : header.test (l.valueAt l.iterations) = some false)
    (hnext : ∀ k, header.next (l.valueAt k) = some (l.valueAt (k + 1))) (body : Int → Action σ)
    {k : Nat} (hk : k ≤ l.iterations) (s : σ) (result : σ × Exit) :
    header.Runs body (l.valueAt k) s result ↔ result = iterate body (l.values.drop k) s := by
  rw [drop_values]
  exact LoopHeader.runs_iff_iterate l.valueAt htest hdone hnext body _ k (by omega) s result

/-- **When the copies of a loop do what the loop does.** A loop that is recognised is written as the
loop that runs once, around a copy of its body for each of its values. It has a header of its own.
Run with any body from any state, both have one result. The two results are the same exactly if no
`continue` matters: if the copies before copy `k` end normally and copy `k` ends by `continue`, then
the source loop changes nothing from its next index on. -/
theorem unrolled_eq_source_iff (h : ofLoop kind init condition step = .ok l)
    (body : Int → Action σ) (s : σ) :
    (∀ (nodes : Option (List Node)) (r : Renderer) (c : Context),
      (Node.loop kind init condition step nodes true).write r c =
        (l.values.foldlM (fun c value => l.writeCopy r nodes value c)
          (l.writeHeader r c.enterScope)).map fun c => (c.write "\x7d\n").leaveScope) ∧
    ∃ header, LoopHeader.ofNodes? init condition step = some header ∧
      ∃ source written,
        (∀ result, header.Runs body header.start s result ↔ result = source) ∧
        (∀ result, LoopHeader.once.Runs (fun _ => Action.sequence (l.values.map body))
          LoopHeader.once.start s result ↔ result = written) ∧
        (written = source ↔ ∀ k < l.iterations, ∀ s₁ s₂,
          Action.sequence ((l.values.take k).map body) s = (s₁, .normal) →
          body (l.valueAt k) s₁ = (s₂, .continue) →
          header.Runs body (l.valueAt (k + 1)) s₂ (s₂, .normal)) := by
  obtain ⟨header, hheader, hstart, htest, hdone, hnext⟩ := ofNodes?_of_ofLoop h
  refine ⟨fun nodes r c => Node.write_unrolled h nodes r c, header, hheader,
    iterate body l.values s, absorb (Action.sequence (l.values.map body) s), fun result => ?_,
    fun result => LoopHeader.runs_once_iff _ s result, ?_⟩
  · have hzero : l.valueAt 0 = header.start := by rw [hstart]; simp [valueAt]
    rw [← hzero]
    exact runs_iff_iterate_drop header htest hdone hnext body (Nat.zero_le _) s result
  · have hlength : l.values.length = l.iterations := by simp [values]
    have hvalue : ∀ k (hk : k < l.values.length), l.values[k] = l.valueAt k := by simp [values]
    refine (absorb_sequence_eq_iterate_iff body l.values s).trans
      ⟨fun hall k hk s₁ s₂ hseq hj => ?_, fun hall k hk s₁ s₂ hseq hj => ?_⟩
    · have hk' : k < l.values.length := by rw [hlength]; exact hk
      refine (runs_iff_iterate_drop header htest hdone hnext body hk s₂ _).mpr ?_
      exact (hall k hk' s₁ s₂ hseq (by rw [hvalue]; exact hj)).symm
    · have hk' : k < l.iterations := by rw [← hlength]; exact hk
      refine ((runs_iff_iterate_drop header htest hdone hnext body hk' s₂ _).mp ?_).symm
      exact hall k hk' s₁ s₂ hseq (by rw [← hvalue k hk]; exact hj)

/-- Counts the iterations, and ends each by `continue`. -/
def countAndContinue : Int → Action Nat := fun _ s => (s + 1, .continue)

/-- The loop over `0` and `1` with this body has two iterations, and its copies stop after one. -/
theorem unrolled_ne_source :
    ∃ (v : Variable) (header : LoopHeader),
      LoopHeader.ofNodes? (some (v.startingAt 0)) (some (v.below 2)) (some v.increment) =
        some header ∧
      header.Runs countAndContinue header.start 0 (2, .normal) ∧
      LoopHeader.once.Runs (fun _ => Action.sequence ([0, 1].map countAndContinue))
        LoopHeader.once.start 0 (1, .normal) ∧
      ∀ result, header.Runs countAndContinue header.start 0 result →
        ¬ LoopHeader.once.Runs (fun _ => Action.sequence ([0, 1].map countAndContinue))
          LoopHeader.once.start 0 result := by
  let v : Variable := { id := ⟨0⟩, name := { text := "i" }, type := .scalar .int }
  obtain ⟨-, header, hheader, source, written, hsource, hwritten, -⟩ :=
    unrolled_eq_source_iff (ofLoop_below (v := v) rfl rfl rfl 0 2 (by decide)) countAndContinue 0
  have hruns : header.Runs countAndContinue header.start 0 (2, .normal) := by
    cases hheader
    exact .again rfl rfl (.inr rfl) rfl (.again rfl rfl (.inr rfl) rfl (.done rfl))
  have hcopies : LoopHeader.once.Runs (fun _ => Action.sequence ([0, 1].map countAndContinue))
      LoopHeader.once.start 0 (1, .normal) :=
    .again rfl rfl (.inr rfl) rfl (.done rfl)
  refine ⟨v, header, hheader, hruns, hcopies, fun result hresult hwrote => ?_⟩
  have hsame : ((2, .normal) : Nat × Exit) = (1, .normal) :=
    calc (2, .normal) = source := (hsource _).mp hruns
      _ = result := ((hsource _).mp hresult).symm
      _ = written := (hwritten _).mp hwrote
      _ = (1, .normal) := ((hwritten _).mp hcopies).symm
  exact absurd hsame (by decide)

end CountingLoop

end ShaderText
