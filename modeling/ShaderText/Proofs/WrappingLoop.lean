import ShaderText.Proofs.CountingHeader

/-! # Counting in words of 32 bits

The integers of a shader are words of 32 bits, and arithmetic on them wraps. A `WordHeader` is the
header of a counting loop with constants of the type `int`, and `WordHeader.Counts` is the run of
such a loop: the words that its variable goes through until the comparison fails, if it ever does.

A loop is unrolled by a count over the integers (`CountingHeader`). Before the last step the two
agree, since the values lie between the first value and the bound. The last step is the one that can
wrap, and a wrapped value is on the near side of the bound again (`WordHeader.holds_of_wraps`). So
**the words are the values of the copies exactly if the last step stays within 32 bits, or the
comparison is `==`** (`WordHeader.counts_values_iff`); otherwise the loop goes on after them, and it
may never stop (`WordHeader.not_counts_values_toLargest`). -/

namespace ShaderText

/-- Whether a comparison of two words holds. -/
def Comparison.holdsOfWords : Comparison → Int32 → Int32 → Bool
  | less, a, b => a < b
  | lessEqual, a, b => a ≤ b
  | greater, a, b => b < a
  | greaterEqual, a, b => b ≤ a
  | equal, a, b => a = b
  | notEqual, a, b => a ≠ b

theorem Comparison.holdsOfWords_iff {c : Comparison} {a b : Int32} :
    c.holdsOfWords a b = true ↔ c.holds a.toInt b.toInt := by
  cases c <;>
    simp only [holdsOfWords, holds, decide_eq_true_eq, Int32.lt_iff_toInt_lt,
      Int32.le_iff_toInt_le, ne_eq, Int32.toInt_inj]

/-- What a loop does to its variable after an iteration. -/
inductive WordChange where
  | add (amount : Int32)
  | subtract (amount : Int32)
  deriving DecidableEq, Repr

namespace WordChange

def apply : WordChange → Int32 → Int32
  | add amount, i => i + amount
  | subtract amount, i => i - amount

/-- What is added to the variable as an integer. -/
def amount : WordChange → Int
  | add amount => amount.toInt
  | subtract amount => -amount.toInt

theorem natAbs_amount_le (change : WordChange) : change.amount.natAbs ≤ 2 ^ 31 := by
  cases change with
  | add amount | subtract amount =>
    have hlow := amount.le_toInt
    have hhigh := amount.toInt_lt
    simp only [WordChange.amount]
    omega

/-- A change adds its amount and wraps. -/
theorem apply_ofInt (change : WordChange) (x : Int) :
    change.apply (Int32.ofInt x) = Int32.ofInt (x + change.amount) := by
  cases change with
  | add amount => rw [apply, WordChange.amount, Int32.ofInt_add, Int32.ofInt_toInt]
  | subtract amount =>
    rw [apply, WordChange.amount, ← Int.sub_eq_add_neg, Int32.ofInt_sub, Int32.ofInt_toInt]

end WordChange

/-- A constant of the type `int`. -/
def Node.HasWord (value : Int32) (n : Node) : Prop := ∃ type, n = .constant type [.int value]

theorem Node.HasWord.hasValue {n : Node} {value : Int32} (h : n.HasWord value) :
    n.HasValue value.toInt := by
  obtain ⟨type, rfl⟩ := h
  rfl

/-- A step that changes a variable by a constant of the type `int`. -/
def Node.Changes (id : SymbolId) (change : WordChange) : Node → Prop
  | unary op operand _ _ =>
    operand.refersTo id = true ∧
      ((op = .postIncrement ∨ op = .preIncrement) ∧ change = .add 1 ∨
        (op = .postDecrement ∨ op = .preDecrement) ∧ change = .subtract 1)
  | binary op left right _ _ =>
    left.refersTo id = true ∧ ∃ amount, right.HasWord amount ∧
      (op = .addAssign ∧ change = .add amount ∨ op = .subAssign ∧ change = .subtract amount)
  | _ => False

theorem Node.Changes.adds {id : SymbolId} {change : WordChange} {n : Node}
    (h : n.Changes id change) : n.Adds id change.amount := by
  cases n with
  | unary op operand type emulated =>
    obtain ⟨hrefers, ⟨hop, rfl⟩ | ⟨hop, rfl⟩⟩ := h
    · exact ⟨hrefers, .inl ⟨hop, rfl⟩⟩
    · exact ⟨hrefers, .inr ⟨hop, rfl⟩⟩
  | binary op left right type clamped =>
    obtain ⟨hrefers, amount, hamount, ⟨hop, rfl⟩ | ⟨hop, rfl⟩⟩ := h
    · exact ⟨hrefers, amount.toInt, hamount.hasValue, .inl ⟨hop, rfl⟩⟩
    · exact ⟨hrefers, amount.toInt, hamount.hasValue, .inr ⟨hop, rfl⟩⟩
  | _ => exact h.elim

/-- What the parts of a counting loop with constants of the type `int` say. -/
structure WordHeader where
  var : Variable
  start : Int32
  comparison : Comparison
  bound : Int32
  change : WordChange

namespace WordHeader

/-- The header that the parts of a loop make up. -/
abbrev IsHeaderOf (w : WordHeader) (kind : LoopKind) (init condition step : Option Node) : Prop :=
  IsCountingFor kind init condition step w.var w.comparison (Node.HasWord w.start)
    (Node.HasWord w.bound) (Node.Changes w.var.id w.change)

/-- The loop goes on with a word. -/
def test (w : WordHeader) (i : Int32) : Bool := w.comparison.holdsOfWords i w.bound

/-- The words that the variable goes through from a word on, one for each iteration until the
comparison fails. -/
inductive Counts (w : WordHeader) : Int32 → List Int32 → Prop
  | done {i : Int32} : w.test i = false → Counts w i []
  | again {i : Int32} {rest : List Int32} : w.test i = true → Counts w (w.change.apply i) rest →
      Counts w i (i :: rest)

/-- The same header over the integers. -/
def overIntegers (w : WordHeader) : CountingHeader where
  var := w.var
  start := w.start.toInt
  comparison := w.comparison
  bound := w.bound.toInt
  amount := w.change.amount

variable {w : WordHeader} {kind : LoopKind} {init condition step : Option Node} {i : Int32}
  {values : List Int32} {n : Nat}

theorem IsHeaderOf.overIntegers (hw : w.IsHeaderOf kind init condition step) :
    w.overIntegers.IsHeaderOf kind init condition step :=
  hw.mono (fun _ hfirst => hfirst.hasValue) (fun _ hlimit => hlimit.hasValue)
    fun _ hchange => hchange.adds

/-! ### The word after some steps -/

/-- The word of the variable after a number of steps. -/
def wordAt (w : WordHeader) (k : Nat) : Int32 := w.change.apply^[k] w.start

@[simp] theorem wordAt_zero (w : WordHeader) : w.wordAt 0 = w.start := rfl

theorem wordAt_succ (w : WordHeader) (k : Nat) : w.wordAt (k + 1) = w.change.apply (w.wordAt k) :=
  Function.iterate_succ_apply' _ _ _

/-- It is the value over the integers, wrapped. -/
theorem wordAt_eq (w : WordHeader) (k : Nat) :
    w.wordAt k = Int32.ofInt (w.overIntegers.valueAt k) := by
  induction k with
  | zero => simp [CountingHeader.valueAt, WordHeader.overIntegers]
  | succ k ih => rw [wordAt_succ, ih, WordChange.apply_ofInt, CountingHeader.valueAt_succ]; rfl

theorem toInt_wordAt {k : Nat} (h : IsInt32 (w.overIntegers.valueAt k)) :
    (w.wordAt k).toInt = w.overIntegers.valueAt k := by
  rw [wordAt_eq, Int32.toInt_ofInt_of_le h.1 h.2]

theorem test_iff : w.test i = true ↔ w.comparison.holds i.toInt w.bound.toInt :=
  Comparison.holdsOfWords_iff

theorem holdsAt_iff {k : Nat} : w.overIntegers.HoldsAt k ↔
    w.comparison.holds (w.overIntegers.valueAt k) w.bound.toInt := Iff.rfl

/-- Where nothing wraps, the words are tested like the values. -/
theorem test_wordAt_iff {k : Nat} (h : IsInt32 (w.overIntegers.valueAt k)) :
    w.test (w.wordAt k) = true ↔ w.overIntegers.HoldsAt k := by
  rw [test_iff, toInt_wordAt h, holdsAt_iff]

/-! ### Runs -/

theorem counts_wordAt_iff {k : Nat} :
    w.Counts (w.wordAt k) values ↔
      values = (List.range' k values.length).map w.wordAt ∧
        (∀ j < values.length, w.test (w.wordAt (k + j)) = true) ∧
        w.test (w.wordAt (k + values.length)) = false := by
  induction values generalizing k with
  | nil =>
    constructor
    · rintro (hdone | -)
      exact ⟨rfl, nofun, hdone⟩
    · rintro ⟨-, -, hdone⟩
      exact .done hdone
  | cons value rest ih =>
    have hshift : ∀ j, k + (j + 1) = k + 1 + j := by omega
    rw [List.length_cons, List.range'_succ, List.map_cons, List.cons.injEq]
    constructor
    · rintro (- | ⟨htest, hrest⟩)
      rw [← wordAt_succ, ih] at hrest
      obtain ⟨hwords, hbefore, hafter⟩ := hrest
      refine ⟨⟨rfl, hwords⟩, fun j hj => ?_, by rwa [hshift]⟩
      cases j with
      | zero => exact htest
      | succ j => rw [hshift]; exact hbefore j (by omega)
    · rintro ⟨⟨rfl, hwords⟩, hbefore, hafter⟩
      refine .again (hbefore 0 (Nat.zero_lt_succ _)) ?_
      rw [← wordAt_succ, ih]
      exact ⟨hwords, fun j hj => hshift j ▸ hbefore (j + 1) (by omega), hshift _ ▸ hafter⟩

/-- **A run has the words of its steps,** up to the first one that the comparison fails of. -/
theorem counts_start_iff :
    w.Counts w.start values ↔
      values = (List.range values.length).map w.wordAt ∧
        (∀ k < values.length, w.test (w.wordAt k) = true) ∧
        w.test (w.wordAt values.length) = false := by
  have hcounts : w.Counts (w.wordAt 0) values ↔ _ := counts_wordAt_iff
  simpa only [wordAt_zero, Nat.zero_add, ← List.range_eq_range'] using hcounts

/-- A loop whose comparison holds of every word never stops. -/
theorem not_counts_of_holds (h : ∀ i, w.test i = true) : ¬ w.Counts i values := by
  intro hcounts
  induction hcounts with
  | done hdone => rw [h] at hdone; cases hdone
  | again _ _ ih => exact ih

/-! ### The last step -/

/-- A step of at most `2 ^ 31` that leaves the words comes back on the other side. -/
theorem wraps_cases {x y : Int} (hx : IsInt32 x) (hstep : (y - x).natAbs ≤ 2 ^ 31)
    (hy : ¬ IsInt32 y) :
    (x < y ∧ (Int32.ofInt y).toInt = y - 2 ^ 32) ∨
      (y < x ∧ (Int32.ofInt y).toInt = y + 2 ^ 32) := by
  have hlow := (Int32.ofInt y).le_toInt
  have hhigh := (Int32.ofInt y).toInt_lt
  have hmod : ((Int32.ofInt y).toInt - y) % 2 ^ 32 = 0 := by
    rw [Int32.toInt_ofInt]
    exact Int.emod_eq_zero_of_dvd Int.dvd_bmod_sub_self
  unfold IsInt32 at hx hy
  omega

/-- A value that has just passed the bound is before it again once it wraps. -/
theorem holds_of_wraps {c : Comparison} {x y bound : Int} (hx : IsInt32 x)
    (hstep : (y - x).natAbs ≤ 2 ^ 31) (hy : ¬ IsInt32 y) (hbefore : c.holds x bound)
    (hafter : ¬ c.holds y bound) (hother : c ≠ .equal) :
    c.holds (Int32.ofInt y).toInt bound := by
  have hcases := wraps_cases hx hstep hy
  cases c with
  | equal => exact absurd rfl hother
  | _ => simp only [Comparison.holds] at hbefore hafter ⊢; omega

theorem isInt32_toInt (i : Int32) : IsInt32 i.toInt := ⟨i.le_toInt, i.toInt_lt⟩

theorem isInt32_valueAt_zero (w : WordHeader) : IsInt32 (w.overIntegers.valueAt 0) := by
  rw [show w.overIntegers.valueAt 0 = w.start.toInt by
    simp [CountingHeader.valueAt, WordHeader.overIntegers]]
  exact isInt32_toInt w.start

section

variable (hmoves : w.change.amount ≠ 0) (hn : w.overIntegers.StopsAfter n)

include hmoves hn

/-- Up to the last step nothing wraps. -/
theorem isInt32_valueAt {k : Nat} (hk : k < n) : IsInt32 (w.overIntegers.valueAt k) := by
  obtain ⟨hlow, hhigh⟩ := hn.between hmoves hk
  obtain ⟨hstartLow, hstartHigh⟩ : IsInt32 w.overIntegers.start := isInt32_toInt w.start
  obtain ⟨hboundLow, hboundHigh⟩ : IsInt32 w.overIntegers.bound := isInt32_toInt w.bound
  exact ⟨by omega, by omega⟩

theorem test_wordAt_of_lt {k : Nat} (hk : k < n) : w.test (w.wordAt k) = true :=
  (test_wordAt_iff (isInt32_valueAt hmoves hn hk)).mpr (hn.1 k hk)

/-- **The words end with the values exactly if the last step does not wrap,** or the comparison is
`==`: no step but a zero one gives the first word again. -/
theorem test_wordAt_eq_false_iff :
    w.test (w.wordAt n) = false ↔
      w.comparison = .equal ∨ IsInt32 (w.overIntegers.valueAt n) := by
  by_cases hword : IsInt32 (w.overIntegers.valueAt n)
  · simp only [hword, or_true, iff_true]
    rw [← Bool.not_eq_true, test_wordAt_iff hword]
    exact hn.2
  obtain ⟨m, rfl⟩ := Nat.exists_eq_add_one_of_ne_zero
    (show n ≠ 0 from fun hzero => hword (hzero ▸ isInt32_valueAt_zero w))
  have hbefore := isInt32_valueAt hmoves hn (Nat.lt_succ_self m)
  have hstep : (w.overIntegers.valueAt (m + 1) - w.overIntegers.valueAt m).natAbs ≤ 2 ^ 31 := by
    have hamount := w.change.natAbs_amount_le
    have hsucc : w.overIntegers.valueAt (m + 1) = w.overIntegers.valueAt m + w.change.amount :=
      w.overIntegers.valueAt_succ m
    omega
  simp only [hword, or_false]
  rw [← Bool.not_eq_true, test_iff, wordAt_eq]
  constructor
  · intro hends
    by_contra hother
    exact hends (holds_of_wraps hbefore hstep hword (hn.1 m (Nat.lt_succ_self m)) hn.2 hother)
  · intro hequal hholds
    have hcases := wraps_cases hbefore hstep hword
    have hfirst := holdsAt_iff.mp (hn.1 m (Nat.lt_succ_self m))
    rw [hequal] at hfirst hholds
    simp only [Comparison.holds] at hfirst hholds
    omega

end

/-! ### Loops that are unrolled -/

/-- **An unrolled loop counts in words like its copies, unless its last step wraps.** The words that
the variable goes through begin with the values of the copies. They are these values, and no more,
exactly if the value after the last copy is a word, or the comparison is `==`. -/
theorem counts_values_iff {l : CountingLoop} (hw : w.IsHeaderOf kind init condition step)
    (hl : CountingLoop.ofLoop kind init condition step = .ok l) :
    (∀ values, w.Counts w.start values → l.values <+: values.map Int32.toInt) ∧
    ((∃ values, w.Counts w.start values ∧ values.map Int32.toInt = l.values) ↔
      w.comparison = .equal ∨ IsInt32 (l.valueAt l.iterations)) := by
  obtain ⟨hloop, hmoves, -, hn⟩ := hw.overIntegers.ofLoop_eq_ok_iff.mp hl
  have hvalueAt : ∀ k, l.valueAt k = w.overIntegers.valueAt k := by
    intro k
    rw [hloop]
    rfl
  have hvalues : l.values = (List.range l.iterations).map fun k => (w.wordAt k).toInt := by
    refine List.map_congr_left fun k hk => ?_
    rw [hvalueAt, toInt_wordAt (isInt32_valueAt hmoves hn (List.mem_range.mp hk))]
  rw [hvalueAt, ← test_wordAt_eq_false_iff hmoves hn]
  refine ⟨fun values hcounts => ?_, ?_, fun hends => ?_⟩
  · obtain ⟨hwords, -, hafter⟩ := counts_start_iff.mp hcounts
    have hlength : l.iterations ≤ values.length := by
      by_contra hshort
      rw [test_wordAt_of_lt hmoves hn (by omega)] at hafter
      cases hafter
    rw [hwords, hvalues, List.map_map, ← Nat.add_sub_cancel' hlength, List.range_add,
      List.map_append]
    exact List.prefix_append _ _
  · rintro ⟨values, hcounts, hsame⟩
    obtain ⟨-, -, hafter⟩ := counts_start_iff.mp hcounts
    have hlength := congrArg List.length hsame
    rw [hvalues, List.length_map, List.length_map, List.length_range] at hlength
    rwa [hlength] at hafter
  · refine ⟨(List.range l.iterations).map w.wordAt, counts_start_iff.mpr ?_, ?_⟩
    · rw [List.length_map, List.length_range]
      exact ⟨rfl, fun j hj => test_wordAt_of_lt hmoves hn hj, hends⟩
    · rw [hvalues, List.map_map]
      rfl

/-- `for (int i = 2147483640; i <= 2147483647; i++)` -/
def toLargest : WordHeader where
  var := { id := ⟨0⟩, name := { text := "i" }, type := .scalar .int }
  start := 2147483640
  comparison := .lessEqual
  bound := 2147483647
  change := .add 1

/-- The loop up to the largest word is unrolled into eight copies, but never stops. -/
theorem not_counts_values_toLargest :
    let number (value : Int32) : Node := .constant (.scalar .int) [.int value]
    let init : Node :=
      .declaration [{ var := toLargest.var, initializer := some (number 2147483640) }]
    let condition : Node :=
      .binary .lessEqual (.symbol toLargest.var) (number 2147483647) (.scalar .bool) false
    let step : Node := .unary .postIncrement (.symbol toLargest.var) (.scalar .int) false
    let l := toLargest.overIntegers.loop 8
    toLargest.IsHeaderOf .forLoop (some init) (some condition) (some step) ∧
    CountingLoop.ofLoop .forLoop (some init) (some condition) (some step) = .ok l ∧
    (¬ ∃ values, toLargest.Counts toLargest.start values ∧ values.map Int32.toInt = l.values) ∧
    ∀ values, ¬ toLargest.Counts toLargest.start values := by
  intro number init condition step l
  have hheader : toLargest.IsHeaderOf .forLoop (some init) (some condition) (some step) :=
    ⟨rfl, _, rfl,
      { declares := rfl
        isScalarInt := ⟨rfl, rfl, rfl⟩
        starts := ⟨_, rfl⟩
        compares := ⟨rfl, rfl, _, rfl⟩
        steps := ⟨rfl, .inl ⟨.inl rfl, rfl⟩⟩ }⟩
  have hunrolled : CountingLoop.ofLoop .forLoop (some init) (some condition) (some step) = .ok l :=
    rfl
  refine ⟨hheader, hunrolled, fun hvalues => ?_, fun values => not_counts_of_holds fun i => ?_⟩
  · have hends := (counts_values_iff hheader hunrolled).2.mp hvalues
    revert hends
    decide
  · have hlt := i.toInt_lt
    rw [test_iff]
    show i.toInt ≤ 2147483647
    omega

end WordHeader

end ShaderText
