import ShaderText.CountingLoop
import Mathlib.Tactic.SplitIfs

/-! # Trip counts: how often a counting loop runs

`Comparison.tripCount` counts the iterations of a loop before it is written. Over the integers the
count is right (`Comparison.counts_of_tripCount`): the comparison holds of the first so many values
of the counter and fails of the next one, and until then the counter stays between its first value
and the bound. This comes from the number of strides within a distance (`lt_stepsToCover_iff`,
`lt_wholeSteps_iff`).

`CountingLoop.ofLoop_eq_ok` says what the header of a loop is when it is recognised, and
`CountingLoop.values` are the values that the copies of such a loop are written with. -/

namespace ShaderText

/-- Whether a comparison of two integers holds. -/
def Comparison.holds : Comparison → Int → Int → Prop
  | less, a, b => a < b
  | lessEqual, a, b => a ≤ b
  | greater, a, b => b < a
  | greaterEqual, a, b => b ≤ a
  | equal, a, b => a = b
  | notEqual, a, b => a ≠ b

namespace Comparison

/-! ### Strides within a distance -/

/-- Fewer steps than cover a distance stay below it. -/
theorem lt_stepsToCover_iff (distance k : Nat) {stride : Nat} (h : 0 < stride) :
    k < stepsToCover distance stride ↔ k * stride < distance := by
  unfold stepsToCover
  rw [← Nat.succ_le_iff, Nat.le_div_iff_mul_le h, Nat.succ_mul]
  omega

/-- The whole steps within a distance do not exceed it. -/
theorem lt_wholeSteps_iff (distance k : Nat) {stride : Nat} (h : 0 < stride) :
    k < distance / stride + 1 ↔ k * stride ≤ distance := by
  rw [Nat.lt_succ_iff, Nat.le_div_iff_mul_le h]

theorem natAbs_mul_of_pos {step : Int} (h : 0 < step) (k : Nat) :
    ((k * step.natAbs : Nat) : Int) = k * step := by
  rw [Int.natCast_mul, Int.natAbs_of_nonneg (Int.le_of_lt h)]

/-! ### The count -/

variable {c : Comparison} {start bound step : Int} {n : Nat}

/-- While the count lasts the comparison holds and the counter is on its way from `start` to
`bound`; after it the comparison fails. -/
def Counts (c : Comparison) (start bound step : Int) (n : Nat) : Prop :=
  (∀ k < n, c.holds (start + k * step) bound ∧
    min start bound ≤ start + k * step ∧ start + k * step ≤ max start bound) ∧
  ¬ c.holds (start + n * step) bound

theorem counts_zero (h : ¬ c.holds start bound) : Counts c start bound step 0 := by
  refine ⟨fun k hk => absurd hk (Nat.not_lt_zero k), ?_⟩
  simpa using h

/-- The comparison of the negated values. -/
def mirrored : Comparison → Comparison
  | less => greater
  | lessEqual => greaterEqual
  | greater => less
  | greaterEqual => lessEqual
  | equal => equal
  | notEqual => notEqual

theorem holds_mirrored (c : Comparison) (a b : Int) : c.mirrored.holds (-a) (-b) ↔ c.holds a b := by
  cases c <;> simp only [mirrored, holds] <;> omega

/-- A loop downwards counts like its mirror image upwards. -/
theorem counts_of_mirrored (h : Counts c.mirrored (-start) (-bound) (-step) n) :
    Counts c start bound step n := by
  have hvalue : ∀ k : Nat, -start + k * -step = -(start + k * step) := by
    intro k
    rw [Int.mul_neg]
    omega
  obtain ⟨hbefore, hafter⟩ := h
  refine ⟨fun k hk => ?_, ?_⟩
  · obtain ⟨hholds, hbetween⟩ := hbefore k hk
    rw [hvalue] at hholds hbetween
    refine ⟨(c.holds_mirrored _ _).mp hholds, ?_⟩
    omega
  · rwa [hvalue, holds_mirrored] at hafter

theorem counts_less (h : start < bound) (hstep : 0 < step) :
    Counts less start bound step (stepsToCover (bound - start).natAbs step.natAbs) := by
  have hs : 0 < step.natAbs := by omega
  refine ⟨fun k hk => ?_, fun hn => ?_⟩
  · have hlt := (lt_stepsToCover_iff _ k hs).mp hk
    have he := natAbs_mul_of_pos hstep k
    simp only [holds]
    omega
  · have he := natAbs_mul_of_pos hstep (stepsToCover (bound - start).natAbs step.natAbs)
    refine Nat.lt_irrefl _ ((lt_stepsToCover_iff (bound - start).natAbs _ hs).mpr ?_)
    simp only [holds] at hn
    omega

theorem counts_lessEqual (h : start ≤ bound) (hstep : 0 < step) :
    Counts lessEqual start bound step ((bound - start).natAbs / step.natAbs + 1) := by
  have hs : 0 < step.natAbs := by omega
  refine ⟨fun k hk => ?_, fun hn => ?_⟩
  · have hle := (lt_wholeSteps_iff _ k hs).mp hk
    have he := natAbs_mul_of_pos hstep k
    simp only [holds]
    omega
  · have he := natAbs_mul_of_pos hstep ((bound - start).natAbs / step.natAbs + 1)
    refine Nat.lt_irrefl _ ((lt_wholeSteps_iff (bound - start).natAbs _ hs).mpr ?_)
    simp only [holds] at hn
    omega

theorem counts_equal (hstep : step ≠ 0) : Counts equal start start step 1 := by
  refine ⟨fun k hk => ?_, ?_⟩
  · obtain rfl : k = 0 := by omega
    simp [holds]
  · simp only [holds]
    omega

/-- A loop upwards to a bound that the counter hits in whole strides. -/
theorem counts_notEqual_of_pos (h : start < bound) (hstep : 0 < step)
    (hmod : (bound - start).natAbs % step.natAbs = 0) :
    Counts notEqual start bound step ((bound - start).natAbs / step.natAbs) := by
  have hcover : (bound - start).natAbs / step.natAbs * step.natAbs = (bound - start).natAbs :=
    Nat.div_mul_cancel (Nat.dvd_of_mod_eq_zero hmod)
  have hs : 0 < step.natAbs := by omega
  refine ⟨fun k hk => ?_, ?_⟩
  · have hlt : k * step.natAbs < (bound - start).natAbs := by
      rw [← hcover]
      exact Nat.mul_lt_mul_of_pos_right hk hs
    have he := natAbs_mul_of_pos hstep k
    simp only [holds]
    omega
  · have he := natAbs_mul_of_pos hstep ((bound - start).natAbs / step.natAbs)
    simp only [holds]
    omega

/-! ### Loops downwards -/

theorem natAbs_neg_sub_neg (bound start : Int) :
    (-bound - -start).natAbs = (bound - start).natAbs := by
  omega

theorem counts_greater (h : bound < start) (hstep : step < 0) :
    Counts greater start bound step (stepsToCover (bound - start).natAbs step.natAbs) := by
  have hup := counts_less (Int.neg_lt_neg h) (Int.neg_pos_of_neg hstep)
  rw [natAbs_neg_sub_neg, Int.natAbs_neg] at hup
  exact counts_of_mirrored hup

theorem counts_greaterEqual (h : bound ≤ start) (hstep : step < 0) :
    Counts greaterEqual start bound step ((bound - start).natAbs / step.natAbs + 1) := by
  have hup := counts_lessEqual (Int.neg_le_neg h) (Int.neg_pos_of_neg hstep)
  rw [natAbs_neg_sub_neg, Int.natAbs_neg] at hup
  exact counts_of_mirrored hup

theorem counts_notEqual (hne : start ≠ bound) (hsign : (bound - start).sign = step.sign)
    (hmod : (bound - start).natAbs % step.natAbs = 0) :
    Counts notEqual start bound step ((bound - start).natAbs / step.natAbs) := by
  rcases Int.lt_trichotomy step 0 with hneg | rfl | hpos
  · have hdown : bound - start < 0 := by
      rw [← Int.sign_eq_neg_one_iff_neg, hsign, Int.sign_eq_neg_one_of_neg hneg]
    have hlt : bound < start := by omega
    have hup := counts_notEqual_of_pos (Int.neg_lt_neg hlt) (Int.neg_pos_of_neg hneg)
      (by rw [natAbs_neg_sub_neg, Int.natAbs_neg, hmod])
    rw [natAbs_neg_sub_neg, Int.natAbs_neg] at hup
    exact counts_of_mirrored hup
  · rw [Int.sign_zero, Int.sign_eq_zero_iff_zero] at hsign
    omega
  · have hup : 0 < bound - start := by
      rw [← Int.sign_eq_one_iff_pos, hsign, Int.sign_eq_one_of_pos hpos]
    exact counts_notEqual_of_pos (by omega) hpos hmod

/-- **The trip count is right.** -/
theorem counts_of_tripCount (hstep : step ≠ 0) (h : c.tripCount start bound step = some n) :
    Counts c start bound step n := by
  cases c with
  | less =>
    simp only [tripCount] at h
    split_ifs at h with h1 h2 <;> cases h
    · exact counts_zero (by simp only [holds]; omega)
    · exact counts_less (by omega) (by omega)
  | lessEqual =>
    simp only [tripCount] at h
    split_ifs at h with h1 h2 <;> cases h
    · exact counts_zero (by simp only [holds]; omega)
    · exact counts_lessEqual (by omega) (by omega)
  | greater =>
    simp only [tripCount] at h
    split_ifs at h with h1 h2 <;> cases h
    · exact counts_zero (by simp only [holds]; omega)
    · exact counts_greater (by omega) (by omega)
  | greaterEqual =>
    simp only [tripCount] at h
    split_ifs at h with h1 h2 <;> cases h
    · exact counts_zero (by simp only [holds]; omega)
    · exact counts_greaterEqual (by omega) (by omega)
  | equal =>
    simp only [tripCount, Option.some.injEq] at h
    split_ifs at h with h1 <;> cases h
    · cases h1; exact counts_equal hstep
    · exact counts_zero h1
  | notEqual =>
    simp only [tripCount] at h
    split_ifs at h with h1 h2 <;> cases h
    · exact counts_zero (by simpa [holds] using h1)
    · exact counts_notEqual h1 h2.1 h2.2

end Comparison

/-! ### Loops that are recognised -/

namespace CountingLoop

theorem eq_symbol_of_refersTo {id : SymbolId} {n : Node} (h : n.refersTo id = true) :
    ∃ v, n = .symbol v ∧ v.id = id := by
  cases n with
  | symbol v => exact ⟨v, rfl, by simpa [Node.refersTo] using h⟩
  | _ => cases h

/-- The header of a loop that is recognised. -/
theorem ofLoop_eq_ok {kind : LoopKind} {init condition step : Option Node} {l : CountingLoop}
    (h : ofLoop kind init condition step = .ok l) :
    ∃ comparison bound, declared kind init = .ok (l.var, l.start) ∧
      tested l.var.id condition = .ok (comparison, bound) ∧
      stepped l.var.id step = .ok l.step ∧ l.step ≠ 0 ∧
      comparison.tripCount l.start bound l.step = some l.iterations := by
  unfold ofLoop at h
  cases hd : declared kind init with
  | error e => rw [hd] at h; cases h
  | ok d =>
    obtain ⟨var, start⟩ := d
    rw [hd] at h
    simp only [bind, Except.bind] at h
    cases ht : tested var.id condition with
    | error e => rw [ht] at h; cases h
    | ok t =>
      obtain ⟨comparison, bound⟩ := t
      rw [ht] at h
      simp only at h
      cases hs : stepped var.id step with
      | error e => rw [hs] at h; cases h
      | ok amount =>
        rw [hs] at h
        simp only at h
        split_ifs at h with hz
        cases hn : comparison.tripCount start bound amount with
        | none => rw [hn] at h; cases h
        | some iterations =>
          rw [hn] at h
          simp only at h
          split_ifs at h
          cases h
          exact ⟨comparison, bound, rfl, ht, hs, hz, hn⟩

/-- The value of the counter in a copy. -/
def valueAt (l : CountingLoop) (k : Nat) : Int := l.start + k * l.step

theorem valueAt_succ (l : CountingLoop) (k : Nat) : l.valueAt (k + 1) = l.valueAt k + l.step := by
  simp only [valueAt, Int.natCast_add, Int.natCast_one, Int.add_mul, Int.one_mul]
  omega

/-- The values of the counter, one for each copy. -/
def values (l : CountingLoop) : List Int := (List.range l.iterations).map l.valueAt

end CountingLoop

/-! ### Loops that step by one -/

namespace Variable

/-- `int v = start` -/
def startingAt (v : Variable) (start : Int32) : Node :=
  .declaration [{ var := v, initializer := some (.constant (.scalar .int) [.int start]) }]

/-- `v < bound` -/
def below (v : Variable) (bound : Int32) : Node :=
  .binary .less (.symbol v) (.constant (.scalar .int) [.int bound]) (.scalar .bool) false

/-- `++v` -/
def increment (v : Variable) : Node := .unary .preIncrement (.symbol v) v.type false

end Variable

/-- A loop over the values from `start` on that are below `bound` is recognised. -/
theorem CountingLoop.ofLoop_below {v : Variable} (hbasic : v.type.basic = .int)
    (hcols : v.type.cols = 1) (harray : v.type.arraySize = none) (start bound : Int32)
    (hcopies : (bound.toInt - start.toInt).toNat ≤ maxCopies) :
    ofLoop .forLoop (some (v.startingAt start)) (some (v.below bound)) (some v.increment) =
      .ok { var := v, start := start.toInt, step := 1,
            iterations := (bound.toInt - start.toInt).toNat } := by
  have hdeclared : declared .forLoop (some (v.startingAt start)) = .ok (v, start.toInt) := by
    simp [declared, Variable.startingAt, hbasic, hcols, ShaderType.isArray, harray, Node.asInt?]
  have htested : tested v.id (some (v.below bound)) = .ok (.less, bound.toInt) := by
    simp [tested, Variable.below, BinaryOp.comparison?, Node.refersTo, Node.asInt?]
  have hstepped : stepped v.id (some v.increment) = .ok 1 := by
    simp [stepped, Variable.increment, Node.refersTo]
  have hcount : Comparison.less.tripCount start.toInt bound.toInt 1 =
      some (bound.toInt - start.toInt).toNat := by
    simp only [Comparison.tripCount, stepsToCover]
    split_ifs with h1 h2
    · exact congrArg some (by omega)
    · omega
    · refine congrArg some ?_
      rw [Int.natAbs_one, Nat.div_one]
      omega
  simp only [ofLoop, hdeclared, htested, hstepped, hcount, bind, Except.bind]
  rw [if_neg (by omega), if_neg (by omega)]

end ShaderText
