import ShaderText.Proofs.LoopParts

/-! # Loops that can be unrolled

`CountingLoop.ofLoop` recognises a loop by checks from left to right. `CountingLoop.Describes` says
what the checks amount to: a `for` loop that declares one scalar `int` with a constant, compares it
with a constant, changes it by a constant other than zero, and stops after at most `maxCopies`
iterations. To stop is meant over the integers (`Comparison.StopsAfter`), not as the outcome of a
formula: the trip count finds the number of iterations whenever there is one
(`Comparison.tripCount_eq_some_iff`), so no loop that stops is turned away as endless.

**A loop is recognised exactly if it has this form (`CountingLoop.ofLoop_eq_ok_iff`).** -/

namespace ShaderText

namespace Comparison

variable {c : Comparison} {start bound step : Int} {m n : Nat}

/-! ### Loops that stop -/

/-- A loop from `start` by `step` stops after `n` iterations: the comparison holds of so many values
of the counter, and fails of the next one. -/
def StopsAfter (c : Comparison) (start bound step : Int) (n : Nat) : Prop :=
  (∀ k < n, c.holds (start + k * step) bound) ∧ ¬ c.holds (start + n * step) bound

theorem StopsAfter.unique (hm : c.StopsAfter start bound step m)
    (hn : c.StopsAfter start bound step n) : m = n := by
  rcases Nat.lt_trichotomy m n with hlt | heq | hlt
  · exact absurd (hn.1 m hlt) hm.2
  · exact heq
  · exact absurd (hm.1 n hlt) hn.2

/-- A counter that moves away from its bound never reaches it. -/
theorem mul_nonpos_of_neg (h : step < 0) (n : Nat) : n * step ≤ 0 :=
  Int.mul_nonpos_of_nonneg_of_nonpos (Int.natCast_nonneg n) (Int.le_of_lt h)

theorem mul_nonneg_of_pos (h : 0 < step) (n : Nat) : 0 ≤ n * step :=
  Int.mul_nonneg (Int.natCast_nonneg n) (Int.le_of_lt h)

/-- A counter that hits its bound goes towards it in whole strides. -/
theorem reaches_of_eq (hne : start ≠ bound) (hn : start + n * step = bound) :
    (bound - start).sign = step.sign ∧ (bound - start).natAbs % step.natAbs = 0 := by
  have hdistance : bound - start = n * step := by omega
  have hpos : 0 < n := by
    rcases Nat.eq_zero_or_pos n with rfl | hpos
    · exact absurd (by simpa using hn) hne
    · exact hpos
  rw [hdistance]
  constructor
  · rw [Int.sign_mul, Int.sign_natCast_of_ne_zero (by omega), Int.one_mul]
  · rw [Int.natAbs_mul, Int.natAbs_natCast]
    exact Nat.mul_mod_left n step.natAbs

/-- Without a trip count the comparison holds for ever. -/
theorem holds_of_tripCount (h : c.tripCount start bound step = none) (n : Nat) :
    c.holds (start + n * step) bound := by
  cases c with
  | less =>
    simp only [tripCount] at h
    split_ifs at h with hfar hstep
    have hback := mul_nonpos_of_neg hstep n
    simp only [holds]
    omega
  | lessEqual =>
    simp only [tripCount] at h
    split_ifs at h with hfar hstep
    have hback := mul_nonpos_of_neg hstep n
    simp only [holds]
    omega
  | greater =>
    simp only [tripCount] at h
    split_ifs at h with hfar hstep
    have hback := mul_nonneg_of_pos hstep n
    simp only [holds]
    omega
  | greaterEqual =>
    simp only [tripCount] at h
    split_ifs at h with hfar hstep
    have hback := mul_nonneg_of_pos hstep n
    simp only [holds]
    omega
  | equal => simp [tripCount] at h
  | notEqual =>
    simp only [tripCount] at h
    split_ifs at h with hne hreaches
    simp only [holds]
    exact fun hafter => hreaches (reaches_of_eq hne hafter)

theorem not_stopsAfter_of_tripCount (h : c.tripCount start bound step = none) (n : Nat) :
    ¬ c.StopsAfter start bound step n :=
  fun hstops => hstops.2 (holds_of_tripCount h n)

/-- **The trip count is the number of iterations**, if there is one. -/
theorem tripCount_eq_some_iff (hstep : step ≠ 0) :
    c.tripCount start bound step = some n ↔ c.StopsAfter start bound step n := by
  have hsound : ∀ {m}, c.tripCount start bound step = some m → c.StopsAfter start bound step m := by
    intro m hm
    obtain ⟨hbefore, hafter⟩ := counts_of_tripCount hstep hm
    exact ⟨fun k hk => (hbefore k hk).1, hafter⟩
  refine ⟨hsound, fun hn => ?_⟩
  cases hm : c.tripCount start bound step with
  | none => exact absurd hn (not_stopsAfter_of_tripCount hm n)
  | some m => rw [(hsound hm).unique hn]

/-- **A loop without a trip count never stops**, and only such a loop. -/
theorem tripCount_eq_none_iff (hstep : step ≠ 0) :
    c.tripCount start bound step = none ↔ ∀ n : Nat, c.holds (start + n * step) bound := by
  refine ⟨holds_of_tripCount, fun h => ?_⟩
  cases hn : c.tripCount start bound step with
  | none => rfl
  | some n => exact absurd (h n) ((tripCount_eq_some_iff hstep).mp hn).2

end Comparison

/-! ### The form of the loop -/

namespace CountingLoop

/-- The parts of a loop that is unrolled. -/
structure Describes (l : CountingLoop) (kind : LoopKind) (init condition step : Option Node) :
    Prop where
  counts : ∃ comparison bound,
    IsCountingFor kind init condition step l.var comparison (Node.HasValue l.start)
      (Node.HasValue bound) (Node.Adds l.var.id l.step) ∧
    comparison.StopsAfter l.start bound l.step l.iterations
  moves : l.step ≠ 0
  isFew : l.iterations ≤ maxCopies

variable {kind : LoopKind} {init condition step : Option Node} {l : CountingLoop}

/-- **A loop is recognised exactly if it has the form of a counting loop.** -/
theorem ofLoop_eq_ok_iff :
    ofLoop kind init condition step = .ok l ↔ l.Describes kind init condition step := by
  constructor
  · intro h
    obtain ⟨comparison, bound, hd, ht, hs, hmoves, hcount⟩ := ofLoop_eq_ok h
    have hstops := (Comparison.tripCount_eq_some_iff hmoves).mp hcount
    refine ⟨⟨comparison, bound, reads_iff.mp ⟨hd, ht, hs⟩, hstops⟩, hmoves, ?_⟩
    simp only [ofLoop, hd, ht, hs, hcount, bind, Except.bind, if_neg hmoves] at h
    split_ifs at h with hmany
    exact Nat.not_lt.mp hmany
  · rintro ⟨⟨comparison, bound, hcounts, hstops⟩, hmoves, hfew⟩
    obtain ⟨hd, ht, hs⟩ := reads_iff.mpr hcounts
    have hcount := (Comparison.tripCount_eq_some_iff hmoves).mpr hstops
    simp only [ofLoop, hd, ht, hs, hcount, bind, Except.bind, if_neg hmoves,
      if_neg (Nat.not_lt.mpr hfew)]

/-- The parts of the header of a loop that is recognised. -/
theorem parts_of_ofLoop (h : ofLoop kind init condition step = .ok l) :
    ∃ p comparison bound, LoopParts.ofNodes? init condition step = some p ∧
      p.Counts l.var comparison (Node.HasValue l.start) (Node.HasValue bound)
        (Node.Adds l.var.id l.step) ∧
      comparison.Counts l.start bound l.step l.iterations := by
  obtain ⟨⟨comparison, bound, ⟨-, p, hparts, hcounts⟩, hstops⟩, hmoves, -⟩ := ofLoop_eq_ok_iff.mp h
  have hcount := (Comparison.tripCount_eq_some_iff hmoves).mpr hstops
  exact ⟨p, comparison, bound, hparts, hcounts, Comparison.counts_of_tripCount hmoves hcount⟩

/-- The counter of a loop is the variable that it declares. -/
theorem exists_init_of_ofLoop (h : ofLoop kind init condition step = .ok l) :
    ∃ first, init = some (.declaration [{ var := l.var, initializer := some first }]) := by
  obtain ⟨p, _, _, hparts, hcounts, -⟩ := parts_of_ofLoop h
  rw [← hcounts.declares]
  exact ⟨p.first, (LoopParts.ofNodes?_eq_some_iff.mp hparts).1⟩

end CountingLoop

end ShaderText
