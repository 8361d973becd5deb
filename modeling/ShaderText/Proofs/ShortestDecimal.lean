import ShaderText.Float.Literal
import ShaderText.Proofs.Rounding
import Mathlib.Tactic.SplitIfs

/-! # The shortest decimal reads back

A `RoundingInterval` holds the numbers that are rounded to one value. Its comparisons with decimals
are made on natural numbers, and mean what they should of the numbers themselves
(`RoundingInterval.contains_iff`). The search for a decimal always ends with a hit, on the grid of
the value itself if on no coarser one, so its result lies in the interval
(`RoundingInterval.holds_shortest`).

**A finite value is what its decimal is rounded to (`Binary32.roundsTo_shortestDecimal`).** The ends
of its interval are the middles between the value and its neighbours. -/

namespace ShaderText

/-- The number that a decimal stands for. -/
def Decimal.value (d : Decimal) : ℚ := d.coefficient * (10 : ℚ) ^ d.exponent

namespace RoundingInterval

variable {i : RoundingInterval} {d : Decimal} {q : ℚ} {k s : ℤ} {a c : ℕ}

/-! ### Comparisons -/

def lowEnd (i : RoundingInterval) : ℚ := i.low * (2 : ℚ) ^ i.unit

def highEnd (i : RoundingInterval) : ℚ := i.high * (2 : ℚ) ^ i.unit

/-- A number lies in the interval. -/
def Holds (i : RoundingInterval) (q : ℚ) : Prop :=
  if i.closed then i.lowEnd ≤ q ∧ q ≤ i.highEnd else i.lowEnd < q ∧ q < i.highEnd

theorem Holds.bounds (h : i.Holds q) : i.lowEnd ≤ q ∧ q ≤ i.highEnd := by
  unfold Holds at h
  split_ifs at h
  · exact h
  · exact ⟨h.1.le, h.2.le⟩

/-- Only closed intervals hold their ends. -/
theorem Holds.closed_of_eq (h : i.Holds q) (hend : q = i.lowEnd ∨ q = i.highEnd) :
    i.closed = true := by
  unfold Holds at h
  split_ifs at h with hclosed
  · exact hclosed
  · rcases hend with hend | hend
    · exact absurd hend h.1.ne'
    · exact absurd hend h.2.ne

theorem holds_of_lt (hlow : i.lowEnd < q) (hhigh : q < i.highEnd) : i.Holds q := by
  unfold Holds
  split_ifs
  · exact ⟨hlow.le, hhigh.le⟩
  · exact ⟨hlow, hhigh⟩

/-- What both sides of a comparison are multiplied by. -/
def scale (k s : ℤ) : ℚ := 10 ^ (-k).toNat * 2 ^ (-s).toNat

theorem scale_pos (k s : ℤ) : 0 < scale k s := by
  unfold scale
  positivity

theorem pow_toNat {b : ℚ} (hb : b ≠ 0) (k : ℤ) : b ^ k.toNat = b ^ k * b ^ (-k).toNat := by
  rw [← zpow_natCast, ← zpow_natCast, ← zpow_add₀ hb]
  congr 1
  omega

theorem cast_scaledDecimal (k s : ℤ) (c : ℕ) :
    (scaledDecimal k s c : ℚ) = c * (10 : ℚ) ^ k * scale k s := by
  simp only [scaledDecimal, Nat.pow_eq, Nat.cast_mul, Nat.cast_pow, Nat.cast_ofNat, scale]
  rw [pow_toNat (by norm_num : (10 : ℚ) ≠ 0) k]
  ring

theorem cast_scaledDyadic (k s : ℤ) (a : ℕ) :
    (scaledDyadic k s a : ℚ) = a * (2 : ℚ) ^ s * scale k s := by
  simp only [scaledDyadic, Nat.pow_eq, Nat.cast_mul, Nat.cast_pow, Nat.cast_ofNat, scale]
  rw [pow_toNat (by norm_num : (2 : ℚ) ≠ 0) s]
  ring

theorem scaledDyadic_le_iff :
    scaledDyadic k s a ≤ scaledDecimal k s c ↔ a * (2 : ℚ) ^ s ≤ c * (10 : ℚ) ^ k := by
  rw [← Nat.cast_le (α := ℚ), cast_scaledDecimal, cast_scaledDyadic,
    mul_le_mul_iff_of_pos_right (scale_pos k s)]

theorem scaledDecimal_le_iff :
    scaledDecimal k s c ≤ scaledDyadic k s a ↔ c * (10 : ℚ) ^ k ≤ a * (2 : ℚ) ^ s := by
  rw [← Nat.cast_le (α := ℚ), cast_scaledDecimal, cast_scaledDyadic,
    mul_le_mul_iff_of_pos_right (scale_pos k s)]

/-- **The interval contains the decimals whose numbers lie in it.** -/
theorem contains_iff : i.contains d = true ↔ i.Holds d.value := by
  simp only [contains, Holds, lowEnd, highEnd, Decimal.value]
  split_ifs
  · rw [decide_eq_true_iff, scaledDyadic_le_iff, scaledDecimal_le_iff]
  · rw [decide_eq_true_iff, ← not_le, ← not_le, scaledDyadic_le_iff, scaledDecimal_le_iff, not_le,
      not_le]

/-! ### The search -/

theorem contains_of_onGrid? (h : i.onGrid? k = some d) : i.contains d = true := by
  simp only [onGrid?] at h
  split_ifs at h with hbelow habove
  · cases h
    exact (Bool.and_eq_true_iff.mp hbelow).1
  · cases h
    exact habove

/-- The search ends with a hit if there is one on the last grid. -/
theorem contains_coarsest {n : ℕ} (h : i.contains ⟨i.floorOn (k - n), k - n⟩ = true) :
    i.contains (i.coarsest k n) = true := by
  induction n generalizing k with
  | zero => simpa [coarsest] using h
  | succ n ih =>
    rw [coarsest]
    cases hgrid : i.onGrid? k with
    | some d => exact contains_of_onGrid? hgrid
    | none =>
      have hlast : k - 1 - n = k - (n + 1 : ℕ) := by omega
      exact ih (by rwa [hlast])

/-- The value lies on the grid of its unit, and so on a finer one. -/
theorem value_floorOn (i : RoundingInterval) (hk : k = -(-i.unit).toNat) :
    Decimal.value ⟨i.floorOn k, k⟩ = i.value * (2 : ℚ) ^ i.unit := by
  have hdvd : scaledDecimal k i.unit 1 ∣ scaledDyadic k i.unit i.value := by
    have hcoefficient : k.toNat = 0 := by omega
    have hplaces : (-k).toNat = (-i.unit).toNat := by omega
    simp only [scaledDecimal, scaledDyadic, Nat.pow_eq, hcoefficient, hplaces, pow_zero, one_mul]
    exact Dvd.dvd.mul_left (pow_dvd_pow_of_dvd (by decide : 2 ∣ 10) _) _
  have hexact := congrArg (Nat.cast (R := ℚ)) (Nat.div_mul_cancel hdvd)
  rw [Nat.cast_mul, cast_scaledDecimal, cast_scaledDyadic, Nat.cast_one, one_mul, ← mul_assoc]
    at hexact
  exact mul_right_cancel₀ (scale_pos k i.unit).ne' hexact

/-- **The shortest decimal lies in the interval.** -/
theorem holds_shortest (hlow : i.low < i.value) (hhigh : i.value < i.high) :
    i.Holds i.shortest.value := by
  have hunit : (0 : ℚ) < (2 : ℚ) ^ i.unit := by positivity
  rw [← contains_iff]
  refine contains_coarsest (contains_iff.mpr ?_)
  rw [value_floorOn i (by omega)]
  exact holds_of_lt (mul_lt_mul_of_pos_right (Nat.cast_lt.mpr hlow) hunit)
    (mul_lt_mul_of_pos_right (Nat.cast_lt.mpr hhigh) hunit)

end RoundingInterval

namespace Binary32

variable {x y : Binary32} {q : ℚ}

/-! ### The ends of the interval of a value -/

theorem two_zpow_unit (x : Binary32) :
    4 * (2 : ℚ) ^ x.roundingInterval.unit = (2 : ℚ) ^ x.exponent := by
  rw [show x.exponent = x.roundingInterval.unit + 2 by simp [roundingInterval],
    zpow_add₀ (by norm_num)]
  norm_num
  ring

/-- The upper end is half a place above the value. -/
theorem two_mul_highEnd (x : Binary32) :
    2 * x.roundingInterval.highEnd = 2 * x.magnitude + (2 : ℚ) ^ x.exponent := by
  have hunit := two_zpow_unit x
  have hhigh : (x.roundingInterval.high : ℚ) = 4 * x.significand + 2 := by
    simp [roundingInterval]
  rw [RoundingInterval.highEnd, magnitude, hhigh, ← hunit]
  ring

/-- Up to the middle to a larger value, the interval does not reach further. -/
theorem two_mul_highEnd_le (h : x.magnitude < y.magnitude) :
    2 * x.roundingInterval.highEnd ≤ x.magnitude + y.magnitude := by
  have hnext : ((x.units + x.place : ℕ) : ℚ) ≤ y.units :=
    Nat.cast_le.mpr (add_place_le_units (magnitude_lt_iff.mp h))
  have hleast : (0 : ℚ) < (2 : ℚ) ^ (-149 : ℤ) := by positivity
  have hscaled := mul_le_mul_of_nonneg_right hnext hleast.le
  rw [Nat.cast_add, add_mul, ← magnitude_eq, ← magnitude_eq, ← two_zpow_exponent] at hscaled
  rw [two_mul_highEnd]
  linarith

/-- The lower end is half a place below the value, but a quarter below a power of two. -/
theorem four_mul_lowEnd (hx : x.significand ≠ 0) :
    4 * x.roundingInterval.lowEnd = 4 * x.magnitude -
      (if x.fraction = 0 ∧ 1 < x.biasedExponent then 1 else 2) * (2 : ℚ) ^ x.exponent := by
  have hunit := two_zpow_unit x
  have hlow : (x.roundingInterval.low : ℚ) = 4 * x.significand -
      (if x.fraction = 0 ∧ 1 < x.biasedExponent then 1 else 2) := by
    simp only [roundingInterval]
    split_ifs <;> rw [Nat.cast_sub (by omega)] <;> push_cast <;> rfl
  rw [RoundingInterval.lowEnd, magnitude, hlow, ← hunit]
  ring

/-- Nor does it reach below the middle to a smaller value. -/
theorem le_two_mul_lowEnd (h : y.magnitude < x.magnitude) :
    x.magnitude + y.magnitude ≤ 2 * x.roundingInterval.lowEnd := by
  have hunits := magnitude_lt_iff.mp h
  have hx : x.significand ≠ 0 := by
    intro hzero
    rw [units, units, hzero, Nat.zero_mul] at hunits
    exact Nat.not_lt_zero _ hunits
  have hleast : (0 : ℚ) < (2 : ℚ) ^ (-149 : ℤ) := by positivity
  have hlow := four_mul_lowEnd hx
  obtain ⟨hhalf, hplace⟩ := two_mul_units_add_place_le hunits
  split_ifs at hlow with hpower
  · have hscaled := mul_le_mul_of_nonneg_right (Nat.cast_le (α := ℚ).mpr hhalf) hleast.le
    push_cast at hscaled
    rw [add_mul, mul_assoc, mul_assoc, ← magnitude_eq, ← magnitude_eq, ← two_zpow_exponent]
      at hscaled
    linarith
  · have hscaled := mul_le_mul_of_nonneg_right
      (Nat.cast_le (α := ℚ).mpr (hplace.resolve_left hpower)) hleast.le
    push_cast at hscaled
    rw [add_mul, ← magnitude_eq, ← magnitude_eq, ← two_zpow_exponent] at hscaled
    linarith

/-- The units of a finite value are those of the largest one at most. -/
theorem highEnd_le {n : ℕ} (hx : x.isFinite = true) (hn : x.roundingInterval.high ≤ n) :
    x.roundingInterval.highEnd ≤ n * (2 : ℚ) ^ (102 : ℤ) := by
  have hexponent : x.roundingInterval.unit ≤ 102 := by
    have hlt := biasedExponent_lt_of_isFinite hx
    simp only [roundingInterval, exponent]
    omega
  exact mul_le_mul (Nat.cast_le.mpr hn) (zpow_le_zpow_right₀ (by norm_num) hexponent)
    (by positivity) (by positivity)

/-- The interval of a finite value ends below the numbers that are rounded to an infinity. -/
theorem lt_overflow_of_holds (hx : x.isFinite = true) (hq : x.roundingInterval.Holds q) :
    q < overflow := by
  have hlt := x.significand_lt
  simp only [fractionCount] at hlt
  by_cases heven : x.significand % 2 = 0
  · have hhigh : x.roundingInterval.high ≤ 2 ^ 26 - 6 := by
      simp only [roundingInterval]
      omega
    exact (hq.bounds.2.trans (highEnd_le hx hhigh)).trans_lt (by norm_num [overflow])
  · -- the end of the largest value is excluded, since its significand is odd
    have hhigh : x.roundingInterval.high ≤ 2 ^ 26 - 2 := by
      simp only [roundingInterval]
      omega
    have hend : q ≠ x.roundingInterval.highEnd := fun hend =>
      heven (by simpa [roundingInterval] using hq.closed_of_eq (.inr hend))
    exact (lt_of_le_of_ne hq.bounds.2 hend).trans_le
      ((highEnd_le hx hhigh).trans (by norm_num [overflow]))

/-- **The numbers in the interval of a value are rounded to it.** -/
theorem roundsTo_of_holds (hx : x.isFinite = true) (hq : x.roundingInterval.Holds q) :
    RoundsTo x.isNegative q x where
  isNegative := rfl
  isFinite := hx
  inRange := lt_overflow_of_holds hx hq
  nearest y hy := by
    obtain ⟨hlow, hhigh⟩ := hq.bounds
    rcases lt_trichotomy x.magnitude y.magnitude with hlt | heq | hlt
    · have hmiddle := two_mul_highEnd_le hlt
      exact abs_sub_le_of_le hlt.le (by linarith)
    · rw [heq]
    · have hmiddle := le_two_mul_lowEnd hlt
      exact abs_sub_le_of_ge hlt.le (by linarith)
  even y hy hne hdistance := by
    obtain ⟨hlow, hhigh⟩ := hq.bounds
    have hmiddle := two_mul_eq_of_abs_sub_eq hne.symm hdistance
    have hclosed : x.roundingInterval.closed = true := by
      rcases lt_or_gt_of_ne hne with hlt | hlt
      · have hend := le_two_mul_lowEnd hlt
        exact hq.closed_of_eq (.inl (by linarith))
      · have hend := two_mul_highEnd_le hlt
        exact hq.closed_of_eq (.inr (by linarith))
    simpa [roundingInterval] using hclosed

/-- The decimal of a value lies in its interval. -/
theorem holds_shortestDecimal (x : Binary32) :
    x.roundingInterval.Holds x.shortestDecimal.value := by
  unfold shortestDecimal
  split_ifs with hzero
  · rw [← RoundingInterval.contains_iff]
    simp [RoundingInterval.contains, RoundingInterval.scaledDyadic,
      RoundingInterval.scaledDecimal, roundingInterval, hzero]
  · refine RoundingInterval.holds_shortest ?_ ?_
    · simp only [roundingInterval]
      split_ifs <;> omega
    · simp only [roundingInterval]
      omega

/-- **A finite value is what its decimal is rounded to.** -/
theorem roundsTo_shortestDecimal (hx : x.isFinite = true) :
    RoundsTo x.isNegative x.shortestDecimal.value x :=
  roundsTo_of_holds hx x.holds_shortestDecimal

end Binary32

end ShaderText
