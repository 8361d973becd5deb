import ShaderText.Float.Binary32
import Mathlib.Algebra.Order.Field.Basic
import Mathlib.Algebra.Order.Field.Power
import Mathlib.Data.Rat.Cast.Order
import Mathlib.Tactic.Linarith
import Mathlib.Tactic.NormNum
import Mathlib.Tactic.Positivity
import Mathlib.Tactic.Ring

/-! # Rounding to single precision

`Binary32.RoundsTo` is rounding to nearest, ties to even: what a number of a sign and a magnitude
becomes as a single precision value, unless it is so large that it becomes an infinity.

Every finite magnitude is a natural number of least positive values (`Binary32.units`), and above a
value the next one is a place away (`Binary32.add_place_le_units`). So distances compare through
natural numbers, and **a number is rounded to one value at most** (`Binary32.RoundsTo.unique`): of
two neighbours one is odd. -/

namespace ShaderText.Binary32

variable {x y : Binary32} {q : ℚ} {negative : Bool}

/-! ### Fields -/

theorem fraction_lt (x : Binary32) : x.fraction < fractionCount :=
  Nat.mod_lt _ (by decide)

theorem biasedExponent_lt (x : Binary32) : x.biasedExponent < 256 := Nat.mod_lt _ (by decide)

theorem biasedExponent_lt_of_isFinite (hx : x.isFinite = true) : x.biasedExponent < 255 := by
  have hlt := x.biasedExponent_lt
  have hne : x.biasedExponent ≠ 255 := by simpa [isFinite] using hx
  omega

theorem significand_lt (x : Binary32) : x.significand < 2 * fractionCount := by
  have hfraction := x.fraction_lt
  unfold significand
  split <;> omega

/-- Only the values with the least exponent have a small significand. -/
theorem fractionCount_le_significand (hx : 1 < x.biasedExponent) :
    fractionCount ≤ x.significand := by
  rw [significand, if_neg (by omega)]
  omega

/-- A value is made of its sign, its exponent and its fraction. -/
theorem eq_of_fields (hsign : x.isNegative = y.isNegative)
    (hexponent : x.biasedExponent = y.biasedExponent) (hfraction : x.fraction = y.fraction) :
    x = y := by
  obtain ⟨a⟩ := x
  obtain ⟨b⟩ := y
  have ha := a.toNat_lt
  have hb := b.toNat_lt
  have hsign : 256 * fractionCount ≤ a.toNat ↔ 256 * fractionCount ≤ b.toNat :=
    decide_eq_decide.mp hsign
  simp only [biasedExponent, fraction, fractionCount] at hsign hexponent hfraction
  exact congrArg _ (UInt32.toNat_inj.mp (by omega))

/-! ### Magnitudes -/

/-- The magnitude of a finite value. -/
def magnitude (x : Binary32) : ℚ := x.significand * (2 : ℚ) ^ x.exponent

/-- The last place of a value, counted in least positive values. -/
def place (x : Binary32) : Nat := 2 ^ (max x.biasedExponent 1 - 1)

/-- The magnitude, counted in least positive values. -/
def units (x : Binary32) : Nat := x.significand * x.place

theorem place_pos (x : Binary32) : 0 < x.place := Nat.two_pow_pos _

theorem two_zpow_exponent (x : Binary32) :
    (2 : ℚ) ^ x.exponent = (x.place : ℚ) * (2 : ℚ) ^ (-149 : ℤ) := by
  have hexponent : x.exponent = (max x.biasedExponent 1 - 1 : ℕ) + (-149 : ℤ) := by
    unfold exponent
    omega
  rw [hexponent, zpow_add₀ (by norm_num), zpow_natCast, place, Nat.cast_pow, Nat.cast_ofNat]

theorem magnitude_eq (x : Binary32) : x.magnitude = (x.units : ℚ) * (2 : ℚ) ^ (-149 : ℤ) := by
  rw [magnitude, two_zpow_exponent, units, Nat.cast_mul, mul_assoc]

theorem magnitude_lt_iff : x.magnitude < y.magnitude ↔ x.units < y.units := by
  rw [magnitude_eq, magnitude_eq, mul_lt_mul_iff_of_pos_right (by positivity), Nat.cast_lt]

theorem magnitude_inj : x.magnitude = y.magnitude ↔ x.units = y.units := by
  rw [magnitude_eq, magnitude_eq, mul_left_inj' (by positivity), Nat.cast_inj]

/-! ### Neighbours -/

/-- The last place of `x` divides that of `y`, or else `y` is below each value that has the place of
`x` and a full significand. -/
theorem place_cases (x y : Binary32) :
    x.place ∣ y.place ∨
      (1 < x.biasedExponent ∧ 2 * y.units + x.place ≤ 2 * (fractionCount * x.place)) := by
  rcases Nat.lt_or_ge (max y.biasedExponent 1) (max x.biasedExponent 1) with hlt | hle
  · refine .inr ⟨by omega, ?_⟩
    have hplace : 2 * y.place ≤ x.place := by
      unfold place
      rw [mul_comm, ← Nat.pow_succ]
      exact Nat.pow_le_pow_right (by decide) (by omega)
    calc 2 * y.units + x.place = y.significand * (2 * y.place) + x.place := by unfold units; ring
      _ ≤ y.significand * x.place + x.place :=
        Nat.add_le_add_right (Nat.mul_le_mul_left _ hplace) _
      _ = (y.significand + 1) * x.place := by ring
      _ ≤ 2 * fractionCount * x.place := Nat.mul_le_mul_right _ y.significand_lt
      _ = 2 * (fractionCount * x.place) := Nat.mul_assoc _ _ _
  · exact .inl (Nat.pow_dvd_pow 2 (by omega))

theorem place_dvd_units (x : Binary32) : x.place ∣ x.units := Nat.dvd_mul_left _ _

/-- A full significand makes a value at least so many places. -/
theorem le_units_of_lt (hx : 1 < x.biasedExponent) : fractionCount * x.place ≤ x.units :=
  Nat.mul_le_mul_right _ (fractionCount_le_significand hx)

/-- Of two multiples of a place the larger one is a place above. -/
theorem add_place_le {a b p : Nat} (ha : p ∣ a) (hb : p ∣ b) (h : a < b) : a + p ≤ b := by
  obtain ⟨m, rfl⟩ := ha
  obtain ⟨n, rfl⟩ := hb
  rw [← Nat.mul_succ]
  exact Nat.mul_le_mul_left _ (Nat.lt_of_mul_lt_mul_left h)

/-- **Above a value the next one is a place away.** -/
theorem add_place_le_units (h : x.units < y.units) : x.units + x.place ≤ y.units := by
  rcases place_cases x y with hplace | ⟨hx, hbelow⟩
  · exact add_place_le x.place_dvd_units (hplace.trans y.place_dvd_units) h
  · have hfull := le_units_of_lt hx
    omega

/-- **Below a value the next one is a place away,** but half a place below a power of two. -/
theorem two_mul_units_add_place_le (h : y.units < x.units) :
    2 * y.units + x.place ≤ 2 * x.units ∧
      (x.fraction = 0 ∧ 1 < x.biasedExponent ∨ y.units + x.place ≤ x.units) := by
  rcases place_cases x y with hplace | ⟨hx, hbelow⟩
  · have hstep := add_place_le (hplace.trans y.place_dvd_units) x.place_dvd_units h
    exact ⟨by omega, .inr hstep⟩
  · have hfull := le_units_of_lt hx
    refine ⟨by omega, ?_⟩
    by_cases hfraction : x.fraction = 0
    · exact .inl ⟨hfraction, hx⟩
    · have hmore : (fractionCount + 1) * x.place ≤ x.units := by
        refine Nat.mul_le_mul_right _ ?_
        rw [significand, if_neg (by omega)]
        omega
      rw [Nat.succ_mul] at hmore
      exact .inr (by omega)

theorem place_dvd_of_units_eq (h : x.units = y.units) : x.place ∣ y.place := by
  rcases place_cases x y with hplace | ⟨hx, hbelow⟩
  · exact hplace
  · have hfull := le_units_of_lt hx
    have hpos := x.place_pos
    omega

/-- Values of one sign with the same magnitude are the same. -/
theorem eq_of_units_eq (hsign : x.isNegative = y.isNegative) (h : x.units = y.units) : x = y := by
  have hplace := Nat.dvd_antisymm (place_dvd_of_units_eq h) (place_dvd_of_units_eq h.symm)
  have hsignificand : x.significand = y.significand := by
    rw [units, units, ← hplace] at h
    exact Nat.eq_of_mul_eq_mul_right x.place_pos h
  have hexponents := Nat.pow_right_injective (Nat.le_refl 2) hplace
  have hx := x.fraction_lt
  have hy := y.fraction_lt
  simp only [significand] at hsignificand
  split_ifs at hsignificand <;> exact eq_of_fields hsign (by omega) (by omega)

/-- A value with an even significand is followed by one with an odd significand. -/
theorem exists_next (hx : x.isFinite = true) (heven : x.significand % 2 = 0) :
    ∃ z : Binary32, z.isNegative = x.isNegative ∧ z.isFinite = true ∧
      z.units = x.units + x.place ∧ z.significand % 2 = 1 := by
  have hfields : x.biasedExponent < 255 ∧ x.fraction % 2 = 0 := by
    refine ⟨biasedExponent_lt_of_isFinite hx, ?_⟩
    unfold significand at heven
    split at heven
    · exact heven
    · simp only [fractionCount] at heven
      omega
  obtain ⟨bits⟩ := x
  have hlt := bits.toNat_lt
  simp only [biasedExponent, fraction, fractionCount] at hfields
  have hsucc : (bits + 1).toNat = bits.toNat + 1 := by
    rw [UInt32.toNat_add, Nat.mod_eq_of_lt (by simp only [UInt32.toNat_one]; omega)]
    rfl
  have hfraction : fraction ⟨bits + 1⟩ = fraction ⟨bits⟩ + 1 := by
    simp only [fraction, fractionCount, hsucc]
    omega
  have hexponent : biasedExponent ⟨bits + 1⟩ = biasedExponent ⟨bits⟩ := by
    simp only [biasedExponent, fractionCount, hsucc]
    omega
  have hplace : place ⟨bits + 1⟩ = place ⟨bits⟩ := by rw [place, place, hexponent]
  have hsignificand : significand ⟨bits + 1⟩ = significand ⟨bits⟩ + 1 := by
    simp only [significand, hfraction, hexponent]
    split_ifs <;> rfl
  refine ⟨⟨bits + 1⟩, ?_, ?_, ?_, ?_⟩
  · refine decide_eq_decide.mpr ?_
    simp only [hsucc, fractionCount]
    omega
  · simpa only [isFinite, hexponent] using hx
  · rw [units, units, hplace, hsignificand, Nat.succ_mul]
  · omega

/-! ### Rounding -/

/-- The least magnitude that is rounded to an infinity. It lies half a place above the largest
finite value. -/
def overflow : ℚ := 2 ^ 128 - 2 ^ 103

/-- The number with a sign and a magnitude `q` is rounded to `x`, the nearest finite value, and to
an even one if two are equally near. -/
structure RoundsTo (negative : Bool) (q : ℚ) (x : Binary32) : Prop where
  isNegative : x.isNegative = negative
  isFinite : x.isFinite = true
  inRange : q < overflow
  nearest : ∀ y : Binary32, y.isFinite = true → |q - x.magnitude| ≤ |q - y.magnitude|
  even : ∀ y : Binary32, y.isFinite = true → y.magnitude ≠ x.magnitude →
    |q - x.magnitude| = |q - y.magnitude| → x.significand % 2 = 0

/-- The nearer of two numbers is the one on the same side of the middle between them. -/
theorem abs_sub_le_of_le {q a b : ℚ} (hab : a ≤ b) (hq : 2 * q ≤ a + b) : |q - a| ≤ |q - b| := by
  rw [abs_sub_comm q b]
  exact (abs_le.mpr ⟨by linarith, by linarith⟩).trans (le_abs_self (b - q))

theorem abs_sub_le_of_ge {q a b : ℚ} (hab : b ≤ a) (hq : a + b ≤ 2 * q) : |q - a| ≤ |q - b| :=
  (abs_le.mpr ⟨by linarith, by linarith⟩).trans (le_abs_self (q - b))

theorem abs_sub_lt_of_lt {q a b : ℚ} (hab : a < b) (hq : 2 * q < a + b) : |q - a| < |q - b| := by
  rw [abs_sub_comm q b]
  exact (abs_lt.mpr ⟨by linarith, by linarith⟩).trans_le (le_abs_self (b - q))

theorem abs_sub_lt_of_gt {q a b : ℚ} (hab : b < a) (hq : a + b < 2 * q) : |q - a| < |q - b| :=
  (abs_lt.mpr ⟨by linarith, by linarith⟩).trans_le (le_abs_self (q - b))

/-- A number is equally far from two others only in the middle between them. -/
theorem two_mul_eq_of_abs_sub_eq {q a b : ℚ} (hne : a ≠ b) (h : |q - a| = |q - b|) :
    2 * q = a + b := by
  rcases abs_eq_abs.mp h with hsame | hopposite
  · exact absurd (by linarith) hne
  · linarith

namespace RoundsTo

variable (hx : RoundsTo negative q x) (hy : RoundsTo negative q y)

include hx hy

theorem abs_sub_eq : |q - x.magnitude| = |q - y.magnitude| :=
  le_antisymm (hx.nearest y hy.isFinite) (hy.nearest x hx.isFinite)

/-- Of two values that a number is rounded to none is below the other: in between there would be a
third one, nearer or odd. -/
theorem not_units_lt : ¬ x.units < y.units := by
  intro hlt
  have hmagnitude := magnitude_lt_iff.mpr hlt
  have hmiddle := two_mul_eq_of_abs_sub_eq hmagnitude.ne (abs_sub_eq hx hy)
  have hxeven := hx.even y hy.isFinite hmagnitude.ne' (abs_sub_eq hx hy)
  have hyeven := hy.even x hx.isFinite hmagnitude.ne (abs_sub_eq hx hy).symm
  obtain ⟨z, hsign, hz, hnext, hodd⟩ := exists_next hx.isFinite hxeven
  rcases Nat.lt_or_eq_of_le (hnext ▸ add_place_le_units hlt) with hbetween | hsame
  · have hbelow := magnitude_lt_iff.mpr hbetween
    have habove : x.magnitude < z.magnitude :=
      magnitude_lt_iff.mpr (by have hpos := x.place_pos; omega)
    have hnearer : |q - z.magnitude| < |q - y.magnitude| := abs_sub_lt_of_lt hbelow (by linarith)
    exact absurd (hy.nearest z hz) (not_le.mpr hnearer)
  · obtain rfl : z = y :=
      eq_of_units_eq (hsign.trans (hx.isNegative.trans hy.isNegative.symm)) hsame
    omega

/-- **Rounding has one result at most.** -/
theorem unique : x = y :=
  eq_of_units_eq (hx.isNegative.trans hy.isNegative.symm)
    (Nat.le_antisymm (Nat.not_lt.mp (not_units_lt hy hx)) (Nat.not_lt.mp (not_units_lt hx hy)))

end RoundsTo

end ShaderText.Binary32
