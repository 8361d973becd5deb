import ShaderText.Proofs.CheckedCount
import ShaderText.Proofs.ShortestDecimal
import Mathlib.Data.Nat.Log
import Mathlib.Data.Rat.Floor

/-! # Integers as single precision values

`Binary32.ofInt` converts a word of 32 bits to a single precision value, `Binary32.toInt?` truncates
a value to a word. Above `2 ^ 24` not every integer is a single precision value, and the conversion
rounds: to the nearest value, and to the even one of two (`Binary32.roundsTo_ofInt`). The places
that are lost make up a quotient that is rounded (`nearestQuotient`); if it becomes too long, the
carry goes into the exponent, since the exponent stands in the bits above it.

Rounding is monotone (`Binary32.RoundsTo.magnitude_le`), and the word that comes back from a natural
number is this number exactly if the number is a single precision value
(`Binary32.toInt?_ofInt_eq_some_iff`). -/

namespace ShaderText

/-! ### Rounded quotients -/

/-- The integer nearest to a quotient, and the even one of two equally near. -/
def nearestQuotient (a d : ℕ) : ℕ :=
  if 2 * (a % d) < d ∨ 2 * (a % d) = d ∧ a / d % 2 = 0 then a / d else a / d + 1

variable {a d : ℕ}

/-- It is half of the divisor away at most, and even if it is that far. -/
theorem nearestQuotient_spec (hd : 0 < d) :
    2 * a ≤ 2 * (nearestQuotient a d * d) + d ∧ 2 * (nearestQuotient a d * d) ≤ 2 * a + d ∧
      (2 * a = 2 * (nearestQuotient a d * d) + d ∨ 2 * (nearestQuotient a d * d) = 2 * a + d →
        nearestQuotient a d % 2 = 0) := by
  have hsplit := Nat.div_add_mod' a d
  have hlt := Nat.mod_lt a hd
  unfold nearestQuotient
  split_ifs with hdown
  · omega
  · have hnext : (a / d + 1) * d = a / d * d + d := Nat.succ_mul _ _
    omega

theorem nearestQuotient_of_dvd (h : d ∣ a) (hd : 0 < d) : nearestQuotient a d = a / d := by
  rw [nearestQuotient, if_pos]
  rw [Nat.mod_eq_zero_of_dvd h]
  exact .inl hd

/-- Rounding does not leave a range of integers. -/
theorem nearestQuotient_mem {low high : ℕ} (hd : 0 < d) (hlow : low * d ≤ a)
    (hhigh : a < high * d) :
    low ≤ nearestQuotient a d ∧ nearestQuotient a d ≤ high := by
  have hlow : low ≤ a / d := (Nat.le_div_iff_mul_le hd).mpr hlow
  have hhigh : a / d < high := (Nat.div_lt_iff_lt_mul hd).mpr hhigh
  unfold nearestQuotient
  split_ifs <;> omega

/-- An interval holds a natural number if its ends are on both sides, all multiplied by a power of
two. -/
theorem RoundingInterval.holds_natCast {i : RoundingInterval} {e k m : ℕ}
    (hunit : i.unit = (e : ℤ) - k) (hlow : i.low * 2 ^ e ≤ m * 2 ^ k)
    (hhigh : m * 2 ^ k ≤ i.high * 2 ^ e)
    (hends : i.low * 2 ^ e = m * 2 ^ k ∨ m * 2 ^ k = i.high * 2 ^ e → i.closed = true) :
    i.Holds (m : ℚ) := by
  have hpower : (0 : ℚ) < 2 ^ k := by positivity
  have hend : ∀ n : ℕ, (n : ℚ) * (2 : ℚ) ^ i.unit * 2 ^ k = ((n * 2 ^ e : ℕ) : ℚ) := by
    intro n
    rw [hunit, zpow_sub₀ (by norm_num), zpow_natCast, zpow_natCast, mul_assoc,
      div_mul_cancel₀ _ hpower.ne']
    push_cast
    rfl
  have hscaled : (m : ℚ) * 2 ^ k = ((m * 2 ^ k : ℕ) : ℚ) := by push_cast; rfl
  unfold Holds
  split_ifs with hclosed
  · refine ⟨le_of_mul_le_mul_right ?_ hpower, le_of_mul_le_mul_right ?_ hpower⟩
    · rw [lowEnd, hend, hscaled]
      exact Nat.cast_le.mpr hlow
    · rw [highEnd, hend, hscaled]
      exact Nat.cast_le.mpr hhigh
  · refine ⟨lt_of_mul_lt_mul_right ?_ hpower.le, lt_of_mul_lt_mul_right ?_ hpower.le⟩
    · rw [lowEnd, hend, hscaled]
      exact Nat.cast_lt.mpr (lt_of_le_of_ne hlow fun heq => hclosed (hends (.inl heq)))
    · rw [highEnd, hend, hscaled]
      exact Nat.cast_lt.mpr (lt_of_le_of_ne hhigh fun heq => hclosed (hends (.inr heq)))

namespace Binary32

variable {x y : Binary32} {p q : ℚ} {negative : Bool} {m : ℕ} {i : Int32}

/-! ### Conversion -/

/-- The bits of the value that a natural number is rounded to: the places after its first binary
digit, under the exponent of this digit. -/
def bitsOfNat (m : ℕ) : ℕ :=
  if m = 0 then 0
  else (m.log2 + 126) * fractionCount + nearestQuotient (m * fractionCount) (2 ^ m.log2)

/-- The value that an integer is converted to. -/
def ofInt (i : Int32) : Binary32 :=
  ⟨UInt32.ofNat ((if i < 0 then 256 * fractionCount else 0) + bitsOfNat i.toInt.natAbs)⟩

/-- A number has its first digit in the range that a significand fills. -/
theorem significand_mem (hm : m ≠ 0) :
    fractionCount ≤ nearestQuotient (m * fractionCount) (2 ^ m.log2) ∧
      nearestQuotient (m * fractionCount) (2 ^ m.log2) ≤ 2 * fractionCount := by
  refine nearestQuotient_mem (Nat.two_pow_pos _) ?_ ?_
  · rw [Nat.mul_comm]
    exact Nat.mul_le_mul_right _ (Nat.log2_self_le hm)
  · have hlt : m < 2 * 2 ^ m.log2 := by
      rw [Nat.mul_comm, ← Nat.pow_succ]
      exact Nat.lt_log2_self
    calc m * fractionCount < 2 * 2 ^ m.log2 * fractionCount :=
        Nat.mul_lt_mul_of_pos_right hlt (by decide)
      _ = 2 * fractionCount * 2 ^ m.log2 := by ring

/-- What the bits of a rounded number say. -/
theorem fields_of_toNat {sign e s : ℕ} (hbits : x.bits.toNat =
      sign * (256 * fractionCount) + ((e + 126) * fractionCount + s))
    (he : e < 64) (hs : fractionCount ≤ s ∧ s ≤ 2 * fractionCount) :
    x.isFinite = true ∧
    (s < 2 * fractionCount →
      1 < x.biasedExponent ∧ x.exponent = e - 23 ∧ x.significand = s) ∧
    (s = 2 * fractionCount →
      1 < x.biasedExponent ∧ x.exponent = e - 22 ∧ x.significand = fractionCount) := by
  obtain ⟨hlow, hhigh⟩ := hs
  simp only [fractionCount] at hbits hlow hhigh
  have hfields : (s < 0x1000000 → x.biasedExponent = e + 127 ∧ x.fraction = s - 0x800000) ∧
      (s = 0x1000000 → x.biasedExponent = e + 128 ∧ x.fraction = 0) := by
    simp only [biasedExponent, fraction, fractionCount, hbits]
    omega
  have hfinite : x.biasedExponent ≠ 255 := by
    rcases Nat.lt_or_eq_of_le hhigh with hlt | heq
    · have hexponent := (hfields.1 hlt).1
      omega
    · have hexponent := (hfields.2 heq).1
      omega
  refine ⟨decide_eq_true hfinite, fun hlt => ?_, fun heq => ?_⟩
  · obtain ⟨hexponent, hfraction⟩ := hfields.1 hlt
    rw [significand, exponent, hexponent, hfraction, if_neg (by omega), fractionCount]
    omega
  · obtain ⟨hexponent, hfraction⟩ := hfields.2 heq
    rw [significand, exponent, hexponent, hfraction, if_neg (by omega), fractionCount]
    omega

/-- The ends of the interval of a value, multiplied by a number. -/
theorem roundingInterval_mul (hx : 1 < x.biasedExponent) (n : ℕ) :
    x.roundingInterval.high * n = 4 * (x.significand * n) + 2 * n ∧
    (x.roundingInterval.low * n = 4 * (x.significand * n) - 2 * n ∨
      x.significand = fractionCount ∧
        x.roundingInterval.low * n = 4 * (x.significand * n) - n) := by
  simp only [roundingInterval]
  refine ⟨by rw [Nat.add_mul, Nat.mul_assoc], ?_⟩
  split_ifs with hpower
  · refine .inr ⟨?_, by rw [Nat.sub_mul, Nat.mul_assoc, Nat.one_mul]⟩
    rw [significand, if_neg (by omega), hpower.1, Nat.add_zero]
  · exact .inl (by rw [Nat.sub_mul, Nat.mul_assoc])

/-- A number lies among those that are rounded to the value with its bits. -/
theorem holds_of_toNat {sign : ℕ} (hm : m ≠ 0) (hlog : m.log2 < 64)
    (hbits : x.bits.toNat = sign * (256 * fractionCount) + bitsOfNat m) :
    x.isFinite = true ∧ x.roundingInterval.Holds m := by
  rw [bitsOfNat, if_neg hm] at hbits
  obtain ⟨hfinite, hshort, hcarry⟩ := fields_of_toNat hbits hlog (significand_mem hm)
  obtain ⟨habove, hbelow, htie⟩ :=
    nearestQuotient_spec (a := m * fractionCount) (Nat.two_pow_pos m.log2)
  obtain ⟨hlow, hhigh⟩ := significand_mem hm
  have hfirst := Nat.log2_self_le hm
  have hnext := Nat.lt_log2_self (n := m)
  have hpos := Nat.two_pow_pos m.log2
  rw [Nat.pow_succ] at hnext
  generalize m.log2 = e at *
  generalize nearestQuotient (m * fractionCount) (2 ^ e) = s at *
  refine ⟨hfinite, ?_⟩
  rcases Nat.lt_or_eq_of_le hhigh with hlt | heq
  · obtain ⟨hbiased, hexponent, rfl⟩ := hshort hlt
    have hunit : x.roundingInterval.unit = (e : ℤ) - (25 : ℕ) := by
      simp only [roundingInterval, hexponent]
      omega
    have hclosed : x.roundingInterval.closed = decide (x.significand % 2 = 0) := rfl
    obtain ⟨hhighEnd, hlowEnd⟩ := roundingInterval_mul hbiased (2 ^ e)
    simp only [fractionCount] at *
    refine RoundingInterval.holds_natCast hunit ?_ ?_ ?_
    · rcases hlowEnd with hlowEnd | ⟨hfull, hlowEnd⟩
      · omega
      · rw [hfull] at hlowEnd
        omega
    · omega
    · rw [hclosed, decide_eq_true_eq]
      rcases hlowEnd with hlowEnd | ⟨hfull, hlowEnd⟩
      · omega
      · exact fun _ => hfull ▸ rfl
  · -- the significand is a power of two, of the next exponent
    obtain ⟨hbiased, hexponent, hsignificand⟩ := hcarry heq
    have hunit : x.roundingInterval.unit = (e : ℤ) - (24 : ℕ) := by
      simp only [roundingInterval, hexponent]
      omega
    have hclosed : x.roundingInterval.closed = true := by
      simp only [roundingInterval, hsignificand]
      decide
    obtain ⟨hhighEnd, hlowEnd⟩ := roundingInterval_mul hbiased (2 ^ e)
    rw [hsignificand] at hhighEnd hlowEnd
    rw [heq] at habove hbelow
    simp only [fractionCount] at *
    refine RoundingInterval.holds_natCast hunit (by omega) (by omega) fun _ => hclosed

theorem magnitude_of_toNat {sign : ℕ} (hm : m ≠ 0) (hlog : m.log2 < 64)
    (hbits : x.bits.toNat = sign * (256 * fractionCount) + bitsOfNat m) :
    x.magnitude * 2 ^ 23 = nearestQuotient (m * fractionCount) (2 ^ m.log2) * 2 ^ m.log2 := by
  rw [bitsOfNat, if_neg hm] at hbits
  obtain ⟨-, hshort, hcarry⟩ := fields_of_toNat hbits hlog (significand_mem hm)
  have hlast : (2 : ℚ) ^ ((m.log2 : ℤ) - 23) * 2 ^ 23 = 2 ^ m.log2 := by
    rw [← zpow_natCast, ← zpow_natCast, ← zpow_add₀ (by norm_num)]
    congr 1
    omega
  rcases Nat.lt_or_eq_of_le (significand_mem hm).2 with hlt | heq
  · obtain ⟨-, hexponent, hsignificand⟩ := hshort hlt
    rw [magnitude, hexponent, hsignificand, mul_assoc, hlast]
  · obtain ⟨-, hexponent, hsignificand⟩ := hcarry heq
    rw [magnitude, hexponent, hsignificand, heq, show (m.log2 : ℤ) - 22 = m.log2 - 23 + 1 by ring,
      zpow_add_one₀ (by norm_num), mul_assoc, mul_right_comm, hlast]
    push_cast
    ring

/-! ### Converted integers -/

theorem natAbs_toInt_le (i : Int32) : i.toInt.natAbs ≤ 2 ^ 31 := by
  have hlow := i.le_toInt
  have hhigh := i.toInt_lt
  omega

theorem log2_natAbs_lt (hi : i.toInt.natAbs ≠ 0) : i.toInt.natAbs.log2 < 32 :=
  (Nat.log2_lt hi).mpr (Nat.lt_of_le_of_lt (natAbs_toInt_le i) (by decide))

/-- The sign bit stays free. -/
theorem bitsOfNat_lt (i : Int32) : bitsOfNat i.toInt.natAbs < 256 * fractionCount := by
  unfold bitsOfNat
  split_ifs with hi
  · decide
  · have hlog := log2_natAbs_lt hi
    have hs := significand_mem hi
    simp only [fractionCount] at *
    omega

theorem toNat_ofInt (i : Int32) : (ofInt i).bits.toNat =
    (if i < 0 then 1 else 0) * (256 * fractionCount) + bitsOfNat i.toInt.natAbs := by
  have hlt := bitsOfNat_lt i
  simp only [fractionCount] at hlt
  rw [ofInt, UInt32.toNat_ofNat', Nat.mod_eq_of_lt] <;> simp only [fractionCount] <;>
    split_ifs <;> omega

theorem isNegative_ofInt (i : Int32) : (ofInt i).isNegative = decide (i < 0) := by
  have hlt := bitsOfNat_lt i
  unfold isNegative
  rw [decide_eq_decide, toNat_ofInt]
  split_ifs with hi
  · exact iff_of_true (by omega) hi
  · exact iff_of_false (by omega) hi

theorem ofInt_zero : ofInt 0 = ⟨0⟩ := by decide

theorem eq_zero_of_natAbs (hi : i.toInt.natAbs = 0) : i = 0 :=
  Int32.toInt_inj.mp (Int.natAbs_eq_zero.mp hi)

/-- **An integer is converted to the value that it is rounded to.** -/
theorem roundsTo_ofInt (i : Int32) : RoundsTo (decide (i < 0)) i.toInt.natAbs (ofInt i) := by
  rw [← isNegative_ofInt]
  by_cases hi : i.toInt.natAbs = 0
  · obtain rfl := eq_zero_of_natAbs hi
    have hzero := roundsTo_shortestDecimal (x := ofInt 0) (by decide)
    have hvalue : (ofInt 0).shortestDecimal.value = 0 := by
      simp [shortestDecimal, significand, ofInt_zero, biasedExponent, fraction, Decimal.value]
    rw [hvalue] at hzero
    simpa using hzero
  · have hlog := log2_natAbs_lt hi
    obtain ⟨hfinite, hholds⟩ := holds_of_toNat hi (by omega) (toNat_ofInt i)
    exact roundsTo_of_holds hfinite hholds

/-- It is an integer again: the values between integers are all small. -/
theorem magnitude_ofInt (i : Int32) : ∃ n : ℕ, (ofInt i).magnitude = n ∧
    (i.toInt.natAbs ≤ 2 ^ 24 → n = i.toInt.natAbs) := by
  by_cases hi : i.toInt.natAbs = 0
  · obtain rfl := eq_zero_of_natAbs hi
    exact ⟨0, by simp [magnitude, significand, ofInt_zero, biasedExponent, fraction], fun _ => rfl⟩
  have hlog := log2_natAbs_lt hi
  have hmagnitude := magnitude_of_toNat hi (by omega) (toNat_ofInt i)
  have hfirst := Nat.log2_self_le hi
  generalize i.toInt.natAbs = m at *
  have hpos : (0 : ℚ) < 2 ^ 23 := by positivity
  by_cases hdvd : 2 ^ m.log2 ∣ m * fractionCount
  · refine ⟨m, mul_right_cancel₀ hpos.ne' (hmagnitude.trans ?_), fun _ => rfl⟩
    have hexact := congrArg (Nat.cast (R := ℚ)) (Nat.div_mul_cancel hdvd)
    push_cast [fractionCount] at hexact
    rw [nearestQuotient_of_dvd hdvd (Nat.two_pow_pos _), fractionCount, hexact]
    norm_num
  · have hlong : 24 ≤ m.log2 := by
      by_contra hshort
      have hpower : (2 : ℕ) ^ m.log2 ∣ 2 ^ 23 := Nat.pow_dvd_pow 2 (by omega)
      exact hdvd (Dvd.dvd.mul_left (by simpa [fractionCount] using hpower) m)
    refine ⟨nearestQuotient (m * fractionCount) (2 ^ m.log2) * 2 ^ (m.log2 - 23),
      mul_right_cancel₀ hpos.ne' (hmagnitude.trans ?_), fun hle => ?_⟩
    · push_cast
      rw [mul_assoc, ← pow_add]
      congr 2
      omega
    · -- the only such number is a power of two
      have hpower : 2 ^ 24 ≤ 2 ^ m.log2 := Nat.pow_le_pow_right (by decide) hlong
      have heq : 2 ^ m.log2 = m := by omega
      exact absurd (Dvd.intro fractionCount (by rw [heq])) hdvd

/-! ### Monotonicity -/

/-- **Rounding is monotone.** -/
theorem RoundsTo.magnitude_le (hx : RoundsTo negative p x) (hy : RoundsTo negative q y)
    (h : p ≤ q) : x.magnitude ≤ y.magnitude := by
  by_contra hlt
  rw [not_le] at hlt
  have hp : y.magnitude + x.magnitude ≤ 2 * p := by
    by_contra hnear
    exact absurd (hx.nearest y hy.isFinite)
      (not_le.mpr (abs_sub_lt_of_lt hlt (not_le.mp hnear)))
  have hq : 2 * q ≤ x.magnitude + y.magnitude := by
    by_contra hnear
    exact absurd (hy.nearest x hx.isFinite)
      (not_le.mpr (abs_sub_lt_of_gt hlt (not_le.mp hnear)))
  obtain rfl : p = q := le_antisymm h (by linarith)
  exact hlt.ne (hx.unique hy ▸ rfl)

/-- A value is rounded to itself. -/
theorem RoundsTo.magnitude_eq (hx : RoundsTo negative q x) (hy : y.isFinite = true)
    (h : y.magnitude = q) : x.magnitude = q := by
  have hnear := hx.nearest y hy
  rw [h, sub_self, abs_zero] at hnear
  exact (sub_eq_zero.mp (abs_nonpos_iff.mp hnear)).symm

/-! ### Back to integers -/

/-- The number that a finite value is. -/
def number (x : Binary32) : ℚ := if x.isNegative then -x.magnitude else x.magnitude

/-- The integer that a value is truncated to, if it is finite and the integer is a word. -/
def toInt? (x : Binary32) : Option Int32 :=
  let n := if 0 ≤ x.number then ⌊x.number⌋ else ⌈x.number⌉
  if x.isFinite ∧ IsInt32 n then some (Int32.ofInt n) else none

/-- An integer that is a single precision value. -/
def IsSingle (k : ℤ) : Prop := ∃ x : Binary32, x.isFinite = true ∧ x.number = k

theorem magnitude_nonneg (x : Binary32) : 0 ≤ x.magnitude := by
  unfold magnitude
  positivity

theorem abs_number (x : Binary32) : |x.number| = x.magnitude := by
  unfold number
  split_ifs
  · rw [abs_neg, abs_of_nonneg x.magnitude_nonneg]
  · rw [abs_of_nonneg x.magnitude_nonneg]

theorem number_ofInt_of_nonneg (hi : 0 ≤ i) : (ofInt i).number = (ofInt i).magnitude := by
  rw [number, isNegative_ofInt, if_neg]
  simpa using Int32.not_lt.mpr hi

/-- A number below zero stays there: one is nearer to it than zero. -/
theorem number_ofInt_of_neg (hi : i < 0) : (ofInt i).number < 0 := by
  rw [number, isNegative_ofInt, if_pos (decide_eq_true hi), neg_lt_zero]
  by_contra hzero
  obtain ⟨one, hone, hexact⟩ := magnitude_ofInt 1
  rw [hexact (by decide), show (Int32.toInt 1).natAbs = 1 by decide, Nat.cast_one] at hone
  have hnear := (roundsTo_ofInt i).nearest (ofInt 1) (roundsTo_ofInt 1).isFinite
  have hfar : (1 : ℚ) ≤ i.toInt.natAbs := by
    have hneg := Int32.lt_iff_toInt_lt.mp hi
    exact_mod_cast Int.natAbs_pos.mpr hneg.ne
  rw [le_antisymm (not_lt.mp hzero) (magnitude_nonneg _), hone, sub_zero, Nat.abs_cast,
    abs_of_nonneg (by simpa using hfar)] at hnear
  norm_num at hnear

theorem natAbs_cast_of_nonneg (hi : 0 ≤ i) : (i.toInt.natAbs : ℚ) = i.toInt := by
  rw [Nat.cast_natAbs, abs_of_nonneg (Int32.le_iff_toInt_le.mp hi)]

theorem number_ofInt_le {j : Int32} (hi : 0 ≤ i) (h : i ≤ j) :
    (ofInt i).number ≤ (ofInt j).number := by
  have hj : 0 ≤ j := Int32.le_trans hi h
  have hri := roundsTo_ofInt i
  have hrj := roundsTo_ofInt j
  rw [decide_eq_false (Int32.not_lt.mpr hi), natAbs_cast_of_nonneg hi] at hri
  rw [decide_eq_false (Int32.not_lt.mpr hj), natAbs_cast_of_nonneg hj] at hrj
  rw [number_ofInt_of_nonneg hi, number_ofInt_of_nonneg hj]
  exact hri.magnitude_le hrj (Int.cast_le.mpr (Int32.le_iff_toInt_le.mp h))

/-- Natural numbers that are rounded to the same number are rounded to the same value. -/
theorem ofInt_eq_of_number_eq {j : Int32} (hi : 0 ≤ i) (hj : 0 ≤ j)
    (h : (ofInt i).number = (ofInt j).number) : ofInt i = ofInt j := by
  rw [number_ofInt_of_nonneg hi, number_ofInt_of_nonneg hj, magnitude_inj] at h
  refine eq_of_units_eq ?_ h
  rw [isNegative_ofInt, isNegative_ofInt, decide_eq_false (Int32.not_lt.mpr hi),
    decide_eq_false (Int32.not_lt.mpr hj)]

/-- What comes back from a natural number is the integer that it was rounded to. -/
theorem toInt?_ofInt (hi : 0 ≤ i) : ∃ n : ℕ, (ofInt i).number = n ∧
    (ofInt i).toInt? = if n < 2 ^ 31 then some (Int32.ofInt n) else none := by
  obtain ⟨n, hn, -⟩ := magnitude_ofInt i
  rw [← number_ofInt_of_nonneg hi] at hn
  refine ⟨n, hn, ?_⟩
  have hword : IsInt32 n ↔ n < 2 ^ 31 := by
    unfold IsInt32
    omega
  simp only [toInt?, hn, Nat.cast_nonneg, if_true, Int.floor_natCast, (roundsTo_ofInt i).isFinite,
    true_and, hword]

/-- **A natural number survives the conversion and back exactly if it is a single precision
value.** -/
theorem toInt?_ofInt_eq_some_iff (hi : 0 ≤ i) : (ofInt i).toInt? = some i ↔ IsSingle i.toInt := by
  obtain ⟨n, hn, hback⟩ := toInt?_ofInt hi
  rw [hback]
  constructor
  · intro h
    split_ifs at h with hlt
    have hsame := congrArg Int32.toInt (Option.some.inj h)
    rw [Int32.toInt_ofInt_of_le (by omega) (by omega)] at hsame
    exact ⟨ofInt i, (roundsTo_ofInt i).isFinite, by rw [hn, ← hsame, Int.cast_natCast]⟩
  · rintro ⟨x, hx, hnumber⟩
    have hmagnitude : x.magnitude = i.toInt.natAbs := by
      rw [← abs_number, hnumber, Nat.cast_natAbs, Int.cast_abs]
    have hexact := (roundsTo_ofInt i).magnitude_eq hx hmagnitude
    rw [← number_ofInt_of_nonneg hi, hn, Nat.cast_inj] at hexact
    have hcast : (n : ℤ) = i.toInt := by
      have hnonneg := Int32.le_iff_toInt_le.mp hi
      simp only [Int32.toInt_zero] at hnonneg
      omega
    have hlt := i.toInt_lt
    rw [if_pos (by omega), hcast, Int32.ofInt_toInt]

/-- The integers up to the length of a significand are such values. -/
theorem isSingle_of_le (hi : 0 ≤ i) (h : i.toInt ≤ 2 ^ 24) : IsSingle i.toInt := by
  obtain ⟨n, hn, hexact⟩ := magnitude_ofInt i
  have hnonneg := Int32.le_iff_toInt_le.mp hi
  simp only [Int32.toInt_zero] at hnonneg
  refine ⟨ofInt i, (roundsTo_ofInt i).isFinite, ?_⟩
  rw [number_ofInt_of_nonneg hi, hn, hexact (by omega), natAbs_cast_of_nonneg hi]

end Binary32

end ShaderText
