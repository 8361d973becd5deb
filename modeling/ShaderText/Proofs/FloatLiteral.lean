import ShaderText.Proofs.Literal
import ShaderText.Proofs.ShortestDecimal
import Mathlib.Data.List.TakeWhile

/-! # Float literals read back

`decimalNumber` reads the text of an unsigned decimal, which may have a point and an exponent. It
reads what a `Decimal` is written as, positionally or with an exponent, as the number that the
decimal stands for (`Decimal.decimalNumber_literal`), and the text is always a numeral of a float
(`IsFloatNumeral`): an integer literal it never is. Since that number is rounded to the value it was
made for, **a literal reads back as the value it spells (`Binary32.literal_reads_back`).** -/

namespace ShaderText

/-! ### Reading decimals -/

/-- Some digits. -/
def IsDigits (text : List Char) : Prop := text ≠ [] ∧ ∀ ch ∈ text, ch.isDigit = true

/-- The numerals of floats without a sign: they have a point, an exponent or both. -/
inductive IsFloatNumeral : List Char → Prop
  | point {whole places : List Char} (hwhole : IsDigits whole) (hplaces : IsDigits places) :
    IsFloatNumeral (whole ++ '.' :: places)
  | power {first : Char} {exponent : List Char} (hfirst : first.isDigit = true)
    (hexponent : IsDigits exponent) : IsFloatNumeral (first :: 'e' :: exponent)
  | pointPower {first : Char} {places exponent : List Char} (hfirst : first.isDigit = true)
    (hplaces : IsDigits places) (hexponent : IsDigits exponent) :
    IsFloatNumeral (first :: '.' :: places ++ 'e' :: exponent)

/-- The parts of a text before and after the first `mark`. -/
def cutAt (mark : Char) (text : List Char) : List Char × List Char :=
  (text.takeWhile (· ≠ mark), (text.dropWhile (· ≠ mark)).drop 1)

/-- The number that a decimal text without a sign denotes: all its digits are counted, then moved by
the exponent and by the number of places after the point. -/
def decimalNumber (text : List Char) : ℚ :=
  let (mantissa, exponent) := cutAt 'e' text
  let (whole, places) := cutAt '.' mantissa
  Nat.ofDigitChars 10 (whole ++ places) 0 *
    (10 : ℚ) ^ ((Nat.ofDigitChars 10 exponent 0 : ℤ) - places.length)

theorem cutAt_append {mark : Char} {front back : List Char} (h : mark ∉ front) :
    cutAt mark (front ++ mark :: back) = (front, back) := by
  have hfront : ∀ ch ∈ front, decide (ch ≠ mark) = true := fun ch hch =>
    decide_eq_true fun heq => h (heq ▸ hch)
  rw [cutAt, List.takeWhile_append_of_pos hfront, List.dropWhile_append_of_pos hfront,
    List.takeWhile_cons_of_neg (by simp), List.dropWhile_cons_of_neg (by simp), List.append_nil,
    List.drop_one, List.tail_cons]

theorem cutAt_of_not_mem {mark : Char} {text : List Char} (h : mark ∉ text) :
    cutAt mark text = (text, []) := by
  have htext : ∀ ch ∈ text, decide (ch ≠ mark) = true := fun ch hch =>
    decide_eq_true fun heq => h (heq ▸ hch)
  rw [cutAt, List.takeWhile_eq_self_iff.mpr htext, List.dropWhile_eq_nil_iff.mpr htext,
    List.drop_nil]

theorem IsDigits.not_mem {text : List Char} {mark : Char} (h : IsDigits text)
    (hmark : mark.isDigit = false) : mark ∉ text := fun hmem => by
  rw [h.2 mark hmem] at hmark
  cases hmark

theorem IsDigits.append {front back : List Char} (hfront : IsDigits front)
    (hback : ∀ ch ∈ back, ch.isDigit = true) : IsDigits (front ++ back) :=
  ⟨List.append_ne_nil_of_left_ne_nil hfront.1 _,
    List.forall_mem_append.mpr ⟨hfront.2, hback⟩⟩

theorem isDigits_toDigits (n : Nat) : IsDigits (Nat.toDigits 10 n) :=
  ⟨Nat.toDigits_ne_nil, fun _ h => Nat.isDigit_of_mem_toDigits (by decide) (by decide) h⟩

theorem decimalNumber_of_cutAt {text mantissa exponent whole places : List Char}
    (htext : cutAt 'e' text = (mantissa, exponent))
    (hmantissa : cutAt '.' mantissa = (whole, places)) :
    decimalNumber text = Nat.ofDigitChars 10 (whole ++ places) 0 *
      (10 : ℚ) ^ ((Nat.ofDigitChars 10 exponent 0 : ℤ) - places.length) := by
  simp only [decimalNumber, htext, hmantissa]

/-- In a mantissa no exponent begins. -/
theorem letter_not_mem_mantissa {whole places : List Char} (hwhole : IsDigits whole)
    (hplaces : ∀ ch ∈ places, ch.isDigit = true) : 'e' ∉ whole ++ '.' :: places := by
  rw [List.mem_append, List.mem_cons]
  rintro (hmem | hmem | hmem)
  · exact hwhole.not_mem (by decide) hmem
  · exact absurd hmem (by decide)
  · exact absurd (hplaces _ hmem) (by decide)

theorem decimalNumber_point {whole places : List Char} (hwhole : IsDigits whole)
    (hplaces : IsDigits places) :
    decimalNumber (whole ++ '.' :: places) =
      Nat.ofDigitChars 10 (whole ++ places) 0 * (10 : ℚ) ^ (-places.length : ℤ) := by
  rw [decimalNumber_of_cutAt (cutAt_of_not_mem (letter_not_mem_mantissa hwhole hplaces.2))
    (cutAt_append (hwhole.not_mem (by decide))), Nat.ofDigitChars_nil, Nat.cast_zero, zero_sub]

theorem decimalNumber_power {whole exponent : List Char} (hwhole : IsDigits whole) :
    decimalNumber (whole ++ 'e' :: exponent) =
      Nat.ofDigitChars 10 whole 0 * (10 : ℚ) ^ (Nat.ofDigitChars 10 exponent 0 : ℤ) := by
  rw [decimalNumber_of_cutAt (cutAt_append (hwhole.not_mem (by decide)))
    (cutAt_of_not_mem (hwhole.not_mem (by decide))), List.append_nil, List.length_nil,
    Nat.cast_zero, sub_zero]

theorem decimalNumber_pointPower {whole places exponent : List Char} (hwhole : IsDigits whole)
    (hplaces : IsDigits places) :
    decimalNumber (whole ++ '.' :: places ++ 'e' :: exponent) =
      Nat.ofDigitChars 10 (whole ++ places) 0 *
        (10 : ℚ) ^ ((Nat.ofDigitChars 10 exponent 0 : ℤ) - places.length) :=
  decimalNumber_of_cutAt (cutAt_append (letter_not_mem_mantissa hwhole hplaces.2))
    (cutAt_append (hwhole.not_mem (by decide)))

/-! ### Decimals -/

namespace Decimal

variable {d : Decimal}

theorem ofDigitChars_digits (d : Decimal) : Nat.ofDigitChars 10 d.digits 0 = d.coefficient :=
  Nat.ofDigitChars_toDigits (by decide) (by decide)

theorem isDigits_digits (d : Decimal) : IsDigits d.digits := isDigits_toDigits d.coefficient

theorem isDigit_of_mem_zeros {n : Nat} {ch : Char} (h : ch ∈ List.replicate n '0') :
    ch.isDigit = true := by
  rw [List.eq_of_mem_replicate h]
  decide

/-- A decimal in place is some digits around the point. They count units of the last place. -/
theorem positional_cases (d : Decimal) : ∃ whole places : List Char,
    d.positional = whole ++ '.' :: places ∧ IsDigits whole ∧ IsDigits places ∧
      (Nat.ofDigitChars 10 (whole ++ places) 0 : ℚ) * (10 : ℚ) ^ (-places.length : ℤ) = d.value := by
  rcases Int.lt_or_le d.exponent 0 with hneg | hpos
  · -- zeros in front make the digits long enough to fill the places
    obtain ⟨places, hplaces⟩ := Int.exists_eq_neg_ofNat hneg.le
    have hexponent : (-d.exponent).toNat = places := by omega
    generalize hpadded : List.replicate (places + 1 - d.digits.length) '0' ++ d.digits = padded
    have hlength : places < padded.length := by
      rw [← hpadded, List.length_append, List.length_replicate]
      omega
    have hdigits : ∀ ch ∈ padded, ch.isDigit = true := by
      rw [← hpadded]
      exact List.forall_mem_append.mpr ⟨fun _ => isDigit_of_mem_zeros, d.isDigits_digits.2⟩
    have hrest : (padded.drop (padded.length - places)).length = places := by
      rw [List.length_drop]
      omega
    refine ⟨padded.take (padded.length - places), padded.drop (padded.length - places),
      ?_, ⟨?_, fun ch hch => hdigits ch (List.mem_of_mem_take hch)⟩,
      ⟨?_, fun ch hch => hdigits ch (List.mem_of_mem_drop hch)⟩, ?_⟩
    · simp only [positional, if_neg (Int.not_le.mpr hneg), hexponent, hpadded]
    · exact List.ne_nil_of_length_pos (by rw [List.length_take]; omega)
    · exact List.ne_nil_of_length_pos (by omega)
    · rw [List.take_append_drop, hrest, ← hpadded, Nat.ofDigitChars_append,
        Nat.ofDigitChars_replicate_zero, Nat.mul_zero, ofDigitChars_digits, value, hplaces]
  · obtain ⟨zeros, hzeros⟩ := Int.eq_ofNat_of_zero_le hpos
    refine ⟨d.digits ++ List.replicate zeros '0', ['0'], ?_,
      d.isDigits_digits.append fun _ => isDigit_of_mem_zeros,
      ⟨List.cons_ne_nil _ _, by decide⟩, ?_⟩
    · rw [positional, if_pos hpos, hzeros, Int.toNat_natCast]
    · have hcount : Nat.ofDigitChars 10 (d.digits ++ List.replicate zeros '0' ++ ['0']) 0 =
          10 * (10 ^ zeros * d.coefficient) := by
        rw [Nat.ofDigitChars_append, Nat.ofDigitChars_append, ofDigitChars_digits,
          Nat.ofDigitChars_replicate_zero]
        rfl
      rw [hcount, value, hzeros, zpow_natCast]
      push_cast
      rw [List.length_singleton, Nat.cast_one, zpow_neg_one]
      ring

/-- A decimal with an exponent is its first digit, the others after a point, and the power of ten
that the first one counts. -/
theorem scientific_cases (hd : scientificFrom ≤ d.leadingExponent) :
    IsFloatNumeral d.scientific ∧ decimalNumber d.scientific = d.value := by
  obtain ⟨leading, hleading⟩ := Int.eq_ofNat_of_zero_le (Int.le_trans (by decide) hd)
  have hpower : d.leadingExponent.repr.toList = Nat.toDigits 10 leading := by
    rw [hleading, int_repr_of_nonneg (Int.natCast_nonneg _), Int.natAbs_natCast,
      Nat.repr_eq_ofList_toDigits, String.toList_ofList]
  have hread : Nat.ofDigitChars 10 (Nat.toDigits 10 leading) 0 = leading :=
    Nat.ofDigitChars_toDigits (by decide) (by decide)
  have hcoefficient := d.ofDigitChars_digits
  obtain ⟨hne, hdigits⟩ := d.isDigits_digits
  obtain ⟨first, places, hsplit⟩ := List.exists_cons_of_ne_nil hne
  have hmoved : (leading : ℤ) - places.length = d.exponent := by
    rw [← hleading, leadingExponent, hsplit, List.length_cons]
    push_cast
    ring
  rw [hsplit] at hdigits hcoefficient
  obtain ⟨hfirst, hplaces⟩ := List.forall_mem_cons.mp hdigits
  have hwhole : IsDigits [first] := ⟨List.cons_ne_nil _ _, by simpa using hfirst⟩
  rw [scientific, hpower, hsplit, value, ← hmoved, ← hcoefficient]
  cases places with
  | nil =>
    refine ⟨.power hfirst (isDigits_toDigits leading), (decimalNumber_power hwhole).trans ?_⟩
    rw [hread, List.length_nil, Nat.cast_zero, sub_zero]
  | cons next rest =>
    have hmore : IsDigits (next :: rest) := ⟨List.cons_ne_nil _ _, hplaces⟩
    refine ⟨.pointPower hfirst hmore (isDigits_toDigits leading),
      (decimalNumber_pointPower hwhole hmore).trans ?_⟩
    rw [hread, List.singleton_append]

theorem isFloatNumeral_literal (d : Decimal) : IsFloatNumeral d.literal := by
  unfold literal
  split_ifs with hd
  · obtain ⟨whole, places, htext, hwhole, hplaces, -⟩ := d.positional_cases
    rw [htext]
    exact .point hwhole hplaces
  · exact (scientific_cases (Int.not_lt.mp hd)).1

/-- **What a decimal is written as denotes the number it stands for.** -/
theorem decimalNumber_literal (d : Decimal) : decimalNumber d.literal = d.value := by
  unfold literal
  split_ifs with hd
  · obtain ⟨whole, places, htext, hwhole, hplaces, hvalue⟩ := d.positional_cases
    rw [htext, decimalNumber_point hwhole hplaces, hvalue]
  · exact (scientific_cases (Int.not_lt.mp hd)).2

end Decimal

/-! ### Literals -/

theorem supportsBitCast_iff {c : Config} : c.supportsBitCast = true ↔ 300 ≤ c.version :=
  decide_eq_true_iff

theorem ne_minus_of_isDigit {ch : Char} (h : ch.isDigit = true) : ch ≠ '-' := by
  rintro rfl
  exact absurd h (by decide)

/-- A numeral has no sign of its own. -/
theorem IsDigits.head?_ne {digits : List Char} (h : IsDigits digits) :
    digits.head? ≠ some '-' := by
  obtain ⟨first, rest, rfl⟩ := List.exists_cons_of_ne_nil h.1
  simpa using ne_minus_of_isDigit (h.2 first List.mem_cons_self)

theorem IsFloatNumeral.head?_ne {body : List Char} (h : IsFloatNumeral body) :
    body.head? ≠ some '-' := by
  cases h with
  | point hwhole _ =>
    rw [List.head?_append_of_ne_nil _ hwhole.1]
    exact hwhole.head?_ne
  | power hfirst _ => simpa using ne_minus_of_isDigit hfirst
  | pointPower hfirst _ _ => simpa using ne_minus_of_isDigit hfirst

/-- A sign and what has none are known from their text. -/
theorem signed_inj {negative negative' : Prop} [Decidable negative] [Decidable negative']
    {body body' : List Char} (hbody : body.head? ≠ some '-') (hbody' : body'.head? ≠ some '-')
    (h : (if negative then ['-'] else []) ++ body = (if negative' then ['-'] else []) ++ body') :
    (negative ↔ negative') ∧ body = body' := by
  by_cases hn : negative <;> by_cases hn' : negative' <;> simp only [hn, hn', if_true, if_false] at h
  · exact ⟨iff_of_true hn hn', List.tail_eq_of_cons_eq h⟩
  · exact absurd (congrArg List.head? h).symm hbody'
  · exact absurd (congrArg List.head? h) hbody
  · exact ⟨iff_of_false hn hn', h⟩

namespace Binary32

variable {x y : Binary32} {c : Config}

/-- A text is the literal of a value for a reader: a sign or none, and a numeral of a float whose
number is rounded to the value. -/
def IsReadFrom (x : Binary32) (text : List Char) : Prop :=
  ∃ (negative : Bool) (body : List Char), text = (if negative then ['-'] else []) ++ body ∧
    IsFloatNumeral body ∧ RoundsTo negative (decimalNumber body) x

/-- A text is read as one value at most. -/
theorem IsReadFrom.unique {text : List Char} (hx : x.IsReadFrom text) (hy : y.IsReadFrom text) :
    x = y := by
  obtain ⟨negative, body, rfl, hbody, hx⟩ := hx
  obtain ⟨negative', body', hsame, hbody', hy⟩ := hy
  obtain ⟨hsign, rfl⟩ := signed_inj hbody.head?_ne hbody'.head?_ne hsame
  obtain rfl := Bool.eq_iff_iff.mpr hsign
  exact hx.unique hy

theorem isReadFrom_finiteLiteral (hx : x.isFinite = true) :
    x.IsReadFrom x.finiteLiteral.toList := by
  refine ⟨x.isNegative, x.shortestDecimal.literal, toList_finiteLiteral x,
    Decimal.isFloatNumeral_literal _, ?_⟩
  rw [Decimal.decimalNumber_literal]
  exact roundsTo_shortestDecimal hx

theorem finiteLiteral_largest : largest.finiteLiteral = "3.4028235e38" := by decide +kernel

theorem finiteLiteral_smallest : smallest.finiteLiteral = "-3.4028235e38" := by decide +kernel

theorem literal_of_isFinite (hx : x.isFinite = true) :
    (Scalar.float x).literal c = x.finiteLiteral := by
  simp only [Scalar.literal, literal, hx, Bool.not_true, Bool.false_and, Bool.false_eq_true,
    if_false, clamped_of_isFinite hx]

theorem literal_of_bitCast (hx : x.isFinite = false) (hc : 300 ≤ c.version) :
    (Scalar.float x).literal c = "uintBitsToFloat(" ++ x.bits.toNat.repr ++ "u)" := by
  simp only [Scalar.literal, literal, hx, supportsBitCast_iff.mpr hc, Bool.not_false, Bool.and_self,
    if_true]

theorem literal_of_clamped (hx : x.isFinite = false) (hc : c.version < 300) :
    (Scalar.float x).literal c =
      if x.isNaN || x.isNegative then "-3.4028235e38" else "3.4028235e38" := by
  have hcast : c.supportsBitCast = false := by
    rw [← Bool.not_eq_true, supportsBitCast_iff]
    omega
  simp only [Scalar.literal, literal, clamped, hx, hcast, Bool.and_false, Bool.false_eq_true,
    if_false]
  split_ifs
  · exact finiteLiteral_smallest
  · exact finiteLiteral_largest

/-- **Literals read back.** The literal of a finite value is read as this value only. A value that
is not finite is given by its bits where the language can reinterpret them; elsewhere an infinity is
the end of the finite range on its side and a NaN is the lower end. -/
theorem literal_reads_back (c : Config) (x : Binary32) :
    (x.isFinite = true →
      ∀ y : Binary32, y.IsReadFrom ((Scalar.float x).literal c).toList ↔ y = x) ∧
    (x.isFinite = false → 300 ≤ c.version →
      (Scalar.float x).literal c = "uintBitsToFloat(" ++ x.bits.toNat.repr ++ "u)") ∧
    (x.isFinite = false → c.version < 300 →
      (Scalar.float x).literal c =
        if x.isNaN || x.isNegative then "-3.4028235e38" else "3.4028235e38") := by
  refine ⟨fun hx y => ?_, literal_of_bitCast, literal_of_clamped⟩
  rw [literal_of_isFinite hx]
  have hread := isReadFrom_finiteLiteral hx
  exact ⟨fun hy => hy.unique hread, fun hy => hy ▸ hread⟩

/-- The negative zero keeps its sign, a NaN its payload, and an infinity its side. -/
theorem zero_nan_infinity_read_back :
    (∀ y : Binary32, y.IsReadFrom "-0.0".toList ↔ y = ⟨0x80000000⟩) ∧
      (Scalar.float ⟨0x7fc00001⟩).literal { version := 300 } = "uintBitsToFloat(2143289345u)" ∧
      (Scalar.float ⟨0xff800000⟩).literal {} = "-3.4028235e38" := by
  have hzero : (Scalar.float ⟨0x80000000⟩).literal {} = "-0.0" := by decide +kernel
  refine ⟨hzero ▸ (literal_reads_back {} ⟨0x80000000⟩).1 (by decide), ?_, ?_⟩
  · exact ((literal_reads_back { version := 300 } ⟨0x7fc00001⟩).2.1 (by decide) (by decide)).trans
      (by decide +kernel)
  · exact (literal_reads_back {} ⟨0xff800000⟩).2.2 (by decide) (by decide)

end Binary32

end ShaderText
