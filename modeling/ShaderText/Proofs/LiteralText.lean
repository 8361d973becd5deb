import ShaderText.Proofs.FloatLiteral

/-! # Literals are told apart

A literal tells the value it spells, its kind included, and where it ends: what stands behind an
argument is a comma, a parenthesis or nothing (`EndsArgument`). Most literals are a word of letters,
digits, points and a sign, which ends with the first other character. Of these words a `u` ends the
unsigned ones and an `e` the truth values, and of the others a point or an exponent makes a float
(`LiteralKind.ofText`). A value that is given by its bits is a call, which no word is.

So **texts that begin with a literal each, and go on behind it like behind an argument, are equal
only if both the values and what goes on are (`Scalar.literal_append_inj`)**. A value that is not
finite must be given by its bits for that (`Scalar.IsExact`). -/

namespace ShaderText

/-! ### Words and what ends them -/

/-- The characters of a literal that is no call. -/
def IsWordPart (ch : Char) : Prop := ch = '-' ∨ IsNumeralChar ch

instance (ch : Char) : Decidable (IsWordPart ch) :=
  inferInstanceAs (Decidable (_ ∨ _ ∨ _))

/-- What may stand behind an argument. -/
def EndsArgument (text : List Char) : Prop := ∀ ch ∈ text.head?, ch = ',' ∨ ch = ')'

theorem endsArgument_nil : EndsArgument [] := nofun

theorem endsArgument_cons {ch : Char} {text : List Char} (h : ch = ',' ∨ ch = ')') :
    EndsArgument (ch :: text) := by
  simpa [EndsArgument] using h

theorem EndsArgument.append {front back : List Char} (hfront : EndsArgument front)
    (hback : EndsArgument back) : EndsArgument (front ++ back) := by
  cases front with
  | nil => exact hback
  | cons ch rest => exact hfront

theorem not_isWordPart_of_endsArgument {text : List Char} (h : EndsArgument text) :
    ∀ ch ∈ text.head?, ¬ IsWordPart ch := by
  intro ch hch
  rcases h ch hch with rfl | rfl <;> decide

/-- Two words of certain characters, each up to the first other one. -/
theorem append_inj_of_ends {p : Char → Prop} {front back front' back' : List Char}
    (hfront : ∀ ch ∈ front, p ch) (hback : ∀ ch ∈ back.head?, ¬ p ch)
    (hfront' : ∀ ch ∈ front', p ch) (hback' : ∀ ch ∈ back'.head?, ¬ p ch)
    (h : front ++ back = front' ++ back') : front = front' ∧ back = back' := by
  rcases List.append_eq_append_iff.mp h with ⟨more, rfl, rfl⟩ | ⟨more, rfl, rfl⟩
  · cases more with
    | nil => simp
    | cons ch rest =>
      exact absurd (hfront' ch (by simp)) (hback ch (by simp))
  · cases more with
    | nil => simp
    | cons ch rest =>
      exact absurd (hfront ch (by simp)) (hback' ch (by simp))

/-! ### Kinds -/

/-- The kinds of single values. -/
inductive LiteralKind where
  | float
  | int
  | uint
  | bool
  deriving DecidableEq, Repr

namespace LiteralKind

/-- The kind that a word is read as: its end decides, and for a number its point or exponent. -/
def ofText (text : List Char) : LiteralKind :=
  if text.getLast? = some 'u' then uint
  else if text.getLast? = some 'e' then bool
  else if '.' ∈ text ∨ 'e' ∈ text then float
  else int

theorem ofText_of_digit {text : List Char} {ch : Char} (hlast : text.getLast? = some ch)
    (hdigit : ch.isDigit = true) :
    ofText text = if '.' ∈ text ∨ 'e' ∈ text then float else int := by
  have hu : ch ≠ 'u' := by rintro rfl; exact absurd hdigit (by decide)
  have he : ch ≠ 'e' := by rintro rfl; exact absurd hdigit (by decide)
  rw [ofText, hlast, if_neg (by simpa using hu), if_neg (by simpa using he)]

end LiteralKind

namespace Scalar

def kind : Scalar → LiteralKind
  | float _ => .float
  | int _ => .int
  | uint _ => .uint
  | bool _ => .bool

/-- A value that is written as it is: it is finite, or its bits can be given. -/
def IsExact (c : Config) : Scalar → Prop
  | float x => x.isFinite = true ∨ 300 ≤ c.version
  | int _ | uint _ | bool _ => True

/-- A value that is given by its bits. -/
def IsBitCast : Scalar → Prop
  | float x => x.isFinite = false
  | int _ | uint _ | bool _ => False

end Scalar

/-! ### Words of literals -/

theorem isDigits_repr (n : Nat) : IsDigits n.repr.toList :=
  ⟨repr_toList_ne_nil n, fun _ => isDigit_of_mem_repr⟩

theorem isWordPart_of_isDigit {ch : Char} (h : ch.isDigit = true) : IsWordPart ch :=
  .inr (isNumeralChar_of_isDigit h)

theorem IsDigits.exists_getLast? {digits : List Char} (h : IsDigits digits) (front : List Char) :
    ∃ ch, (front ++ digits).getLast? = some ch ∧ ch.isDigit = true :=
  ⟨digits.getLast h.1,
    by rw [List.getLast?_append, List.getLast?_eq_some_getLast h.1, Option.some_or],
    h.2 _ (List.getLast_mem h.1)⟩

namespace IsFloatNumeral

variable {body : List Char}

/-- A numeral of a float ends with digits, after a point or the letter of an exponent. -/
theorem exists_digits (h : IsFloatNumeral body) :
    ∃ front mark digits, body = front ++ mark :: digits ∧ (mark = '.' ∨ mark = 'e') ∧
      IsDigits digits := by
  cases h with
  | @point whole places hwhole hplaces => exact ⟨whole, '.', places, rfl, .inl rfl, hplaces⟩
  | @power first exponent hfirst hexponent =>
    exact ⟨[first], 'e', exponent, rfl, .inr rfl, hexponent⟩
  | @pointPower first places exponent hfirst hplaces hexponent =>
    exact ⟨first :: '.' :: places, 'e', exponent, rfl, .inr rfl, hexponent⟩

theorem ofText_append (h : IsFloatNumeral body) (sign : List Char) :
    LiteralKind.ofText (sign ++ body) = .float := by
  obtain ⟨front, mark, digits, rfl, hmark, hdigits⟩ := h.exists_digits
  have hsplit : sign ++ (front ++ mark :: digits) = sign ++ front ++ [mark] ++ digits := by simp
  obtain ⟨ch, hlast, hdigit⟩ := hdigits.exists_getLast? (sign ++ front ++ [mark])
  rw [hsplit, LiteralKind.ofText_of_digit hlast hdigit, if_pos]
  rcases hmark with rfl | rfl
  · exact .inl (by simp)
  · exact .inr (by simp)

end IsFloatNumeral

namespace Scalar

variable {c : Config} {v w : Scalar}

theorem literal_float {x : Binary32} (hx : x.isFinite = true) :
    ((float x).literal c).toList =
      (if x.isNegative then ['-'] else []) ++ x.shortestDecimal.literal := by
  rw [Binary32.literal_of_isFinite hx, Binary32.toList_finiteLiteral]

theorem literal_int (i : Int32) :
    ((int i).literal c).toList =
      (if i.toInt < 0 then ['-'] else []) ++ i.toInt.natAbs.repr.toList :=
  int_repr_toList i.toInt

theorem literal_uint (u : UInt32) : ((uint u).literal c).toList = u.toNat.repr.toList ++ ['u'] := by
  simp [literal, String.toList_append]

theorem literal_bool (b : Bool) :
    ((bool b).literal c).toList = if b then "true".toList else "false".toList := by
  cases b <;> rfl

theorem literal_bitCast {x : Binary32} (hx : (float x).IsBitCast) (h : (float x).IsExact c)
    (behind : List Char) :
    ((float x).literal c).toList ++ behind =
      "uintBitsToFloat".toList ++ '(' :: (x.bits.toNat.repr.toList ++ 'u' :: ')' :: behind) := by
  have hfinite : x.isFinite = false := hx
  have hversion : 300 ≤ c.version := h.resolve_left (by simp [hfinite])
  rw [Binary32.literal_of_bitCast hfinite hversion]
  simp [String.toList_append]

/-- The word of a literal is of the kind of its value. -/
theorem ofText_literal (hcast : ¬ v.IsBitCast) :
    LiteralKind.ofText (v.literal c).toList = v.kind := by
  cases v with
  | float x =>
    rw [literal_float (by simpa [IsBitCast] using hcast)]
    exact (Decimal.isFloatNumeral_literal _).ofText_append _
  | int i =>
    have hdigits := isDigits_repr i.toInt.natAbs
    obtain ⟨ch, hlast, hdigit⟩ := hdigits.exists_getLast? (if i.toInt < 0 then ['-'] else [])
    rw [literal_int, LiteralKind.ofText_of_digit hlast hdigit, if_neg]
    · rfl
    · simp only [List.mem_append, not_or]
      refine ⟨⟨?_, hdigits.not_mem (by decide)⟩, ?_, hdigits.not_mem (by decide)⟩ <;>
        split_ifs <;> simp
  | uint u =>
    rw [literal_uint, LiteralKind.ofText, if_pos List.getLast?_concat]
    rfl
  | bool b =>
    rw [literal_bool]
    cases b <;> decide

theorem isWordPart_of_mem_literal (hcast : ¬ v.IsBitCast) :
    ∀ ch ∈ (v.literal c).toList, IsWordPart ch := by
  have hsign : ∀ (negative : Prop) [Decidable negative],
      ∀ ch ∈ if negative then ['-'] else [], IsWordPart ch := by
    intro negative _ ch hch
    split_ifs at hch
    · exact .inl (List.mem_singleton.mp hch)
    · cases hch
  cases v with
  | float x =>
    rw [literal_float (by simpa [IsBitCast] using hcast)]
    exact List.forall_mem_append.mpr
      ⟨hsign _, fun ch hch => .inr (Decimal.isNumeralChar_of_mem_literal hch)⟩
  | int i =>
    rw [literal_int]
    exact List.forall_mem_append.mpr
      ⟨hsign _, fun ch hch => isWordPart_of_isDigit (isDigit_of_mem_repr hch)⟩
  | uint u =>
    rw [literal_uint]
    exact List.forall_mem_append.mpr
      ⟨fun ch hch => isWordPart_of_isDigit (isDigit_of_mem_repr hch), by decide⟩
  | bool b =>
    rw [literal_bool]
    cases b <;> decide

theorem repr_inj {m n : Nat} (h : m.repr.toList = n.repr.toList) : m = n := by
  have hread := congrArg (Nat.ofDigitChars 10 · 0) h
  simpa [Nat.repr_eq_ofList_toDigits] using hread

/-- Values with one word are the same. -/
theorem eq_of_literal_eq (hcast : ¬ v.IsBitCast) (hcast' : ¬ w.IsBitCast)
    (h : (v.literal c).toList = (w.literal c).toList) : v = w := by
  have hkind : v.kind = w.kind := by
    rw [← ofText_literal (c := c) hcast, h, ofText_literal hcast']
  cases v with
  | float x =>
    cases w <;> cases hkind
    rename_i y
    have hx : x.isFinite = true := by simpa [IsBitCast] using hcast
    have hy : y.isFinite = true := by simpa [IsBitCast] using hcast'
    rw [Binary32.literal_of_isFinite hx, Binary32.literal_of_isFinite hy] at h
    exact congrArg float ((Binary32.isReadFrom_finiteLiteral hx).unique
      (h ▸ Binary32.isReadFrom_finiteLiteral hy))
  | int i =>
    cases w <;> cases hkind
    rename_i j
    rw [literal_int, literal_int] at h
    obtain ⟨hsign, hdigits⟩ := signed_inj (isDigits_repr _).head?_ne (isDigits_repr _).head?_ne h
    have habs := repr_inj hdigits
    exact congrArg int (Int32.toInt_inj.mp (by omega))
  | uint u =>
    cases w <;> cases hkind
    rename_i k
    rw [literal_uint, literal_uint] at h
    exact congrArg uint (UInt32.toNat_inj.mp (repr_inj (List.append_cancel_right h)))
  | bool b =>
    cases w <;> cases hkind
    rename_i b'
    rw [literal_bool, literal_bool] at h
    revert h
    cases b <;> cases b' <;> decide

/-- Behind the name of a call stands a parenthesis, which ends no argument before it begins. -/
theorem bitCast_append_ne (h : v.IsExact c) (hcast : v.IsBitCast) (hcast' : ¬ w.IsBitCast)
    {x x' : List Char} (hx' : EndsArgument x') :
    (v.literal c).toList ++ x ≠ (w.literal c).toList ++ x' := by
  intro heq
  cases v with
  | float y =>
    rw [literal_bitCast hcast h] at heq
    have hname : ∀ ch ∈ "uintBitsToFloat".toList, IsWordPart ch := by decide
    have hopening : ∀ (text : List Char), ∀ ch ∈ ('(' :: text).head?, ¬ IsWordPart ch := by
      rintro text ch ⟨⟩
      decide
    obtain ⟨-, hbehind⟩ := append_inj_of_ends hname (hopening _)
      (isWordPart_of_mem_literal hcast') (not_isWordPart_of_endsArgument hx') heq
    rw [← hbehind] at hx'
    exact absurd (hx' _ rfl) (by decide)
  | int _ | uint _ | bool _ => exact hcast

/-- Calls with the same bits are the same, and the bits end with their digits. -/
theorem bitCast_append_inj {y z : Binary32} (hy : (float y).IsExact c) (hz : (float z).IsExact c)
    (hcast : (float y).IsBitCast) (hcast' : (float z).IsBitCast) {x x' : List Char}
    (heq : ((float y).literal c).toList ++ x = ((float z).literal c).toList ++ x') :
    y = z ∧ x = x' := by
  rw [literal_bitCast hcast hy, literal_bitCast hcast' hz] at heq
  have hbits := List.tail_eq_of_cons_eq (List.append_cancel_left heq)
  obtain ⟨hdigits, hbehind⟩ := append_inj_of_ends (p := fun ch => ch.isDigit = true)
    (isDigits_repr _).2 (by simp) (isDigits_repr _).2 (by simp) hbits
  obtain ⟨bits⟩ := y
  obtain ⟨bits'⟩ := z
  exact ⟨congrArg Binary32.mk (UInt32.toNat_inj.mp (repr_inj hdigits)), by simpa using hbehind⟩

/-- **A literal tells its value and where it ends.** -/
theorem literal_append_inj (h : v.IsExact c) (h' : w.IsExact c) {x x' : List Char}
    (hx : EndsArgument x) (hx' : EndsArgument x')
    (heq : (v.literal c).toList ++ x = (w.literal c).toList ++ x') : v = w ∧ x = x' := by
  by_cases hcast : v.IsBitCast <;> by_cases hcast' : w.IsBitCast
  · cases v with
    | float y =>
      cases w with
      | float z =>
        obtain ⟨rfl, hbehind⟩ := bitCast_append_inj h h' hcast hcast' heq
        exact ⟨rfl, hbehind⟩
      | int _ | uint _ | bool _ => exact hcast'.elim
    | int _ | uint _ | bool _ => exact hcast.elim
  · exact absurd heq (bitCast_append_ne h hcast hcast' hx')
  · exact absurd heq.symm (bitCast_append_ne h' hcast' hcast hx)
  · obtain ⟨hword, hbehind⟩ := append_inj_of_ends (isWordPart_of_mem_literal hcast)
      (not_isWordPart_of_endsArgument hx) (isWordPart_of_mem_literal hcast')
      (not_isWordPart_of_endsArgument hx') heq
    exact ⟨eq_of_literal_eq hcast hcast' hword, hbehind⟩

end Scalar

end ShaderText
