import ShaderText.Proofs.Addition
import ShaderText.Proofs.IntegerRounding

/-! # Clamped indices

A computed index may be written with bounds around it. `IndexTerm` is the term that is written, with
its spelling and its value in the shading language, where an operation without a meaning has no
value. The helper function bounds the index itself; the intrinsic `clamp` bounds it as a float
(`IndexTerm.clamped`).

The first always gives the index, brought into range (`IndexTerm.index?_byHelper`). The second gives
what becomes of this integer as a single precision value (`IndexTerm.index?_byIntrinsic`). So **the
two agree on an index exactly if its bounded value is a single precision value, and on all indices
exactly if there are at most `2 ^ 24 + 1` elements (`Node.clampedIndex_evaluates`).** Beyond that
the index may be rounded out of range. -/

namespace ShaderText

/-! ### Terms -/

/-- A term around an index. -/
inductive IndexTerm where
  | operand
  | integer (n : Int)
  | real (x : Binary32)
  | toFloat (t : IndexTerm)
  | toInt (t : IndexTerm)
  | clamp (t low high : IndexTerm)
  | helperClamp (t low high : IndexTerm)
  deriving DecidableEq, Repr

/-- What a term evaluates to. -/
inductive IndexValue where
  | int (i : Int32)
  | float (x : Binary32)
  deriving DecidableEq, Repr

/-- The smaller of an upper bound and the larger of a lower bound and a value. -/
def clampBy {α : Type} (lt : α → α → Bool) (x low high : α) : α :=
  let raised := if lt x low then low else x
  if lt high raised then high else raised

/-- Whether a finite value is below another one. -/
def Binary32.isBelow (x y : Binary32) : Bool := x.number < y.number

namespace IndexTerm

/-- The text of a term, where `index` is that of the operand. -/
def spell (index : String) : IndexTerm → String
  | operand => index
  | integer n => n.repr
  | real x => x.finiteLiteral
  | toFloat t => "float(" ++ t.spell index ++ ")"
  | toInt t => "int(" ++ t.spell index ++ ")"
  | clamp t low high =>
    "clamp(" ++ t.spell index ++ ", " ++ low.spell index ++ ", " ++ high.spell index ++ ")"
  | helperClamp t low high =>
    Reserved.clampHelper ++ "(" ++ t.spell index ++ ", " ++ low.spell index ++ ", " ++
      high.spell index ++ ")"

/-- The value of a term, where the operand has the value `i`. -/
def eval (i : Int32) : IndexTerm → Option IndexValue
  | operand => some (.int i)
  | integer n => if IsInt32 n then some (.int (Int32.ofInt n)) else none
  | real x => some (.float x)
  | toFloat t =>
    match t.eval i with
    | some (.int k) => some (.float (.ofInt k))
    | _ => none
  | toInt t =>
    match t.eval i with
    | some (.float x) => x.toInt?.map .int
    | _ => none
  | clamp t low high =>
    match t.eval i, low.eval i, high.eval i with
    | some (.float x), some (.float a), some (.float b) =>
      some (.float (clampBy Binary32.isBelow x a b))
    | _, _, _ => none
  | helperClamp t low high =>
    match t.eval i, low.eval i, high.eval i with
    | some (.int x), some (.int a), some (.int b) => some (.int (clampBy (· < ·) x a b))
    | _, _, _ => none

/-- The integer that a term evaluates to. -/
def index? (t : IndexTerm) (i : Int32) : Option Int32 :=
  match t.eval i with
  | some (.int k) => some k
  | _ => none

/-- The term that brings an index between zero and `last`. -/
def clamped (last : Int) : Clamping → IndexTerm
  | .byIntrinsic => .toInt (.clamp (.toFloat .operand) (.real ⟨0⟩) (.toFloat (.integer last)))
  | .byHelper => .helperClamp .operand (.integer 0) (.integer last)

end IndexTerm

/-! ### Texts -/

namespace Fragment

variable {r : Renderer} {fs : List Fragment}

/-- Text on both sides. -/
theorem additionAll_between (before behind : String) (c : Context) :
    additionAll r (.text before :: (fs ++ [.text behind])) c =
      (additionAll r fs c).map fun b => { b with text := before ++ b.text ++ behind } := by
  have hparts : Fragment.text before :: (fs ++ [.text behind]) =
      [.text before] ++ (fs ++ [.text behind]) := rfl
  have hafter : c.after { text := before, names := c.names, structs := [] } = c := rfl
  rw [hparts, additionAll_append, additionAll_text]
  simp only [bind, Except.bind, additionAll_append, additionAll_text, hafter]
  cases additionAll r fs c with
  | error cause => rfl
  | ok b => simp [Except.map, Addition.append, Context.after, String.append_assoc]

/-- **A clamped index is the spelling of its term,** in brackets. -/
theorem additionAll_clampedIndex {indexed : Node} {t : ShaderType} (ht : indexed.type? = some t)
    (hsize : t.arraySize ≠ some 0) (c : Context) :
    additionAll r (clampedIndex r.config indexed fs) c =
      (additionAll r fs c).map fun b =>
        { b with
          text := "[" ++ (IndexTerm.clamped t.lastIndex r.config.clamping).spell b.text ++ "]" } := by
  unfold clampedIndex
  rw [ht]
  dsimp only
  rw [if_neg hsize]
  cases r.config.clamping with
  | byIntrinsic =>
    have hopening : "[int(clamp(float(" = "[" ++ ("int(" ++ ("clamp(" ++ "float(")) := rfl
    have hzero : "), 0.0, float(" = ")" ++ (", " ++ (Binary32.finiteLiteral ⟨0⟩ ++
      (", " ++ "float("))) := by decide
    refine (additionAll_between _ _ c).trans (congrArg (Except.map · _) (funext fun b => ?_))
    simp only [IndexTerm.clamped, IndexTerm.spell, hopening, hzero, String.append_assoc]
    rfl
  | byHelper =>
    have hzero : ", 0, " = ", " ++ (Int.repr 0 ++ ", ") := rfl
    refine (additionAll_between _ _ c).trans (congrArg (Except.map · _) (funext fun b => ?_))
    simp only [IndexTerm.clamped, IndexTerm.spell, hzero, String.append_assoc]
    rfl

end Fragment

/-! ### Values -/

namespace IndexTerm

variable {i last : Int32}

theorem toInt_clampBy (i low high : Int32) :
    (clampBy (· < ·) i low high).toInt = min (max i.toInt low.toInt) high.toInt := by
  simp only [clampBy, decide_eq_true_eq, Int32.lt_iff_toInt_lt]
  split_ifs <;> omega

/-- Rounding keeps the order of natural numbers, but it may make them equal. -/
theorem lowered_ofInt {k : Int32} (hk : 0 ≤ k) (hlast : 0 ≤ last) :
    (if (Binary32.ofInt last).isBelow (.ofInt k) then Binary32.ofInt last else .ofInt k) =
      .ofInt (if last < k then last else k) := by
  unfold Binary32.isBelow
  by_cases h : last < k
  · rw [if_pos h, ite_eq_left_iff, decide_eq_true_eq, not_lt]
    intro hle
    exact Binary32.ofInt_eq_of_number_eq hk hlast
      (le_antisymm hle (Binary32.number_ofInt_le hlast (Int32.le_of_lt h)))
  · rw [if_neg h, if_neg]
    simpa using Binary32.number_ofInt_le hk (Int32.not_lt.mp h)

/-- **To clamp a rounded index is to round the clamped index.** -/
theorem clampBy_ofInt (hlast : 0 ≤ last) :
    clampBy Binary32.isBelow (.ofInt i) ⟨0⟩ (.ofInt last) =
      .ofInt (clampBy (· < ·) i 0 last) := by
  have hzero : (Binary32.ofInt 0).number = 0 := by
    simp [Binary32.ofInt_zero, Binary32.number, Binary32.magnitude, Binary32.significand,
      Binary32.biasedExponent, Binary32.fraction]
  rw [← Binary32.ofInt_zero]
  rcases Int32.lt_or_le i 0 with hneg | hnonneg
  · have hbelow : (Binary32.ofInt i).isBelow (.ofInt 0) = true := by
      rw [Binary32.isBelow, decide_eq_true_eq, hzero]
      exact Binary32.number_ofInt_of_neg hneg
    simp only [clampBy, hbelow, hneg, if_true, decide_true]
    simpa using lowered_ofInt (Int32.le_refl 0) hlast
  · have habove : (Binary32.ofInt i).isBelow (.ofInt 0) = false := by
      rw [Binary32.isBelow, decide_eq_false_iff_not, not_lt, hzero,
        Binary32.number_ofInt_of_nonneg hnonneg]
      exact Binary32.magnitude_nonneg _
    simp only [clampBy, habove, decide_eq_false (Int32.not_lt.mpr hnonneg), Bool.false_eq_true,
      if_false]
    simpa using lowered_ofInt hnonneg hlast

section

variable {n : Int} (hn : 0 ≤ n) (hword : n < 2 ^ 31)

include hn hword

theorem toInt_bounded :
    (clampBy (· < ·) i 0 (Int32.ofInt n)).toInt = min (max i.toInt 0) n := by
  rw [toInt_clampBy, Int32.toInt_ofInt_of_le (by omega) hword, Int32.toInt_zero]

/-- **The helper gives the index brought into range.** -/
theorem index?_byHelper :
    (clamped n .byHelper).index? i = some (clampBy (· < ·) i 0 (Int32.ofInt n)) := by
  have hzero : IsInt32 0 := by decide
  have hlast : IsInt32 n := ⟨by omega, hword⟩
  simp only [index?, clamped, eval, if_pos hzero, if_pos hlast]
  rfl

/-- **The intrinsic gives what that index is as a single precision value.** -/
theorem index?_byIntrinsic :
    (clamped n .byIntrinsic).index? i =
      (Binary32.ofInt (clampBy (· < ·) i 0 (Int32.ofInt n))).toInt? := by
  have hlast : IsInt32 n := ⟨by omega, hword⟩
  have hnonneg : 0 ≤ Int32.ofInt n := by
    rw [Int32.le_iff_toInt_le, Int32.toInt_ofInt_of_le (by omega) hword]
    exact hn
  simp only [index?, clamped, eval, if_pos hlast, clampBy_ofInt hnonneg]
  cases (Binary32.ofInt (clampBy (· < ·) i 0 (Int32.ofInt n))).toInt? <;> rfl

theorem bounded_nonneg : 0 ≤ clampBy (· < ·) i 0 (Int32.ofInt n) := by
  rw [Int32.le_iff_toInt_le, toInt_bounded hn hword, Int32.toInt_zero]
  omega

/-- The two give the same integer where it is a single precision value. -/
theorem map_toInt_byIntrinsic :
    ((clamped n .byIntrinsic).index? i).map Int32.toInt = some (min (max i.toInt 0) n) ↔
      Binary32.IsSingle (min (max i.toInt 0) n) := by
  rw [index?_byIntrinsic hn hword, ← toInt_bounded hn hword,
    ← Binary32.toInt?_ofInt_eq_some_iff (bounded_nonneg hn hword)]
  cases (Binary32.ofInt (clampBy (· < ·) i 0 (Int32.ofInt n))).toInt? <;>
    simp [Int32.toInt_inj]

end

end IndexTerm

/-- The least natural number that is no single precision value is rounded to the one before it. -/
theorem Binary32.not_isSingle_succ : ¬ IsSingle (2 ^ 24 + 1) := by
  have hbefore : (ofInt 16777216).toInt? = some 16777216 :=
    (toInt?_ofInt_eq_some_iff (by decide)).mpr (isSingle_of_le (by decide) (by decide))
  have hround : ofInt 16777217 = ofInt 16777216 := by decide
  intro h
  have hafter : (ofInt 16777217).toInt? = some 16777217 :=
    (toInt?_ofInt_eq_some_iff (by decide)).mpr h
  rw [hround, hbefore] at hafter
  exact absurd hafter (by decide)

namespace Node

variable {r : Renderer} {left right : Node} {type t : ShaderType}

/-- **The index of a clamped expression, and where the two ways to clamp it agree.** What is written
after the indexed expression is the spelling of a term. With the helper, the term always evaluates
to the index brought between zero and the last one. With the intrinsic it does so for an index
exactly if the result is a single precision value; and for all indices exactly if there are at most
`2 ^ 24 + 1` of them. -/
theorem clampedIndex_evaluates (ht : left.type? = some t) (hsize : 1 ≤ t.arraySize.getD t.cols)
    (hword : t.arraySize.getD t.cols ≤ 2 ^ 31) :
    (∀ c, (binary .computedIndex left right type true).addition r c = (do
      let a ← left.addition r c
      let b ← right.addition r (c.after a)
      .ok (a.append { b with
        text := "[" ++ (IndexTerm.clamped t.lastIndex r.config.clamping).spell b.text ++ "]" }))) ∧
    (∀ i, ((IndexTerm.clamped t.lastIndex .byHelper).index? i).map Int32.toInt =
      some (min (max i.toInt 0) t.lastIndex)) ∧
    (∀ i, ((IndexTerm.clamped t.lastIndex .byIntrinsic).index? i).map Int32.toInt =
      some (min (max i.toInt 0) t.lastIndex) ↔
        Binary32.IsSingle (min (max i.toInt 0) t.lastIndex)) ∧
    ((∀ i, ((IndexTerm.clamped t.lastIndex .byIntrinsic).index? i).map Int32.toInt =
      some (min (max i.toInt 0) t.lastIndex)) ↔ t.arraySize.getD t.cols ≤ 2 ^ 24 + 1) := by
  have hlast : t.lastIndex = (t.arraySize.getD t.cols : ℕ) - 1 := rfl
  have hnonneg : 0 ≤ t.lastIndex := by omega
  have hbelow : t.lastIndex < 2 ^ 31 := by omega
  refine ⟨fun c => ?_, fun i => ?_, fun i => IndexTerm.map_toInt_byIntrinsic hnonneg hbelow, ?_⟩
  · have hzero : t.arraySize ≠ some 0 := by
      intro hzero
      rw [hzero, Option.getD_some] at hsize
      exact absurd hsize (by decide)
    have hfragments : (binary .computedIndex left right type true).fragments r.config =
        left.fragments r.config ++ clampedIndex r.config left (right.fragments r.config) := rfl
    rw [addition, hfragments, Fragment.additionAll_append]
    simp only [addition, Fragment.additionAll_clampedIndex ht hzero]
    cases Fragment.additionAll r (left.fragments r.config) c with
    | error cause => rfl
    | ok a =>
      simp only [bind, Except.bind]
      cases Fragment.additionAll r (right.fragments r.config) (c.after a) <;> rfl
  · rw [IndexTerm.index?_byHelper hnonneg hbelow, Option.map_some,
      IndexTerm.toInt_bounded hnonneg hbelow]
  · simp only [IndexTerm.map_toInt_byIntrinsic hnonneg hbelow]
    constructor
    · intro h
      by_contra hmany
      have hbeyond := h 16777217
      rw [show min (max (Int32.toInt 16777217) 0) t.lastIndex = 2 ^ 24 + 1 by
        rw [show Int32.toInt 16777217 = 2 ^ 24 + 1 by decide]
        omega] at hbeyond
      exact Binary32.not_isSingle_succ hbeyond
    · intro hfew i
      have hbounded := IndexTerm.toInt_bounded (i := i) hnonneg hbelow
      rw [← hbounded]
      exact Binary32.isSingle_of_le (IndexTerm.bounded_nonneg hnonneg hbelow) (by omega)

/-- An array with too many elements for the intrinsic. -/
def hugeArray : Node :=
  .symbol ⟨⟨1⟩, { text := "data" }, { ShaderType.scalar .float with arraySize := some 16777220 }⟩

/-- Its last index is taken past the end: half way between two values, it is rounded up to the even
one. -/
theorem clampedIndex_pastEnd :
    ((IndexTerm.clamped 16777219 .byHelper).index? 16777219).map Int32.toInt = some 16777219 ∧
      (IndexTerm.clamped 16777219 .byIntrinsic).index? 16777219 = some 16777220 ∧
      ¬ ∀ i, ((IndexTerm.clamped 16777219 .byIntrinsic).index? i).map Int32.toInt =
        some (min (max i.toInt 0) 16777219) := by
  obtain ⟨-, hhelper, -, hall⟩ := @clampedIndex_evaluates {} hugeArray
    (.symbol ⟨⟨2⟩, { text := "idx" }, .scalar .int⟩) (.scalar .float) _ rfl (by decide) (by decide)
  refine ⟨hhelper 16777219, ?_, fun h => absurd (hall.mp h) (by decide)⟩
  have hround : Binary32.ofInt 16777219 = Binary32.ofInt 16777220 := by decide
  have hnumber : (Binary32.ofInt 16777220).number = 16777220 := by
    have hsign : (Binary32.ofInt 16777220).isNegative = false := by decide
    have hsignificand : (Binary32.ofInt 16777220).significand = 8388610 := by decide
    have hexponent : (Binary32.ofInt 16777220).exponent = 1 := by decide
    rw [Binary32.number, Binary32.magnitude, hsign, hsignificand, hexponent]
    norm_num
  have hsingle : Binary32.IsSingle (Int32.toInt 16777220) :=
    ⟨_, (Binary32.roundsTo_ofInt 16777220).isFinite, hnumber⟩
  rw [IndexTerm.index?_byIntrinsic (by decide) (by decide)]
  exact hround ▸ (Binary32.toInt?_ofInt_eq_some_iff (by decide)).mpr hsingle

end Node

end ShaderText
