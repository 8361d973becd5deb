import ShaderText.CountingLoop
import Mathlib.Algebra.Group.Int.Defs
import Mathlib.Algebra.Group.Nat.Defs
import Mathlib.Logic.Function.Iterate
import Mathlib.Tactic.SplitIfs

/-! # Counting in words of 64 bits

The trip count and the counter of a loop are integers. Computed in words of 64 bits they are the
same, since the constants that they come from have 32 bits: `Comparison.tripCount64?` and
`Counter.next64?` are the computations with each operation checked, `none` where a result is not a
word or where zero is divided by.

* `Comparison.tripCount64?_eq`: no operation of the trip count fails.
* `Counter.after64?_eq`: nor does a step of the counter, as long as its values are words. -/

namespace ShaderText

/-- The integers of 32 bits with a sign, which are the values of an `int`. -/
def IsInt32 (x : Int) : Prop := -2 ^ 31 ≤ x ∧ x < 2 ^ 31

/-- The integers of 32 bits, with a sign or without. -/
def IsWord32 (x : Int) : Prop := -2 ^ 31 ≤ x ∧ x < 2 ^ 32

/-- The integers of 64 bits with a sign. -/
def IsInt64 (x : Int) : Prop := -2 ^ 63 ≤ x ∧ x < 2 ^ 63

instance (x : Int) : Decidable (IsInt32 x) := inferInstanceAs (Decidable (_ ∧ _))

instance (x : Int) : Decidable (IsWord32 x) := inferInstanceAs (Decidable (_ ∧ _))

instance (x : Int) : Decidable (IsInt64 x) := inferInstanceAs (Decidable (_ ∧ _))

/-! ### Checked operations -/

/-- The result of an operation on words with a sign. -/
def signed64? (x : Int) : Option Int := if IsInt64 x then some x else none

/-- The result of an operation on words without a sign. -/
def unsigned64? (n : Nat) : Option Nat := if n < 2 ^ 64 then some n else none

def quotient64? (n d : Nat) : Option Nat := if d = 0 then none else unsigned64? (n / d)

def remainder64? (n d : Nat) : Option Nat := if d = 0 then none else unsigned64? (n % d)

/-- The quotient rounded up, which is one more if there is a remainder. -/
def ceilQuotient64? (n d : Nat) : Option Nat := do
  let quotient ← quotient64? n d
  let remainder ← remainder64? n d
  if 0 < remainder then unsigned64? (quotient + 1) else some quotient

theorem signed64?_eq {x : Int} (h : IsInt64 x) : signed64? x = some x := if_pos h

theorem unsigned64?_eq {n : Nat} (h : n < 2 ^ 64) : unsigned64? n = some n := if_pos h

/-- The steps that cover a distance are the whole ones within it, and one more for the rest. -/
theorem stepsToCover_eq (distance : Nat) {stride : Nat} (h : 0 < stride) :
    stepsToCover distance stride =
      if 0 < distance % stride then distance / stride + 1 else distance / stride := by
  have hdistance := Nat.div_add_mod distance stride
  have hrest := Nat.mod_lt distance h
  unfold stepsToCover
  split_ifs with hmore
  · have hsum : distance + stride - 1 =
        distance % stride - 1 + stride * (distance / stride + 1) := by
      rw [Nat.mul_succ]
      omega
    rw [hsum, Nat.add_mul_div_left _ _ h, Nat.div_eq_of_lt (by omega), Nat.zero_add]
  · have hsum : distance + stride - 1 = stride - 1 + stride * (distance / stride) := by omega
    rw [hsum, Nat.add_mul_div_left _ _ h, Nat.div_eq_of_lt (by omega), Nat.zero_add]

section

variable {n d : Nat} (hn : n < 2 ^ 63) (hd : 0 < d)

include hn hd

theorem quotient64?_eq : quotient64? n d = some (n / d) := by
  have hle := Nat.div_le_self n d
  rw [quotient64?, if_neg (Nat.ne_of_gt hd), unsigned64?_eq (by omega)]

theorem remainder64?_eq : remainder64? n d = some (n % d) := by
  have hle := Nat.mod_le n d
  rw [remainder64?, if_neg (Nat.ne_of_gt hd), unsigned64?_eq (by omega)]

theorem ceilQuotient64?_eq : ceilQuotient64? n d = some (stepsToCover n d) := by
  have hle := Nat.div_le_self n d
  have hnext : unsigned64? (n / d + 1) = some (n / d + 1) := unsigned64?_eq (by omega)
  simp only [ceilQuotient64?, quotient64?_eq hn hd, remainder64?_eq hn hd, Option.bind_eq_bind,
    Option.bind_some, hnext, stepsToCover_eq n hd]
  split_ifs <;> rfl

end

/-! ### The trip count -/

namespace Comparison

/-- The trip count with its arguments and each operation checked. -/
def tripCount64? (c : Comparison) (start bound step : Int) : Option (Option Nat) := do
  let start ← signed64? start
  let bound ← signed64? bound
  let step ← signed64? step
  let difference ← signed64? (bound - start)
  let distance ← unsigned64? difference.natAbs
  let stride ← unsigned64? step.natAbs
  match c with
  | less =>
    if bound ≤ start then some (some 0)
    else if step < 0 then some none
    else some (← ceilQuotient64? distance stride)
  | lessEqual =>
    if bound < start then some (some 0)
    else if step < 0 then some none
    else some (← unsigned64? ((← quotient64? distance stride) + 1))
  | greater =>
    if start ≤ bound then some (some 0)
    else if 0 < step then some none
    else some (← ceilQuotient64? distance stride)
  | greaterEqual =>
    if start < bound then some (some 0)
    else if 0 < step then some none
    else some (← unsigned64? ((← quotient64? distance stride) + 1))
  | equal => some (some (if start = bound then 1 else 0))
  | notEqual =>
    if start = bound then some (some 0)
    else if (← signed64? (bound - start)).sign = step.sign then
      if (← remainder64? distance stride) = 0 then some (← quotient64? distance stride)
      else some none
    else some none

/-- **The trip count for words of 32 bits is computed in words of 64 bits.** The step, whose sign
may have been changed, is no larger than such a word. -/
theorem tripCount64?_eq (c : Comparison) {start bound step : Int} (hstart : IsWord32 start)
    (hbound : IsWord32 bound) (hsmall : step.natAbs < 2 ^ 32) (hstep : step ≠ 0) :
    c.tripCount64? start bound step = some (c.tripCount start bound step) := by
  obtain ⟨hstartLow, hstartHigh⟩ := hstart
  obtain ⟨hboundLow, hboundHigh⟩ := hbound
  -- the arguments, and what is computed before the cases
  have hstart : signed64? start = some start := signed64?_eq ⟨by omega, by omega⟩
  have hbound : signed64? bound = some bound := signed64?_eq ⟨by omega, by omega⟩
  have hstepWord : signed64? step = some step := signed64?_eq ⟨by omega, by omega⟩
  have hdifference : signed64? (bound - start) = some (bound - start) :=
    signed64?_eq ⟨by omega, by omega⟩
  have hdistance : unsigned64? (bound - start).natAbs = some (bound - start).natAbs :=
    unsigned64?_eq (by omega)
  have hstride : unsigned64? step.natAbs = some step.natAbs := unsigned64?_eq (by omega)
  -- the quotients of the cases
  have hfar : (bound - start).natAbs < 2 ^ 63 := by omega
  have hmoves : 0 < step.natAbs := by omega
  have hquotient := quotient64?_eq hfar hmoves
  have hremainder := remainder64?_eq hfar hmoves
  have hceil := ceilQuotient64?_eq hfar hmoves
  have hnext : unsigned64? ((bound - start).natAbs / step.natAbs + 1) =
      some ((bound - start).natAbs / step.natAbs + 1) := by
    have hle := Nat.div_le_self (bound - start).natAbs step.natAbs
    exact unsigned64?_eq (by omega)
  simp only [tripCount64?, tripCount, hstart, hbound, hstepWord, hdifference, hdistance, hstride,
    hquotient, hremainder, hceil, hnext, Option.bind_eq_bind, Option.bind_some]
  cases c with
  | equal => rfl
  | notEqual =>
    dsimp only
    rw [ite_and]
    split_ifs <;> rfl
  | _ =>
    dsimp only
    split_ifs <;> rfl

end Comparison

/-! ### The counter -/

namespace Counter

/-- The next counter, if its value is a word. -/
def next64? (counter : Counter) : Option Counter :=
  (signed64? (counter.value + counter.step)).map fun value => { counter with value }

/-- The counter after some steps, if all values are words. -/
def after64? : Nat → Counter → Option Counter
  | 0, counter => some counter
  | n + 1, counter => counter.next64?.bind (after64? n)

theorem next64?_eq {counter : Counter} (h : IsInt64 counter.next.value) :
    counter.next64? = some counter.next := by
  rw [next64?, show counter.value + counter.step = counter.next.value from rfl, signed64?_eq h]
  rfl

theorem value_iterate_next (counter : Counter) (k : Nat) :
    (next^[k] counter).value = counter.value + k * counter.step := by
  induction k generalizing counter with
  | zero => simp
  | succ k ih =>
    rw [Function.iterate_succ_apply, ih]
    simp only [next, Int.natCast_add, Int.natCast_one, Int.add_mul, Int.one_mul]
    omega

/-- **Steps through words do not fail.** -/
theorem after64?_eq {counter : Counter} {n : Nat}
    (h : ∀ k < n, IsInt64 (next^[k + 1] counter).value) :
    counter.after64? n = some (next^[n] counter) := by
  induction n generalizing counter with
  | zero => rfl
  | succ n ih =>
    rw [after64?, next64?_eq (h 0 (Nat.zero_lt_succ n)), Option.bind_some,
      ih fun k hk => h (k + 1) (Nat.succ_lt_succ hk)]
    rfl

end Counter

end ShaderText
