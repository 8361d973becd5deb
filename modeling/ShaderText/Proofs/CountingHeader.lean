import ShaderText.Pass
import ShaderText.Proofs.Unrollable
import ShaderText.Proofs.CheckedCount

/-! # Headers of counting loops

`CountingHeader` is what the three parts of a loop say when they have the form of a counting loop:
the variable that counts, its first value, the comparison with a bound, and the amount of a step.
Over the integers a header either lasts for ever or stops after some number of iterations, and this
settles whether the loop is unrolled: **`CountingHeader.ofLoop_outcomes`**. It also says that the
values of the copies lie between the first value and the bound, and that neither the trip count nor
the counter needs more than words of 64 bits. -/

namespace ShaderText

/-- What the parts of a counting loop say. -/
structure CountingHeader where
  var : Variable
  start : Int
  comparison : Comparison
  bound : Int
  amount : Int

/-! ### Constants -/

theorem Node.isWord32_of_asInt? {n : Node} {x : Int} (h : n.asInt? = some x) : IsWord32 x := by
  unfold asInt? at h
  split at h
  · rename_i value
    cases h
    have hlt := value.toInt_lt
    exact ⟨value.le_toInt, by omega⟩
  · rename_i value
    cases h
    have hlt := value.toNat_lt
    exact ⟨by omega, by omega⟩
  · cases h

/-- A step is a constant or its negative. -/
theorem Node.Adds.natAbs_lt {n : Node} {id : SymbolId} {amount : Int} (h : n.Adds id amount) :
    amount.natAbs < 2 ^ 32 := by
  cases n with
  | unary op operand type emulated =>
    obtain ⟨-, ⟨-, rfl⟩ | ⟨-, rfl⟩⟩ := h <;> decide
  | binary op left right type clamped =>
    obtain ⟨-, x, hx, hamount⟩ := h
    obtain ⟨hlow, hhigh⟩ := isWord32_of_asInt? hx
    omega
  | _ => exact h.elim

namespace CountingHeader

/-- The header that the parts of a loop make up. -/
abbrev IsHeaderOf (h : CountingHeader) (kind : LoopKind) (init condition step : Option Node) :
    Prop :=
  IsCountingFor kind init condition step h.var h.comparison (Node.HasValue h.start)
    (Node.HasValue h.bound) (Node.Adds h.var.id h.amount)

/-- The value of the variable after a number of steps. -/
def valueAt (h : CountingHeader) (k : Nat) : Int := h.start + k * h.amount

/-- The comparison holds after a number of steps. -/
def HoldsAt (h : CountingHeader) (k : Nat) : Prop := h.comparison.holds (h.valueAt k) h.bound

/-- The comparison holds before each of so many iterations, and fails after them. -/
def StopsAfter (h : CountingHeader) (n : Nat) : Prop := (∀ k < n, h.HoldsAt k) ∧ ¬ h.HoldsAt n

/-- The loop with a number of iterations. -/
def loop (h : CountingHeader) (n : Nat) : CountingLoop :=
  { var := h.var, start := h.start, step := h.amount, iterations := n }

/-- What keeps a loop of this form from being unrolled. -/
def IsHinderedBy (h : CountingHeader) : UnrollObstacle → Prop
  | .zeroStep => h.amount = 0
  | .neverTerminates => h.amount ≠ 0 ∧ ∀ k, h.HoldsAt k
  | .tooManyIterations n => h.amount ≠ 0 ∧ maxCopies < n ∧ h.StopsAfter n
  | _ => False

variable {h : CountingHeader} {kind : LoopKind} {init condition step : Option Node} {n : Nat}

theorem tripCount_eq_some_iff (hmoves : h.amount ≠ 0) :
    h.comparison.tripCount h.start h.bound h.amount = some n ↔ h.StopsAfter n :=
  Comparison.tripCount_eq_some_iff hmoves

theorem tripCount_eq_none_iff (hmoves : h.amount ≠ 0) :
    h.comparison.tripCount h.start h.bound h.amount = none ↔ ∀ k, h.HoldsAt k :=
  Comparison.tripCount_eq_none_iff hmoves

/-- A loop that moves lasts for ever or stops. -/
theorem holdsAt_or_stopsAfter (hmoves : h.amount ≠ 0) :
    (∀ k, h.HoldsAt k) ∨ ∃ n, h.StopsAfter n := by
  cases hcount : h.comparison.tripCount h.start h.bound h.amount with
  | none => exact .inl ((tripCount_eq_none_iff hmoves).mp hcount)
  | some n => exact .inr ⟨n, (tripCount_eq_some_iff hmoves).mp hcount⟩

/-- While the loop lasts its variable is between the first value and the bound. -/
theorem StopsAfter.between (hn : h.StopsAfter n) (hmoves : h.amount ≠ 0) {k : Nat} (hk : k < n) :
    min h.start h.bound ≤ h.valueAt k ∧ h.valueAt k ≤ max h.start h.bound :=
  ((Comparison.counts_of_tripCount hmoves ((tripCount_eq_some_iff hmoves).mpr hn)).1 k hk).2

theorem valueAt_succ (h : CountingHeader) (k : Nat) :
    h.valueAt (k + 1) = h.valueAt k + h.amount :=
  (h.loop 0).valueAt_succ k

theorem value_iterate_next_counter (h : CountingHeader) (n k : Nat) :
    (Counter.next^[k] (h.loop n).counter).value = h.valueAt k :=
  Counter.value_iterate_next _ k

/-! ### Loops with a header -/

namespace IsHeaderOf

variable (hh : h.IsHeaderOf kind init condition step)

include hh

/-- What is made of the parts of a loop that has a header. -/
theorem ofLoop_eq :
    CountingLoop.ofLoop kind init condition step =
      if h.amount = 0 then .error .zeroStep
      else
        match h.comparison.tripCount h.start h.bound h.amount with
        | none => .error .neverTerminates
        | some n => if maxCopies < n then .error (.tooManyIterations n) else .ok (h.loop n) := by
  obtain ⟨hd, ht, hs⟩ := CountingLoop.reads_iff.mpr hh
  simp only [CountingLoop.ofLoop, hd, ht, hs, bind, Except.bind]
  rfl

theorem ofLoop_of_zero (hzero : h.amount = 0) :
    CountingLoop.ofLoop kind init condition step = .error .zeroStep := by
  rw [hh.ofLoop_eq, if_pos hzero]

theorem ofLoop_of_holdsAt (hmoves : h.amount ≠ 0) (hlasts : ∀ k, h.HoldsAt k) :
    CountingLoop.ofLoop kind init condition step = .error .neverTerminates := by
  rw [hh.ofLoop_eq, if_neg hmoves, (tripCount_eq_none_iff hmoves).mpr hlasts]

theorem ofLoop_of_stopsAfter (hmoves : h.amount ≠ 0) (hn : h.StopsAfter n) :
    CountingLoop.ofLoop kind init condition step =
      if maxCopies < n then .error (.tooManyIterations n) else .ok (h.loop n) := by
  rw [hh.ofLoop_eq, if_neg hmoves, (tripCount_eq_some_iff hmoves).mpr hn]

/-- A loop is unrolled if it moves and stops soon enough, into as many copies as iterations. -/
theorem ofLoop_eq_ok_iff {l : CountingLoop} :
    CountingLoop.ofLoop kind init condition step = .ok l ↔
      l = h.loop l.iterations ∧ h.amount ≠ 0 ∧ l.iterations ≤ maxCopies ∧
        h.StopsAfter l.iterations := by
  constructor
  · intro hl
    by_cases hmoves : h.amount = 0
    · rw [hh.ofLoop_of_zero hmoves] at hl
      cases hl
    rcases holdsAt_or_stopsAfter hmoves with hlasts | ⟨n, hn⟩
    · rw [hh.ofLoop_of_holdsAt hmoves hlasts] at hl
      cases hl
    · rw [hh.ofLoop_of_stopsAfter hmoves hn] at hl
      split_ifs at hl with hmany
      cases hl
      exact ⟨rfl, hmoves, Nat.not_lt.mp hmany, hn⟩
  · rintro ⟨hl, hmoves, hfew, hn⟩
    rw [hh.ofLoop_of_stopsAfter hmoves hn, if_neg (Nat.not_lt.mpr hfew), ← hl]

/-- Otherwise the obstacle is that it does not move, or does not stop, or not soon enough. -/
theorem ofLoop_eq_error_iff {obstacle : UnrollObstacle} :
    CountingLoop.ofLoop kind init condition step = .error obstacle ↔ h.IsHinderedBy obstacle := by
  constructor
  · intro hobstacle
    by_cases hmoves : h.amount = 0
    · rw [hh.ofLoop_of_zero hmoves] at hobstacle
      cases hobstacle
      exact hmoves
    rcases holdsAt_or_stopsAfter hmoves with hlasts | ⟨n, hn⟩
    · rw [hh.ofLoop_of_holdsAt hmoves hlasts] at hobstacle
      cases hobstacle
      exact ⟨hmoves, hlasts⟩
    · rw [hh.ofLoop_of_stopsAfter hmoves hn] at hobstacle
      split_ifs at hobstacle with hmany
      cases hobstacle
      exact ⟨hmoves, hmany, hn⟩
  · intro hobstacle
    cases obstacle with
    | zeroStep => exact hh.ofLoop_of_zero hobstacle
    | neverTerminates => exact hh.ofLoop_of_holdsAt hobstacle.1 hobstacle.2
    | tooManyIterations n =>
      obtain ⟨hmoves, hmany, hn⟩ := hobstacle
      rw [hh.ofLoop_of_stopsAfter hmoves hn, if_pos hmany]
    | _ => exact hobstacle.elim

/-- A loop with an obstacle is not written, and the error is the obstacle. -/
theorem write_of_isHinderedBy {obstacle : UnrollObstacle} (hobstacle : h.IsHinderedBy obstacle)
    (body : Option (List Node)) (r : Renderer) (c : Context) :
    (Node.loop kind init condition step body true).write r c = .error (.unroll obstacle) := by
  have hfragments : (Node.loop kind init condition step body true).fragments r.config =
      [.scope [.fail (.unroll obstacle)]] := by
    simp only [Node.fragments, if_true, hh.ofLoop_eq_error_iff.mpr hobstacle]
  rw [Node.write, hfragments, Fragment.writeAll_singleton, Fragment.write,
    Fragment.writeAll_singleton, Fragment.write]
  rfl

theorem isWord32_start : IsWord32 h.start := by
  obtain ⟨-, p, -, hcounts⟩ := hh
  exact Node.isWord32_of_asInt? hcounts.starts

theorem isWord32_bound : IsWord32 h.bound := by
  obtain ⟨-, p, -, hcounts⟩ := hh
  obtain ⟨op, tested, bound, type, clamped, -, hbound⟩ := hcounts.compares.exists_limit
  exact Node.isWord32_of_asInt? hbound

theorem natAbs_amount_lt : h.amount.natAbs < 2 ^ 32 := by
  obtain ⟨-, p, -, hcounts⟩ := hh
  exact hcounts.steps.natAbs_lt

theorem tripCount64?_eq (hmoves : h.amount ≠ 0) :
    h.comparison.tripCount64? h.start h.bound h.amount =
      some (h.comparison.tripCount h.start h.bound h.amount) :=
  h.comparison.tripCount64?_eq hh.isWord32_start hh.isWord32_bound hh.natAbs_amount_lt hmoves

/-- The counter leaves the words of 64 bits neither between the copies nor after the last one. -/
theorem after64?_eq (hmoves : h.amount ≠ 0) (hn : h.StopsAfter n) {k : Nat} (hk : k ≤ n) :
    (h.loop n).counter.after64? k = some (Counter.next^[k] (h.loop n).counter) := by
  refine Counter.after64?_eq fun j hj => ?_
  obtain ⟨hstartLow, hstartHigh⟩ := hh.isWord32_start
  obtain ⟨hboundLow, hboundHigh⟩ := hh.isWord32_bound
  have hamount := hh.natAbs_amount_lt
  obtain ⟨hlow, hhigh⟩ := hn.between hmoves (Nat.lt_of_lt_of_le hj hk)
  rw [value_iterate_next_counter, valueAt_succ]
  exact ⟨by omega, by omega⟩

end IsHeaderOf

/-- **The trip count of a loop is the number of its iterations.** A loop with a header is unrolled
exactly if its step is not zero and it stops after at most `maxCopies` iterations; the copies are as
many. In every other case there is an obstacle, which says what is the matter and is what writing
the loop fails with. Until the loop stops its variable is between the first value and the bound. No
operation of the trip count or of a step of the counter leaves the words of 64 bits. -/
theorem ofLoop_outcomes (hh : h.IsHeaderOf kind init condition step) :
    (∀ l, CountingLoop.ofLoop kind init condition step = .ok l ↔
      l = h.loop l.iterations ∧ h.amount ≠ 0 ∧ l.iterations ≤ maxCopies ∧
        h.StopsAfter l.iterations) ∧
    (∀ obstacle, CountingLoop.ofLoop kind init condition step = .error obstacle ↔
      h.IsHinderedBy obstacle) ∧
    (∀ obstacle, h.IsHinderedBy obstacle → ∀ body r c,
      (Node.loop kind init condition step body true).write r c = .error (.unroll obstacle)) ∧
    (h.amount ≠ 0 →
      h.comparison.tripCount64? h.start h.bound h.amount =
        some (h.comparison.tripCount h.start h.bound h.amount) ∧
      ∀ n, h.StopsAfter n →
        (∀ k < n, min h.start h.bound ≤ h.valueAt k ∧ h.valueAt k ≤ max h.start h.bound ∧
          (IsInt32 h.start → IsInt32 h.bound → IsInt32 (h.valueAt k))) ∧
        ∀ k ≤ n,
          (h.loop n).counter.after64? k = some (Counter.next^[k] (h.loop n).counter) ∧
          (Counter.next^[k] (h.loop n).counter).value = h.valueAt k) := by
  refine ⟨fun l => hh.ofLoop_eq_ok_iff, fun obstacle => hh.ofLoop_eq_error_iff,
    fun obstacle hobstacle body r c => hh.write_of_isHinderedBy hobstacle body r c,
    fun hmoves => ⟨hh.tripCount64?_eq hmoves, fun n hn => ⟨fun k hk => ?_, fun k hk => ?_⟩⟩⟩
  · obtain ⟨hlow, hhigh⟩ := hn.between hmoves hk
    refine ⟨hlow, hhigh, fun ⟨hstartLow, hstartHigh⟩ ⟨hboundLow, hboundHigh⟩ => ?_⟩
    exact ⟨by omega, by omega⟩
  · exact ⟨hh.after64?_eq hmoves hn hk, h.value_iterate_next_counter n k⟩

/-- `for (int i = 10; i > 0; i -= 4)` -/
def countdown : CountingHeader where
  var := { id := ⟨0⟩, name := { text := "i" }, type := .scalar .int }
  start := 10
  comparison := .greater
  bound := 0
  amount := -4

/-- The countdown has three iterations, and its counter ends at `-2`. -/
theorem ofLoop_outcomes_countdown :
    let number (value : Int32) : Node := .constant (.scalar .int) [.int value]
    let init : Node := .declaration [{ var := countdown.var, initializer := some (number 10) }]
    let condition : Node :=
      .binary .greater (.symbol countdown.var) (number 0) (.scalar .bool) false
    let step : Node := .binary .subAssign (.symbol countdown.var) (number 4) (.scalar .int) false
    countdown.IsHeaderOf .forLoop (some init) (some condition) (some step) ∧
    CountingLoop.ofLoop .forLoop (some init) (some condition) (some step) =
      .ok (countdown.loop 3) ∧
    ((countdown.loop 3).counter.after64? 3).map Counter.value = some (-2) := by
  intro number init condition step
  have hheader : countdown.IsHeaderOf .forLoop (some init) (some condition) (some step) :=
    ⟨rfl, _, rfl,
      { declares := rfl
        isScalarInt := ⟨rfl, rfl, rfl⟩
        starts := rfl
        compares := ⟨rfl, rfl, rfl⟩
        steps := ⟨rfl, 4, rfl, .inr ⟨rfl, rfl⟩⟩ }⟩
  have hstops : countdown.StopsAfter 3 := by
    refine ⟨fun k hk => ?_, ?_⟩ <;>
      simp only [HoldsAt, valueAt, Comparison.holds, countdown] <;>
      omega
  obtain ⟨hunrolled, -, -, hrest⟩ := ofLoop_outcomes hheader
  obtain ⟨-, hvalues⟩ := hrest (by decide)
  obtain ⟨hafter, hvalue⟩ := (hvalues 3 hstops).2 3 (Nat.le_refl 3)
  refine ⟨hheader, (hunrolled _).mpr ⟨rfl, by decide, by decide, hstops⟩, ?_⟩
  rw [hafter, Option.map_some, hvalue]
  rfl

end CountingHeader

end ShaderText
