import ShaderText.Error

/-!
# Counting loops

A loop can be unrolled if it has the form

    for (int i = start; i <comparison> bound; <i++, ++i, i--, --i, i += amount or i -= amount>)

with integer constants, and stops. `CountingLoop.ofLoop` recognises the form, and says what is in
the way otherwise; the checks are made from left to right, and the number of iterations is settled
before anything is written.

* `Comparison.tripCount` is the number of iterations over the integers, `none` if there is no end.
* `Counter` is the state of one loop while its copies are written.
-/

namespace ShaderText

/-- What a loop condition compares its counter with the bound by. -/
inductive Comparison where
  | less
  | lessEqual
  | greater
  | greaterEqual
  | equal
  | notEqual
  deriving DecidableEq, Repr

def BinaryOp.comparison? : BinaryOp → Option Comparison
  | less => some .less
  | lessEqual => some .lessEqual
  | greater => some .greater
  | greaterEqual => some .greaterEqual
  | equal => some .equal
  | notEqual => some .notEqual
  | _ => none

/-- The number of steps of a stride that cover a distance. -/
def stepsToCover (distance stride : Nat) : Nat := (distance + stride - 1) / stride

/-- The number of iterations from `start` by `step` while the comparison with `bound` holds. -/
def Comparison.tripCount (c : Comparison) (start bound step : Int) : Option Nat :=
  let distance := (bound - start).natAbs
  let stride := step.natAbs
  match c with
  | less =>
    if bound ≤ start then some 0
    else if step < 0 then none
    else some (stepsToCover distance stride)
  | lessEqual =>
    if bound < start then some 0
    else if step < 0 then none
    else some (distance / stride + 1)
  | greater =>
    if start ≤ bound then some 0
    else if 0 < step then none
    else some (stepsToCover distance stride)
  | greaterEqual =>
    if start < bound then some 0
    else if 0 < step then none
    else some (distance / stride + 1)
  | equal => some (if start = bound then 1 else 0)
  | notEqual =>
    if start = bound then some 0
    else if (bound - start).sign = step.sign ∧ distance % stride = 0 then some (distance / stride)
    else none

/-- The counter of a loop that is being unrolled: its present value, and the step to the next. -/
structure Counter where
  id : SymbolId
  value : Int
  step : Int
  deriving DecidableEq, Repr

/-- The counter of the next copy. -/
def Counter.next (c : Counter) : Counter := { c with value := c.value + c.step }

/-- A loop that can be unrolled. -/
structure CountingLoop where
  var : Variable
  start : Int
  step : Int
  iterations : Nat

namespace CountingLoop

/-- The variable that the loop declares, and its first value. -/
def declared (kind : LoopKind) (init : Option Node) : Except UnrollObstacle (Variable × Int) :=
  if kind ≠ .forLoop then .error .notForLoop
  else
    match init with
    | some (.declaration [{ var, initializer }]) =>
      if var.type.basic ≠ .int ∨ var.type.cols ≠ 1 ∨ var.type.isArray then .error .notScalarInt
      else
        match initializer.bind Node.asInt? with
        | some start => .ok (var, start)
        | none => .error .startNotConstant
    | some (.declaration _) => .error .notOneVariable
    | _ => .error .initNotDeclaration

/-- The comparison that keeps the loop running, and its bound. -/
def tested (id : SymbolId) : Option Node → Except UnrollObstacle (Comparison × Int)
  | some (.binary op left right _ _) =>
    match op.comparison? with
    | none => .error .notComparison
    | some comparison =>
      if !left.refersTo id then .error .otherVariableTested
      else
        match right.asInt? with
        | some bound => .ok (comparison, bound)
        | none => .error .boundNotConstant
  | _ => .error .notComparison

/-- What the loop adds to its variable. -/
def stepped (id : SymbolId) : Option Node → Except UnrollObstacle Int
  | some (.unary op operand _ _) =>
    if !operand.refersTo id then .error .otherVariableStepped
    else
      match op with
      | .postIncrement | .preIncrement => .ok 1
      | .postDecrement | .preDecrement => .ok (-1)
      | _ => .error .unsupportedStep
  | some (.binary op left right _ _) =>
    if !left.refersTo id then .error .otherVariableStepped
    else
      match right.asInt?, op with
      | none, _ => .error .stepNotConstant
      | some amount, .addAssign => .ok amount
      | some amount, .subAssign => .ok (-amount)
      | some _, _ => .error .unsupportedStep
  | _ => .error .otherVariableStepped

/-- The counting loop that the parts of a loop make up. -/
def ofLoop (kind : LoopKind) (init condition step : Option Node) :
    Except UnrollObstacle CountingLoop := do
  let (var, start) ← declared kind init
  let (comparison, bound) ← tested var.id condition
  let step ← stepped var.id step
  if step = 0 then .error .zeroStep
  else
    match comparison.tripCount start bound step with
    | none => .error .neverTerminates
    | some iterations =>
      if maxCopies < iterations then .error (.tooManyIterations iterations)
      else .ok { var, start, step, iterations }

/-- The counter of the first copy. -/
def counter (l : CountingLoop) : Counter := { id := l.var.id, value := l.start, step := l.step }

end CountingLoop

end ShaderText
