import ShaderText.Name.Table
import ShaderText.CountingLoop
import ShaderText.Source

/-!
# The state of a pass

A `Context` is what a pass knows when it writes its next fragment: the text so far, the renamed
identifiers, the structs whose body is written, the counters of the loops that are being unrolled
(innermost first), and the number of scopes that are open.
-/

namespace ShaderText

/-- The state of a pass. -/
structure Context where
  source : Source := {}
  names : NameTable := .empty
  /-- The structs whose body is written. -/
  declared : List StructId := []
  /-- The counters of the loops being unrolled, innermost first. -/
  counters : List Counter := []
  /-- The number of open scopes. -/
  depth : Nat := 0

namespace Context

instance : Inhabited Context := ⟨{}⟩

def write (c : Context) (s : String) : Context := { c with source := c.source.write s }

/-- The state after a spelling is written, which brings the table after it. -/
def writeName (c : Context) (spelled : String × NameTable) : Context :=
  { c with source := c.source.write spelled.1, names := spelled.2 }

/-! ### Structs -/

/-- Whether the body of a struct is written; that of an anonymous one never counts as written. -/
def isDeclared (c : Context) (id : StructId) (name : String) : Bool :=
  name != "" && c.declared.contains id

/-- The state after the body of a struct is written. -/
def declare (c : Context) (id : StructId) (name : String) : Context :=
  if name = "" then c else { c with declared := id :: c.declared }

theorem isDeclared_declare (c : Context) (id id' : StructId) (name name' : String) :
    (c.declare id name).isDeclared id' name' =
      (c.isDeclared id' name' || (name != "" && name' != "" && id == id')) := by
  by_cases h : name = ""
  · simp [declare, h]
  have hb : (name != "") = true := bne_iff_ne.mpr h
  cases hn : name' != "" with
  | false => simp [isDeclared, hn]
  | true =>
    simp only [declare, isDeclared, if_neg h, hb, hn, List.contains_cons, Bool.true_and]
    rw [Bool.or_comm, Bool.beq_comm]

/-! ### Counters -/

/-- The value of a variable that counts a loop being unrolled, the innermost such loop. -/
def counterValue? (c : Context) (id : SymbolId) : Option Int :=
  (c.counters.find? (·.id == id)).map (·.value)

def pushCounter (c : Context) (counter : Counter) : Context :=
  { c with counters := counter :: c.counters }

/-- The state with the innermost counter at its next value. -/
def stepCounter (c : Context) : Context :=
  match c.counters with
  | [] => c
  | counter :: rest => { c with counters := counter.next :: rest }

def popCounter (c : Context) : Context := { c with counters := c.counters.tail }

@[simp] theorem popCounter_pushCounter (c : Context) (counter : Counter) :
    (c.pushCounter counter).popCounter = c := rfl

@[simp] theorem stepCounter_pushCounter (c : Context) (counter : Counter) :
    (c.pushCounter counter).stepCounter = c.pushCounter counter.next := rfl

/-- The innermost of the loops that share a counter decides its value. -/
theorem counterValue?_pushCounter (c : Context) (counter : Counter) (id : SymbolId) :
    (c.pushCounter counter).counterValue? id =
      if counter.id = id then some counter.value else c.counterValue? id := by
  by_cases h : counter.id = id <;> simp [counterValue?, pushCounter, h]

/-! ### Scopes -/

def enterScope (c : Context) : Context := { c with depth := c.depth + 1 }

def leaveScope (c : Context) : Context := { c with depth := c.depth - 1 }

@[simp] theorem leaveScope_enterScope (c : Context) : c.enterScope.leaveScope = c := rfl

end Context

end ShaderText
