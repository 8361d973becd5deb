import ShaderText.Proofs.Addition
import ShaderText.Proofs.TypeFragments

/-! # Depth: what the number of open scopes matters to

The writer counts the scopes that are open, and all it reads from the count is whether to write the
braces of a block: it leaves them out where no scope is open. `Fragment.writesBraces` follows the
count through a layout and asks for each brace whether it is written. Inside a scope all of them are
(`writesBraces_of_pos`), and where all are written the count is not to be seen
(`trace_eq_of_writesBraces`).

Expressions have no blocks, and branches, loops and functions open a scope around theirs, so all of
these have their braces at any depth (`Node.alwaysBraced_fragments`). A `switch` does not open one.
**At the outermost depth a statement adds what it adds at any other, unless it is a `switch` with a
body, which then is written without its braces (`Node.addition_depth_iff`).** -/

namespace ShaderText

namespace Fragment

/-! ### Braces that are written -/

mutual

/-- Whether all braces of a fragment are written where `depth` scopes are open. -/
def writesBraces : Fragment → Nat → Bool
  | brace _, depth => 0 < depth
  | scope body, depth => writesAllBraces body (depth + 1)
  | structBody _ _ body later, depth => writesAllBraces body depth && writesAllBraces later depth
  | unrolled _ _ body, depth => writesAllBraces body depth
  | _, _ => true

def writesAllBraces : List Fragment → Nat → Bool
  | [], _ => true
  | f :: rest, depth => f.writesBraces depth && writesAllBraces rest depth

end

theorem writesAllBraces_iff {fs : List Fragment} {depth : Nat} :
    writesAllBraces fs depth = true ↔ ∀ f ∈ fs, f.writesBraces depth = true := by
  induction fs with
  | nil => simp [writesAllBraces]
  | cons f rest ih => simp [writesAllBraces, ih]

mutual

/-- Inside a scope all braces are written. -/
theorem writesBraces_of_pos {depth : Nat} (h : 0 < depth) :
    (f : Fragment) → f.writesBraces depth = true
  | brace _ => by simpa [writesBraces] using h
  | scope body => writesAllBraces_of_pos (Nat.succ_pos depth) body
  | structBody _ _ body later => by
    simp [writesBraces, writesAllBraces_of_pos h body, writesAllBraces_of_pos h later]
  | unrolled _ _ body => writesAllBraces_of_pos h body
  | text _ | reference .. | variableName _ | parameterName _ | typeName _ | member .. |
    blockMember _ | function .. | intrinsic .. | requireStruct .. | constant .. | fail _ => rfl

theorem writesAllBraces_of_pos {depth : Nat} (h : 0 < depth) :
    (fs : List Fragment) → writesAllBraces fs depth = true
  | [] => rfl
  | f :: rest => by
    simp [writesAllBraces, writesBraces_of_pos h f, writesAllBraces_of_pos h rest]

end

mutual

-- Only a brace looks at the depth. A scope raises both depths, so in the induction these are any
-- two at which all braces are written.

/-- **Where all braces are written the depth is not to be seen.** -/
theorem trace_eq_of_writesBraces (c : Config) : (f : Fragment) → (b : Bindings) →
    {d d' : Nat} → f.writesBraces d = true → f.writesBraces d' = true →
      f.trace c b d = f.trace c b d'
  | brace s, b, d, d', h, h' => by
    rw [trace, trace, if_pos (by simpa [writesBraces] using h),
      if_pos (by simpa [writesBraces] using h')]
  | scope body, b, _, _, h, h' => traceAll_eq_of_writesAllBraces c body b h h'
  | structBody id name body later, b, _, _, h, h' => by
    simp only [writesBraces, Bool.and_eq_true] at h h'
    rw [trace, trace, traceAll_eq_of_writesAllBraces c body b h.1 h'.1,
      traceAll_eq_of_writesAllBraces c later b h.2 h'.2]
  | unrolled counter copies body, b, _, _, h, h' =>
    congrArg (Trace.each · _) (funext fun value =>
      traceAll_eq_of_writesAllBraces c body (Function.update b counter.id (some value)) h h')
  | text _, _, _, _, _, _ | reference .., _, _, _, _, _ | variableName _, _, _, _, _, _ |
    parameterName _, _, _, _, _, _ | typeName _, _, _, _, _, _ | member .., _, _, _, _, _ |
    blockMember _, _, _, _, _, _ | function .., _, _, _, _, _ | intrinsic .., _, _, _, _, _ |
    requireStruct .., _, _, _, _, _ | constant .., _, _, _, _, _ | fail _, _, _, _, _, _ => rfl

theorem traceAll_eq_of_writesAllBraces (c : Config) : (fs : List Fragment) → (b : Bindings) →
    {d d' : Nat} → writesAllBraces fs d = true → writesAllBraces fs d' = true →
      traceAll c fs b d = traceAll c fs b d'
  | [], _, _, _, _, _ => rfl
  | f :: rest, b, _, _, h, h' => by
    simp only [writesAllBraces, Bool.and_eq_true] at h h'
    rw [traceAll, traceAll, trace_eq_of_writesBraces c f b h.1 h'.1,
      traceAll_eq_of_writesAllBraces c rest b h.2 h'.2]

end

/-- The addition is the same at depths where all braces are written. -/
theorem additionAll_eq_of_writesAllBraces (r : Renderer) {fs : List Fragment} (c : Context)
    {d d' : Nat} (h : writesAllBraces fs d = true) (h' : writesAllBraces fs d' = true) :
    additionAll r fs { c with depth := d } = additionAll r fs { c with depth := d' } := by
  obtain ⟨outcome, hlocal, -⟩ := traceAll_isLocal r.config fs c.counterValue? d
    (fun id => Iff.rfl : ∀ id, id ∈ c.declared ↔ id ∈ c.declared)
  have hlocal' := hlocal
  rw [traceAll_eq_of_writesAllBraces r.config fs c.counterValue? h h'] at hlocal'
  rw [additionAll_eq_additionOf (c := { c with depth := d }) hlocal,
    additionAll_eq_additionOf (c := { c with depth := d' }) hlocal']

/-- All braces of a fragment are written at any depth. -/
def AlwaysBraced (f : Fragment) : Prop := ∀ depth, f.writesBraces depth = true

theorem writesAllBraces_of_alwaysBraced {fs : List Fragment} (h : ∀ f ∈ fs, f.AlwaysBraced)
    (depth : Nat) : writesAllBraces fs depth = true :=
  writesAllBraces_iff.mpr fun f hf => h f hf depth

@[simp] theorem alwaysBraced_text (s : String) : (text s).AlwaysBraced := fun _ => rfl

@[simp] theorem alwaysBraced_reference (id : SymbolId) (name : Name) :
    (reference id name).AlwaysBraced := fun _ => rfl

@[simp] theorem alwaysBraced_variableName (name : Name) : (variableName name).AlwaysBraced :=
  fun _ => rfl

@[simp] theorem alwaysBraced_intrinsic (name : String) (emulated : Bool) :
    (intrinsic name emulated).AlwaysBraced := fun _ => rfl

@[simp] theorem alwaysBraced_constant (type : ShaderType) (values : List Scalar) :
    (constant type values).AlwaysBraced := fun _ => rfl

@[simp] theorem alwaysBraced_fail (cause : RenderError) : (fail cause).AlwaysBraced :=
  fun _ => rfl

/-- A scope is deep enough for what is in it. -/
@[simp] theorem alwaysBraced_scope (body : List Fragment) : (scope body).AlwaysBraced :=
  fun depth => writesAllBraces_of_pos (Nat.succ_pos depth) body

theorem alwaysBraced_holdsOfNames : HoldsOfNames AlwaysBraced where
  text := alwaysBraced_text
  variableName := alwaysBraced_variableName
  parameterName _ := fun _ => rfl
  typeName _ := fun _ => rfl
  member _ _ := fun _ => rfl
  blockMember _ := fun _ => rfl
  function _ _ := fun _ => rfl
  intrinsic := alwaysBraced_intrinsic
  requireStruct _ _ := fun _ => rfl
  structBody id name body later hbody hlater := fun depth => by
    rw [writesBraces, writesAllBraces_of_alwaysBraced hbody,
      writesAllBraces_of_alwaysBraced hlater, Bool.and_true]
  fail := alwaysBraced_fail

end Fragment

/-! ### Expressions -/

namespace Node

open Fragment

mutual

/-- An expression, whose operands are expressions. -/
def isExpression : Node → Bool
  | symbol _ | constant .. => true
  | unary _ operand _ _ => operand.isExpression
  | binary _ left right _ _ => left.isExpression && right.isExpression
  | ternary condition whenTrue whenFalse _ =>
    condition.isExpression && whenTrue.isExpression && whenFalse.isExpression
  | swizzle operand _ _ => operand.isExpression
  | call _ arguments _ _ => areExpressions arguments
  | _ => false

def areExpressions : List Node → Bool
  | [] => true
  | node :: rest => node.isExpression && areExpressions rest

end

variable {c : Config}

theorem alwaysBraced_clampedIndex (indexed : Node) {index : List Fragment}
    (h : ∀ f ∈ index, f.AlwaysBraced) :
    ∀ f ∈ clampedIndex c indexed index, f.AlwaysBraced := by
  unfold clampedIndex
  split
  · simp
  · split_ifs
    · simp
    · split <;> simpa [or_imp, forall_and] using h

theorem alwaysBraced_memberSelection (ofBlock : Bool) (owner position : Node)
    {operand : List Fragment} (h : ∀ f ∈ operand, f.AlwaysBraced) :
    ∀ f ∈ memberSelection ofBlock owner position operand, f.AlwaysBraced := by
  unfold memberSelection
  split
  · simp
  · simp
  · rename_i index t _ _
    rw [List.forall_mem_append]
    exact ⟨h, by simp [alwaysBraced_holdsOfNames.memberName t ofBlock index]⟩

mutual

/-- The braces of an expression belong to the bodies of structs. -/
theorem alwaysBraced_of_isExpression : (n : Node) → n.isExpression = true →
    ∀ f ∈ n.fragments c, f.AlwaysBraced
  | symbol v, _ => by simp [fragments]
  | constant .., _ => by simp [fragments]
  | unary op operand _ emulated, h => by
    have hoperand := alwaysBraced_of_isExpression operand h
    rw [fragments]
    cases op.form <;> simpa [or_imp, forall_and] using hoperand
  | binary op left right _ clamped, h => by
    rw [isExpression, Bool.and_eq_true] at h
    have hleft := alwaysBraced_of_isExpression left h.1
    have hright := alwaysBraced_of_isExpression right h.2
    rw [fragments]
    cases op.form with
    | between separator => simpa [or_imp, forall_and] using ⟨hleft, hright⟩
    | index computed =>
      dsimp only
      split_ifs
      · exact List.forall_mem_append.mpr ⟨hleft, alwaysBraced_clampedIndex left hright⟩
      · simpa [or_imp, forall_and] using ⟨hleft, hright⟩
    | member ofBlock => exact alwaysBraced_memberSelection ofBlock left right hleft
  | ternary condition whenTrue whenFalse _, h => by
    simp only [isExpression, Bool.and_eq_true] at h
    have hcondition := alwaysBraced_of_isExpression condition h.1.1
    have htrue := alwaysBraced_of_isExpression whenTrue h.1.2
    have hfalse := alwaysBraced_of_isExpression whenFalse h.2
    simpa [fragments, or_imp, forall_and] using ⟨hcondition, htrue, hfalse⟩
  | swizzle operand offsets _, h => by
    rw [fragments, List.forall_mem_append]
    exact ⟨alwaysBraced_of_isExpression operand h,
      alwaysBraced_holdsOfNames.swizzleSelection offsets⟩
  | call callee arguments type emulated, h => by
    have harguments := forall_mem_commaSeparated (alwaysBraced_text _)
      (alwaysBraced_of_areExpressions arguments h)
    rw [fragments, List.forall_mem_append, List.forall_mem_cons, List.forall_mem_append]
    exact ⟨alwaysBraced_holdsOfNames.calleeFragments type emulated callee, alwaysBraced_text _,
      harguments, by simp⟩

theorem alwaysBraced_of_areExpressions : (nodes : List Node) → areExpressions nodes = true →
    ∀ group ∈ eachFragments c nodes, ∀ f ∈ group, f.AlwaysBraced
  | [], _ => by simp [eachFragments]
  | node :: rest, h => by
    rw [areExpressions, Bool.and_eq_true] at h
    rw [eachFragments, List.forall_mem_cons]
    exact ⟨alwaysBraced_of_isExpression node h.1, alwaysBraced_of_areExpressions rest h.2⟩

end

/-! ### Statements -/

/-- Expressions are where a statement has places for them, but for those places that are in a scope
of the statement itself. -/
def holdsExpressions : Node → Bool
  | prototype _ | invariantDeclaration _ | block _ | loop .. | function .. => true
  | declaration declarators => declarators.all fun d => d.initializer.all isExpression
  | ifElse condition _ _ => condition.isExpression
  | switch selector _ => selector.isExpression
  | case label => label.all isExpression
  | branch _ value => value.all isExpression
  | n => n.isExpression

def isBlock : Node → Bool
  | block _ => true
  | _ => false

/-- A `switch` that is not empty. -/
def isSwitchWithBody : Node → Bool
  | switch _ (some _) => true
  | _ => false

theorem exists_of_isSwitchWithBody {n : Node} (h : n.isSwitchWithBody = true) :
    ∃ selector statements, n = switch selector (some statements) := by
  unfold isSwitchWithBody at h
  split at h
  · exact ⟨_, _, rfl⟩
  · exact absurd h (by decide)

theorem alwaysBraced_optionalFragments {value : Option Node}
    (h : value.all isExpression = true) : ∀ f ∈ optionalFragments c value, f.AlwaysBraced := by
  cases value with
  | none => simp [optionalFragments]
  | some node => exact alwaysBraced_of_isExpression node h

theorem alwaysBraced_declaratorFragments (declarators : List Declarator)
    (h : declarators.all (fun d => d.initializer.all isExpression) = true) :
    ∀ group ∈ declaratorFragments c declarators, ∀ f ∈ group, f.AlwaysBraced := by
  induction declarators with
  | nil => simp [declaratorFragments]
  | cons d rest ih =>
    obtain ⟨var, initializer⟩ := d
    rw [List.all_cons, Bool.and_eq_true] at h
    have hinitializer := alwaysBraced_optionalFragments (c := c) h.1
    rw [declaratorFragments, List.forall_mem_cons]
    refine ⟨?_, ih h.2⟩
    split_ifs
    · simpa using hinitializer
    · simp

/-- **All but blocks and switches have their braces at any depth.** -/
theorem alwaysBraced_fragments : {n : Node} → n.isBlock = false → n.isSwitchWithBody = false →
    n.holdsExpressions = true → ∀ f ∈ n.fragments c, f.AlwaysBraced
  | symbol _, _, _, h | constant .., _, _, h | unary .., _, _, h | binary .., _, _, h |
    ternary .., _, _, h | swizzle .., _, _, h | call .., _, _, h =>
    alwaysBraced_of_isExpression _ h
  | prototype head, _, _, _ => by
    rw [fragments, List.forall_mem_append]
    exact ⟨alwaysBraced_holdsOfNames.head c head, alwaysBraced_holdsOfNames.parameterList c head⟩
  | invariantDeclaration _, _, _, _ => by simp [fragments]
  | declaration [], _, _, _ => by simp [fragments]
  | declaration ({ var, initializer } :: rest), _, _, h => by
    have hdeclarators := forall_mem_commaSeparated (alwaysBraced_text _)
      (alwaysBraced_declaratorFragments (c := c) ({ var, initializer } :: rest) h)
    rw [fragments, List.forall_mem_append, List.forall_mem_append, List.forall_mem_cons]
    exact ⟨⟨alwaysBraced_holdsOfNames.layout _, alwaysBraced_holdsOfNames.occurrence c _⟩,
      alwaysBraced_text _, hdeclarators⟩
  | ifElse condition _ _, _, _, h => by
    have hcondition := alwaysBraced_of_isExpression (c := c) condition h
    simpa [fragments, or_imp, forall_and] using hcondition
  | switch selector none, _, _, h => by
    have hselector := alwaysBraced_of_isExpression (c := c) selector h
    simpa [fragments, or_imp, forall_and] using hselector
  | case label, _, _, h => by
    have hlabel := alwaysBraced_optionalFragments (c := c) h
    rw [fragments]
    split_ifs
    · simpa [or_imp, forall_and] using hlabel
    · simp
  | loop .., _, _, _ => List.forall_mem_singleton.mpr (alwaysBraced_scope _)
  | branch kind value, _, _, h => by
    have hvalue := alwaysBraced_optionalFragments (c := c) h
    rw [fragments, List.forall_mem_cons]
    refine ⟨alwaysBraced_text _, ?_⟩
    split_ifs
    · exact hvalue
    · simp
  | function head _, _, _, _ => by
    rw [fragments, List.forall_mem_append, List.forall_mem_singleton]
    exact ⟨alwaysBraced_holdsOfNames.head c head, alwaysBraced_scope _⟩

/-! ### Switches -/

theorem not_alwaysBraced_switch (selector : Node) (statements : List Node) :
    ¬ ∀ f ∈ (switch selector (some statements)).fragments c, f.AlwaysBraced := by
  intro h
  have hbrace : Fragment.AlwaysBraced (.brace "\x7b\n") :=
    h _ (by simp [fragments, bodyFragments, blockFragments])
  exact absurd (hbrace 0) (by decide)

variable {r : Renderer}

theorem addition_eq_of_alwaysBraced {n : Node} (h : ∀ f ∈ n.fragments r.config, f.AlwaysBraced)
    (c : Context) (d d' : Nat) :
    n.addition r { c with depth := d } = n.addition r { c with depth := d' } :=
  additionAll_eq_of_writesAllBraces r c (writesAllBraces_of_alwaysBraced h d)
    (writesAllBraces_of_alwaysBraced h d')

/-- Inside a scope statements add the same at any depth. -/
theorem additionOfEach_of_pos (statements : List Node) (c : Context) {d d' : Nat} (h : 0 < d)
    (h' : 0 < d') :
    additionOfEach r statements { c with depth := d } =
      additionOfEach r statements { c with depth := d' } := by
  rw [← additionAll_statementFragments, ← additionAll_statementFragments]
  exact additionAll_eq_of_writesAllBraces r c (writesAllBraces_of_pos h _)
    (writesAllBraces_of_pos h' _)

/-- The body of a `switch` has the braces of a block, which the outermost does not have. -/
theorem addition_switch (selector : Node) (statements : List Node) (c : Context) :
    (switch selector (some statements)).addition r c = (do
      let a ← selector.addition r c
      let b ← additionOfEach r statements (c.after a).enterScope
      .ok { text := "switch (" ++ a.text ++ ") " ++
              (if 0 < c.depth then "\x7b\n" ++ b.text ++ "\x7d\n" else b.text),
            names := b.names, structs := b.structs ++ a.structs }) := by
  have hparts : (switch selector (some statements)).fragments r.config =
      [.text "switch ("] ++ (selector.fragments r.config ++ ([.text ") "] ++
        blockFragments (statementFragments r.config statements))) := rfl
  have htext : ∀ s (c : Context), c.after { text := s, names := c.names, structs := [] } = c :=
    fun _ _ => rfl
  unfold addition
  rw [hparts, additionAll_append, additionAll_text]
  simp only [bind, Except.bind, htext, additionAll_append, additionAll_text, additionAll_block,
    additionAll_statementFragments]
  cases additionAll r (selector.fragments r.config) c with
  | error cause => rfl
  | ok a =>
    dsimp only
    cases additionOfEach r statements (c.after a).enterScope with
    | error cause => rfl
    | ok b => simp [Except.map, Addition.append, Context.after, String.append_assoc]

/-- A `switch` with a body adds the same at the outermost depth as inside exactly if it fails. -/
theorem addition_switch_depth_iff {selector : Node} (h : selector.isExpression = true)
    (statements : List Node) (c : Context) {d : Nat} (hd : 0 < d) :
    (switch selector (some statements)).addition r { c with depth := 0 } =
        (switch selector (some statements)).addition r { c with depth := d } ↔
      ∀ a, (switch selector (some statements)).addition r { c with depth := d } ≠ .ok a := by
  have hselector := addition_eq_of_alwaysBraced
    (alwaysBraced_of_isExpression (c := r.config) selector h) c 0 d
  rw [addition_switch, addition_switch, hselector]
  simp only [bind, Except.bind]
  cases selector.addition r { c with depth := d } with
  | error cause => simp
  | ok a =>
    -- the block opens a scope for its statements, whether or not it has braces
    have hbody : additionOfEach r statements
          (({ c with depth := 0 } : Context).after a).enterScope =
        additionOfEach r statements (({ c with depth := d } : Context).after a).enterScope :=
      additionOfEach_of_pos statements (c.after a) (Nat.succ_pos 0) (Nat.succ_pos d)
    dsimp only
    rw [hbody]
    cases additionOfEach r statements (({ c with depth := d } : Context).after a).enterScope with
    | error cause => simp
    | ok b =>
      have hbraces : "switch (" ++ a.text ++ ") " ++ b.text ≠
          "switch (" ++ a.text ++ ") " ++ ("\x7b\n" ++ b.text ++ "\x7d\n") := by
        intro heq
        have hlength := congrArg String.length ((String.append_right_inj _).mp heq)
        simp only [String.length_append] at hlength
        have : "\x7b\n".length = 2 := rfl
        omega
      simpa [hd] using hbraces

/-- **A statement does not depend on where it stands, unless it is a `switch` with a body.** Let a
node that is no block hold expressions where it has places for them. At any depth all of its braces
are written, and it adds the same text, names and structs or fails alike, in whatever context,
unless it is a `switch` with a body. Such a `switch` adds something else at the outermost depth
whenever it succeeds: there its body has no braces. -/
theorem addition_depth_iff (r : Renderer) (n : Node) (hblock : n.isBlock = false)
    (h : n.holdsExpressions = true) (c : Context) :
    ((∀ depth, writesAllBraces (n.fragments r.config) depth = true) ↔
      n.isSwitchWithBody = false) ∧
    (∀ d, 0 < d → (n.addition r { c with depth := 0 } = n.addition r { c with depth := d } ↔
      ¬ (n.isSwitchWithBody = true ∧ ∃ a, n.addition r { c with depth := d } = .ok a))) ∧
    ∀ selector statements, n = switch selector (some statements) →
      n.addition r c = (do
        let a ← selector.addition r c
        let b ← additionOfEach r statements (c.after a).enterScope
        .ok { text := "switch (" ++ a.text ++ ") " ++
                (if 0 < c.depth then "\x7b\n" ++ b.text ++ "\x7d\n" else b.text),
              names := b.names, structs := b.structs ++ a.structs }) := by
  refine ⟨⟨fun hbraces => ?_, fun hswitch depth => ?_⟩, fun d hd => ?_, ?_⟩
  · rw [Bool.eq_false_iff]
    intro hswitch
    obtain ⟨selector, statements, rfl⟩ := exists_of_isSwitchWithBody hswitch
    exact not_alwaysBraced_switch selector statements fun f hf depth =>
      writesAllBraces_iff.mp (hbraces depth) f hf
  · exact writesAllBraces_of_alwaysBraced (alwaysBraced_fragments hblock hswitch h) depth
  · cases hswitch : n.isSwitchWithBody with
    | false =>
      have hbraced := alwaysBraced_fragments (c := r.config) hblock hswitch h
      simp [addition_eq_of_alwaysBraced hbraced c 0 d]
    | true =>
      obtain ⟨selector, statements, rfl⟩ := exists_of_isSwitchWithBody hswitch
      simp [addition_switch_depth_iff h statements c hd]
  · rintro selector statements rfl
    exact addition_switch selector statements c

/-- `switch (x) { case (1): break; }` -/
def oneCaseSwitch : Node :=
  let int := ShaderType.scalar .int
  .switch (.symbol { id := ⟨1⟩, name := { text := "x" }, type := int })
    (some [.case (some (.constant int [.int 1])), .branch .break none])

theorem addition_depth_oneCaseSwitch :
    oneCaseSwitch.isBlock = false ∧ oneCaseSwitch.holdsExpressions = true ∧
      oneCaseSwitch.addition {} {} ≠ oneCaseSwitch.addition {} { depth := 1 } := by
  have hok : ∃ a, oneCaseSwitch.addition {} { depth := 1 } = .ok a := ⟨_, rfl⟩
  have hiff := (addition_depth_iff {} oneCaseSwitch rfl rfl {}).2.1 1 Nat.one_pos
  exact ⟨rfl, rfl, fun heq => hiff.mp heq ⟨rfl, hok⟩⟩

example : (oneCaseSwitch.addition {} {}).toOption.map Addition.text =
    some "switch (x) case (1):\nbreak;\n" := by
  decide +kernel

end Node

end ShaderText
