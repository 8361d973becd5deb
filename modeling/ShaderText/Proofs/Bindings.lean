import ShaderText.Proofs.Trace
import ShaderText.Proofs.TypeFragments
import Mathlib.Data.List.Forall2

/-! # Bindings: which fragments the counters matter to

The counters of the loops around a fragment are the bindings that its trace is taken under. They
matter to the uses of variables only. `Fragment.SameTrace` compares two lists of fragments, each
under bindings of its own, and is kept by everything a list is made of: one list after another, a
scope, copies (`SameTrace.unrolled`), and groups with commas between them.

What only names things uses no variables, so the traces of types and of heads are the same under all
bindings (`isClosed_holdsOfNames`). -/

namespace ShaderText

namespace Fragment

/-! ### Lists with the same trace -/

/-- The fragments `fs` under the bindings `b` and `fs'` under `b'` come to the same. -/
def SameTrace (c : Config) (b b' : Bindings) (fs fs' : List Fragment) : Prop :=
  ∀ depth, traceAll c fs b depth = traceAll c fs' b' depth

section

variable {c : Config} {b b' : Bindings} {f f' : Fragment} {fs fs' gs gs' : List Fragment}

namespace SameTrace

theorem cons (h : ∀ depth, f.trace c b depth = f'.trace c b' depth)
    (hrest : SameTrace c b b' fs fs') : SameTrace c b b' (f :: fs) (f' :: fs') := by
  intro depth
  rw [traceAll, traceAll, h, hrest]

theorem append (h : SameTrace c b b' fs fs') (hrest : SameTrace c b b' gs gs') :
    SameTrace c b b' (fs ++ gs) (fs' ++ gs') := by
  intro depth
  rw [traceAll_append, traceAll_append, h, hrest]

theorem text (s : String) (h : SameTrace c b b' fs fs') :
    SameTrace c b b' (.text s :: fs) (.text s :: fs') := h.cons fun _ => rfl

theorem singleton (h : ∀ depth, f.trace c b depth = f'.trace c b' depth) :
    SameTrace c b b' [f] [f'] := cons h fun _ => rfl

theorem scope (h : SameTrace c b b' fs fs') : SameTrace c b b' [.scope fs] [.scope fs'] :=
  singleton fun depth => by rw [trace, trace, h]

/-- Copies come to the same if each of them does. -/
theorem unrolled {counter : Counter} {copies : Nat}
    (h : ∀ value : Int, SameTrace c (Function.update b counter.id (some value))
      (Function.update b' counter.id (some value)) fs fs') :
    SameTrace c b b' [.unrolled counter copies fs] [.unrolled counter copies fs'] :=
  singleton fun depth => by
    rw [trace, trace]
    exact congrArg (Trace.each · _) (funext fun value => h value depth)

theorem commaSeparated {groups groups' : List (List Fragment)}
    (h : List.Forall₂ (SameTrace c b b') groups groups') :
    SameTrace c b b' (Fragment.commaSeparated groups) (Fragment.commaSeparated groups') := by
  induction h with
  | nil => exact fun _ => rfl
  | cons hgroup hrest ih =>
    cases hrest with
    | nil => simpa using hgroup
    | cons =>
      rw [commaSeparated_cons _ (List.cons_ne_nil _ _),
        commaSeparated_cons _ (List.cons_ne_nil _ _)]
      exact hgroup.append (ih.text ", ")

end SameTrace

end

/-! ### Closed fragments -/

/-- A fragment that the counters do not matter to. -/
def IsClosed (f : Fragment) : Prop :=
  ∀ (c : Config) (b b' : Bindings) (depth : Nat), f.trace c b depth = f.trace c b' depth

variable {fs body later : List Fragment}

theorem traceAll_of_isClosed (h : ∀ f ∈ fs, f.IsClosed) (c : Config) (b b' : Bindings)
    (depth : Nat) : traceAll c fs b depth = traceAll c fs b' depth := by
  induction fs with
  | nil => rfl
  | cons f rest ih =>
    rw [traceAll, traceAll, h f List.mem_cons_self c b b',
      ih fun g hg => h g (List.mem_cons_of_mem f hg)]

theorem SameTrace.of_isClosed (h : ∀ f ∈ fs, f.IsClosed) {c : Config} {b b' : Bindings} :
    SameTrace c b b' fs fs := traceAll_of_isClosed h c b b'

@[simp] theorem text_isClosed (s : String) : (text s).IsClosed := fun _ _ _ _ => rfl

@[simp] theorem fail_isClosed (cause : RenderError) : (fail cause).IsClosed := fun _ _ _ _ => rfl

@[simp] theorem variableName_isClosed (name : Name) : (variableName name).IsClosed :=
  fun _ _ _ _ => rfl

@[simp] theorem parameterName_isClosed (name : Name) : (parameterName name).IsClosed :=
  fun _ _ _ _ => rfl

@[simp] theorem typeName_isClosed (name : TypeName) : (typeName name).IsClosed :=
  fun _ _ _ _ => rfl

@[simp] theorem member_isClosed (owner field : String) : (member owner field).IsClosed :=
  fun _ _ _ _ => rfl

@[simp] theorem blockMember_isClosed (field : String) : (blockMember field).IsClosed :=
  fun _ _ _ _ => rfl

@[simp] theorem function_isClosed (name : FunctionName) (emulated : Bool) :
    (function name emulated).IsClosed := fun _ _ _ _ => rfl

@[simp] theorem intrinsic_isClosed (name : String) (emulated : Bool) :
    (intrinsic name emulated).IsClosed := fun _ _ _ _ => rfl

@[simp] theorem requireStruct_isClosed (id : StructId) (name : String) :
    (requireStruct id name).IsClosed := fun _ _ _ _ => rfl

theorem structBody_isClosed (id : StructId) (name : String) (hbody : ∀ f ∈ body, f.IsClosed)
    (hlater : ∀ f ∈ later, f.IsClosed) : (structBody id name body later).IsClosed := by
  intro c b b' depth
  rw [trace, trace, traceAll_of_isClosed hbody c b b', traceAll_of_isClosed hlater c b b']

theorem isClosed_holdsOfNames : HoldsOfNames IsClosed where
  text := text_isClosed
  variableName := variableName_isClosed
  parameterName := parameterName_isClosed
  typeName := typeName_isClosed
  member := member_isClosed
  blockMember := blockMember_isClosed
  function := function_isClosed
  intrinsic := intrinsic_isClosed
  requireStruct := requireStruct_isClosed
  structBody _ _ _ _ := structBody_isClosed _ _
  fail := fail_isClosed

end Fragment

end ShaderText
