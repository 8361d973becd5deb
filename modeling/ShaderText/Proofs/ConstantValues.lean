import ShaderText.Proofs.Literal
import Mathlib.Algebra.Group.Nat.Defs

/-! # Constants and their values

A constant is written exactly if it has the values of its type, no more and no fewer, and every type
whose name stands in its text has one. `ShaderType.constantTypes` lists these types: an array and a
struct are called by their names, and so is a vector or matrix of several components, while a single
value stands alone; the elements of an array without any are not reached.

Each part of a constant takes as many values as its type counts from the front of the list
(`ConstantPart.Takes`). The ways of putting parts together keep this, so by induction on the type it
holds of a whole object (`ShaderType.foldObject_takes`). **A constant succeeds exactly with
`valueCount` values and spellable types (`ShaderType.constantTokens_isOk_iff`).**

The values that a type takes are counted in full here, as they are taken one after another.
`ShaderType.objectSize` counts them in words of 64 bits, and so is their number modulo `2 ^ 64`
(`ShaderType.objectSize_eq_mod`). -/

namespace ShaderText

namespace ShaderType

/-! ### Types that have a name -/

/-- A type that has a name: a struct or block that has its definition, or a shape that the language
has a name for. -/
def IsSpellable (t : ShaderType) : Prop :=
  match t.basic with
  | .struct => t.structDef.isSome
  | .block => t.blockDef.isSome
  | basic => (builtInTypeName? basic t.cols t.rows).isSome

theorem isSpellable_iff {t : ShaderType} : t.IsSpellable ↔ ∃ name, t.spelling = .ok name := by
  unfold IsSpellable spelling
  cases t.basic with
  | struct => cases t.structDef <;> simp
  | block => cases t.blockDef <;> simp
  | _ =>
    dsimp only
    split <;> simp [*]

theorem not_isSpellable_of_spelling {t : ShaderType} {cause : RenderError}
    (h : t.spelling = .error cause) : ¬ t.IsSpellable := by
  rw [isSpellable_iff, h]
  simp

instance : DecidablePred IsSpellable := fun t =>
  decidable_of_iff (t.spelling.toBool = true) (by
    rw [isSpellable_iff]
    cases t.spelling <;> simp [Except.toBool])

/-! ### The values in a constant -/

mutual

/-- The number of values that one element of a constant takes: for a struct those of its members,
and otherwise as many as the type is said to count. -/
def elementValues : ShaderType → Nat
  | t@{ structDef := some { fields, .. }, .. } =>
    if t.basic = .struct then memberValues fields else t.componentCount
  | t@{ structDef := none, .. } => t.componentCount

/-- The number of values that the members of a constant take. -/
def memberValues : List Field → Nat
  | [] => 0
  | { type, .. } :: rest => elementValues type * type.arraySize.getD 1 + memberValues rest

end

/-- The number of values that a constant takes. -/
def valueCount (t : ShaderType) : Nat := t.elementValues * t.arraySize.getD 1

mutual

/-- **The count of an element is the number of its values,** as a word. -/
theorem elementWord_eq_ofNat : (t : ShaderType) → t.elementWord = .ofNat t.elementValues
  | { structDef := some { id, name, fields }, basic, .. } => by
    rw [elementValues]
    split_ifs
    · rw [elementWord]
      exact fieldsWord_eq_ofNat fields
    · exact UInt64.ofNat_toNat.symm
  | { structDef := none, .. } => by
    rw [elementValues]
    exact UInt64.ofNat_toNat.symm

theorem fieldsWord_eq_ofNat : (fields : List Field) →
    fieldsWord fields = .ofNat (memberValues fields)
  | [] => by rw [fieldsWord, memberValues]; rfl
  | { name, type } :: rest => by
    rw [fieldsWord, memberValues, UInt64.ofNat_add, UInt64.ofNat_mul, elementWord_eq_ofNat type,
      fieldsWord_eq_ofNat rest]

end

/-- **The count of an object is the number of its values modulo `2 ^ 64`.** -/
theorem objectSize_eq_mod (t : ShaderType) : t.objectSize = t.valueCount % 2 ^ 64 := by
  rw [objectSize, elementWord_eq_ofNat, ← UInt64.ofNat_mul, UInt64.toNat_ofNat']
  rfl

/-- The count of an object is right exactly if it does not wrap. -/
theorem objectSize_eq_valueCount_iff {t : ShaderType} :
    t.objectSize = t.valueCount ↔ t.valueCount < 2 ^ 64 := by
  rw [objectSize_eq_mod]
  exact Nat.mod_eq_iff_lt (by decide)

/-! ### The types named in a constant -/

/-- The types that an object is spelled with, given those of one of its elements. -/
def arrangedTypes (t : ShaderType) (element : List ShaderType) : List ShaderType :=
  match t.arraySize with
  | none => element
  | some n => t :: (if n = 0 then [] else element)

mutual

/-- The types whose names stand in one element of a constant. -/
def elementTypes : ShaderType → List ShaderType
  | t@{ structDef := some { fields, .. }, .. } =>
    if t.basic = .struct then t :: memberTypes fields
    else if 1 < t.componentCount then [t] else []
  | t@{ structDef := none, .. } =>
    if t.basic = .struct ∨ 1 < t.componentCount then [t] else []

/-- The types whose names stand in the members of a constant. -/
def memberTypes : List Field → List ShaderType
  | [] => []
  | { type, .. } :: rest => type.arrangedTypes (elementTypes type) ++ memberTypes rest

end

/-- The types whose names stand in a constant. -/
def constantTypes (t : ShaderType) : List ShaderType := t.arrangedTypes t.elementTypes

end ShaderType

/-! ### A count that wraps around -/

/-- An array of 2147483648 structs `struct S { vec4 g[2147483648]; }`. -/
def wideArray : ShaderType :=
  let column : ShaderType := { ShaderType.vector .float 4 with arraySize := some 2147483648 }
  { ShaderType.ofStruct { id := ⟨1⟩, name := "S", fields := [⟨"g", column⟩] } with
    arraySize := some 2147483648 }

theorem valueCount_wideArray : wideArray.valueCount = 2 ^ 64 := by decide +kernel

/-- It is counted as if it were empty. -/
theorem objectSize_wideArray : wideArray.objectSize = 0 := by
  rw [ShaderType.objectSize_eq_mod, valueCount_wideArray, Nat.mod_self]

/-! ### Parts that take values -/

variable {State : Type}

/-- A part that succeeds exactly if `ok` holds and there are `size` values, which it takes. -/
def ConstantPart.Takes (size : Nat) (ok : Prop) (part : ConstantPart State) : Prop :=
  ∀ values state rest, (∃ state', part values state = .ok (rest, state')) ↔
    ok ∧ size ≤ values.length ∧ rest = values.drop size

namespace ConstantPart.Takes

variable {size size' : Nat} {ok ok' : Prop} {part part' : ConstantPart State}

theorem congr (h : Takes size ok part) (hsize : size = size') (hok : ok ↔ ok') :
    Takes size' ok' part := by
  intro values state rest
  rw [← hsize, ← hok]
  exact h values state rest

/-- A part that takes nothing. -/
theorem nothing (put : State → State) :
    Takes 0 True fun values state => .ok (values, put state) := by
  intro values state rest
  simp [eq_comm]

theorem fails (size : Nat) (failure : ConstantFailure) :
    Takes size False ((fun _ _ => .error failure) : ConstantPart State) := by
  intro values state rest
  simp

/-- One part after another. -/
theorem seq (h : Takes size ok part) (h' : Takes size' ok' part') (lead : State → State) :
    Takes (size + size') (ok ∧ ok') (fun values state => do
      let (values, state) ← part values (lead state)
      part' values state) := by
  intro values state rest
  rcases hfirst : part values (lead state) with failure | ⟨values', state'⟩
  · have hnot : ¬ (ok ∧ size ≤ values.length) := fun hboth => by
      obtain ⟨state', hstate'⟩ :=
        (h values (lead state) (values.drop size)).mpr ⟨hboth.1, hboth.2, rfl⟩
      rw [hfirst] at hstate'
      cases hstate'
    simp only [bind, Except.bind, hfirst, reduceCtorEq, exists_false, false_iff]
    rintro ⟨⟨hok, -⟩, hlength, -⟩
    exact hnot ⟨hok, by omega⟩
  · obtain ⟨hok, hlength, rfl⟩ := (h values (lead state) values').mp ⟨state', hfirst⟩
    simp only [bind, Except.bind, hfirst]
    rw [h', List.length_drop, List.drop_drop]
    constructor
    · rintro ⟨hok', hrest, rfl⟩
      exact ⟨⟨hok, hok'⟩, by omega, rfl⟩
    · rintro ⟨⟨-, hok'⟩, hrest, rfl⟩
      exact ⟨hok', by omega, rfl⟩

theorem constructorCall {put : State → ConstantPiece → State} (h : Takes size ok part)
    (name : TypeName) (suffix : String) :
    Takes size ok (ShaderText.constructorCall put name suffix part) :=
  (h.seq (nothing fun state => put state (.text ")"))
    (fun state => put (put state (.typeName name)) (.text (suffix ++ "(")))).congr
    (Nat.add_zero size) (iff_of_eq (and_true ok))

/-- A number of equal parts. -/
theorem foldRepeated {put : State → ConstantPiece → State} (h : Takes size ok part)
    (lead : List ConstantPiece) (count : Nat) :
    Takes (count * size) (0 < count → ok) (ShaderText.foldRepeated put part lead count) := by
  induction count generalizing lead with
  | zero => exact (nothing id).congr (Nat.zero_mul size).symm (by simp)
  | succ count ih =>
    refine (h.seq (ih [.text ", "]) (lead.foldl put)).congr (by rw [Nat.succ_mul]; omega) ?_
    simp only [Nat.zero_lt_succ, forall_const, and_iff_left_iff_imp]
    exact fun hok _ => hok

end ConstantPart.Takes

namespace ShaderType

variable {c : Config} {put : State → ConstantPiece → State}

theorem foldPlain_takes (t : ShaderType) :
    ConstantPart.Takes t.componentCount (1 < t.componentCount → t.IsSpellable)
      (t.foldPlain c put) := by
  intro values state rest
  simp only [foldPlain]
  split_ifs with hfew hseveral
  · -- too few values, whether or not the type has a name for the message
    have hlength : ¬ t.componentCount ≤ values.length := by omega
    cases t.spelling <;> simp [hlength]
  · rcases hname : t.spelling with cause | name
    · have hnot := not_isSpellable_of_spelling hname
      simp [hseveral, hnot]
    · have hspellable : t.IsSpellable := isSpellable_iff.mpr ⟨name, hname⟩
      simp [constructorCall, bind, Except.bind, hspellable, Nat.not_lt.mp hfew, eq_comm]
  · simp [hseveral, Nat.not_lt.mp hfew, eq_comm]

/-- As many elements as the array has, or one. -/
theorem foldArranged_takes (t : ShaderType) {size : Nat} {types : List ShaderType}
    {element : ConstantPart State}
    (h : ConstantPart.Takes size (∀ part ∈ types, part.IsSpellable) element) :
    ConstantPart.Takes (size * t.arraySize.getD 1)
      (∀ part ∈ t.arrangedTypes types, part.IsSpellable)
      (t.foldArranged put element) := by
  unfold foldArranged arrangedTypes
  cases t.arraySize with
  | none => exact h.congr (Nat.mul_one size).symm Iff.rfl
  | some n =>
    cases hname : t.spelling with
    | error cause =>
      have hnot := not_isSpellable_of_spelling hname
      exact (ConstantPart.Takes.fails _ _).congr rfl (by simp [hnot])
    | ok name =>
      have hspellable : t.IsSpellable := isSpellable_iff.mpr ⟨name, hname⟩
      refine ((h.foldRepeated [] n).constructorCall name t.brackets).congr (Nat.mul_comm n size) ?_
      rcases Nat.eq_zero_or_pos n with rfl | hn
      · simp [hspellable]
      · simp [hspellable, hn, Nat.ne_of_gt hn]

theorem elementValues_eq (t : ShaderType) :
    t.elementValues =
      match t.structDef with
      | some d => if t.basic = .struct then memberValues d.fields else t.componentCount
      | none => t.componentCount := by
  obtain ⟨_, _, _, _, _, _, _, _, _, _, structDef, _⟩ := t
  cases structDef with
  | none => rw [elementValues]
  | some d => cases d; rw [elementValues]

theorem elementTypes_eq (t : ShaderType) :
    t.elementTypes =
      match t.structDef with
      | some d =>
        if t.basic = .struct then t :: memberTypes d.fields
        else if 1 < t.componentCount then [t] else []
      | none => if t.basic = .struct ∨ 1 < t.componentCount then [t] else [] := by
  obtain ⟨_, _, _, _, _, _, _, _, _, _, structDef, _⟩ := t
  cases structDef with
  | none => rw [elementTypes]
  | some d => cases d; rw [elementTypes]

/-- The element of a struct is as many values as its members are. -/
theorem foldElement_takes_of_struct {t : ShaderType} {d : StructDef} (hbasic : t.basic = .struct)
    (hd : t.structDef = some d)
    (hmembers : ConstantPart.Takes (memberValues d.fields)
      (∀ part ∈ memberTypes d.fields, part.IsSpellable) (foldMembers c put d.fields [])) :
    ConstantPart.Takes t.elementValues (∀ part ∈ t.elementTypes, part.IsSpellable)
      (t.foldElement c put) := by
  have hspellable : t.IsSpellable := by
    unfold IsSpellable
    rw [hbasic, hd]
    rfl
  rw [foldElement_eq, elementTypes_eq, elementValues_eq, hd]
  dsimp only
  rw [if_pos hbasic, if_pos hbasic, if_pos hbasic]
  refine (hmembers.constructorCall _ "").congr rfl ?_
  rw [List.forall_mem_cons, and_iff_right hspellable]

/-- There is no element of a struct without its definition. -/
theorem foldElement_takes_of_no_structDef {t : ShaderType} (hbasic : t.basic = .struct)
    (hd : t.structDef = none) :
    ConstantPart.Takes t.elementValues (∀ part ∈ t.elementTypes, part.IsSpellable)
      (t.foldElement c put) := by
  have hnot : ¬ t.IsSpellable := by
    unfold IsSpellable
    rw [hbasic, hd]
    exact Bool.false_ne_true
  rw [foldElement_eq, elementTypes_eq, hd]
  dsimp only
  rw [if_pos hbasic, if_pos (.inl hbasic)]
  exact (ConstantPart.Takes.fails _ _).congr rfl (by simpa using hnot)

theorem foldElement_takes_of_plain {t : ShaderType} (hbasic : t.basic ≠ .struct) :
    ConstantPart.Takes t.elementValues (∀ part ∈ t.elementTypes, part.IsSpellable)
      (t.foldElement c put) := by
  have hvalues : t.elementValues = t.componentCount := by
    rw [elementValues_eq]
    cases t.structDef <;> simp [hbasic]
  have htypes : t.elementTypes = if 1 < t.componentCount then [t] else [] := by
    rw [elementTypes_eq]
    cases t.structDef <;> simp [hbasic]
  rw [foldElement_eq, if_neg hbasic, htypes, hvalues]
  refine (foldPlain_takes t).congr rfl ?_
  split_ifs with hseveral <;> simp [hseveral]

mutual

theorem foldElement_takes : (t : ShaderType) →
    ConstantPart.Takes t.elementValues (∀ part ∈ t.elementTypes, part.IsSpellable)
      (t.foldElement c put)
  | { structDef := some { id, name, fields }, basic, .. } => by
    by_cases hbasic : basic = .struct
    · exact foldElement_takes_of_struct hbasic rfl (foldMembers_takes fields [])
    · exact foldElement_takes_of_plain hbasic
  | { structDef := none, basic, .. } => by
    by_cases hbasic : basic = .struct
    · exact foldElement_takes_of_no_structDef hbasic rfl
    · exact foldElement_takes_of_plain hbasic

theorem foldMembers_takes : (fields : List Field) → (lead : List ConstantPiece) →
    ConstantPart.Takes (memberValues fields) (∀ part ∈ memberTypes fields, part.IsSpellable)
      (foldMembers c put fields lead)
  | [], _ => (ConstantPart.Takes.nothing id).congr rfl (by simp [memberTypes])
  | { name, type } :: rest, lead => by
    rw [memberTypes]
    refine ((foldArranged_takes type (foldElement_takes type)).seq
      (foldMembers_takes rest [.text ", "]) (lead.foldl put)).congr ?_ ?_
    · rw [memberValues]
    · rw [List.forall_mem_append]

end

/-- **An object takes the values of its type,** if the types named in it have names. -/
theorem foldObject_takes (t : ShaderType) :
    ConstantPart.Takes t.valueCount (∀ part ∈ t.constantTypes, part.IsSpellable)
      (t.foldObject c put) :=
  foldArranged_takes t (foldElement_takes t)

/-- **A constant succeeds exactly with the values of its type and names for the types in it.** -/
theorem constantTokens_isOk_iff {t : ShaderType} {values : List Scalar} :
    (∃ tokens, t.constantTokens c values = .ok tokens) ↔
      values.length = t.valueCount ∧ ∀ part ∈ t.constantTypes, part.IsSpellable := by
  have hempty : (∃ tokens, t.constantTokens c values = .ok tokens) ↔
      ∃ tokens, t.foldObject c addPiece values [] =
        .ok ([], tokens) := by
    refine exists_congr fun tokens => ⟨foldObject_of_constantTokens, fun h => ?_⟩
    unfold constantTokens foldConstant
    rw [h]
  rw [hempty, t.foldObject_takes values [] [], eq_comm, List.drop_eq_nil_iff]
  constructor
  · rintro ⟨hspellable, hleast, hmost⟩
    exact ⟨Nat.le_antisymm hmost hleast, hspellable⟩
  · rintro ⟨hlength, hspellable⟩
    exact ⟨hspellable, by omega, by omega⟩

end ShaderType

end ShaderText
