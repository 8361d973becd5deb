import ShaderText.Proofs.ConstantValues

/-! # Consumed values: the front of a list that an object is written with

An object takes its values from the front of a list and hands on the others. How many it takes is
settled by its type (`ShaderType.foldObject_takes`); here is what it does not depend on, and how it
fails. Both follow from properties of parts that the ways of putting parts together keep
(`ConstantPart.Composes`), so each needs to be seen of plain elements only:

* `ShaderType.foldObject_handsOn`: the values behind those that are taken change nothing;
* `ShaderType.foldObject_failsShort`: where every type that is reached has a name, the only failure
  is the lack of values.

**So an object consumes exactly the values of its type, and a constant is written exactly with as
many values as that (`Renderer.writeObject_consumes`).** The count of the type in words is the same
number unless it wraps around, and then it is wrong for every type that has names. -/

namespace ShaderText

/-- The types that values of a type belong to: itself, and those of the members of its struct. -/
inductive ShaderType.ReachedFrom : ShaderType → ShaderType → Prop
  | self (t : ShaderType) : ReachedFrom t t
  | member {t part : ShaderType} {d : StructDef} {f : Field} (hd : t.structDef = some d)
    (hf : f ∈ d.fields) (hpart : ReachedFrom part f.type) : ReachedFrom part t

/-- A type that has a name, like all the types that its values belong to. -/
def ShaderType.EachSpellable (t : ShaderType) : Prop :=
  ∀ part, ReachedFrom part t → part.IsSpellable

/-! ### Properties of parts -/

section

variable {State : Type} {P : ConstantPart State → Prop} {part part' : ConstantPart State}

/-- A property of a part that takes nothing, and of one part after another that have it. -/
structure ConstantPart.Composes (P : ConstantPart State → Prop) : Prop where
  done : ∀ put : State → State, P fun values state => .ok (values, put state)
  seq : ∀ {part part' : ConstantPart State}, P part → P part' → ∀ lead : State → State,
    P fun values state => do
      let (values, state) ← part values (lead state)
      part' values state

namespace ConstantPart.Composes

variable (hP : ConstantPart.Composes P) {c : Config} {put : State → ConstantPiece → State}

include hP

theorem constructorCall (h : P part) (name : TypeName) (suffix : String) :
    P (ShaderText.constructorCall put name suffix part) :=
  hP.seq h (hP.done fun state => put state (.text ")"))
    fun state => put (put state (.typeName name)) (.text (suffix ++ "("))

theorem foldRepeated (h : P part) (lead : List ConstantPiece) (count : Nat) :
    P (ShaderText.foldRepeated put part lead count) := by
  induction count generalizing lead with
  | zero => exact hP.done id
  | succ count ih => exact hP.seq h (ih [.text ", "]) (lead.foldl put)

theorem foldArranged {t : ShaderType} {element : ConstantPart State} (h : P element)
    (hfails : ∀ cause, t.spelling = .error cause → P fun _ _ => .error (.error cause)) :
    P (t.foldArranged put element) := by
  unfold ShaderType.foldArranged
  cases t.arraySize with
  | none => exact h
  | some n =>
    cases hname : t.spelling with
    | error cause => exact hfails cause hname
    | ok name => exact hP.constructorCall (hP.foldRepeated h [] n) name t.brackets

mutual

theorem foldElement : (t : ShaderType) →
    (∀ part, ShaderType.ReachedFrom part t → P (part.foldPlain c put)) →
    (∀ part, ShaderType.ReachedFrom part t → ∀ cause, part.spelling = .error cause →
      P fun _ _ => .error (.error cause)) →
    P (t.foldElement c put)
  | { structDef := some { id, name, fields }, basic, .. }, hplain, hfails => by
    rw [ShaderType.foldElement_eq]
    split_ifs
    · exact hP.constructorCall (foldMembers fields
        (fun f hf part hpart => hplain part (.member rfl hf hpart))
        (fun f hf part hpart => hfails part (.member rfl hf hpart)) []) (.userDefined name) ""
    · exact hplain _ (.self _)
  | { structDef := none, basic, .. }, hplain, hfails => by
    rw [ShaderType.foldElement_eq]
    split_ifs with hbasic
    · obtain rfl : basic = .struct := hbasic
      exact hfails _ (.self _) (.malformed .missingStructDef) rfl
    · exact hplain _ (.self _)

theorem foldMembers : (fields : List Field) →
    (∀ f ∈ fields, ∀ part, ShaderType.ReachedFrom part f.type → P (part.foldPlain c put)) →
    (∀ f ∈ fields, ∀ part, ShaderType.ReachedFrom part f.type → ∀ cause,
      part.spelling = .error cause → P fun _ _ => .error (.error cause)) →
    (lead : List ConstantPiece) → P (ShaderType.foldMembers c put fields lead)
  | [], _, _, _ => hP.done id
  | { name, type } :: rest, hplain, hfails, lead => by
    obtain ⟨hplainType, hplainRest⟩ := List.forall_mem_cons.mp hplain
    obtain ⟨hfailsType, hfailsRest⟩ := List.forall_mem_cons.mp hfails
    have hfirst : P (type.foldArranged put (type.foldElement c put)) :=
      hP.foldArranged (foldElement type hplainType hfailsType) (hfailsType type (.self type))
    exact hP.seq hfirst (foldMembers rest hplainRest hfailsRest [.text ", "]) (lead.foldl put)

end

/-- **A property of plain elements and of names that are missing is one of whole objects,** if the
ways of putting parts together keep it. -/
theorem foldObject {t : ShaderType}
    (hplain : ∀ part, ShaderType.ReachedFrom part t → P (part.foldPlain c put))
    (hfails : ∀ part, ShaderType.ReachedFrom part t → ∀ cause, part.spelling = .error cause →
      P fun _ _ => .error (.error cause)) : P (t.foldObject c put) :=
  hP.foldArranged (hP.foldElement t hplain hfails) (hfails t (.self t))

end ConstantPart.Composes

/-! ### Values behind those that are taken -/

/-- A part that hands on what stands behind the values it takes. -/
def ConstantPart.HandsOn (part : ConstantPart State) : Prop :=
  ∀ values state rest state' other, part values state = .ok (rest, state') →
    part (values ++ other) state = .ok (rest ++ other, state')

theorem ConstantPart.handsOn_composes :
    ConstantPart.Composes (@ConstantPart.HandsOn State) where
  done put values state rest state' other h := by
    cases h
    rfl
  seq {part part'} hpart hpart' lead values state rest state' other h := by
    simp only [bind, Except.bind] at h ⊢
    cases hfirst : part values (lead state) with
    | error failure =>
      rw [hfirst] at h
      cases h
    | ok x =>
      rw [hfirst] at h
      rw [hpart _ _ _ _ other hfirst]
      exact hpart' _ _ _ _ other h

theorem ConstantPart.handsOn_fails (failure : ConstantFailure) :
    @ConstantPart.HandsOn State fun _ _ => .error failure := nofun

namespace ShaderType

variable {c : Config} {put : State → ConstantPiece → State}

theorem foldPlain_handsOn (t : ShaderType) : ConstantPart.HandsOn (t.foldPlain c put) := by
  intro values state rest state' other h
  simp only [foldPlain] at h ⊢
  by_cases hfew : values.length < t.componentCount
  · rw [if_pos hfew] at h
    cases hname : t.spelling <;> rw [hname] at h <;> cases h
  · have hfront : (values ++ other).take t.componentCount = values.take t.componentCount :=
      List.take_append_of_le_length (Nat.not_lt.mp hfew)
    have hback : (values ++ other).drop t.componentCount =
        values.drop t.componentCount ++ other :=
      List.drop_append_of_le_length (Nat.not_lt.mp hfew)
    have hmore : ¬ (values ++ other).length < t.componentCount := by
      rw [List.length_append]
      omega
    rw [if_neg hfew] at h
    rw [if_neg hmore, hfront, hback]
    split_ifs at h ⊢ with hseveral
    · cases hname : t.spelling with
      | error cause => rw [hname] at h; cases h
      | ok name => rw [hname] at h; cases h; rfl
    · cases h; rfl

/-- **The values behind those of an object change nothing.** -/
theorem foldObject_handsOn (t : ShaderType) : ConstantPart.HandsOn (t.foldObject c put) :=
  ConstantPart.handsOn_composes.foldObject (fun part _ => foldPlain_handsOn part)
    fun _ _ cause _ => ConstantPart.handsOn_fails (.error cause)

/-- What an object comes to depends on the values of its type only. -/
theorem foldObject_of_take {t : ShaderType} {values rest : List Scalar} {state state' : State}
    (h : t.foldObject c put values state = .ok (rest, state')) (other : List Scalar) :
    t.foldObject c put (values.take t.valueCount ++ other) state = .ok (other, state') := by
  obtain ⟨hspellable, hlength, rfl⟩ := (t.foldObject_takes values state rest).mp ⟨state', h⟩
  -- with the values of the type alone there is some result, and more values do not change it
  obtain ⟨state'', hfront⟩ : ∃ state'',
      t.foldObject c put (values.take t.valueCount) state = .ok ([], state'') := by
    refine (t.foldObject_takes _ state []).mpr ⟨hspellable, ?_, ?_⟩
    · rw [List.length_take]
      omega
    · rw [List.drop_take, Nat.sub_self, List.take_zero]
  have hwhole := t.foldObject_handsOn _ _ _ _ (values.drop t.valueCount) hfront
  rw [List.take_append_drop, h] at hwhole
  cases hwhole
  exact t.foldObject_handsOn _ _ _ _ other hfront

end ShaderType

/-! ### The lack of values -/

/-- A part whose only failure is that there are fewer values than some type takes. -/
def ConstantPart.FailsShort (part : ConstantPart State) : Prop :=
  ∀ values state failure, part values state = .error failure →
    ∃ type needed available, failure = .underflow type needed available ∧ available < needed

theorem ConstantPart.failsShort_composes :
    ConstantPart.Composes (@ConstantPart.FailsShort State) where
  done put values state failure h := by cases h
  seq {part part'} hpart hpart' lead values state failure h := by
    simp only [bind, Except.bind] at h
    cases hfirst : part values (lead state) with
    | error failure' =>
      rw [hfirst] at h
      cases h
      exact hpart _ _ _ hfirst
    | ok x =>
      rw [hfirst] at h
      exact hpart' _ _ _ h

namespace ShaderType

variable {c : Config} {put : State → ConstantPiece → State} {t : ShaderType}

theorem foldPlain_failsShort (ht : t.IsSpellable) :
    ConstantPart.FailsShort (t.foldPlain c put) := by
  obtain ⟨name, hname⟩ := isSpellable_iff.mp ht
  intro values state failure h
  simp only [foldPlain, hname] at h
  split_ifs at h with hfew
  · cases h
    exact ⟨name, _, _, rfl, hfew⟩
  · cases h

/-- **Where every type has a name, an object fails by the lack of values only.** -/
theorem foldObject_failsShort (ht : t.EachSpellable) :
    ConstantPart.FailsShort (t.foldObject c put) :=
  ConstantPart.failsShort_composes.foldObject
    (fun part hpart => foldPlain_failsShort (ht part hpart))
    fun part hpart _ hcause => absurd (ht part hpart) (not_isSpellable_of_spelling hcause)

end ShaderType

end

/-! ### Types with names -/

namespace ShaderType

theorem reachedFrom_of_mem_arrangedTypes {t part : ShaderType} {types : List ShaderType}
    (htypes : part ∈ types → ReachedFrom part t) (h : part ∈ t.arrangedTypes types) :
    ReachedFrom part t := by
  unfold arrangedTypes at h
  split at h
  · exact htypes h
  · rcases List.mem_cons.mp h with rfl | helement
    · exact .self _
    · split_ifs at helement
      · cases helement
      · exact htypes helement

mutual

theorem reachedFrom_of_mem_elementTypes : (t : ShaderType) → {part : ShaderType} →
    part ∈ t.elementTypes → ReachedFrom part t
  | { structDef := some { id, name, fields }, basic, .. }, part, h => by
    rw [elementTypes] at h
    split_ifs at h with hbasic
    · rcases List.mem_cons.mp h with rfl | hmember
      · exact .self _
      · obtain ⟨f, hf, hpart⟩ := reachedFrom_of_mem_memberTypes fields hmember
        exact .member rfl hf hpart
    · obtain rfl := List.mem_singleton.mp h
      exact .self _
    · cases h
  | { structDef := none, .. }, part, h => by
    rw [elementTypes] at h
    split_ifs at h
    · obtain rfl := List.mem_singleton.mp h
      exact .self _
    · cases h

theorem reachedFrom_of_mem_memberTypes : (fields : List Field) → {part : ShaderType} →
    part ∈ memberTypes fields → ∃ f ∈ fields, ReachedFrom part f.type
  | [], _, h => by cases h
  | { name, type } :: rest, part, h => by
    rw [memberTypes] at h
    rcases List.mem_append.mp h with hfirst | hrest
    · exact ⟨_, List.mem_cons_self,
        reachedFrom_of_mem_arrangedTypes (reachedFrom_of_mem_elementTypes type) hfirst⟩
    · obtain ⟨f, hf, hpart⟩ := reachedFrom_of_mem_memberTypes rest hrest
      exact ⟨f, List.mem_cons_of_mem _ hf, hpart⟩

end

theorem reachedFrom_of_mem_constantTypes {t part : ShaderType} (h : part ∈ t.constantTypes) :
    ReachedFrom part t :=
  reachedFrom_of_mem_arrangedTypes (reachedFrom_of_mem_elementTypes t) h

end ShaderType

/-! ### Objects and constants in a text -/

namespace Renderer

/-- The values left over and the context after an object of a type is written. -/
def writeObject (r : Renderer) (type : ShaderType) (values : List Scalar) (c : Context) :
    Except RenderError (List Scalar × Context) :=
  (type.foldObject r.config r.writePiece values c).mapError (r.constantError c.names)

/-- A constant is an object that leaves no value over. -/
theorem write_constant (r : Renderer) (t : ShaderType) (values : List Scalar) (c : Context) :
    (Node.constant t values).write r c =
      match r.writeObject t values c with
      | .ok ([], c') => .ok c'
      | .ok (rest, _) => .error (.malformed (.leftoverValues rest.length))
      | .error cause => .error cause := by
  have hfragments : (Node.constant t values).fragments r.config = [.constant t values] := by
    rw [Node.fragments]
  rw [Node.write, hfragments, Fragment.writeAll_singleton, Fragment.write, writeConstant,
    ShaderType.foldConstant, writeObject]
  rcases t.foldObject r.config r.writePiece values c with failure | ⟨_ | _, c'⟩ <;> rfl

variable {r : Renderer} {t : ShaderType} {values rest : List Scalar} {c c' : Context}

theorem writeObject_eq_ok_iff :
    r.writeObject t values c = .ok (rest, c') ↔
      t.foldObject r.config r.writePiece values c = .ok (rest, c') := by
  unfold writeObject
  cases t.foldObject r.config r.writePiece values c <;> simp [Except.mapError]

/-- An object that is written has taken the values of its type. -/
theorem eq_drop_of_writeObject (h : r.writeObject t values c = .ok (rest, c')) :
    t.valueCount ≤ values.length ∧ rest = values.drop t.valueCount :=
  ((t.foldObject_takes values c rest).mp ⟨c', writeObject_eq_ok_iff.mp h⟩).2

/-- **The text of an object depends on the values that it takes,** and on none behind them. -/
theorem writeObject_of_take (h : r.writeObject t values c = .ok (rest, c')) (other : List Scalar) :
    r.writeObject t (values.take t.valueCount ++ other) c = .ok (other, c') :=
  writeObject_eq_ok_iff.mpr (ShaderType.foldObject_of_take (writeObject_eq_ok_iff.mp h) other)

section

variable (ht : t.EachSpellable)

include ht

/-- Where every type has a name, enough values are all that an object needs. -/
theorem exists_writeObject (r : Renderer) (c : Context) (hlength : t.valueCount ≤ values.length) :
    ∃ c', r.writeObject t values c = .ok (values.drop t.valueCount, c') := by
  have hnamed : ∀ part ∈ t.constantTypes, part.IsSpellable :=
    fun part hpart => ht part (ShaderType.reachedFrom_of_mem_constantTypes hpart)
  obtain ⟨c', hc'⟩ := (t.foldObject_takes values c _).mpr ⟨hnamed, hlength, rfl⟩
  exact ⟨c', writeObject_eq_ok_iff.mpr hc'⟩

/-- The lack of values is all that it fails by. -/
theorem exists_underflow_of_writeObject {cause : RenderError}
    (h : r.writeObject t values c = .error cause) :
    ∃ type needed available, cause = .constantUnderflow type needed available ∧
      available < needed := by
  unfold writeObject at h
  cases hobject : t.foldObject r.config r.writePiece values c with
  | ok x =>
    rw [hobject] at h
    cases h
  | error failure =>
    rw [hobject] at h
    cases h
    obtain ⟨type, needed, available, rfl, hlack⟩ :=
      ShaderType.foldObject_failsShort ht values c failure hobject
    exact ⟨_, needed, available, rfl, hlack⟩

theorem writeObject_eq_error_iff (r : Renderer) (values : List Scalar) (c : Context) :
    (∃ cause, r.writeObject t values c = .error cause) ↔ values.length < t.valueCount := by
  constructor
  · rintro ⟨cause, hcause⟩
    refine Nat.lt_of_not_le fun hlength => ?_
    obtain ⟨c', hc'⟩ := exists_writeObject ht r c hlength
    rw [hcause] at hc'
    cases hc'
  · intro hlength
    cases hwrite : r.writeObject t values c with
    | error cause => exact ⟨cause, rfl⟩
    | ok x => exact absurd (eq_drop_of_writeObject hwrite).1 (Nat.not_le.mpr hlength)

/-- With more values than the type has, a constant is malformed. -/
theorem write_constant_of_lt (r : Renderer) (c : Context)
    (hlength : t.valueCount < values.length) :
    (Node.constant t values).write r c =
      .error (.malformed (.leftoverValues (values.length - t.valueCount))) := by
  obtain ⟨c', hc'⟩ := exists_writeObject ht r c (Nat.le_of_lt hlength)
  obtain ⟨value, rest, hrest⟩ := List.exists_cons_of_length_pos
    (show 0 < (values.drop t.valueCount).length by rw [List.length_drop]; omega)
  rw [write_constant, hc', hrest, ← List.length_drop, hrest]

/-- A constant is written exactly with as many values as its type has. -/
theorem exists_write_constant_iff (r : Renderer) (values : List Scalar) (c : Context) :
    (∃ c', (Node.constant t values).write r c = .ok c') ↔ values.length = t.valueCount := by
  constructor
  · rintro ⟨c', hc'⟩
    rcases Nat.lt_trichotomy values.length t.valueCount with hfew | heq | hmany
    · obtain ⟨cause, hcause⟩ := (writeObject_eq_error_iff ht r values c).mpr hfew
      rw [write_constant, hcause] at hc'
      cases hc'
    · exact heq
    · rw [write_constant_of_lt ht r c hmany] at hc'
      cases hc'
  · intro hlength
    obtain ⟨c', hc'⟩ := exists_writeObject ht r c (Nat.le_of_eq hlength.symm)
    refine ⟨c', ?_⟩
    rw [write_constant, hc', List.drop_of_length_le (Nat.le_of_eq hlength)]

end

/-- **An object takes `size` values of a list, and a constant has as many.** If the object is
written, it hands on the list without them, and any list with the same front is written the same
way. Where the type and all the types reached from it have names, the only failure is that there are
too few values, and a constant is written exactly with `size` values, no fewer and no more. -/
structure Consumes (r : Renderer) (t : ShaderType) (c : Context) (size : Nat)
    (values : List Scalar) : Prop where
  takes : ∀ rest c', r.writeObject t values c = .ok (rest, c') →
    rest = values.drop size ∧ size ≤ values.length ∧
      ∀ other, r.writeObject t (values.take size ++ other) c = .ok (other, c')
  fails_iff : t.EachSpellable →
    ((∃ cause, r.writeObject t values c = .error cause) ↔ values.length < size)
  underflow : t.EachSpellable → ∀ cause, r.writeObject t values c = .error cause →
    ∃ type needed available, cause = .constantUnderflow type needed available ∧
      available < needed
  constant_iff : t.EachSpellable →
    ((∃ c', (Node.constant t values).write r c = .ok c') ↔ values.length = size)
  leftover : t.EachSpellable → size < values.length →
    (Node.constant t values).write r c =
      .error (.malformed (.leftoverValues (values.length - size)))

theorem consumes_valueCount (r : Renderer) (t : ShaderType) (c : Context) (values : List Scalar) :
    r.Consumes t c t.valueCount values where
  takes rest c' h := by
    obtain ⟨hlength, hrest⟩ := eq_drop_of_writeObject h
    exact ⟨hrest, hlength, writeObject_of_take h⟩
  fails_iff ht := writeObject_eq_error_iff ht r values c
  underflow ht _ h := exists_underflow_of_writeObject ht h
  constant_iff ht := exists_write_constant_iff ht r values c
  leftover ht := write_constant_of_lt ht r c

/-- What is written has its count right: a list of its values is shorter than `2 ^ 64`. -/
theorem objectSize_of_writeObject (h : r.writeObject t values c = .ok (rest, c'))
    (hvalues : values.length < 2 ^ 64) : t.objectSize = t.valueCount :=
  ShaderType.objectSize_eq_valueCount_iff.mpr
    (Nat.lt_of_le_of_lt (eq_drop_of_writeObject h).1 hvalues)

/-- **An object consumes exactly the values of its type,** and a constant is written exactly with as
many. The count of the type is their number modulo `2 ^ 64`. **So an object consumes as many values
as its type counts exactly if the type lacks a name or has fewer than `2 ^ 64` values.** -/
theorem writeObject_consumes (r : Renderer) (t : ShaderType) (c : Context) :
    (∀ values, r.Consumes t c t.valueCount values) ∧
    t.objectSize = t.valueCount % 2 ^ 64 ∧
    ((∀ values, values.length < 2 ^ 64 → r.Consumes t c t.objectSize values) ↔
      (t.EachSpellable → t.valueCount < 2 ^ 64)) := by
  refine ⟨consumes_valueCount r t c, t.objectSize_eq_mod, fun hcounted ht => ?_,
    fun hfits values hvalues => ?_⟩
  · -- as many values as are counted are enough, so they are not fewer than the type has
    have hsize : t.objectSize < 2 ^ 64 := UInt64.toNat_lt _
    have hlength : (List.replicate t.objectSize (Scalar.int 0)).length = t.objectSize :=
      List.length_replicate
    have hnot := (hcounted _ (by rwa [hlength])).fails_iff ht
    rw [hlength, writeObject_eq_error_iff ht, hlength] at hnot
    exact Nat.lt_of_le_of_lt (Nat.not_lt.mp (mt hnot.mp (Nat.lt_irrefl _))) hsize
  · by_cases ht : t.EachSpellable
    · rw [ShaderType.objectSize_eq_valueCount_iff.mpr (hfits ht)]
      exact consumes_valueCount r t c values
    · -- nothing is promised but what an object that is written takes
      refine ⟨fun rest c' h => ?_, (absurd · ht), (absurd · ht), (absurd · ht), (absurd · ht)⟩
      rw [objectSize_of_writeObject h hvalues]
      exact (consumes_valueCount r t c values).takes rest c' h

/-- An array of `2 ^ 64` values counts none. A constant of it is not written without values, and
with one it fails by the lack of values, not by the one left over. -/
theorem not_consumes_wideArray :
    wideArray.EachSpellable ∧ wideArray.valueCount = 2 ^ 64 ∧ wideArray.objectSize = 0 ∧
    (¬ ∃ c', (Node.constant wideArray []).write {} {} = .ok c') ∧
    (∃ type needed available, (Node.constant wideArray [.int 0]).write {} {} =
      .error (.constantUnderflow type needed available)) ∧
    ¬ ∀ values, values.length < 2 ^ 64 →
      ({} : Renderer).Consumes wideArray {} wideArray.objectSize values := by
  have hspellable : wideArray.EachSpellable := by
    rintro part (_ | ⟨hd, hf, hpart⟩)
    · rfl
    · cases hd
      obtain rfl := List.mem_singleton.mp hf
      rcases hpart with _ | ⟨hd, hf, -⟩
      · rfl
      · cases hd
  obtain ⟨hconsumes, hsize, hexact⟩ := writeObject_consumes {} wideArray {}
  rw [valueCount_wideArray] at hconsumes hsize hexact
  have hnone := (hconsumes []).constant_iff hspellable
  obtain ⟨cause, hcause⟩ := ((hconsumes [.int 0]).fails_iff hspellable).mpr (by decide)
  obtain ⟨type, needed, available, rfl, -⟩ :=
    (hconsumes [.int 0]).underflow hspellable cause hcause
  refine ⟨hspellable, valueCount_wideArray, hsize, mt hnone.mp (by decide),
    ⟨type, needed, available, ?_⟩, fun h => Nat.lt_irrefl _ (hexact.mp h hspellable)⟩
  rw [write_constant, hcause]

end Renderer

end ShaderText
