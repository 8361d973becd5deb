import ShaderText.Constant

/-!
# Constants and the states they go into

What a constant does to a state is settled by its pieces. **Two states that a map relates, before
and after each piece, are related before and after a whole object (`ShaderType.foldObject_maps`).**
So what holds of the pieces in a list carries over to a text that is written piece by piece, though
that list need not exist when the constant is written.
-/

namespace ShaderText

variable {State State' : Type}

/-- The two parts agree through `g`: they take the same values, fail alike, and `g` maps the state
that the one leaves to the state that the other leaves. -/
def ConstantPart.Maps (g : State → State') (part : ConstantPart State)
    (part' : ConstantPart State') : Prop :=
  ∀ values state, part' values (g state) = (part values state).map fun r => (r.1, g r.2)

section

variable {g : State → State'} {put : State → ConstantPiece → State}
  {put' : State' → ConstantPiece → State'} (h : ∀ s p, g (put s p) = put' (g s) p)

include h

theorem constructorCall_maps (name : TypeName) (suffix : String) {inside : ConstantPart State}
    {inside' : ConstantPart State'} (hi : ConstantPart.Maps g inside inside') :
    ConstantPart.Maps g (constructorCall put name suffix inside)
      (constructorCall put' name suffix inside') := by
  intro values state
  simp only [constructorCall, ← h]
  rw [hi]
  cases inside values (put (put state (.typeName name)) (.text (suffix ++ "("))) <;>
    simp [bind, Except.bind, Except.map, h]

theorem foldRepeated_maps {part : ConstantPart State} {part' : ConstantPart State'}
    (hp : ConstantPart.Maps g part part') (lead : List ConstantPiece) (count : Nat) :
    ConstantPart.Maps g (foldRepeated put part lead count)
      (foldRepeated put' part' lead count) := by
  induction count generalizing lead with
  | zero => intro values state; rfl
  | succ count ih =>
    intro values state
    rw [foldRepeated, foldRepeated, List.foldl_hom g (fun s p => (h s p).symm), hp]
    cases part values (lead.foldl put state) with
    | error failure => rfl
    | ok r => exact ih _ r.1 r.2

namespace ShaderType

theorem foldPlain_maps (c : Config) (t : ShaderType) :
    ConstantPart.Maps g (t.foldPlain c put) (t.foldPlain c put') := by
  intro values state
  simp only [foldPlain]
  split
  · cases t.spelling <;> rfl
  split
  · cases t.spelling with
    | error e => rfl
    | ok name => exact constructorCall_maps h name "" (fun _ s => by rw [← h]; rfl) values state
  · rw [← h]; rfl

theorem foldArranged_maps (t : ShaderType) {element : ConstantPart State}
    {element' : ConstantPart State'} (he : ConstantPart.Maps g element element') :
    ConstantPart.Maps g (t.foldArranged put element) (t.foldArranged put' element') := by
  rw [foldArranged, foldArranged]
  cases t.arraySize with
  | none => exact he
  | some n =>
    cases t.spelling with
    | error e => exact fun _ _ => rfl
    | ok name => exact constructorCall_maps h name _ (foldRepeated_maps h he [] n)

mutual

theorem foldElement_maps (c : Config) : (t : ShaderType) →
    ConstantPart.Maps g (t.foldElement c put) (t.foldElement c put')
  | t@{ structDef := some { name, fields, .. }, .. } => by
    rw [foldElement, foldElement]
    split
    · exact constructorCall_maps h _ "" (foldMembers_maps c fields [])
    · exact foldPlain_maps h c _
  | t@{ structDef := none, .. } => by
    rw [foldElement, foldElement]
    split
    · exact fun _ _ => rfl
    · exact foldPlain_maps h c _

theorem foldMembers_maps (c : Config) : (fields : List Field) → (lead : List ConstantPiece) →
    ConstantPart.Maps g (foldMembers c put fields lead) (foldMembers c put' fields lead)
  | [], _ => fun _ _ => by
    rw [foldMembers, foldMembers]
    rfl
  | { type, .. } :: rest, lead => fun values state => by
    rw [foldMembers, foldMembers, List.foldl_hom g (fun s p => (h s p).symm),
      foldArranged_maps h type (foldElement_maps c type)]
    cases type.foldArranged put (type.foldElement c put) values (lead.foldl put state) with
    | error failure => rfl
    | ok r => exact foldMembers_maps c rest _ r.1 r.2

end

theorem foldObject_maps (c : Config) (t : ShaderType) :
    ConstantPart.Maps g (t.foldObject c put) (t.foldObject c put') :=
  foldArranged_maps h t (foldElement_maps h c t)

end ShaderType

end

end ShaderText
