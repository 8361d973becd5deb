import ShaderText.Proofs.ConsumedValues
import ShaderText.Proofs.LiteralText
import ShaderText.Proofs.Yield

/-! # Constants tell their values

The text of a constant is a nested list without marks of length: the names of types, parentheses and
commas around literals. Two constants of one type have the same names in the same places, so their
texts can be compared from the front: up to the first literal they agree, a literal tells its value
and where it ends, and what follows it agrees again. A part of a constant for which this holds,
whatever stands behind it like behind an argument, tells its values (`ConstantPart.Tells`). The ways
of putting parts together keep this, so by induction on the type it holds of a whole object
(`ShaderType.foldObject_tells`).

**Constants of one type that are written as the same text have the same values
(`Node.write_constant_text_eq_iff`).** -/

namespace ShaderText

variable {r : Renderer} {ρ : String → String}

theorem Renderer.charsOf_text (r : Renderer) (s : String) : r.charsOf ρ [.text s] = s.toList := by
  rw [charsOf_cons, charsOf_nil, List.append_nil]
  rfl

theorem endsArgument_comma (text : List Char) : EndsArgument (", ".toList ++ text) :=
  endsArgument_cons (.inl rfl)

theorem endsArgument_closing : EndsArgument ")".toList := endsArgument_cons (.inr rfl)

/-! ### Parts that tell their values -/

/-- A part whose text tells the values that it takes, and where it ends. -/
structure ConstantPart.Tells (r : Renderer) (ρ : String → String)
    (part : ConstantPart (List Token)) : Prop where
  appends : ∀ {values rest : List Scalar} {start tokens : List Token},
    part values start = .ok (rest, tokens) → ∃ added, tokens = start ++ added
  tells : ∀ {values values' rest rest' : List Scalar} {start start' added added' : List Token}
    {x x' : List Char},
    part values start = .ok (rest, start ++ added) →
    part values' start' = .ok (rest', start' ++ added') →
    (∀ v ∈ values, v.IsExact r.config) → (∀ v ∈ values', v.IsExact r.config) →
    EndsArgument x → EndsArgument x' →
    r.charsOf ρ added ++ x = r.charsOf ρ added' ++ x' →
    x = x' ∧ ∃ taken, values = taken ++ rest ∧ values' = taken ++ rest'

/-- A part that goes on like behind an argument. -/
def ConstantPart.Follows (r : Renderer) (ρ : String → String)
    (part : ConstantPart (List Token)) : Prop :=
  ∀ {values rest : List Scalar} {start added : List Token},
    part values start = .ok (rest, start ++ added) → EndsArgument (r.charsOf ρ added)

namespace ConstantPart

variable {part part' : ConstantPart (List Token)}

/-- One part after another, with tokens before the first. -/
def andThen (lead : List Token) (part part' : ConstantPart (List Token)) :
    ConstantPart (List Token) := fun values start => do
  let (values, tokens) ← part values (start ++ lead)
  part' values tokens

/-- What two parts in a row come to. -/
theorem andThen_cases {lead start tokens : List Token} {values rest : List Scalar}
    (hpart : part.Tells r ρ) (hpart' : part'.Tells r ρ)
    (h : andThen lead part part' values start = .ok (rest, tokens)) :
    ∃ middle front back, part values (start ++ lead) = .ok (middle, start ++ lead ++ front) ∧
      part' middle (start ++ lead ++ front) = .ok (rest, start ++ lead ++ front ++ back) ∧
      tokens = start ++ (lead ++ (front ++ back)) := by
  simp only [andThen, bind, Except.bind] at h
  cases hfirst : part values (start ++ lead) with
  | error failure => rw [hfirst] at h; cases h
  | ok x =>
    obtain ⟨middle, between⟩ := x
    rw [hfirst] at h
    obtain ⟨front, rfl⟩ := hpart.appends hfirst
    obtain ⟨back, rfl⟩ := hpart'.appends h
    exact ⟨middle, front, back, rfl, h, by simp only [List.append_assoc]⟩

/-- Tokens that are the same whatever the values. -/
theorem tells_tokens (tokens : List Token) :
    Tells r ρ fun values start => .ok (values, start ++ tokens) where
  appends h := by cases h; exact ⟨tokens, rfl⟩
  tells h h' _ _ _ _ heq := by
    simp only [Except.ok.injEq, Prod.mk.injEq, List.append_cancel_left_eq] at h h'
    obtain ⟨rfl, rfl⟩ := h
    obtain ⟨rfl, rfl⟩ := h'
    exact ⟨List.append_cancel_left heq, [], rfl, rfl⟩

theorem follows_tokens {tokens : List Token} (h : EndsArgument (r.charsOf ρ tokens)) :
    Follows r ρ fun values start => .ok (values, start ++ tokens) := by
  intro values rest start added hrun
  simp only [Except.ok.injEq, Prod.mk.injEq, List.append_cancel_left_eq] at hrun
  exact hrun.2 ▸ h

theorem tells_fails (failure : ConstantFailure) : Tells r ρ fun _ _ => .error failure where
  appends h := by cases h
  tells h := by cases h

/-- The second part shows where the first ends. -/
theorem Tells.andThen (h : part.Tells r ρ) (h' : part'.Tells r ρ) (hfollows : part'.Follows r ρ)
    (lead : List Token) : (ConstantPart.andThen lead part part').Tells r ρ where
  appends hrun := by
    obtain ⟨-, front, back, -, -, rfl⟩ := andThen_cases h h' hrun
    exact ⟨_, rfl⟩
  tells {values values' rest rest' start start' added added' x x'} hrun hrun' hexact hexact' hx hx'
      heq := by
    obtain ⟨middle, front, back, hfirst, hsecond, htokens⟩ := andThen_cases h h' hrun
    obtain ⟨middle', front', back', hfirst', hsecond', htokens'⟩ := andThen_cases h h' hrun'
    rw [List.append_cancel_left htokens, List.append_cancel_left htokens'] at heq
    simp only [Renderer.charsOf_append, List.append_assoc, List.append_cancel_left_eq] at heq
    obtain ⟨hbehind, taken, rfl, rfl⟩ := h.tells hfirst hfirst' hexact hexact'
      ((hfollows hsecond).append hx) ((hfollows hsecond').append hx') heq
    obtain ⟨hend, taken', rfl, rfl⟩ := h'.tells hsecond hsecond'
      (fun v hv => hexact v (List.mem_append_right _ hv))
      (fun v hv => hexact' v (List.mem_append_right _ hv)) hx hx' hbehind
    exact ⟨hend, taken ++ taken', by rw [List.append_assoc], by rw [List.append_assoc]⟩

theorem Follows.andThen (h : part.Tells r ρ) (h' : part'.Tells r ρ) :
    (ConstantPart.andThen [.text ", "] part part').Follows r ρ := by
  intro values rest start added hrun
  obtain ⟨-, front, back, -, -, htokens⟩ := andThen_cases h h' hrun
  rw [List.append_cancel_left htokens, r.charsOf_append, r.charsOf_text]
  exact endsArgument_comma _

end ConstantPart

/-! ### Ways of putting parts together -/

variable {part : ConstantPart (List Token)} {c : Config}

theorem foldl_addPiece (lead : List ConstantPiece) (front : List Token) :
    lead.foldl addPiece front = front ++ lead.map ConstantPiece.token := by
  induction lead generalizing front with
  | nil => simp
  | cons piece rest ih => rw [List.foldl_cons, ih, List.append_assoc]; rfl

theorem constructorCall_tells (h : part.Tells r ρ) (name : TypeName) (suffix : String) :
    ConstantPart.Tells r ρ (constructorCall addPiece name suffix part) := by
  have hparts : constructorCall addPiece name suffix part =
      ConstantPart.andThen [.typeName name, .text (suffix ++ "(")] part
        fun values start => .ok (values, start ++ [.text ")"]) := by
    funext values start
    simp [constructorCall, ConstantPart.andThen, addPiece, ConstantPiece.token]
  rw [hparts]
  exact h.andThen (ConstantPart.tells_tokens _)
    (ConstantPart.follows_tokens (r.charsOf_text ")" ▸ endsArgument_closing)) _

theorem foldRepeated_succ (part : ConstantPart (List Token)) (lead : List ConstantPiece)
    (count : Nat) :
    foldRepeated addPiece part lead (count + 1) =
      ConstantPart.andThen (lead.map ConstantPiece.token) part
        (foldRepeated addPiece part [.text ", "] count) := by
  funext values start
  rw [foldRepeated, foldl_addPiece]
  rfl

/-- The parts behind the first one begin with a comma. -/
theorem foldRepeated_tells (h : part.Tells r ρ) (count : Nat) :
    (∀ lead, ConstantPart.Tells r ρ (foldRepeated addPiece part lead count)) ∧
      ConstantPart.Follows r ρ (foldRepeated addPiece part [.text ", "] count) := by
  induction count with
  | zero =>
    have hnothing : ∀ lead, foldRepeated addPiece part lead 0 =
        fun values start => .ok (values, start ++ []) := by
      intro lead
      funext values start
      rw [foldRepeated, List.append_nil]
    simp only [hnothing]
    exact ⟨fun _ => ConstantPart.tells_tokens [],
      ConstantPart.follows_tokens (r.charsOf_nil ▸ endsArgument_nil)⟩
  | succ count ih =>
    simp only [foldRepeated_succ]
    exact ⟨fun lead => h.andThen (ih.1 _) ih.2 _, ConstantPart.Follows.andThen h (ih.1 _)⟩

/-! ### Literals in a row -/

/-- Literals with commas between them, of equally many values. -/
theorem literals_append_inj {values values' : List Scalar}
    (hlength : values.length = values'.length)
    (hexact : ∀ v ∈ values, v.IsExact c) (hexact' : ∀ v ∈ values', v.IsExact c) {x x' : List Char}
    (hx : EndsArgument x) (hx' : EndsArgument x')
    (heq : (", ".intercalate (values.map (Scalar.literal c))).toList ++ x =
      (", ".intercalate (values'.map (Scalar.literal c))).toList ++ x') :
    values = values' ∧ x = x' := by
  induction values generalizing values' with
  | nil =>
    obtain rfl := List.length_eq_zero_iff.mp hlength.symm
    exact ⟨rfl, heq⟩
  | cons v rest ih =>
    obtain ⟨w, rest', rfl⟩ := List.exists_cons_of_length_eq_add_one hlength.symm
    obtain ⟨hv, hrest⟩ := List.forall_mem_cons.mp hexact
    obtain ⟨hw, hrest'⟩ := List.forall_mem_cons.mp hexact'
    have hlengths : rest.length = rest'.length := Nat.succ.inj hlength
    cases rest with
    | nil =>
      obtain rfl := List.length_eq_zero_iff.mp hlengths.symm
      simp only [List.map_cons, List.map_nil, String.intercalate_singleton] at heq
      obtain ⟨rfl, hbehind⟩ := Scalar.literal_append_inj hv hw hx hx' heq
      exact ⟨rfl, hbehind⟩
    | cons next more =>
      obtain ⟨next', more', rfl⟩ := List.exists_cons_of_length_eq_add_one hlengths.symm
      simp only [List.map_cons, String.intercalate_cons_cons, String.toList_append,
        List.append_assoc] at heq
      obtain ⟨rfl, hbehind⟩ := Scalar.literal_append_inj hv hw (endsArgument_comma _)
        (endsArgument_comma _) heq
      obtain ⟨hsame, hend⟩ := ih hlengths hrest hrest' (List.append_cancel_left hbehind)
      exact ⟨congrArg _ hsame, hend⟩

namespace ShaderType

theorem foldArranged_tells (h : part.Tells r ρ) (t : ShaderType) :
    ConstantPart.Tells r ρ (t.foldArranged addPiece part) := by
  unfold foldArranged
  cases t.arraySize with
  | none => exact h
  | some n =>
    cases t.spelling with
    | error cause => exact ConstantPart.tells_fails _
    | ok name => exact constructorCall_tells ((foldRepeated_tells h n).1 []) name t.brackets

/-- What stands before the literals of a plain element: the constructor if there are several. -/
def plainOpening (t : ShaderType) : List Token :=
  if 1 < t.componentCount then
    match t.spelling with
    | .ok name => [.typeName name, .text "("]
    | .error _ => []
  else []

/-- What stands behind them. -/
def plainClosing (t : ShaderType) : List Token :=
  if 1 < t.componentCount then [.text ")"] else []

/-- A plain element is as many literals as it has components, in a frame that its type settles. -/
theorem foldPlain_cases_append {t : ShaderType} {values rest : List Scalar}
    {start tokens : List Token}
    (h : t.foldPlain c addPiece values start = .ok (rest, tokens)) :
    ∃ taken, values = taken ++ rest ∧ taken.length = t.componentCount ∧
      tokens = start ++ (t.plainOpening ++
        .text (", ".intercalate (taken.map (Scalar.literal c))) :: t.plainClosing) := by
  simp only [foldPlain] at h
  by_cases hfew : values.length < t.componentCount
  · rw [if_pos hfew] at h
    cases hname : t.spelling <;> rw [hname] at h <;> cases h
  rw [if_neg hfew] at h
  have hlength : (values.take t.componentCount).length = t.componentCount := by
    rw [List.length_take]
    omega
  refine ⟨values.take t.componentCount, ?_, hlength, ?_⟩
  · split_ifs at h
    · cases hname : t.spelling <;> rw [hname] at h <;> cases h
      exact (List.take_append_drop _ _).symm
    · cases h
      exact (List.take_append_drop _ _).symm
  · unfold plainOpening plainClosing
    split_ifs at h ⊢ with hseveral
    · cases hname : t.spelling <;> rw [hname] at h <;> cases h
      simp [addPiece, ConstantPiece.token]
    · cases h
      rw [join_literals (by omega)]
      rfl

theorem foldPlain_tells (t : ShaderType) :
    ConstantPart.Tells r ρ (t.foldPlain r.config addPiece) where
  appends h := by
    obtain ⟨taken, -, -, rfl⟩ := foldPlain_cases_append h
    exact ⟨_, rfl⟩
  tells h h' hexact hexact' hx hx' heq := by
    obtain ⟨taken, rfl, hlength, htokens⟩ := foldPlain_cases_append h
    obtain ⟨taken', rfl, hlength', htokens'⟩ := foldPlain_cases_append h'
    have hclosing : EndsArgument (r.charsOf ρ t.plainClosing) := by
      unfold plainClosing
      split_ifs
      · exact r.charsOf_text ")" ▸ endsArgument_closing
      · exact endsArgument_nil
    rw [List.append_cancel_left htokens, List.append_cancel_left htokens'] at heq
    simp only [Renderer.charsOf_append, Renderer.charsOf_cons, Renderer.print_text,
      List.append_assoc, List.append_cancel_left_eq] at heq
    obtain ⟨rfl, hbehind⟩ := literals_append_inj (hlength.trans hlength'.symm)
      (fun v hv => hexact v (List.mem_append_left _ hv))
      (fun v hv => hexact' v (List.mem_append_left _ hv))
      (hclosing.append hx) (hclosing.append hx') heq
    exact ⟨List.append_cancel_left hbehind, taken, rfl, rfl⟩

theorem foldMembers_nil (lead : List ConstantPiece) :
    foldMembers c addPiece [] lead =
      fun values start => .ok (values, start ++ []) := by
  funext values start
  rw [foldMembers, List.append_nil]

theorem foldMembers_cons (f : Field) (rest : List Field) (lead : List ConstantPiece) :
    foldMembers c addPiece (f :: rest) lead =
      ConstantPart.andThen (lead.map ConstantPiece.token)
        (f.type.foldArranged addPiece (f.type.foldElement c addPiece))
        (foldMembers c addPiece rest [.text ", "]) := by
  cases f
  funext values start
  rw [foldMembers, foldl_addPiece]
  rfl

mutual

theorem foldElement_tells : (t : ShaderType) →
    ConstantPart.Tells r ρ (t.foldElement r.config addPiece)
  | { structDef := some { id, name, fields }, basic, .. } => by
    rw [foldElement_eq]
    split_ifs
    · exact constructorCall_tells ((foldMembers_tells fields).1 []) (.userDefined name) ""
    · exact foldPlain_tells _
  | { structDef := none, basic, .. } => by
    rw [foldElement_eq]
    split_ifs
    · exact ConstantPart.tells_fails _
    · exact foldPlain_tells _

theorem foldMembers_tells : (fields : List Field) →
    (∀ lead, ConstantPart.Tells r ρ (foldMembers r.config addPiece fields lead)) ∧
      ConstantPart.Follows r ρ
        (foldMembers r.config addPiece fields [.text ", "])
  | [] => by
    simp only [foldMembers_nil]
    exact ⟨fun _ => ConstantPart.tells_tokens [],
      ConstantPart.follows_tokens (r.charsOf_nil ▸ endsArgument_nil)⟩
  | { name, type } :: rest => by
    have hfirst := foldArranged_tells (foldElement_tells type) type
    obtain ⟨hrest, hfollows⟩ := foldMembers_tells rest
    simp only [foldMembers_cons]
    exact ⟨fun lead => hfirst.andThen (hrest _) hfollows _,
      ConstantPart.Follows.andThen hfirst (hrest _)⟩

end

/-- **An object tells the values that it takes.** -/
theorem foldObject_tells (t : ShaderType) :
    ConstantPart.Tells r ρ (t.foldObject r.config addPiece) :=
  foldArranged_tells (foldElement_tells t) t

end ShaderType

/-! ### Constants -/

namespace Node

variable {t : ShaderType} {values values' : List Scalar} {ctx after after' : Context}

/-- The tokens of a constant that is written. -/
theorem exists_tokens_of_write_constant (h : (constant t values).write r ctx = .ok after) :
    ∃ tokens, t.foldObject r.config addPiece values [] = .ok ([], [] ++ tokens) ∧
      after.source.text.toList =
        ctx.source.text.toList ++ r.charsOf (r.userSpelling ctx.names) tokens := by
  obtain ⟨tokens, -, hyields, htext⟩ := exists_yields_of_write h
  rw [fragments] at hyields
  exact ⟨tokens, ShaderType.foldObject_of_constantTokens (Fragment.yields_constant hyields), htext⟩

/-- Values that are written as they are, because bits can be given or all floats are finite. -/
theorem isExact_of_finite {c : Config}
    (h : 300 ≤ c.version ∨ ∀ x : Binary32, .float x ∈ values → x.isFinite = true) :
    ∀ v ∈ values, v.IsExact c := by
  intro v hv
  cases v with
  | float x => exact h.elim .inr fun hfinite => .inl (hfinite x hv)
  | int _ | uint _ | bool _ => trivial

/-- **Constants are encoded without loss.** Two constants of one type that are written in one
context have the same text exactly if they have the same values, of the same kinds and to the last
bit, where the bits of floats can be given or all floats are finite. -/
theorem write_constant_text_eq_iff
    (hexact : 300 ≤ r.config.version ∨
      ∀ x : Binary32, .float x ∈ values ++ values' → x.isFinite = true)
    (h : (constant t values).write r ctx = .ok after)
    (h' : (constant t values').write r ctx = .ok after') :
    after.source.text = after'.source.text ↔ values = values' := by
  constructor
  · intro htext
    obtain ⟨tokens, hrun, hchars⟩ := exists_tokens_of_write_constant h
    obtain ⟨tokens', hrun', hchars'⟩ := exists_tokens_of_write_constant h'
    rw [htext, hchars'] at hchars
    have hsame : r.charsOf (r.userSpelling ctx.names) tokens ++ [] =
        r.charsOf (r.userSpelling ctx.names) tokens' ++ [] := by
      rw [List.append_cancel_left hchars]
    have heach := isExact_of_finite hexact
    obtain ⟨-, taken, hvalues, hvalues'⟩ := (t.foldObject_tells).tells hrun hrun'
      (fun v hv => heach v (List.mem_append_left _ hv))
      (fun v hv => heach v (List.mem_append_right _ hv)) endsArgument_nil endsArgument_nil hsame
    exact hvalues.trans hvalues'.symm
  · rintro rfl
    rw [h] at h'
    exact congrArg (·.source.text) (Except.ok.inj h')

/-- The zeros differ, and so do the ones of two kinds. -/
theorem write_constant_text_ne_zeros :
    ∃ after after' : Context,
      (constant (.vector .float 2) [.float ⟨0⟩, .uint 1]).write {} {} = .ok after ∧
      (constant (.vector .float 2) [.float ⟨0x80000000⟩, .int 1]).write {} {} = .ok after' ∧
      after.source.text ≠ after'.source.text := by
  obtain ⟨after, h⟩ : ∃ after,
      (constant (.vector .float 2) [.float ⟨0⟩, .uint 1]).write {} {} = .ok after := ⟨_, rfl⟩
  obtain ⟨after', h'⟩ : ∃ after',
      (constant (.vector .float 2) [.float ⟨0x80000000⟩, .int 1]).write {} {} = .ok after' :=
    ⟨_, rfl⟩
  refine ⟨after, after', h, h', fun htext => ?_⟩
  have hfinite : ∀ x : Binary32, .float x ∈ [Scalar.float ⟨0⟩, .uint 1] ++
      [Scalar.float ⟨0x80000000⟩, .int 1] → x.isFinite = true := by
    intro x hx
    simp only [List.cons_append, List.nil_append, List.mem_cons, Scalar.float.injEq, reduceCtorEq,
      List.not_mem_nil, or_false, false_or] at hx
    rcases hx with rfl | rfl <;> decide
  exact absurd ((write_constant_text_eq_iff (.inr hfinite) h h').mp htext) (by decide)

end Node

end ShaderText
