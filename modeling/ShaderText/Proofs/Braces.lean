import ShaderText.Proofs.TextInvariant
import Mathlib.Algebra.Order.Group.Nat

/-! # Braces

The braces of a text are counted in its tokens (`opened`, `closed`). The text of each part of a
tree is `Whole`: it closes only the braces that it opens, and all of them, it does not end in the
word that begins a struct, and the structs written before it stay written
(`Fragment.Outlined.whole`). -/

namespace ShaderText

/-! ### Counting braces -/

namespace Token

/-- The number of braces that a token opens. -/
def opened : Token → Nat
  | text s => s.toList.count '\x7b'
  | _ => 0

/-- The number of braces that a token closes. -/
def closed : Token → Nat
  | text s => s.toList.count '\x7d'
  | _ => 0

/-- A token that closes as many braces as it opens. -/
def IsEven (t : Token) : Prop := t.closed = t.opened

instance (t : Token) : Decidable t.IsEven := inferInstanceAs (Decidable (t.closed = t.opened))

theorem IsPlain.isEven {t : Token} (h : t.IsPlain) : t.IsEven := by
  cases t with
  | text s => exact h.2.symm
  | _ => rfl

end Token

/-- The number of braces that tokens open. -/
def opened (tokens : List Token) : Nat := (tokens.map Token.opened).sum

/-- The number of braces that tokens close. -/
def closed (tokens : List Token) : Nat := (tokens.map Token.closed).sum

section

variable {front back tokens : List Token}

@[simp] theorem opened_nil : opened [] = 0 := rfl

@[simp] theorem closed_nil : closed [] = 0 := rfl

@[simp] theorem opened_cons (t : Token) (tokens : List Token) :
    opened (t :: tokens) = t.opened + opened tokens := by simp [opened]

@[simp] theorem closed_cons (t : Token) (tokens : List Token) :
    closed (t :: tokens) = t.closed + closed tokens := by simp [closed]

@[simp] theorem opened_append : opened (front ++ back) = opened front + opened back := by
  simp [opened]

@[simp] theorem closed_append : closed (front ++ back) = closed front + closed back := by
  simp [closed]

/-! ### Nested texts -/

/-- Tokens that close no brace that is open before them. -/
def KeepOpen (tokens : List Token) : Prop := ∀ part, part <+: tokens → closed part ≤ opened part

/-- Tokens that close all braces that they open, and no others. -/
structure Nested (tokens : List Token) : Prop where
  keepOpen : KeepOpen tokens
  closed_eq : closed tokens = opened tokens

theorem KeepOpen.nil : KeepOpen [] := fun part h => by rw [List.prefix_nil.mp h]; simp

theorem KeepOpen.of_prefix (h : KeepOpen tokens) (hfront : front <+: tokens) : KeepOpen front :=
  fun part hpart => h part (hpart.trans hfront)

theorem Nested.nil : Nested [] := ⟨.nil, rfl⟩

theorem Nested.keepOpen_append (h : Nested front) (h' : KeepOpen back) :
    KeepOpen (front ++ back) := by
  rintro part ⟨rest, hrest⟩
  rcases List.append_eq_append_iff.mp hrest with ⟨z, rfl, -⟩ | ⟨z, rfl, rfl⟩
  · exact h.keepOpen part (List.prefix_append _ _)
  · have := h.closed_eq
    have := h' z (List.prefix_append _ _)
    rw [opened_append, closed_append]
    omega

/-- The braces of texts put together do not mix. -/
theorem Nested.append (h : Nested front) (h' : Nested back) : Nested (front ++ back) where
  keepOpen := h.keepOpen_append h'.keepOpen
  closed_eq := by rw [opened_append, closed_append, h.closed_eq, h'.closed_eq]

theorem Nested.of_even (h : ∀ t ∈ tokens, t.IsEven) : Nested tokens := by
  have heq : ∀ {part : List Token}, (∀ t ∈ part, t.IsEven) → closed part = opened part := by
    intro part hpart
    exact congrArg List.sum (List.map_congr_left hpart)
  exact ⟨fun part hpart => (heq fun t ht => h t (hpart.subset ht)).le, heq h⟩

/-- A text in braces. -/
theorem Nested.enclosed {opening closing : Token} (hopening : opening.opened = 1)
    (hopening' : opening.closed = 0) (hclosing : closing.opened = 0)
    (hclosing' : closing.closed = 1) (h : Nested tokens) :
    Nested (opening :: (tokens ++ [closing])) where
  keepOpen part hpart := by
    rcases List.prefix_cons_iff.mp hpart with rfl | ⟨rest, rfl, hrest⟩
    · simp
    · rw [opened_cons, closed_cons]
      rcases List.prefix_concat_iff.mp hrest with rfl | hrest
      · have := h.closed_eq
        simp only [opened_append, closed_append, opened_cons, closed_cons, opened_nil, closed_nil]
        omega
      · have := h.keepOpen rest hrest
        omega
  closed_eq := by
    have := h.closed_eq
    simp only [opened_append, closed_append, opened_cons, closed_cons, opened_nil, closed_nil]
    omega

/-- What is left of a nested text after a part of it closes at least what it opens. -/
theorem Nested.opened_le_closed (front : List Token) (h : Nested (front ++ back)) :
    opened back ≤ closed back := by
  have := h.keepOpen front (List.prefix_append _ _)
  have := h.closed_eq
  rw [opened_append, closed_append] at this
  omega

end

/-! ### Texts of types -/

section

variable (c : Config)

theorem isEven_referenceTokens (t : ShaderType) : ∀ token ∈ t.referenceTokens c, token.IsEven := by
  intro token htoken
  rcases mem_referenceTokens htoken with hplain | ⟨_, -, rfl⟩
  · exact hplain.isEven
  · rfl

theorem isEven_fields (name : Field → Token) (hname : ∀ f, (name f).IsPlain)
    (fields : List Field) :
    ∀ token ∈ fields.flatMap (fun f => f.tokens c (name f)), token.IsEven := by
  intro token htoken
  rcases mem_fields name hname htoken with hplain | ⟨_, _, _, -, rfl⟩
  · exact hplain.isEven
  · rfl

/-- The members of a struct or block in their braces. -/
theorem nested_members (name : Field → Token) (hname : ∀ f, (name f).IsPlain)
    (fields : List Field) :
    Nested (.text "\x7b\n" :: (fields.flatMap (fun f => f.tokens c (name f)) ++ [.text "\x7d"])) :=
  .enclosed rfl rfl rfl rfl (.of_even (isEven_fields c name hname fields))

/-- The body of a struct after its name. -/
theorem StructDef.nested_drop (d : StructDef) : Nested ((d.bodyTokens c).drop 2) :=
  nested_members c (fun f => .member d.name f.name) (fun _ => trivial) d.fields

theorem StructDef.nested_bodyTokens (d : StructDef) : Nested (d.bodyTokens c) := by
  have hname : Nested [.text "struct ", .typeName (.userDefined d.name)] := .of_even (by
    simp only [List.forall_mem_cons]
    exact ⟨by decide, rfl, by simp⟩)
  exact hname.append (d.nested_drop c)

theorem BlockDef.nested_bodyTokens (d : BlockDef) : Nested (d.bodyTokens c) := by
  have hname : Nested [.typeName (.userDefined d.name)] :=
    .of_even (List.forall_mem_singleton.mpr rfl)
  exact hname.append (nested_members c (fun f => .blockMember f.name) (fun _ => trivial) d.fields)

end

/-! ### Texts of parts of a tree -/

/-- The word that begins a struct is not the last token. -/
def IsEnded (tokens : List Token) : Prop := tokens.getLast? ≠ some (.text "struct ")

/-- A text that leaves braces, the beginnings of structs and the structs that are written as they
are. -/
structure Whole (declared : List StructId) (tokens : List Token) (declared' : List StructId) :
    Prop where
  nested : Nested tokens
  ended : IsEnded tokens
  subset : declared ⊆ declared'

section

variable {c : Config} {front back tokens : List Token} {declared middle declared' : List StructId}

theorem isEnded_of_not_mem (h : .text "struct " ∉ tokens) : IsEnded tokens :=
  fun hlast => h (List.mem_of_getLast? hlast)

theorem isEnded_concat (tokens : List Token) {s : String} (hs : s ≠ "struct ") :
    IsEnded (tokens ++ [.text s]) := by
  simpa [IsEnded] using hs

theorem IsEnded.append (h : IsEnded front) (h' : IsEnded back) : IsEnded (front ++ back) := by
  unfold IsEnded at *
  rw [List.getLast?_append]
  cases hback : back.getLast? with
  | none => exact h
  | some token => rwa [hback] at h'

theorem Whole.append (h : Whole declared front middle) (h' : Whole middle back declared') :
    Whole declared (front ++ back) declared' :=
  ⟨h.nested.append h'.nested, h.ended.append h'.ended,
    fun _ hid => h'.subset (h.subset hid)⟩

theorem Whole.of_even (h : ∀ t ∈ tokens, t.IsEven) (h' : .text "struct " ∉ tokens) :
    Whole declared tokens declared := ⟨.of_even h, isEnded_of_not_mem h', List.Subset.refl _⟩

theorem whole_of_written {t : ShaderType} (h : t.Written c declared tokens declared') :
    Whole declared tokens declared' := by
  cases h with
  | plain | later =>
    exact .of_even (isEven_referenceTokens c t) (struct_not_mem_referenceTokens c t)
  | block d =>
    exact ⟨d.nested_bodyTokens c, isEnded_concat (_ :: _ :: _) (by decide), List.Subset.refl _⟩
  | first d =>
    refine ⟨d.nested_bodyTokens c, isEnded_concat (_ :: _ :: _ :: _) (by decide), ?_⟩
    unfold withBody
    split_ifs
    · exact List.Subset.refl _
    · exact List.subset_cons_self _ _

theorem whole_isInvariant : IsInvariant c fun _ => Whole where
  append := Whole.append
  plain h := .of_even (fun t ht => (h t ht).isEven) fun hmem => (h _ hmem).ne_struct rfl
  built h := .of_even
    (fun t ht => by
      rcases h t ht with hplain | ⟨_, name, -, -, rfl⟩
      · exact hplain.isEven
      · rfl)
    fun hmem => by
      rcases h _ hmem with hplain | ⟨_, name, -, -, heq⟩
      · exact hplain.ne_struct rfl
      · cases heq
  written := whole_of_written
  enclosed {opening us declared tokens declared'} hopening h := by
    refine ⟨.enclosed ?_ ?_ rfl rfl h.nested, isEnded_concat (_ :: tokens) (by decide), h.subset⟩
    · rcases hopening with rfl | rfl <;> rfl
    · rcases hopening with rfl | rfl <;> rfl

/-- **The text of fragments with an outline is whole.** -/
theorem Fragment.Outlined.whole {fs : List Fragment} {items : List Outline}
    (h : Outlined c fs items) {b : Bindings} {depth : Nat}
    (hr : Runs c b depth fs declared tokens declared') : Whole declared tokens declared' :=
  h.invariant whole_isInvariant hr

end

end ShaderText
