/-!
# Layouts: image formats, block storage and matrix packing

The words that may stand in `layout(...)`. An image declaration names its `ImageFormat`; an
interface block names its `BlockStorage` and `MatrixPacking`, each with the language's default when
left open.
-/

namespace ShaderText

/-- The internal format of an image. -/
inductive ImageFormat where
  | unspecified
  | rgba32f
  | rgba16f
  | r32f
  | rgba32ui
  | rgba16ui
  | rgba8ui
  | r32ui
  | rgba32i
  | rgba16i
  | rgba8i
  | r32i
  | rgba8
  | rgba8Snorm
  deriving DecidableEq, Repr, Inhabited

namespace ImageFormat

/-- The keyword of a format; an unspecified one has none. -/
def keyword? : ImageFormat → Option String
  | unspecified => none
  | rgba32f => some "rgba32f"
  | rgba16f => some "rgba16f"
  | r32f => some "r32f"
  | rgba32ui => some "rgba32ui"
  | rgba16ui => some "rgba16ui"
  | rgba8ui => some "rgba8ui"
  | r32ui => some "r32ui"
  | rgba32i => some "rgba32i"
  | rgba16i => some "rgba16i"
  | rgba8i => some "rgba8i"
  | r32i => some "r32i"
  | rgba8 => some "rgba8"
  | rgba8Snorm => some "rgba8_snorm"

/-- The formats that have a keyword, in the order of declaration. -/
def specified : List ImageFormat :=
  [rgba32f, rgba16f, r32f, rgba32ui, rgba16ui, rgba8ui, r32ui, rgba32i, rgba16i, rgba8i, r32i,
    rgba8, rgba8Snorm]

theorem mem_specified_iff {f : ImageFormat} : f ∈ specified ↔ f.keyword?.isSome = true := by
  cases f <;> decide

end ImageFormat

/-- How the members of an interface block are laid out in memory. -/
inductive BlockStorage where
  | unspecified
  | shared
  | packed
  | std140
  deriving DecidableEq, Repr, Inhabited

/-- The keyword of a storage; `shared` when it is left open. -/
def BlockStorage.keyword : BlockStorage → String
  | unspecified | shared => "shared"
  | packed => "packed"
  | std140 => "std140"

/-- How the matrices of an interface block are laid out in memory. -/
inductive MatrixPacking where
  | unspecified
  | columnMajor
  | rowMajor
  deriving DecidableEq, Repr, Inhabited

/-- The keyword of a packing; `column_major` when it is left open. -/
def MatrixPacking.keyword : MatrixPacking → String
  | unspecified | columnMajor => "column_major"
  | rowMajor => "row_major"

end ShaderText
