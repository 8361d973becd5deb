import ShaderText.Config
import ShaderText.Fragment

/-!
# Fragments of types

The occurrence of a type in a declaration, a parameter or a returned type consists of, in this
order: `invariant`, the layout of an interface block, the storage qualifier, the memory qualifiers,
and the type itself (`ShaderType.occurrence`). The type itself is the body of a struct where it
occurs first, the body of an interface block wherever it occurs, and otherwise precision and name
(`ShaderType.reference`). Struct bodies do not nest: a member of struct type is written by name, and
the struct must have been written before.

A declaration puts the explicit layout of its type in front (`ShaderType.layout`).
-/

namespace ShaderText

/-! ### Qualifiers of a target -/

/-- The keyword of a storage qualifier on a target. Where `centroid` is dropped its plain
counterpart is written; from desktop 1.30 on `attribute` and `varying` are `in` and `out`. -/
def Config.storageKeyword (c : Config) : Qualifier → String
  | .centroid => if c.stripsCentroid then "" else Qualifier.keyword .centroid
  | .centroidIn => if c.stripsCentroid then "smooth in" else Qualifier.keyword .centroidIn
  | .centroidOut => if c.stripsCentroid then "smooth out" else Qualifier.keyword .centroidOut
  | .vertexAttribute => if c.output.isFrom130 then "in" else Qualifier.keyword .vertexAttribute
  | .varyingIn => if c.output.isFrom130 then "in" else Qualifier.keyword .varyingIn
  | .varyingOut => if c.output.isFrom130 then "out" else Qualifier.keyword .varyingOut
  | q => q.keyword

/-- A keyword with the blank that ends it; no keyword writes nothing. -/
def keywordText (keyword : String) : List Fragment :=
  if keyword = "" then [] else [.text (keyword ++ " ")]

/-! ### Names of types -/

namespace ShaderType

/-- The name of a type, or why it has none. -/
def nameFragment (t : ShaderType) : Fragment :=
  match t.spelling with
  | .ok name => .typeName name
  | .error e => .fail e

/-- Precision and name. -/
def reference (c : Config) (t : ShaderType) : List Fragment :=
  (if c.writesPrecision then keywordText (t.precision.keyword?.getD "") else []) ++
    [t.nameFragment]

end ShaderType

/-! ### Bodies of structs and blocks -/

/-- The condition on a member of struct type. -/
def Field.requirement (f : Field) : List Fragment :=
  if f.type.basic = .struct then
    match f.type.structDef with
    | some d => [.requireStruct d.id d.name]
    | none => [.fail (.malformed .missingStructDef)]
  else []

/-- A member of a struct or block whose name is the fragment `name`. -/
def Field.fragments (c : Config) (name : Fragment) (f : Field) : List Fragment :=
  f.requirement ++ f.type.reference c ++ [.text " ", name, .text (f.type.brackets ++ ";\n")]

def StructDef.body (c : Config) (d : StructDef) : List Fragment :=
  [.text "struct ", .typeName (.userDefined d.name), .text "\x7b\n"] ++
    d.fields.flatMap (fun f => f.fragments c (.member d.name f.name)) ++ [.text "\x7d"]

def BlockDef.body (c : Config) (d : BlockDef) : List Fragment :=
  [.typeName (.userDefined d.name), .text "\x7b\n"] ++
    d.fields.flatMap (fun f => f.fragments c (.blockMember f.name)) ++ [.text "\x7d"]

/-- The layout that an interface block begins with. -/
def BlockDef.layout (d : BlockDef) : Fragment :=
  .text ("layout(" ++ d.storage.keyword ++ ", " ++ d.packing.keyword ++ ") ")

/-! ### Occurrences of types -/

namespace ShaderType

/-- The type itself, without qualifiers. -/
def body (c : Config) (t : ShaderType) : List Fragment :=
  match t.basic with
  | .struct =>
    match t.structDef with
    | some d => [.structBody d.id d.name (d.body c) (t.reference c)]
    | none => [.fail (.malformed .missingStructDef)]
  | .block =>
    match t.blockDef with
    | some d => d.body c
    | none => [.fail (.malformed .missingBlockDef)]
  | _ => t.reference c

/-- The layout of an interface block, which is part of its type. -/
def blockLayout (t : ShaderType) : List Fragment :=
  if t.basic = .block then
    match t.blockDef with
    | some d => [d.layout]
    | none => [.fail (.malformed .missingBlockDef)]
  else []

/-- The memory qualifiers, which only an image may have. -/
def memoryQualifiers (t : ShaderType) : List Fragment :=
  t.memory.keywords.map fun keyword =>
    if t.basic.isImage then .text (keyword ++ " ") else .fail (.memoryQualifierOnNonImage keyword)

/-- A type with all of its qualifiers. -/
def occurrence (c : Config) (t : ShaderType) : List Fragment :=
  (if t.invariant && !c.removesInvariant then [.text "invariant "] else []) ++ t.blockLayout ++
    keywordText (if t.qualifier.isStorageFree then "" else c.storageKeyword t.qualifier) ++
    t.memoryQualifiers ++ t.body c

/-- The location that is written for a type. -/
def location? (t : ShaderType) : Option Nat :=
  if t.qualifier.acceptsLocation then t.location else none

/-- The keyword of the image format that is written for a type. -/
def formatKeyword? (t : ShaderType) : Option String :=
  if t.basic.isImage then t.imageFormat.keyword? else none

/-- The explicit layout that a declaration begins with; a block has a layout of its own. -/
def layout (t : ShaderType) : List Fragment :=
  if t.basic = .block ∨ (t.location? = none ∧ t.formatKeyword? = none) then []
  else
    [.text "layout("] ++
      (match t.location? with
        | some n => [.text ("location = " ++ n.repr)]
        | none => []) ++
      (match t.formatKeyword? with
        | some keyword =>
          if t.qualifier.acceptsImageFormat then [.text keyword]
          else [.fail (.imageFormatContext t.qualifier)]
        | none => []) ++
      [.text ") "]

end ShaderType

end ShaderText
