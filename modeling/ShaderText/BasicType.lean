/-!
# Basic types, precisions and the names of built-in types

A vector or matrix is a scalar `BasicType` with a shape: `cols` is the size of the vector or the
number of columns, `rows` the number of rows, `1` for all but matrices. `builtInTypeName?` spells
such a pair; structs and interface blocks are named by the program, and the shapes that the language
cannot write (a matrix of integers, a vector of five) have no name.
-/

namespace ShaderText

/-- The kind of a type, without its shape. -/
inductive BasicType where
  | void
  | float
  | int
  | uint
  | bool
  | sampler2D
  | sampler3D
  | samplerCube
  | sampler2DArray
  | samplerExternal
  | sampler2DRect
  | intSampler2D
  | intSampler3D
  | intSamplerCube
  | intSampler2DArray
  | uintSampler2D
  | uintSampler3D
  | uintSamplerCube
  | uintSampler2DArray
  | sampler2DShadow
  | samplerCubeShadow
  | sampler2DArrayShadow
  | image2D
  | intImage2D
  | uintImage2D
  | image3D
  | intImage3D
  | uintImage3D
  | image2DArray
  | intImage2DArray
  | uintImage2DArray
  | imageCube
  | intImageCube
  | uintImageCube
  | struct
  | block
  deriving DecidableEq, Repr, Inhabited

namespace BasicType

/-- Images, the types that carry a format and memory qualifiers. -/
def isImage : BasicType → Bool
  | image2D | intImage2D | uintImage2D | image3D | intImage3D | uintImage3D
  | image2DArray | intImage2DArray | uintImage2DArray | imageCube | intImageCube | uintImageCube =>
    true
  | _ => false

/-- The spelling of a type that has no shape: `void`, the samplers and the images. -/
def shapelessName? : BasicType → Option String
  | void => some "void"
  | sampler2D => some "sampler2D"
  | sampler3D => some "sampler3D"
  | samplerCube => some "samplerCube"
  | sampler2DArray => some "sampler2DArray"
  | samplerExternal => some "samplerExternalOES"
  | sampler2DRect => some "sampler2DRect"
  | intSampler2D => some "isampler2D"
  | intSampler3D => some "isampler3D"
  | intSamplerCube => some "isamplerCube"
  | intSampler2DArray => some "isampler2DArray"
  | uintSampler2D => some "usampler2D"
  | uintSampler3D => some "usampler3D"
  | uintSamplerCube => some "usamplerCube"
  | uintSampler2DArray => some "usampler2DArray"
  | sampler2DShadow => some "sampler2DShadow"
  | samplerCubeShadow => some "samplerCubeShadow"
  | sampler2DArrayShadow => some "sampler2DArrayShadow"
  | image2D => some "image2D"
  | intImage2D => some "iimage2D"
  | uintImage2D => some "uimage2D"
  | image3D => some "image3D"
  | intImage3D => some "iimage3D"
  | uintImage3D => some "uimage3D"
  | image2DArray => some "image2DArray"
  | intImage2DArray => some "iimage2DArray"
  | uintImage2DArray => some "uimage2DArray"
  | imageCube => some "imageCube"
  | intImageCube => some "iimageCube"
  | uintImageCube => some "uimageCube"
  | float | int | uint | bool | struct | block => none

/-- The spellings of a scalar and of its vectors, the latter without their size. -/
def scalarNames? : BasicType → Option (String × String)
  | float => some ("float", "vec")
  | int => some ("int", "ivec")
  | uint => some ("uint", "uvec")
  | bool => some ("bool", "bvec")
  | _ => none

/-- The word for a scalar in a message about a shape that has no name. -/
def label : BasicType → String
  | void => "Void"
  | float => "Float"
  | int => "Int"
  | uint => "UInt"
  | bool => "Bool"
  | sampler2D => "Sampler2D"
  | sampler3D => "Sampler3D"
  | samplerCube => "SamplerCube"
  | sampler2DArray => "Sampler2DArray"
  | samplerExternal => "SamplerExternalOes"
  | sampler2DRect => "Sampler2DRect"
  | intSampler2D => "ISampler2D"
  | intSampler3D => "ISampler3D"
  | intSamplerCube => "ISamplerCube"
  | intSampler2DArray => "ISampler2DArray"
  | uintSampler2D => "USampler2D"
  | uintSampler3D => "USampler3D"
  | uintSamplerCube => "USamplerCube"
  | uintSampler2DArray => "USampler2DArray"
  | sampler2DShadow => "Sampler2DShadow"
  | samplerCubeShadow => "SamplerCubeShadow"
  | sampler2DArrayShadow => "Sampler2DArrayShadow"
  | image2D => "Image2D"
  | intImage2D => "IImage2D"
  | uintImage2D => "UImage2D"
  | image3D => "Image3D"
  | intImage3D => "IImage3D"
  | uintImage3D => "UImage3D"
  | image2DArray => "Image2DArray"
  | intImage2DArray => "IImage2DArray"
  | uintImage2DArray => "UImage2DArray"
  | imageCube => "ImageCube"
  | intImageCube => "IImageCube"
  | uintImageCube => "UImageCube"
  | struct => "Struct"
  | block => "InterfaceBlock"

/-- Every basic type, in the order of declaration. -/
def all : List BasicType :=
  [void, float, int, uint, bool, sampler2D, sampler3D, samplerCube, sampler2DArray, samplerExternal,
    sampler2DRect, intSampler2D, intSampler3D, intSamplerCube, intSampler2DArray, uintSampler2D,
    uintSampler3D, uintSamplerCube, uintSampler2DArray, sampler2DShadow, samplerCubeShadow,
    sampler2DArrayShadow, image2D, intImage2D, uintImage2D, image3D, intImage3D, uintImage3D,
    image2DArray, intImage2DArray, uintImage2DArray, imageCube, intImageCube, uintImageCube, struct,
    block]

theorem mem_all (b : BasicType) : b ∈ all := by cases b <;> decide

end BasicType

/-- The name of the built-in type of a kind and a shape. -/
def builtInTypeName? (basic : BasicType) (cols rows : Nat) : Option String :=
  match basic.shapelessName?, basic.scalarNames? with
  | some name, _ => some name
  | none, none => none
  | none, some (scalar, vector) =>
    if cols = 0 ∨ 4 < cols ∨ rows = 0 ∨ 4 < rows then none
    else if 1 < rows then
      if basic ≠ .float ∨ cols = 1 then none
      else if cols = rows then some ("mat" ++ cols.repr)
      else some ("mat" ++ cols.repr ++ "x" ++ rows.repr)
    else if cols = 1 then some scalar
    else some (vector ++ cols.repr)

/-- A precision qualifier. -/
inductive Precision where
  | undefined
  | low
  | medium
  | high
  deriving DecidableEq, Repr, Inhabited

/-- The keyword of a precision; an undefined one is not written. -/
def Precision.keyword? : Precision → Option String
  | undefined => none
  | low => some "lowp"
  | medium => some "mediump"
  | high => some "highp"

end ShaderText
