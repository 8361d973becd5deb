import ShaderText.Dialect

/-!
# Texture functions and their names in other dialects

The texture lookups of the embedded language, and the extension forms of them, are spelled otherwise
on the desktop: from 1.30 on they fold into the overloaded `texture` family, before that only the
suffix of the extension forms changes. `TextureFunction.renames` is the table of a dialect and
`TextureFunction.spelling` applies it; a name outside the table stays as it is.
-/

namespace ShaderText.TextureFunction

/-- Names in the overloaded family of desktop 1.30. -/
def core : List (String × String) :=
  [("texture2D", "texture"), ("texture2DProj", "textureProj"), ("texture2DLod", "textureLod"),
    ("texture2DProjLod", "textureProjLod"), ("texture2DRect", "texture"),
    ("textureCube", "texture"), ("textureCubeLod", "textureLod"),
    ("texture2DLodEXT", "textureLod"), ("texture2DProjLodEXT", "textureProjLod"),
    ("textureCubeLodEXT", "textureLod"), ("texture2DGradEXT", "textureGrad"),
    ("texture2DProjGradEXT", "textureProjGrad"), ("textureCubeGradEXT", "textureGrad")]

/-- Names that a desktop compiler before 1.30 accepts for the extension forms. -/
def beforeCore : List (String × String) :=
  [("texture2DLodEXT", "texture2DLod"), ("texture2DProjLodEXT", "texture2DProjLod"),
    ("textureCubeLodEXT", "textureCubeLod"), ("texture2DGradEXT", "texture2DGradARB"),
    ("texture2DProjGradEXT", "texture2DProjGradARB"), ("textureCubeGradEXT", "textureCubeGradARB")]

/-- The table of a dialect; the embedded language renames nothing. -/
def renames (d : Dialect) : List (String × String) :=
  if d.isEssl then [] else if d.isFrom130 then core else beforeCore

/-- The spelling of a built-in function in a dialect. -/
def spelling (d : Dialect) (name : String) : String := ((renames d).lookup name).getD name

end ShaderText.TextureFunction
