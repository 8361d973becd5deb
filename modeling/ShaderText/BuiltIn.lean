/-!
# Built-in symbols of the source language

The variables, functions and structs that the language itself defines. Which of them exist depends
on the version of the *source*: a name that a later version introduces is an ordinary identifier of
an earlier one, and some names disappear again. Functions are listed once, whatever their overloads.

* `BuiltIn.symbols` is the registry, each symbol with the half-open range of its versions.
* `BuiltIn.find? name version` is the symbol of that name in that version, `BuiltIn.isKnown` whether
  there is one; names are compared letter by letter, case included.
-/

namespace ShaderText

/-- What a built-in name denotes. -/
inductive BuiltInKind where
  | var
  | function
  | struct
  deriving DecidableEq, Repr

/-- A symbol of the language, with the versions that define it. -/
structure BuiltIn where
  name : String
  kind : BuiltInKind
  /-- The first version that defines the symbol. -/
  since : Nat
  /-- The first later version that no longer does. -/
  removedIn : Option Nat := none
  deriving DecidableEq, Repr

namespace BuiltIn

def isAvailableIn (s : BuiltIn) (version : Nat) : Bool :=
  s.since ≤ version && s.removedIn.all (version < ·)

/-- Symbols of one kind that version `since` introduced. -/
def introduced (kind : BuiltInKind) (since : Nat) (names : List String) : List BuiltIn :=
  names.map fun name => { name, kind, since }

/-- Symbols of one kind that version 300 dropped. -/
def dropped (kind : BuiltInKind) (names : List String) : List BuiltIn :=
  names.map fun name => { name, kind, since := 100, removedIn := some 300 }

/-- All symbols: the struct, then the variables, then the functions. -/
def symbols : List BuiltIn :=
  introduced .struct 100 ["gl_DepthRangeParameters"] ++
  introduced .var 100
    ["gl_Position", "gl_PointSize", "gl_FragCoord", "gl_FrontFacing", "gl_PointCoord",
      "gl_DepthRange", "gl_MaxVertexAttribs", "gl_MaxVertexUniformVectors", "gl_MaxVaryingVectors",
      "gl_MaxVertexTextureImageUnits", "gl_MaxCombinedTextureImageUnits",
      "gl_MaxTextureImageUnits", "gl_MaxFragmentUniformVectors", "gl_MaxDrawBuffers"] ++
  dropped .var ["gl_FragColor", "gl_FragData", "gl_FragDepthEXT"] ++
  introduced .var 300 ["gl_FragDepth", "gl_VertexID", "gl_InstanceID"] ++
  introduced .var 310
    ["gl_NumWorkGroups", "gl_WorkGroupSize", "gl_WorkGroupID", "gl_LocalInvocationID",
      "gl_GlobalInvocationID", "gl_LocalInvocationIndex"] ++
  dropped .function
    ["texture2D", "texture2DProj", "texture2DLod", "texture2DProjLod", "textureCube",
      "textureCubeLod", "texture2DRect", "texture2DLodEXT", "texture2DProjLodEXT",
      "textureCubeLodEXT", "texture2DGradEXT", "texture2DProjGradEXT", "textureCubeGradEXT"] ++
  introduced .function 300
    ["texture", "textureProj", "textureLod", "textureProjLod", "textureOffset",
      "textureProjOffset", "textureLodOffset", "textureProjLodOffset", "textureGrad",
      "textureGradOffset", "textureProjGrad", "textureProjGradOffset", "textureSize", "texelFetch",
      "texelFetchOffset"] ++
  introduced .function 310 ["imageSize", "imageLoad", "imageStore", "memoryBarrier", "barrier"]

/-- The symbols of one version, in the order of the registry. -/
def available (version : Nat) : List BuiltIn := symbols.filter (·.isAvailableIn version)

/-- The symbol of a name in a version. -/
def find? (name : String) (version : Nat) : Option BuiltIn :=
  symbols.find? fun s => s.name == name && s.isAvailableIn version

/-- Whether a version defines a name. -/
def isKnown (name : String) (version : Nat) : Bool := (find? name version).isSome

/-- Whether a version defines a name as a struct. -/
def isStruct (name : String) (version : Nat) : Bool :=
  (find? name version).any (·.kind == .struct)

theorem isKnown_iff {name : String} {version : Nat} :
    isKnown name version = true ↔ ∃ s ∈ available version, s.name = name := by
  simp [isKnown, find?, available, and_right_comm, and_assoc]

end BuiltIn

end ShaderText
