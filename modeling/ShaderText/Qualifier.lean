/-!
# Storage qualifiers and memory access

A `Qualifier` says how a declared variable is stored. Its `keyword` is what a dialect that knows
every qualifier writes; what a given dialect writes instead is decided where types are laid out.
Two qualifiers write nothing (`isStorageFree`), and several share a keyword. `MemoryAccess` holds
the five access flags of images, which are written in the order of `MemoryAccess.keywords`.
-/

namespace ShaderText

/-- The storage class of one occurrence of a type. -/
inductive Qualifier where
  /-- A variable of a function, written without a keyword. -/
  | temporary
  /-- A variable outside all functions, written without a keyword. -/
  | global
  | const
  | vertexAttribute
  | varyingIn
  | varyingOut
  | uniform
  | buffer
  | vertexIn
  | fragmentOut
  | vertexOut
  | fragmentIn
  | input
  | output
  | inOut
  | constReadOnly
  | smooth
  | flat
  | centroid
  | smoothOut
  | flatOut
  | centroidOut
  | smoothIn
  | flatIn
  | centroidIn
  | computeIn
  | shared
  deriving DecidableEq, Repr, Inhabited

namespace Qualifier

/-- The keyword of a qualifier, empty for the two that write none. -/
def keyword : Qualifier → String
  | temporary | global => ""
  | const | constReadOnly => "const"
  | vertexAttribute => "attribute"
  | varyingIn | varyingOut => "varying"
  | uniform => "uniform"
  | buffer => "buffer"
  | vertexIn | fragmentIn | input | computeIn => "in"
  | fragmentOut | vertexOut | output => "out"
  | inOut => "inout"
  | smooth => "smooth"
  | flat => "flat"
  | centroid => "centroid"
  | smoothOut => "smooth out"
  | flatOut => "flat out"
  | centroidOut => "centroid out"
  | smoothIn => "smooth in"
  | flatIn => "flat in"
  | centroidIn => "centroid in"
  | shared => "shared"

/-- The word for a qualifier in a message. -/
def label : Qualifier → String
  | temporary => "Temporary"
  | global => "Global"
  | const => "Const"
  | vertexAttribute => "Attribute"
  | varyingIn => "VaryingIn"
  | varyingOut => "VaryingOut"
  | uniform => "Uniform"
  | buffer => "Buffer"
  | vertexIn => "VertexIn"
  | fragmentOut => "FragmentOut"
  | vertexOut => "VertexOut"
  | fragmentIn => "FragmentIn"
  | input => "In"
  | output => "Out"
  | inOut => "InOut"
  | constReadOnly => "ConstReadOnly"
  | smooth => "Smooth"
  | flat => "Flat"
  | centroid => "Centroid"
  | smoothOut => "SmoothOut"
  | flatOut => "FlatOut"
  | centroidOut => "CentroidOut"
  | smoothIn => "SmoothIn"
  | flatIn => "FlatIn"
  | centroidIn => "CentroidIn"
  | computeIn => "ComputeIn"
  | shared => "Shared"

/-- Every qualifier, in the order of declaration. -/
def all : List Qualifier :=
  [temporary, global, const, vertexAttribute, varyingIn, varyingOut, uniform, buffer, vertexIn,
    fragmentOut, vertexOut, fragmentIn, input, output, inOut, constReadOnly, smooth, flat, centroid,
    smoothOut, flatOut, centroidOut, smoothIn, flatIn, centroidIn, computeIn, shared]

/-- Qualifiers that a declaration does not write. -/
def isStorageFree (q : Qualifier) : Bool := q == temporary || q == global

/-- Qualifiers on which a location may be written. -/
def acceptsLocation (q : Qualifier) : Bool := q == fragmentOut || q == vertexIn

/-- Qualifiers under which the format of an image may be written. -/
def acceptsImageFormat (q : Qualifier) : Bool := q == temporary || q == uniform

theorem mem_all (q : Qualifier) : q ∈ all := by cases q <;> decide

end Qualifier

/-- Access flags of an image. -/
structure MemoryAccess where
  readonly : Bool := false
  writeonly : Bool := false
  coherent : Bool := false
  restrict : Bool := false
  volatile : Bool := false
  deriving DecidableEq, Repr, Inhabited

/-- The keywords of the flags that are set, in the order they are written. -/
def MemoryAccess.keywords (m : MemoryAccess) : List String :=
  (if m.readonly then ["readonly"] else []) ++ (if m.writeonly then ["writeonly"] else []) ++
    (if m.coherent then ["coherent"] else []) ++ (if m.restrict then ["restrict"] else []) ++
    (if m.volatile then ["volatile"] else [])

end ShaderText
