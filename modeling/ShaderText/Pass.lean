import ShaderText.Fragment.Node
import ShaderText.Fragment.Write

/-!
# Passes

A pass renders one tree: it yields the complete text and the table of renamed identifiers, or an
error and nothing else. Several shaders of a program share their table (`Renderer.renderAll`): each
pass starts from the table of the last one that succeeded, and from no other trace of it.
-/

namespace ShaderText

/-- What a pass yields. -/
structure Rendered where
  source : String
  names : NameTable

/-- Writes a tree into a context. -/
def Node.write (r : Renderer) (root : Node) (c : Context) : Except RenderError Context :=
  Fragment.writeAll r (root.fragments r.config) c

namespace Renderer

/-- Renders a tree with identifiers that are renamed already. -/
def renderFrom (r : Renderer) (names : NameTable) (root : Node) : Except RenderError Rendered := do
  let c ← root.write r { names }
  .ok { source := c.source.text, names := c.names }

/-- Renders a tree. -/
def render (r : Renderer) (root : Node) : Except RenderError Rendered := r.renderFrom .empty root

/-- The table that the next pass starts from. -/
def namesAfter (names : NameTable) : Except RenderError Rendered → NameTable
  | .ok rendered => rendered.names
  | .error _ => names

/-- Renders the trees of one program, with the table after the last of them. -/
def renderAll (r : Renderer) (names : NameTable) :
    List Node → List (Except RenderError Rendered) × NameTable
  | [] => ([], names)
  | root :: rest =>
    let first := r.renderFrom names root
    let (others, last) := r.renderAll (namesAfter names first) rest
    (first :: others, last)

end Renderer

end ShaderText
