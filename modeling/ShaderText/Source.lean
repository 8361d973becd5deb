/-!
# Text under construction

A `Source` only grows: `Source.write` appends to it, and nothing is taken back.
-/

namespace ShaderText

/-- The text written so far. -/
structure Source where
  text : String := ""
  deriving DecidableEq, Repr, Inhabited

namespace Source

def write (source : Source) (s : String) : Source := ⟨source.text ++ s⟩

/-- The number of bytes of the text in UTF-8. -/
def size (source : Source) : Nat := source.text.utf8ByteSize

def isEmpty (source : Source) : Bool := source.size == 0

@[simp] theorem text_write (source : Source) (s : String) :
    (source.write s).text = source.text ++ s := rfl

@[simp] theorem write_empty (source : Source) : source.write "" = source := by
  cases source; simp [write]

theorem write_write (source : Source) (s t : String) :
    (source.write s).write t = source.write (s ++ t) := by
  simp [write, String.append_assoc]

theorem size_write (source : Source) (s : String) :
    (source.write s).size = source.size + s.utf8ByteSize := by
  simp [size]

end Source

end ShaderText
