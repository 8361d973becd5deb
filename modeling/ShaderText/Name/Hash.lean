/-!
# A 64-bit hash of identifiers

`utf8 s` is the list of the bytes of a text in UTF-8, and `fnv1a` folds a list of bytes into one
word: each byte is absorbed by exclusive or, followed by multiplication with an odd prime.
`fnv1aText` is the hash of a text.
-/

namespace ShaderText

/-- The bytes of a text in UTF-8. -/
def utf8 (s : String) : List UInt8 := s.toList.flatMap String.utf8EncodeChar

@[simp] theorem utf8_empty : utf8 "" = [] := rfl

@[simp] theorem utf8_append (s t : String) : utf8 (s ++ t) = utf8 s ++ utf8 t := by
  simp [utf8]

/-- Two texts with the same bytes are equal. -/
theorem utf8_injective {s t : String} (h : utf8 s = utf8 t) : s = t := by
  have e : s.toList.utf8Encode = t.toList.utf8Encode := congrArg List.toByteArray h
  rw [← String.toByteArray_inj, ← String.ofList_toList (s := s), ← String.ofList_toList (s := t),
    String.toByteArray_ofList, String.toByteArray_ofList, e]

namespace Fnv1a

/-- The hash of no bytes. -/
def offsetBasis : UInt64 := 0xcbf29ce484222325

def prime : UInt64 := 0x100000001b3

/-- The hash after one more byte. -/
def absorb (hash : UInt64) (byte : UInt8) : UInt64 := (hash ^^^ byte.toUInt64) * prime

end Fnv1a

/-- The hash of a list of bytes. -/
def fnv1a (bytes : List UInt8) : UInt64 := bytes.foldl Fnv1a.absorb Fnv1a.offsetBasis

/-- The hash of the bytes of a text. -/
def fnv1aText (s : String) : UInt64 := fnv1a (utf8 s)

end ShaderText
