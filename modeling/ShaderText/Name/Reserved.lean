/-!
# Reserved spellings

The language reserves identifiers that begin with `webgl_`, so what is spelled here never meets a
name that a program may choose. There are three families, of internal, hashed and emulated names,
and two fixed names: the helper that clamps an index, and the entry point, which is never renamed.
-/

namespace ShaderText.Reserved

/-- The start of an internal name. -/
def internalStart : String := "webgl_angle_"

/-- The start of a hashed name. -/
def hashedStart : String := "webgl_"

/-- The helper function that clamps an index. -/
def clampHelper : String := "webgl_int_clamp"

/-- The function a shader starts in. -/
def entryPoint : String := "main"

/-- The spelling of a name that a compiler made up. -/
def internalName (name : String) : String := internalStart ++ name

/-- The lower-case hexadecimal numeral of a number. -/
def hexadecimal (n : Nat) : String := String.ofList (Nat.toDigits 16 n)

/-- The spelling of a user's name that has the given hash. -/
def hashedName (hash : UInt64) : String := hashedStart ++ hexadecimal hash.toNat

/-- The spelling of the function that stands in for a missing built-in one. -/
def emulatedName (name : String) : String := hashedStart ++ name ++ "_emu"

/-- The part of a function name before its encoded parameters, which begin with a parenthesis. -/
def unmangled (name : String) : String := String.ofList (name.toList.takeWhile (· ≠ '('))

theorem toList_unmangled (name : String) :
    (unmangled name).toList = name.toList.takeWhile (· ≠ '(') := by
  simp [unmangled]

/-- What remains of a name has no parameters left. -/
theorem open_not_mem_unmangled (name : String) : '(' ∉ (unmangled name).toList := by
  rw [toList_unmangled]
  intro h
  have := List.all_eq_true.mp List.all_takeWhile _ h
  simp at this

end ShaderText.Reserved
