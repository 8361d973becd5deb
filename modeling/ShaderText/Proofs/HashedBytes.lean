import ShaderText.Proofs.ReservedNames

/-! # The hash of identifiers: one byte decides

A byte is absorbed by an exclusive or and a multiplication, and both can be undone, the
multiplication because the prime is odd (`Fnv1a.inverse`). So a step tells the words before it
apart, whatever the byte (`Fnv1a.absorb_injective`), and the bytes, whatever the word
(`Fnv1a.absorb_byte_injective`); by induction the bytes behind tell apart what the bytes before have
told apart (`Fnv1a.foldl_absorb_injective`).

An ASCII character is one byte. **Identifiers that differ in one ASCII character are therefore
renamed differently (`fnv1a_separates`).** -/

namespace ShaderText

/-! ### Bytes -/

namespace Fnv1a

/-- The word that undoes the multiplication with the prime. -/
def inverse : UInt64 := 0xce965057aff6957b

theorem prime_mul_inverse : prime * inverse = 1 := by decide

theorem mul_prime_injective : Function.Injective (· * prime) := by
  refine Function.LeftInverse.injective (g := (· * inverse)) fun word => ?_
  calc word * prime * inverse = word * (prime * inverse) := UInt64.mul_assoc ..
    _ = word := by rw [prime_mul_inverse, UInt64.mul_one]

/-- A step tells the words before it apart. -/
theorem absorb_injective (byte : UInt8) : Function.Injective (absorb · byte) := by
  intro hash hash' h
  exact (UInt64.xor_left_inj _).mp (mul_prime_injective h)

/-- A step tells the bytes apart. -/
theorem absorb_byte_injective (hash : UInt64) : Function.Injective (absorb hash) := by
  intro byte byte' h
  exact UInt8.toUInt64_inj.mp ((UInt64.xor_right_inj _).mp (mul_prime_injective h))

/-- Bytes in a row tell the words before them apart. -/
theorem foldl_absorb_injective (bytes : List UInt8) :
    Function.Injective fun hash => bytes.foldl absorb hash := by
  induction bytes with
  | nil => exact Function.injective_id
  | cons byte rest ih => exact ih.comp (absorb_injective byte)

end Fnv1a

/-- **One byte decides,** whatever is before it and after it. -/
theorem fnv1a_ne_of_ne (front back : List UInt8) {a b : UInt8} (h : a ≠ b) :
    fnv1a (front ++ a :: back) ≠ fnv1a (front ++ b :: back) := by
  intro heq
  unfold fnv1a at heq
  rw [List.foldl_append, List.foldl_append, List.foldl_cons, List.foldl_cons] at heq
  exact h (Fnv1a.absorb_byte_injective _ (Fnv1a.foldl_absorb_injective back heq))

/-! ### Identifiers -/

/-- Identifiers of one length that differ at exactly one place, and have ASCII characters there. -/
structure DifferInOneAscii (m n : String) : Prop where
  length_eq : m.length = n.length
  existsUnique : ∃! i : Nat, m.toList[i]? ≠ n.toList[i]?
  isAscii : ∀ i : Nat, m.toList[i]? ≠ n.toList[i]? →
    ∀ ch, m.toList[i]? = some ch ∨ n.toList[i]? = some ch → ch.toNat < 128

/-- An ASCII character is one byte. -/
theorem utf8EncodeChar_of_lt {ch : Char} (h : ch.toNat < 128) :
    String.utf8EncodeChar ch = [ch.val.toUInt8] := by
  have hsize : ch.utf8Size = 1 := by
    rw [Char.utf8Size_eq_one_iff, UInt32.le_iff_toNat_le]
    exact Nat.le_of_lt_succ h
  exact String.utf8EncodeChar_eq_singleton hsize

/-- Different ASCII characters are different bytes. -/
theorem toUInt8_ne_of_ne {x y : Char} (hx : x.toNat < 128) (hy : y.toNat < 128) (h : x ≠ y) :
    x.val.toUInt8 ≠ y.val.toUInt8 := by
  have hbyte : ∀ {ch : Char}, ch.toNat < 128 → ch.val.toUInt8.toNat = ch.toNat := by
    intro ch hch
    rw [UInt32.toNat_toUInt8]
    exact Nat.mod_eq_of_lt (hch.trans (by decide))
  intro heq
  have hnat : x.toNat = y.toNat := by rw [← hbyte hx, ← hbyte hy, heq]
  exact h (Char.toNat_inj.mp hnat)

namespace DifferInOneAscii

variable {m n : String}

/-- The characters before the place and those behind it are the same. -/
theorem exists_parts (h : DifferInOneAscii m n) :
    ∃ (front back : List Char) (x y : Char), m.toList = front ++ x :: back ∧
      n.toList = front ++ y :: back ∧ x ≠ y ∧ x.toNat < 128 ∧ y.toNat < 128 := by
  obtain ⟨i, hi, hunique⟩ := h.existsUnique
  have hlength : m.toList.length = n.toList.length := by
    rw [String.length_toList, String.length_toList, h.length_eq]
  have hlt : i < m.toList.length := by
    by_contra hle
    refine hi ?_
    rw [List.getElem?_eq_none (by omega), List.getElem?_eq_none (by omega)]
  have hlt' : i < n.toList.length := hlength ▸ hlt
  -- the second identifier is the first with another character at the place
  have hset : m.toList.set i n.toList[i] = n.toList := by
    refine List.ext_getElem? fun j => ?_
    rw [List.getElem?_set]
    split_ifs with hj
    · rw [← hj, List.getElem?_eq_getElem hlt']
    · by_contra hne
      exact hj (hunique j hne).symm
  have hx : m.toList[i]? = some m.toList[i] := List.getElem?_eq_getElem hlt
  have hy : n.toList[i]? = some n.toList[i] := List.getElem?_eq_getElem hlt'
  refine ⟨m.toList.take i, m.toList.drop (i + 1), m.toList[i], n.toList[i], ?_, ?_, ?_,
    h.isAscii i hi _ (.inl hx), h.isAscii i hi _ (.inr hy)⟩
  · rw [← List.drop_eq_getElem_cons hlt, List.take_append_drop]
  · exact hset.symm.trans (by rw [List.set_eq_take_append_cons_drop, if_pos hlt])
  · intro heq
    exact hi (by rw [hx, hy, heq])

theorem fnv1aText_ne (h : DifferInOneAscii m n) : fnv1aText m ≠ fnv1aText n := by
  obtain ⟨front, back, x, y, hm, hn, hne, hx, hy⟩ := h.exists_parts
  unfold fnv1aText utf8
  rw [hm, hn]
  simp only [List.flatMap_append, List.flatMap_cons, utf8EncodeChar_of_lt hx,
    utf8EncodeChar_of_lt hy, List.singleton_append]
  exact fnv1a_ne_of_ne _ _ (toUInt8_ne_of_ne hx hy hne)

theorem hashedName_ne (h : DifferInOneAscii m n) :
    Reserved.hashedName (fnv1aText m) ≠ Reserved.hashedName (fnv1aText n) :=
  fun heq => h.fnv1aText_ne (Reserved.hashedName_injective heq)

end DifferInOneAscii

/-! ### Passes -/

/-- **The hash separates what differs in one byte,** at whatever place and in whatever surroundings.
So identifiers of one length that differ in exactly one ASCII character have different hashed names,
and where the passes of a program rename them, they rename them differently. -/
theorem fnv1a_separates :
    (∀ (front back : List UInt8) (a b : UInt8), a ≠ b →
      fnv1a (front ++ a :: back) ≠ fnv1a (front ++ b :: back)) ∧
    ∀ m n : String, DifferInOneAscii m n →
      Reserved.hashedName (fnv1aText m) ≠ Reserved.hashedName (fnv1aText n) ∧
      ∀ r : Renderer, r.config.hash? = some fnv1aText → ∀ roots : List Node,
        ((r.renderAll .empty roots).2.get? m).isSome →
        ((r.renderAll .empty roots).2.get? n).isSome →
          (r.renderAll .empty roots).2.get? m ≠ (r.renderAll .empty roots).2.get? n := by
  refine ⟨fun front back a b h => fnv1a_ne_of_ne front back h,
    fun m n h => ⟨h.hashedName_ne, ?_⟩⟩
  intro r hr roots hm hn heq
  obtain ⟨spelling, hspelling⟩ := Option.isSome_iff_exists.mp hm
  have hnames : spelling = Reserved.hashedName (fnv1aText m) :=
    Renderer.get?_names_renderAll hr hspelling
  have hnames' : spelling = Reserved.hashedName (fnv1aText n) :=
    Renderer.get?_names_renderAll hr (heq ▸ hspelling)
  exact h.hashedName_ne (hnames.symm.trans hnames')

/-- The function `tint` and its parameter `tins` are renamed, and apart. -/
theorem fnv1a_separates_tint :
    fnv1a ([1, 2] ++ 3 :: [4]) ≠ fnv1a ([1, 2] ++ 5 :: [4]) ∧
    DifferInOneAscii "tint" "tins" ∧
    ∃ names, (({ config := { hash? := some fnv1aText } } : Renderer).renderAll .empty
        [Renderer.identityFunction "tint" "tins"]).2 = names ∧
      (names.get? "tint").isSome ∧ (names.get? "tins").isSome ∧
        names.get? "tint" ≠ names.get? "tins" := by
  have hlast : ∀ i : Nat, "tint".toList[i]? ≠ "tins".toList[i]? ↔ i = 3
    | 0 | 1 | 2 | 3 => by decide
    | i + 4 => by simp
  have hdiffer : DifferInOneAscii "tint" "tins" := by
    refine ⟨by decide, ⟨3, by decide, fun i hi => (hlast i).mp hi⟩, fun i hi => ?_⟩
    obtain rfl : i = 3 := (hlast i).mp hi
    rintro ch (hch | hch) <;>
      · cases hch
        decide
  have htint : ((({ config := { hash? := some fnv1aText } } : Renderer).renderAll .empty
      [Renderer.identityFunction "tint" "tins"]).2.get? "tint").isSome := by decide +kernel
  have htins : ((({ config := { hash? := some fnv1aText } } : Renderer).renderAll .empty
      [Renderer.identityFunction "tint" "tins"]).2.get? "tins").isSome := by decide +kernel
  exact ⟨fnv1a_separates.1 [1, 2] [4] 3 5 (by decide), hdiffer, _, rfl, htint, htins,
    (fnv1a_separates.2 _ _ hdiffer).2 _ rfl _ htint htins⟩

end ShaderText
