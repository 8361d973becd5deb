import ShaderText.Proofs.Word
import Mathlib.Data.List.Count

/-! # The words of a text

The words of a text are what stands between the characters that no word has (`wordsOf`). To take
apart the words of two texts in a row, one has to know that no word goes across. There is a gap, if
the first text ends with a character that no word has (`EndsWithGap`), or the second one begins with
such a character (`BeginsWithGap`). Then **the words of the two texts are those of the first and
those of the second (`wordsOf_append`)**, so that occurrences of a word are counted text by text
(`occurrences_append`). -/

namespace ShaderText

/-- The words of a text, from front to back. -/
def wordsOf (text : List Char) : List (List Char) :=
  (text.splitOnP fun ch => !isWordChar ch).filter (· ≠ [])

/-- How often a word occurs in a text. -/
def occurrences (word text : List Char) : Nat := (wordsOf text).count word

/-! ### Gaps -/

/-- Texts that end without a word. -/
def EndsWithGap (text : List Char) : Prop := ∀ ch ∈ text.getLast?, isWordChar ch = false

/-- Texts that begin without a word. -/
def BeginsWithGap (text : List Char) : Prop := ∀ ch ∈ text.head?, isWordChar ch = false

instance (text : List Char) : Decidable (EndsWithGap text) :=
  Option.decidableForallMem text.getLast?

instance (text : List Char) : Decidable (BeginsWithGap text) :=
  Option.decidableForallMem text.head?

variable {front back text word : List Char}

theorem EndsWithGap.append (h : EndsWithGap front) (h' : EndsWithGap back) :
    EndsWithGap (front ++ back) := by
  intro ch hch
  rw [List.getLast?_append] at hch
  cases hlast : back.getLast? with
  | none =>
    rw [hlast] at hch
    exact h ch hch
  | some last =>
    rw [hlast] at hch
    exact h' ch (hlast ▸ hch)

theorem BeginsWithGap.append (h : BeginsWithGap front) (h' : BeginsWithGap back) :
    BeginsWithGap (front ++ back) := by
  cases front with
  | nil => exact h'
  | cons ch rest => exact h

/-- A text after which another one ends without a word. -/
theorem EndsWithGap.of_append (h : EndsWithGap back) (hne : back ≠ []) :
    EndsWithGap (front ++ back) := by
  intro ch hch
  rw [List.getLast?_append] at hch
  cases hlast : back.getLast? with
  | none => exact absurd (List.getLast?_eq_none_iff.mp hlast) hne
  | some last =>
    rw [hlast] at hch
    exact h ch (hlast ▸ hch)

/-! ### Words in a row -/

@[simp] theorem wordsOf_nil : wordsOf [] = [] := by
  simp [wordsOf, List.splitOnP_nil]

/-- A character that no word has is in no word. -/
theorem wordsOf_append_cons {ch : Char} (hch : isWordChar ch = false) (front back : List Char) :
    wordsOf (front ++ ch :: back) = wordsOf front ++ wordsOf back := by
  unfold wordsOf
  rw [List.splitOnP_append_cons front back (by simp [hch]), List.filter_append]

theorem wordsOf_cons {ch : Char} (hch : isWordChar ch = false) (text : List Char) :
    wordsOf (ch :: text) = wordsOf text := by
  simpa using wordsOf_append_cons hch [] text

theorem wordsOf_append_singleton {ch : Char} (hch : isWordChar ch = false) (text : List Char) :
    wordsOf (text ++ [ch]) = wordsOf text := by
  simpa using wordsOf_append_cons hch text []

/-- **The words of texts between which there is a gap.** -/
theorem wordsOf_append (h : EndsWithGap front ∨ BeginsWithGap back) :
    wordsOf (front ++ back) = wordsOf front ++ wordsOf back := by
  rcases h with h | h
  · rcases List.eq_nil_or_concat front with rfl | ⟨start, ch, rfl⟩
    · simp
    · rw [List.concat_eq_append] at h ⊢
      have hch : isWordChar ch = false := h ch (by simp)
      rw [List.append_assoc, List.singleton_append, wordsOf_append_cons hch,
        wordsOf_append_singleton hch]
  · cases back with
    | nil => simp
    | cons ch rest =>
      have hch : isWordChar ch = false := h ch rfl
      rw [wordsOf_append_cons hch, wordsOf_cons hch]

theorem occurrences_append (word : List Char) (h : EndsWithGap front ∨ BeginsWithGap back) :
    occurrences word (front ++ back) = occurrences word front + occurrences word back := by
  unfold occurrences
  rw [wordsOf_append h, List.count_append]

/-! ### Texts without a word -/

/-- The first part of a split text is at its front, and each part is inside of it. -/
theorem splitOnP_parts (p : Char → Bool) (text : List Char) :
    ∃ first rest, text.splitOnP p = first :: rest ∧ first <+: text ∧
      ∀ part ∈ rest, part <:+: text := by
  induction text with
  | nil => exact ⟨[], [], List.splitOnP_nil, List.prefix_rfl, nofun⟩
  | cons ch text ih =>
    obtain ⟨first, rest, hsplit, hfirst, hrest⟩ := ih
    have hinside : ∀ part, part <:+: text → part <:+: ch :: text :=
      fun part h => h.trans (List.suffix_cons ch text).isInfix
    rw [List.splitOnP_cons_eq_if_modifyHead, hsplit]
    split_ifs
    · refine ⟨[], first :: rest, rfl, List.nil_prefix, List.forall_mem_cons.mpr ⟨?_, ?_⟩⟩
      · exact hinside first hfirst.isInfix
      · exact fun part hpart => hinside part (hrest part hpart)
    · refine ⟨ch :: first, rest, rfl, (List.cons_prefix_cons).mpr ⟨rfl, hfirst⟩, ?_⟩
      exact fun part hpart => hinside part (hrest part hpart)

theorem infix_of_mem_wordsOf (h : word ∈ wordsOf text) : word <:+: text := by
  obtain ⟨first, rest, hsplit, hfirst, hrest⟩ := splitOnP_parts (fun ch => !isWordChar ch) text
  unfold wordsOf at h
  rw [hsplit] at h
  rcases List.mem_cons.mp (List.mem_filter.mp h).1 with rfl | hmem
  · exact hfirst.isInfix
  · exact hrest word hmem

/-- A word does not occur in a text that does not contain it. -/
theorem occurrences_eq_zero (h : ¬ word <:+: text) : occurrences word text = 0 :=
  List.count_eq_zero.mpr (mt infix_of_mem_wordsOf h)

end ShaderText
