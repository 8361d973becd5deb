import Mathlib.Tactic.SplitIfs

/-! # Brackets: well-nested texts

A text is well nested (`WellNested`) if every opening bracket, round, square or curly, is closed by
one of its kind, with a well-nested text between the two. Whether it is can be read off from left to
right with the closing brackets that are awaited in mind, the next one first (`awaitedAfter`).
`Shifts` compares what is awaited before a text and after it, whatever else is awaited around them,
so texts that open brackets and texts that close them are put together by `Shifts.append`.
**A text is well nested exactly if nothing is awaited after it (`wellNested_iff`).** -/

namespace ShaderText

/-- The bracket that closes an opening one. -/
def closingOf? : Char → Option Char
  | '(' => some ')'
  | '[' => some ']'
  | '\x7b' => some '\x7d'
  | _ => none

def isBracket (ch : Char) : Bool := ch ∈ ['(', ')', '[', ']', '\x7b', '\x7d']

/-- Texts in which every bracket has its partner, in proper nesting order. -/
inductive WellNested : List Char → Prop
  | nil : WellNested []
  | other {ch : Char} {rest : List Char} : isBracket ch = false → WellNested rest →
    WellNested (ch :: rest)
  | enclosed {opening closing : Char} {inner rest : List Char} :
    closingOf? opening = some closing → WellNested inner → WellNested rest →
    WellNested (opening :: (inner ++ closing :: rest))

/-! ### Reading from left to right -/

/-- The closing brackets that are awaited after one more character, the next one first. -/
def await (awaited : List Char) (ch : Char) : Option (List Char) :=
  match closingOf? ch with
  | some closing => some (closing :: awaited)
  | none =>
    if isBracket ch then
      if awaited.head? = some ch then some awaited.tail else none
    else some awaited

/-- The closing brackets that are awaited after a text. -/
def awaitedAfter (awaited text : List Char) : Option (List Char) := text.foldlM await awaited

/-- A text before which `before` is awaited, and after which `after` is. -/
def Shifts (before text after : List Char) : Prop := awaitedAfter before text = some after

instance (before text after : List Char) : Decidable (Shifts before text after) :=
  inferInstanceAs (Decidable (_ = _))

variable {before middle after text text' : List Char} {ch : Char}

theorem isBracket_of_closingOf? {closing : Char} (h : closingOf? ch = some closing) :
    isBracket closing = true ∧ closingOf? closing = none := by
  unfold closingOf? at h
  split at h <;> cases h <;> decide

theorem awaitedAfter_append (awaited : List Char) :
    awaitedAfter awaited (text ++ text') =
      (awaitedAfter awaited text).bind (awaitedAfter · text') := List.foldlM_append

theorem shifts_nil : Shifts before [] before := rfl

theorem Shifts.append (h : Shifts before text middle) (h' : Shifts middle text' after) :
    Shifts before (text ++ text') after := by
  unfold Shifts at *
  rw [awaitedAfter_append, h]
  exact h'

theorem await_append {awaited rest : List Char} (h : await awaited ch = some rest)
    (outer : List Char) : await (awaited ++ outer) ch = some (rest ++ outer) := by
  unfold await at *
  cases hopening : closingOf? ch with
  | some closing =>
    rw [hopening] at h
    cases h
    rfl
  | none =>
    rw [hopening] at h
    dsimp only at h ⊢
    split_ifs at h with hbracket hhead
    · cases h
      obtain ⟨tail, rfl⟩ := List.head?_eq_some_iff.mp hhead
      simp [hbracket]
    · cases h
      rw [if_neg hbracket]

/-- What is awaited outside does not matter. -/
theorem Shifts.around (h : Shifts before text after) (outer : List Char) :
    Shifts (before ++ outer) text (after ++ outer) := by
  induction text generalizing before with
  | nil =>
    cases h
    exact shifts_nil
  | cons ch rest ih =>
    have hstep : (await before ch).bind (awaitedAfter · rest) = some after := h
    obtain ⟨next, hnext, hrest⟩ := Option.bind_eq_some_iff.mp hstep
    show (await (before ++ outer) ch).bind (awaitedAfter · rest) = some (after ++ outer)
    rw [await_append hnext]
    exact ih hrest

theorem closingOf?_eq_none (h : isBracket ch = false) : closingOf? ch = none := by
  unfold closingOf?
  split <;> first | rfl | cases h

theorem shifts_other (h : isBracket ch = false) : Shifts before [ch] before := by
  simp [Shifts, awaitedAfter, await, closingOf?_eq_none h, h]

theorem shifts_opening {closing : Char} (h : closingOf? ch = some closing) :
    Shifts before [ch] (closing :: before) := by
  simp [Shifts, awaitedAfter, await, h]

theorem shifts_closing {opening : Char} (h : closingOf? opening = some ch) :
    Shifts (ch :: before) [ch] before := by
  obtain ⟨hbracket, hnone⟩ := isBracket_of_closingOf? h
  simp [Shifts, awaitedAfter, await, hnone, hbracket]

/-! ### Texts without brackets -/

def IsBracketFree (s : String) : Prop := ∀ ch ∈ s.toList, isBracket ch = false

instance (s : String) : Decidable (IsBracketFree s) :=
  List.decidableBAll (isBracket · = false) s.toList

theorem isBracketFree_append {s s' : String} :
    IsBracketFree (s ++ s') ↔ IsBracketFree s ∧ IsBracketFree s' := by
  unfold IsBracketFree
  rw [String.toList_append, List.forall_mem_append]

/-- What no bracket is. -/
theorem isBracket_eq_false {p : Char → Prop}
    (hp : ∀ bracket ∈ ['(', ')', '[', ']', '\x7b', '\x7d'], ¬ p bracket) (h : p ch) :
    isBracket ch = false := by
  cases hbracket : isBracket ch with
  | false => rfl
  | true => exact absurd h (hp ch (of_decide_eq_true hbracket))

/-- A text without brackets changes nothing. -/
theorem shifts_of_free (h : ∀ ch ∈ text, isBracket ch = false) : Shifts before text before := by
  induction text with
  | nil => exact shifts_nil
  | cons ch rest ih =>
    obtain ⟨hch, hrest⟩ := List.forall_mem_cons.mp h
    exact (shifts_other hch).append (ih hrest)

theorem IsBracketFree.shifts {s : String} (h : IsBracketFree s) : Shifts before s.toList before :=
  shifts_of_free h

/-! ### Well-nested texts are those after which nothing is awaited -/

theorem WellNested.shifts (h : WellNested text) (awaited : List Char) :
    Shifts awaited text awaited := by
  induction h generalizing awaited with
  | nil => exact shifts_nil
  | other hch _ ih => exact (shifts_other hch).append (ih awaited)
  | enclosed hpair _ _ ihinner ihrest =>
    exact (shifts_opening hpair).append
      ((ihinner _).append ((shifts_closing hpair).append (ihrest awaited)))

/-- A text that closes what is awaited: well-nested texts with these brackets between them. -/
def Closes : List Char → List Char → Prop
  | [], text => WellNested text
  | closing :: awaited, text =>
    ∃ inner rest, text = inner ++ closing :: rest ∧ WellNested inner ∧ Closes awaited rest

theorem Closes.other {awaited : List Char} (hch : isBracket ch = false) (h : Closes awaited text) :
    Closes awaited (ch :: text) := by
  cases awaited with
  | nil => exact WellNested.other hch h
  | cons closing awaited =>
    obtain ⟨inner, rest, rfl, hinner, hrest⟩ := h
    exact ⟨ch :: inner, rest, rfl, WellNested.other hch hinner, hrest⟩

theorem Closes.enclosed {awaited : List Char} {opening closing : Char}
    (hpair : closingOf? opening = some closing) (h : Closes (closing :: awaited) text) :
    Closes awaited (opening :: text) := by
  obtain ⟨inner, rest, rfl, hinner, hrest⟩ := h
  cases awaited with
  | nil => exact WellNested.enclosed hpair hinner hrest
  | cons next awaited =>
    obtain ⟨between, last, rfl, hbetween, hlast⟩ := hrest
    exact ⟨opening :: (inner ++ closing :: between), last, by simp,
      WellNested.enclosed hpair hinner hbetween, hlast⟩

theorem closes_of_awaitedAfter {awaited : List Char} (h : awaitedAfter awaited text = some []) :
    Closes awaited text := by
  induction text generalizing awaited with
  | nil =>
    obtain rfl : awaited = [] := by simpa [awaitedAfter] using h
    exact .nil
  | cons ch rest ih =>
    have hstep : (await awaited ch).bind (awaitedAfter · rest) = some [] := h
    unfold await at hstep
    cases hpair : closingOf? ch with
    | some closing =>
      rw [hpair] at hstep
      exact (ih hstep).enclosed hpair
    | none =>
      rw [hpair] at hstep
      dsimp only at hstep
      split_ifs at hstep with hbracket hhead
      · obtain ⟨awaited, rfl⟩ := List.head?_eq_some_iff.mp hhead
        exact ⟨[], rest, rfl, .nil, ih hstep⟩
      · cases hstep
      · exact (ih hstep).other (by simpa using hbracket)

/-- **A text is well nested exactly if nothing is awaited after it.** -/
theorem wellNested_iff : WellNested text ↔ Shifts [] text [] :=
  ⟨fun h => h.shifts [], closes_of_awaitedAfter⟩

instance : DecidablePred WellNested := fun _ => decidable_of_iff _ wellNested_iff.symm

example : WellNested "f(a[int(clamp(float(i), 0.0, float(3)))])\x7b\x7d".toList := by decide

example : ¬ WellNested "([)]".toList := by decide

end ShaderText
