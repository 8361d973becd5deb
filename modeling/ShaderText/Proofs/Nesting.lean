import ShaderText.Proofs.Yield

/-! # Nesting: where a part of a text ends

Commas and blanks inside the text of an expression, and the brackets that it closes, are always
inside brackets that it opened. Such a text is `Solid`, and so it ends where the first comma, blank
or closing bracket is that its own brackets do not enclose: two solid texts, each with one of these
after it, are equal if the texts with what follows are (`Solid.append_cons_inj`). -/

namespace ShaderText

def isOpening (ch : Char) : Bool := ch == '(' || ch == '['

def isClosing (ch : Char) : Bool := ch == ')' || ch == ']'

/-- The characters that stand between the operands of an operator and between arguments. -/
def isGap (ch : Char) : Bool := ch == ' ' || ch == ','

/-- The characters that a solid text can only have inside brackets. -/
def isStop (ch : Char) : Bool := isClosing ch || isGap ch

/-- The number of open brackets at the end of a text that begins with `depth` of them; none if one
is closed, or a gap is, where no bracket is open. -/
def nesting : List Char → Nat → Option Nat
  | [], depth => some depth
  | ch :: rest, depth =>
    if isOpening ch then nesting rest (depth + 1)
    else if isStop ch then
      match depth with
      | 0 => none
      | outer + 1 => nesting rest (if isClosing ch then outer else outer + 1)
    else nesting rest depth

section

variable {front back text : List Char} {depth depth' : Nat} {ch : Char}

theorem nesting_append :
    nesting (front ++ back) depth = (nesting front depth).bind (nesting back) := by
  induction front generalizing depth with
  | nil => rfl
  | cons ch rest ih =>
    simp only [List.cons_append, nesting]
    split
    · exact ih
    split
    · cases depth with
      | zero => rfl
      | succ outer => exact ih
    · exact ih

/-- More brackets around a text change nothing in it. -/
theorem nesting_succ (h : nesting text depth = some depth') :
    nesting text (depth + 1) = some (depth' + 1) := by
  induction text generalizing depth with
  | nil => cases h; rfl
  | cons ch rest ih =>
    simp only [nesting] at h ⊢
    split at h
    · rename_i hopening
      rw [if_pos hopening]
      exact ih h
    rename_i hopening
    rw [if_neg hopening]
    split at h
    · rename_i hstop
      rw [if_pos hstop]
      cases depth with
      | zero => cases h
      | succ outer =>
        dsimp only at h ⊢
        split at h
        · rename_i hclosing
          rw [if_pos hclosing]
          exact ih h
        · rename_i hclosing
          rw [if_neg hclosing]
          exact ih h
    · rename_i hstop
      rw [if_neg hstop]
      exact ih h

theorem nesting_cons_stop (h : isStop ch = true) : nesting (ch :: text) 0 = none := by
  have hopening : isOpening ch = false := by
    simp only [isStop, isClosing, isGap, Bool.or_eq_true, beq_iff_eq] at h
    rcases h with (rfl | rfl) | (rfl | rfl) <;> rfl
  simp [nesting, hopening, h]

/-! ### Solid texts -/

/-- Texts whose brackets match, with gaps only inside them. -/
def Solid (text : List Char) : Prop := nesting text 0 = some 0

instance (text : List Char) : Decidable (Solid text) :=
  inferInstanceAs (Decidable (nesting text 0 = some 0))

theorem Solid.nesting_eq (h : Solid text) (depth : Nat) : nesting text depth = some depth := by
  induction depth with
  | zero => exact h
  | succ depth ih => exact nesting_succ ih

theorem Solid.append (h : Solid front) (h' : Solid back) : Solid (front ++ back) := by
  rw [Solid, nesting_append, h.nesting_eq]
  exact h'

/-- A text without brackets and gaps. -/
theorem solid_of_plain (h : ∀ ch ∈ text, isOpening ch = false ∧ isStop ch = false) :
    Solid text := by
  induction text with
  | nil => rfl
  | cons ch rest ih =>
    obtain ⟨⟨hopening, hstop⟩, hrest⟩ := List.forall_mem_cons.mp h
    simpa [Solid, nesting, hopening, hstop] using ih hrest

/-- A text in brackets may have gaps that are not enclosed any further. -/
theorem solid_enclosed (opening closing : Char) (hopening : isOpening opening = true)
    (hclosing : isClosing closing = true) (h : nesting text 1 = some 1) :
    Solid (opening :: (text ++ [closing])) := by
  have hneither : isOpening closing = false := by
    simp only [isClosing, Bool.or_eq_true, beq_iff_eq] at hclosing
    rcases hclosing with rfl | rfl <;> rfl
  simp [Solid, nesting, nesting_append, hopening, hneither, h, isStop, hclosing]

theorem Solid.enclosed (h : Solid text) (opening closing : Char)
    (hopening : isOpening opening = true) (hclosing : isClosing closing = true) :
    Solid (opening :: (text ++ [closing])) :=
  solid_enclosed opening closing hopening hclosing (h.nesting_eq 1)

/-- A solid text does not go on where another one has stopped. -/
theorem Solid.not_append_cons (h : Solid (front ++ ch :: back)) (hfront : Solid front) :
    isStop ch = false := by
  by_contra hstop
  rw [Solid, nesting_append, hfront.nesting_eq, Option.bind_some,
    nesting_cons_stop (Bool.eq_true_of_not_eq_false hstop)] at h
  cases h

/-- **A solid text ends at the first stop outside its brackets.** -/
theorem Solid.append_cons_inj {front' back' : List Char} {ch' : Char} (h : Solid front)
    (h' : Solid front') (hch : isStop ch = true) (hch' : isStop ch' = true)
    (heq : front ++ ch :: back = front' ++ ch' :: back') :
    front = front' ∧ ch = ch' ∧ back = back' := by
  rcases List.append_eq_append_iff.mp heq with ⟨z, rfl, hz⟩ | ⟨z, rfl, hz⟩
  · cases z with
    | nil => cases hz; simp
    | cons other z =>
      cases hz
      exact absurd (h'.not_append_cons h) (by simp [hch])
  · cases z with
    | nil => cases hz; simp
    | cons other z =>
      cases hz
      exact absurd (h.not_append_cons h') (by simp [hch'])

/-- An index in brackets after a solid text begins at the bracket that matches the last one. -/
theorem Solid.append_opening_inj {front' back' : List Char} (hch : isOpening ch = true)
    (h : Solid front) (h' : Solid front') (hback : Solid back) (hback' : Solid back')
    (heq : front ++ ch :: back = front' ++ ch :: back') : front = front' ∧ back = back' := by
  -- A longer front would take the opening bracket, and leave a closing one behind it.
  have hshort : ∀ {x y z : List Char}, Solid (x ++ ch :: z) → Solid x → Solid (z ++ ch :: y) →
      Solid y → False := by
    intro x y z hlong hx hz hy
    rw [Solid, nesting_append, hx.nesting_eq, Option.bind_some, nesting, if_pos hch] at hlong
    rw [Solid, nesting_append] at hz
    cases hdepth : nesting z 0 with
    | none => rw [hdepth] at hz; cases hz
    | some depth =>
      have := nesting_succ hdepth
      rw [hlong] at this
      cases this
  rcases List.append_eq_append_iff.mp heq with ⟨z, rfl, hz⟩ | ⟨z, rfl, hz⟩
  · cases z with
    | nil => cases hz; simp
    | cons other z =>
      cases hz
      exact (hshort h' h hback hback').elim
  · cases z with
    | nil => cases hz; simp
    | cons other z =>
      cases hz
      exact (hshort h h' hback' hback).elim

/-! ### Lists of arguments -/

/-- **A list of arguments is split at its commas in one way only.** -/
theorem intercalate_comma_inj {parts parts' : List (List Char)}
    (h : ∀ part ∈ parts, Solid part ∧ part ≠ []) (h' : ∀ part ∈ parts', Solid part ∧ part ≠ [])
    (heq : List.intercalate [',', ' '] parts ++ [')'] =
      List.intercalate [',', ' '] parts' ++ [')']) : parts = parts' := by
  -- What follows an argument starts with a comma or is the closing parenthesis.
  have hcons : ∀ part rest, ∃ stop others, isStop stop = true ∧
      List.intercalate [',', ' '] (part :: rest) ++ [')'] = part ++ stop :: others ∧
      ((rest = [] ∧ stop = ')' ∧ others = []) ∨ (rest ≠ [] ∧ stop = ',' ∧
        others = ' ' :: (List.intercalate [',', ' '] rest ++ [')']))) := by
    intro part rest
    cases rest with
    | nil => exact ⟨')', [], rfl, by simp [List.intercalate], .inl ⟨rfl, rfl, rfl⟩⟩
    | cons next rest =>
      refine ⟨',', _, rfl, ?_, .inr ⟨List.cons_ne_nil _ _, rfl, rfl⟩⟩
      simp [List.intercalate_cons_cons]
  have hnil : ∀ {part rest}, part ≠ [] → Solid part →
      [')'] ≠ List.intercalate [',', ' '] (part :: rest) ++ [')'] := by
    intro part rest hne hsolid heq
    obtain ⟨stop, others, -, hothers, -⟩ := hcons part rest
    obtain ⟨ch, part, rfl⟩ := List.exists_cons_of_ne_nil hne
    rw [hothers, List.cons_append] at heq
    cases (List.cons_eq_cons.mp heq).1
    exact absurd hsolid (by simp [Solid, nesting, isOpening, isStop, isClosing])
  induction parts generalizing parts' with
  | nil =>
    cases parts' with
    | nil => rfl
    | cons part' rest' =>
      obtain ⟨hsolid, hne⟩ := h' part' List.mem_cons_self
      exact absurd heq (hnil hne hsolid)
  | cons part rest ih =>
    cases parts' with
    | nil =>
      obtain ⟨hsolid, hne⟩ := h part List.mem_cons_self
      exact absurd heq.symm (hnil hne hsolid)
    | cons part' rest' =>
      obtain ⟨stop, others, hstop, hothers, hcase⟩ := hcons part rest
      obtain ⟨stop', others', hstop', hothers', hcase'⟩ := hcons part' rest'
      rw [hothers, hothers'] at heq
      obtain ⟨rfl, rfl, rfl⟩ := (h part List.mem_cons_self).1.append_cons_inj
        (h' part' List.mem_cons_self).1 hstop hstop' heq
      rcases hcase with ⟨rfl, rfl, rfl⟩ | ⟨-, rfl, rfl⟩
      · rcases hcase' with ⟨rfl, -, -⟩ | ⟨-, hcomma, -⟩
        · rfl
        · exact absurd hcomma (by decide)
      · rcases hcase' with ⟨-, hcomma, -⟩ | ⟨-, -, hrest⟩
        · exact absurd hcomma (by decide)
        · rw [ih (fun p hp => h p (List.mem_cons_of_mem _ hp))
            (fun p hp => h' p (List.mem_cons_of_mem _ hp)) (List.cons_eq_cons.mp hrest).2]

end

end ShaderText
