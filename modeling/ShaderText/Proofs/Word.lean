import ShaderText.Fragment.Node
import Mathlib.Tactic.IntervalCases
import Mathlib.Tactic.SplitIfs

/-! # Words: the names that the language itself provides

An identifier of the language is a word of letters, digits and underscores (`isWord`); the two
words that are values, `true` and `false`, do not count. The names that a rendering takes from the
language are words of this kind: those of functions, of types, and the selections of components. -/

namespace ShaderText

/-- What holds of the characters of a text is decided along the text, and not over all
characters. -/
instance decidableForallMemText (p : Char → Prop) [DecidablePred p] (text : List Char) :
    Decidable (∀ ch ∈ text, p ch) := List.decidableBAll p text

/-- Letters, digits and the underscore. -/
def isWordChar (ch : Char) : Bool := ch.isAlphanum || ch == '_'

/-- Words that can be the name of something. -/
def isWord (s : String) : Bool :=
  match s.toList with
  | [] => false
  | ch :: rest => isWordChar ch && !ch.isDigit && rest.all isWordChar && s != "true" && s != "false"

/-- What a word looks like: a first character that is not a digit, and others after it. -/
theorem exists_cons_of_isWord {s : String} (h : isWord s = true) :
    ∃ ch rest, s.toList = ch :: rest ∧ ch.isDigit = false ∧
      ∀ ch' ∈ ch :: rest, isWordChar ch' = true := by
  unfold isWord at h
  split at h
  · exact absurd h Bool.false_ne_true
  · rename_i ch rest hs
    simp only [Bool.and_eq_true, Bool.not_eq_true', List.all_eq_true] at h
    obtain ⟨⟨⟨⟨hch, hdigit⟩, hrest⟩, -⟩, -⟩ := h
    exact ⟨ch, rest, hs, hdigit, List.forall_mem_cons.mpr ⟨hch, hrest⟩⟩

theorem isWordChar_of_mem {s : String} (h : isWord s = true) {ch : Char} (hch : ch ∈ s.toList) :
    isWordChar ch = true := by
  obtain ⟨first, rest, hs, -, hall⟩ := exists_cons_of_isWord h
  exact hall ch (hs ▸ hch)

/-! ### Names of functions and types -/

theorem UnaryOp.isWord_of_form_eq_call {op : UnaryOp} {name : String} (h : op.form = .call name) :
    isWord name = true := by
  cases op <;> cases h <;> decide

theorem Intrinsic.isWord_name (op : Intrinsic) : isWord op.name = true := by
  cases op <;> decide

theorem BasicType.isWord_of_shapelessName {basic : BasicType} {name : String}
    (h : basic.shapelessName? = some name) : isWord name = true := by
  cases basic <;> cases h <;> decide

theorem BasicType.scalarNames_cases {basic : BasicType} {names : String × String}
    (h : basic.scalarNames? = some names) :
    names ∈ [("float", "vec"), ("int", "ivec"), ("uint", "uvec"), ("bool", "bvec")] := by
  cases basic <;> cases h <;> decide

/-- **The names of built-in types are words.** -/
theorem isWord_of_builtInTypeName {basic : BasicType} {cols rows : Nat} {name : String}
    (h : builtInTypeName? basic cols rows = some name) : isWord name = true := by
  unfold builtInTypeName? at h
  split at h
  · rename_i hshapeless
    cases h
    exact BasicType.isWord_of_shapelessName hshapeless
  · cases h
  · rename_i scalar vector _ hscalar
    have hnames := BasicType.scalarNames_cases hscalar
    simp only [List.mem_cons, Prod.mk.injEq, List.not_mem_nil, or_false] at hnames
    split_ifs at h with hrange hmatrix hfloat hsquare hone
    · obtain ⟨hcols, hcols', hrows, hrows'⟩ :
          0 < cols ∧ cols ≤ 4 ∧ 0 < rows ∧ rows ≤ 4 := by omega
      cases h
      interval_cases cols <;> decide
    · obtain ⟨hcols, hcols', hrows, hrows'⟩ :
          0 < cols ∧ cols ≤ 4 ∧ 0 < rows ∧ rows ≤ 4 := by omega
      cases h
      interval_cases cols <;> interval_cases rows <;> decide
    · cases h
      rcases hnames with ⟨rfl, -⟩ | ⟨rfl, -⟩ | ⟨rfl, -⟩ | ⟨rfl, -⟩ <;> decide
    · obtain ⟨hcols, hcols'⟩ : 0 < cols ∧ cols ≤ 4 := by omega
      cases h
      rcases hnames with ⟨-, rfl⟩ | ⟨-, rfl⟩ | ⟨-, rfl⟩ | ⟨-, rfl⟩ <;>
        interval_cases cols <;> decide

/-- A type without a name of its own has the name that the language gives to its shape. -/
theorem ShaderType.builtInTypeName?_of_spelling {t : ShaderType} {name : String}
    (h : t.spelling = .ok (.builtIn name)) :
    builtInTypeName? t.basic t.cols t.rows = some name := by
  unfold spelling at h
  split at h
  · cases hd : t.structDef <;> rw [hd] at h <;> cases h
  · cases hd : t.blockDef <;> rw [hd] at h <;> cases h
  · split at h
    · rename_i hname
      cases h
      exact hname
    · cases h

theorem ShaderType.isWord_of_spelling {t : ShaderType} {name : String}
    (h : t.spelling = .ok (.builtIn name)) : isWord name = true :=
  isWord_of_builtInTypeName (builtInTypeName?_of_spelling h)

/-! ### Selections of components -/

theorem componentLetter?_mem {offset : Nat} {letter : Char}
    (h : componentLetter? offset = some letter) : letter ∈ ['x', 'y', 'z', 'w'] := by
  unfold componentLetter? at h
  split at h <;> cases h <;> decide

theorem mem_of_mapM_componentLetter {offsets : List Nat} {letters : List Char}
    (h : offsets.mapM componentLetter? = some letters) :
    letters.length = offsets.length ∧ ∀ letter ∈ letters, letter ∈ ['x', 'y', 'z', 'w'] := by
  induction offsets generalizing letters with
  | nil => cases h; simp
  | cons offset rest ih =>
    rw [List.mapM_cons] at h
    cases hletter : componentLetter? offset with
    | none => rw [hletter] at h; cases h
    | some letter =>
      cases hrest : rest.mapM componentLetter? with
      | none => rw [hletter, hrest] at h; cases h
      | some others =>
        rw [hletter, hrest] at h
        cases h
        obtain ⟨hlength, hall⟩ := ih hrest
        exact ⟨by simp [hlength],
          List.forall_mem_cons.mpr ⟨componentLetter?_mem hletter, hall⟩⟩

/-- **A selection of components is a word.** -/
theorem isWord_of_mapM_componentLetter {offsets : List Nat} {letters : List Char}
    (hoffsets : offsets ≠ []) (h : offsets.mapM componentLetter? = some letters) :
    isWord (String.ofList letters) = true := by
  obtain ⟨hlength, hall⟩ := mem_of_mapM_componentLetter h
  cases letters with
  | nil => exact absurd (List.length_eq_zero_iff.mp hlength.symm) hoffsets
  | cons letter rest =>
    have hchar : ∀ ch ∈ ['x', 'y', 'z', 'w'],
        isWordChar ch = true ∧ ch.isDigit = false ∧ ch ≠ 't' ∧ ch ≠ 'f' := by decide
    obtain ⟨hletter, hrest⟩ := List.forall_mem_cons.mp hall
    obtain ⟨hword, hdigit, ht, hf⟩ := hchar letter hletter
    have htrue : String.ofList (letter :: rest) ≠ "true" := fun h => ht (by
      have := congrArg String.toList h
      simp at this
      exact this.1)
    have hfalse : String.ofList (letter :: rest) ≠ "false" := fun h => hf (by
      have := congrArg String.toList h
      simp at this
      exact this.1)
    simp only [isWord, String.toList_ofList, hword, hdigit, Bool.not_false, Bool.true_and,
      Bool.and_eq_true, List.all_eq_true, bne_iff_ne]
    exact ⟨⟨fun ch hch => (hchar ch (hrest ch hch)).1, htrue⟩, hfalse⟩

end ShaderText
