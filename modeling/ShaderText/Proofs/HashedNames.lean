import ShaderText.Proofs.RelabelledText

/-! # Hashed names: what a pass tells of the names of the user

Where names are hashed, a name of the user goes into the text by its hash alone. To put this as a
statement about two passes, the names are exchanged for others with the same hash
(`Renderer.renamed`), at every place a tree can hold one. Names that the renderer itself looks up
are not the user's: the built-in ones, the entry point and the empty name (`Renderer.IsReserved`),
and the members of built-in structs.

The renamed tree has the tokens of the tree, renamed, and a token is printed as before
(`Renderer.print_token`), for each rule that a name is spelled by. **A tree and the renamed one both
fail or have the same text (`Renderer.render_renamed`).** -/

namespace ShaderText

/-! ### Function names -/

namespace Reserved

/-- The encoded parameters of a function name, with the parenthesis they begin with. -/
def parameters (name : String) : String := String.ofList (name.toList.dropWhile (· ≠ '('))

/-- A name without parameters stays what is unmangled when parameters are put after it. -/
theorem unmangled_append_parameters {name : String} (h : '(' ∉ name.toList) (other : String) :
    unmangled (name ++ parameters other) = name := by
  have hname : ∀ c ∈ name.toList, decide (c ≠ '(') = true := by
    intro c hc
    rw [decide_eq_true_eq]
    rintro rfl
    exact h hc
  have hparameters : ∀ chars : List Char,
      (chars.dropWhile (· ≠ '(')).takeWhile (· ≠ '(') = [] := by
    intro chars
    induction chars with
    | nil => rfl
    | cons c rest ih =>
      by_cases hc : c = '('
      · simp [hc]
      · rw [List.dropWhile_cons_of_pos (by simpa using hc), ih]
  rw [← String.toList_inj, toList_unmangled, String.toList_append, parameters,
    String.toList_ofList, List.takeWhile_append_of_pos hname, hparameters, List.append_nil]

end Reserved

/-! ### Renaming -/

namespace Renderer

/-- Names that the renderer looks for: the built-in ones, the entry point, and no name. -/
def IsReserved (r : Renderer) (n : String) : Prop :=
  r.knows n = true ∨ n = Reserved.entryPoint ∨ n = ""

/-- A change of names that a hash does not see, and that keeps the reserved names to themselves. -/
structure IsHidden (r : Renderer) (hash : String → UInt64) (f : String → String) : Prop where
  hash_eq : ∀ n, hash (f n) = hash n
  eq_of_isReserved : ∀ n, r.IsReserved n → f n = n
  isReserved_of_isReserved : ∀ n, r.IsReserved (f n) → r.IsReserved n
  open_not_mem : ∀ n, '(' ∉ n.toList → '(' ∉ (f n).toList

/-- To rename what the user has named: variables and parameters, functions up to their encoded
parameters, structs and blocks, and their members but for those of built-in structs. What the
compiler has made up keeps its name. -/
def renamed (r : Renderer) (f : String → String) : Relabelling where
  name n := if n.isInternal then n else { n with text := f n.text }
  functionName g :=
    if g.isInternal then g
    else { g with mangled := f (Reserved.unmangled g.mangled) ++ Reserved.parameters g.mangled }
  typeName := f
  member owner field := if r.knows owner then field else f field
  blockMember := f

variable {r : Renderer} {hash : String → UInt64} {f : String → String}

namespace IsHidden

theorem eq_empty_iff (hf : r.IsHidden hash f) (n : String) : f n = "" ↔ n = "" := by
  constructor
  · intro h
    have hreserved : r.IsReserved n := hf.isReserved_of_isReserved n (.inr (.inr h))
    rwa [hf.eq_of_isReserved n hreserved] at h
  · rintro rfl
    exact hf.eq_of_isReserved "" (.inr (.inr rfl))

theorem eq_entryPoint_iff (hf : r.IsHidden hash f) (n : String) :
    f n = Reserved.entryPoint ↔ n = Reserved.entryPoint := by
  constructor
  · intro h
    have hreserved : r.IsReserved n := hf.isReserved_of_isReserved n (.inr (.inl h))
    rwa [hf.eq_of_isReserved n hreserved] at h
  · rintro rfl
    exact hf.eq_of_isReserved _ (.inr (.inl rfl))

theorem knows_eq (hf : r.IsHidden hash f) (n : String) : r.knows (f n) = r.knows n := by
  rw [Bool.eq_iff_iff]
  constructor
  · intro h
    have hreserved : r.IsReserved n := hf.isReserved_of_isReserved n (.inl h)
    rwa [hf.eq_of_isReserved n hreserved] at h
  · intro h
    rwa [hf.eq_of_isReserved n (.inl h)]

theorem respects (hf : r.IsHidden hash f) (c : Config) : (r.renamed f).Respects c where
  symbol_injective := Function.injective_id
  structId_injective := Function.injective_id
  name_eq_empty_iff n := by
    unfold renamed
    dsimp only
    split_ifs
    · exact Iff.rfl
    · exact hf.eq_empty_iff n.text
  typeName_eq_empty_iff := hf.eq_empty_iff
  precision_eq _ _ := rfl
  invariant_eq _ _ := rfl
  storageKeyword_eq _ := rfl
  acceptsLocation_eq _ := rfl
  acceptsImageFormat_eq _ := rfl

end IsHidden

/-! ### Spellings of renamed tokens -/

section

variable {ρ : String → String}

/-- A name that is hashed. -/
theorem text_spelling_renamed (hf : r.IsHidden hash f) (hρ : ∀ n, ρ (f n) = ρ n) (s : String) :
    (Name.spelling { text := f s }).text ρ = (Name.spelling { text := s }).text ρ := by
  unfold Name.spelling
  by_cases hempty : s = ""
  · rw [if_pos hempty, if_pos ((hf.eq_empty_iff s).mpr hempty)]
  · rw [if_neg hempty, if_neg (mt (hf.eq_empty_iff s).mp hempty)]
    exact hρ s

/-- A name that is looked up among the built-in ones first. -/
theorem text_lookup_renamed (hf : r.IsHidden hash f) (hρ : ∀ n, ρ (f n) = ρ n) (s : String) :
    (if r.knows (f s) then Spelling.fixed (f s) else Name.spelling { text := f s }).text ρ =
      (if r.knows s then Spelling.fixed s else Name.spelling { text := s }).text ρ := by
  rw [hf.knows_eq]
  split_ifs with hknows
  · rw [hf.eq_of_isReserved s (.inl hknows)]
  · exact text_spelling_renamed hf hρ s

theorem text_name_renamed (hf : r.IsHidden hash f) (hρ : ∀ n, ρ (f n) = ρ n) (n : Name) :
    ((r.renamed f).name n).spelling.text ρ = n.spelling.text ρ := by
  obtain ⟨text, isInternal⟩ := n
  cases isInternal with
  | true => rfl
  | false => exact text_spelling_renamed hf hρ text

theorem text_variable_renamed (hf : r.IsHidden hash f) (hρ : ∀ n, ρ (f n) = ρ n) (n : Name) :
    (r.variableSpelling ((r.renamed f).name n)).text ρ = (r.variableSpelling n).text ρ := by
  obtain ⟨text, isInternal⟩ := n
  cases isInternal with
  | true => rfl
  | false => exact text_lookup_renamed hf hρ text

theorem text_type_renamed (hf : r.IsHidden hash f) (hρ : ∀ n, ρ (f n) = ρ n) (name : TypeName) :
    (r.typeSpelling ((r.renamed f).spelling name)).text ρ = (r.typeSpelling name).text ρ := by
  cases name with
  | builtIn text => rfl
  | userDefined text => exact text_lookup_renamed hf hρ text

theorem text_member_renamed (hf : r.IsHidden hash f) (hρ : ∀ n, ρ (f n) = ρ n)
    (owner field : String) :
    (r.memberSpelling (f owner) ((r.renamed f).member owner field)).text ρ =
      (r.memberSpelling owner field).text ρ := by
  unfold memberSpelling renamed
  dsimp only
  rw [hf.knows_eq]
  split_ifs
  · rfl
  · exact text_spelling_renamed hf hρ field

theorem text_function_renamed (hf : r.IsHidden hash f) (hρ : ∀ n, ρ (f n) = ρ n)
    (g : FunctionName) :
    (r.functionSpelling ((r.renamed f).functionName g)).text ρ =
      (r.functionSpelling g).text ρ := by
  obtain ⟨mangled, isInternal⟩ := g
  cases isInternal with
  | true => rfl
  | false =>
    have hopen := hf.open_not_mem _ (Reserved.open_not_mem_unmangled mangled)
    have hunmangled : Reserved.unmangled ((r.renamed f).functionName ⟨mangled, false⟩).mangled =
        f (Reserved.unmangled mangled) := Reserved.unmangled_append_parameters hopen mangled
    unfold functionSpelling
    rw [hunmangled]
    generalize Reserved.unmangled mangled = name
    have hlookup : f name = Reserved.entryPoint ∨ r.knows (f name) = true ↔
        name = Reserved.entryPoint ∨ r.knows name = true := by
      rw [hf.eq_entryPoint_iff, hf.knows_eq]
    dsimp only
    by_cases hfixed : name = Reserved.entryPoint ∨ r.knows name = true
    · have hreserved : r.IsReserved name := hfixed.elim (fun h => .inr (.inl h)) .inl
      rw [if_pos hfixed, if_pos (hlookup.mpr hfixed), hf.eq_of_isReserved name hreserved]
    · rw [if_neg hfixed, if_neg (mt hlookup.mp hfixed)]
      exact text_spelling_renamed hf hρ name

/-- **A renamed token is printed as before.** -/
theorem print_token (hf : r.IsHidden hash f) (hρ : ∀ n, ρ (f n) = ρ n) (t : Token) :
    ((r.renamed f).token t).print r ρ = t.print r ρ := by
  have hspelling : (((r.renamed f).token t).spelling r).text ρ = (t.spelling r).text ρ := by
    cases t with
    | text s => rfl
    | declared name => exact text_variable_renamed hf hρ name
    | parameter name => exact text_name_renamed hf hρ name
    | used name => exact text_variable_renamed hf hρ name
    | typeName name => exact text_type_renamed hf hρ name
    | member owner field => exact text_member_renamed hf hρ owner field
    | blockMember field => exact text_spelling_renamed hf hρ field
    | function name emulated => exact text_function_renamed hf hρ name
    | intrinsic name emulated => rfl
  have hemulated : ((r.renamed f).token t).isEmulated = t.isEmulated := by cases t <;> rfl
  unfold Token.print
  rw [hspelling, hemulated]

end

/-! ### The text of a renamed tree -/

/-- **The names of the user go into the text by their hashes alone.** -/
theorem render_renamed (h : r.config.hash? = some hash) (hf : r.IsHidden hash f) (root : Node) :
    ((r.render ((r.renamed f).node root)).map Rendered.source).toOption =
      ((r.render root).map Rendered.source).toOption := by
  have hρ : ∀ n, r.userSpelling .empty (f n) = r.userSpelling .empty n := by
    intro n
    have hempty : ∀ identifier, NameTable.empty.get? identifier = none := fun _ => rfl
    unfold userSpelling
    rw [h]
    dsimp only
    rw [hempty, hempty, hf.hash_eq]
  have htokens := Relabelling.corresponds_tokens (hf.respects r.config) root
  unfold render
  rw [source_renderFrom, source_renderFrom]
  unfold renderPlain
  revert htokens
  generalize r.tokens root = x
  generalize r.tokens ((r.renamed f).node root) = x'
  rintro (tokens | hcause)
  · have hprint : Token.print r (r.userSpelling .empty) ∘ (r.renamed f).token =
        Token.print r (r.userSpelling .empty) := funext fun t => print_token hf hρ t
    dsimp only
    rw [List.map_map, hprint]
  · rfl

/-- To put each of two names in the place of the other. -/
def exchange (a b n : String) : String := if n = a then b else if n = b then a else n

/-- Two names of the user with the same hash can be exchanged. -/
theorem isHidden_exchange {a b : String} (hhash : hash a = hash b) (ha : ¬ r.IsReserved a)
    (hb : ¬ r.IsReserved b) (hopen : '(' ∉ a.toList ∧ '(' ∉ b.toList) :
    r.IsHidden hash (exchange a b) where
  hash_eq n := by
    unfold exchange
    split_ifs with hna hnb
    · rw [hna, hhash]
    · rw [hnb, hhash]
    · rfl
  eq_of_isReserved n hn := by
    have hna : n ≠ a := fun h => ha (h ▸ hn)
    have hnb : n ≠ b := fun h => hb (h ▸ hn)
    unfold exchange
    rw [if_neg hna, if_neg hnb]
  isReserved_of_isReserved n hn := by
    unfold exchange at hn
    split_ifs at hn
    · exact absurd hn hb
    · exact absurd hn ha
    · exact hn
  open_not_mem n hn := by
    unfold exchange
    split_ifs
    · exact hopen.2
    · exact hopen.1
    · exact hn

/-- Names are hashed to their length, so that names of one length are spelled alike. -/
def byLength (n : String) : UInt64 := .ofNat n.length

/-- `float name(float parameter) { return parameter; }` -/
def identityFunction (name parameter : String) : Node :=
  let float := ShaderType.scalar .float
  let p : Variable := { id := ⟨1⟩, name := { text := parameter }, type := float }
  .function { name := { mangled := name ++ "(f1;" }, returnType := float, parameters := [p] }
    [.branch .return (some (.symbol p))]

def hashingByLength : Renderer := { config := { hash? := some byLength } }

theorem render_renamed_identityFunction :
    hashingByLength.IsHidden byLength (exchange "speed" "color") ∧
      ((hashingByLength.render ((hashingByLength.renamed (exchange "speed" "color")).node
          (identityFunction "speed" "color"))).map Rendered.source).toOption =
        ((hashingByLength.render (identityFunction "speed" "color")).map
          Rendered.source).toOption := by
  have hspeed : ¬ hashingByLength.IsReserved "speed" := by
    have hknows : hashingByLength.knows "speed" = false := by decide
    simp [IsReserved, hknows, Reserved.entryPoint]
  have hcolor : ¬ hashingByLength.IsReserved "color" := by
    have hknows : hashingByLength.knows "color" = false := by decide
    simp [IsReserved, hknows, Reserved.entryPoint]
  have hhidden : hashingByLength.IsHidden byLength (exchange "speed" "color") :=
    isHidden_exchange (by decide) hspeed hcolor (by decide)
  exact ⟨hhidden, render_renamed rfl hhidden _⟩

example : (hashingByLength.renamed (exchange "speed" "color")).node
    (identityFunction "speed" "color") = identityFunction "color" "speed" := by rfl

end Renderer

end ShaderText
