import ShaderText.Proofs.NamedTokens

/-! # Agreement: one entity, one spelling

The names in the text of a pass are the mentions of its tree (`Renderer.namedTokens_tokens`).
`Renderer.printed` pairs each token of the pass with the text that the naming rules give it at its
turn, with the table as it is by then.

* `print_mention`: but for parameters, the text at a mention depends on the entity alone.
* `parameter_print_eq_iff`: a parameter is not looked up among the built-in names and every other
  mention of a variable is. The two are spelled apart exactly if the parameter has a built-in name
  that the table spells otherwise (`Renderer.SplitsName`).
* **`printed_eq_iff`: two mentions of an entity in one tree have the same text**, the two of a
  parameter and of another mention of a variable that is split excepted. -/

namespace ShaderText

namespace Renderer

/-- The text of an entity, where `ρ` spells the identifiers of the user; a parameter apart. -/
def printEntity (r : Renderer) (ρ : String → String) : Entity → String
  | .variable name => (r.variableSpelling name).text ρ
  | .type name => (r.typeSpelling name).text ρ
  | .member owner field => (r.memberSpelling owner field).text ρ
  | .blockMember field => (Name.spelling { text := field }).text ρ
  | .function name => (r.functionSpelling name).text ρ

/-- A variable is split if it has a built-in name that the table spells otherwise. -/
def SplitsName (r : Renderer) (names : NameTable) : Entity → Prop
  | .variable name =>
    name.isInternal = false ∧ name.text ≠ "" ∧ r.knows name.text = true ∧
      r.userSpelling names name.text ≠ name.text
  | _ => False

/-- The tokens of a pass, each with the text it is given at its turn. -/
def printed (r : Renderer) : List Token → NameTable → List (Token × String)
  | [], _ => []
  | t :: rest, names => (t, (t.spell r names).1) :: r.printed rest (t.spell r names).2

/-- The turn of a token does not matter. -/
theorem printed_eq_map (r : Renderer) (tokens : List Token) (names : NameTable) :
    r.printed tokens names = tokens.map fun t => (t, t.print r (r.userSpelling names)) := by
  induction tokens generalizing names with
  | nil => rfl
  | cons t rest ih => rw [printed, ih, t.userSpelling_spell, t.spell_fst, List.map_cons]

theorem join_printed (r : Renderer) (tokens : List Token) (names : NameTable) :
    String.join ((r.printed tokens names).map Prod.snd) = (r.spellAll tokens names).1 := by
  rw [printed_eq_map, spellAll_fst, List.map_map]
  rfl

/-! ### The text at one mention -/

/-- Where an entity is no parameter, its text is that of the entity. -/
theorem print_mention {r : Renderer} {ρ : String → String} {m : Mention}
    (hm : m.isParameter = false) : m.token.print r ρ = r.printEntity ρ m.entity := by
  cases m with
  | parameter name => cases hm
  | _ => rfl

/-- **Where a parameter is spelled like its uses.** -/
theorem parameter_print_eq_iff (r : Renderer) (names : NameTable) (name : Name) :
    (Token.parameter name).print r (r.userSpelling names) =
        r.printEntity (r.userSpelling names) (.variable name) ↔
      ¬ r.SplitsName names (.variable name) := by
  have hprint : (Token.parameter name).print r (r.userSpelling names) =
      name.spelling.text (r.userSpelling names) := rfl
  rw [hprint, printEntity, SplitsName, variableSpelling]
  by_cases hb : (!name.isInternal && r.knows name.text) = true
  · obtain ⟨hi, hk⟩ : name.isInternal = false ∧ r.knows name.text = true := by simpa using hb
    rw [if_pos hb, Name.spelling]
    by_cases hn : name.text = ""
    · simp [hn, Spelling.text]
    · simp [hn, hi, hk, Spelling.text]
  · rw [if_neg hb]
    refine iff_of_true rfl fun h => hb ?_
    simp [h.1, h.2.2.1]

/-! ### The mentions of a tree -/

/-- The names that a pass prints are the mentions of its tree, with the text of their tokens. -/
theorem filter_printed {r : Renderer} {seed : NameTable} {root : Node} {tokens : List Token}
    (h : r.tokens root = .ok tokens) :
    (r.printed tokens seed).filter (fun p => p.1.isNamed) =
      root.mentions.map fun m => (m.token, m.token.print r (r.userSpelling seed)) := by
  have hnamed : tokens.filter Token.isNamed = root.mentions.map Mention.token :=
    namedTokens_tokens h
  rw [printed_eq_map, List.filter_map]
  show (tokens.filter Token.isNamed).map _ = _
  rw [hnamed, List.map_map]
  rfl

/-- Two mentions of one entity have the same text, unless one of them is a parameter, the other is
not, and the variable is split. -/
theorem print_mention_eq_iff {r : Renderer} {seed : NameTable} {m n : Mention}
    (he : m.entity = n.entity) :
    m.token.print r (r.userSpelling seed) = n.token.print r (r.userSpelling seed) ↔
      m.isParameter = n.isParameter ∨ ¬ r.SplitsName seed m.entity := by
  cases hm : m.isParameter with
  | false =>
    cases hn : n.isParameter with
    | false => simp [print_mention hm, print_mention hn, he]
    | true =>
      obtain ⟨name, rfl⟩ := Mention.eq_parameter hn
      rw [print_mention hm, he, eq_comm]
      exact (parameter_print_eq_iff r seed name).trans (by simp [Mention.entity])
  | true =>
    obtain ⟨name, rfl⟩ := Mention.eq_parameter hm
    cases hn : n.isParameter with
    | false =>
      rw [print_mention hn, ← he]
      exact (parameter_print_eq_iff r seed name).trans (by simp [Mention.entity])
    | true =>
      obtain ⟨other, rfl⟩ := Mention.eq_parameter hn
      obtain rfl : name = other := Entity.variable.inj he
      simp

/-- **All printed mentions of one entity agree, but for parameters that are split.** The names that
a pass prints are the mentions of its tree, each at its place: where the tree has a declarator, a
parameter, the header of unrolled copies, a reference, the body of a type or its name, a
constructor, a constant, a member, an access, the head of a function or a call, its text has the
token of that mention. The texts of all tokens make up the source. Two mentions of one entity have
the same text, whatever is written between them, unless one of them is a parameter, the other is
not, and the variable is split. -/
theorem printed_eq_iff {r : Renderer} {seed : NameTable} {root : Node} {out : Rendered}
    (h : r.renderFrom seed root = .ok out) :
    ∃ (tokens : List Token) (named : List (Mention × String)),
      r.tokens root = .ok tokens ∧
      out.source = String.join ((r.printed tokens seed).map Prod.snd) ∧
      named.map Prod.fst = root.mentions ∧
      (r.printed tokens seed).filter (fun p => p.1.isNamed) =
        named.map (fun p => (p.1.token, p.2)) ∧
      ∀ a ∈ named, ∀ b ∈ named, a.1.entity = b.1.entity →
        (a.2 = b.2 ↔ a.1.isParameter = b.1.isParameter ∨ ¬ r.SplitsName seed a.1.entity) := by
  obtain ⟨tokens, htokens, hsource, -⟩ := tokens_of_renderFrom h
  refine ⟨tokens, root.mentions.map fun m => (m, m.token.print r (r.userSpelling seed)), htokens,
    hsource.trans (r.join_printed tokens seed).symm, ?_, ?_, ?_⟩
  · rw [List.map_map]
    exact List.map_id root.mentions
  · rw [filter_printed htokens, List.map_map]
    rfl
  · intro a ha b hb he
    obtain ⟨m, -, rfl⟩ := List.mem_map.mp ha
    obtain ⟨n, -, rfl⟩ := List.mem_map.mp hb
    exact print_mention_eq_iff he

/-- A renderer that hashes a name to its length. -/
def hashesLength : Renderer := { config := { hash? := some fun s => s.utf8ByteSize.toUInt64 } }

def fragCoord : Name := { text := "gl_FragCoord" }

/-- `float f(float gl_FragCoord) { return gl_FragCoord; }` -/
def returnsFragCoord : Node :=
  let v : Variable := { id := ⟨1⟩, name := fragCoord, type := .scalar .float }
  .function { name := { mangled := "f(f1;" }, returnType := v.type, parameters := [v] }
    [.branch .return (some (.symbol v))]

/-- A parameter with a built-in name is split: it is hashed, and its use is not. -/
theorem parameter_ne_use_fragCoord :
    ∃ (out : Rendered) (named : List (Mention × String)),
      hashesLength.renderFrom .empty returnsFragCoord = .ok out ∧
      out.source = "float webgl_1(float webgl_c)\x7b\nreturn gl_FragCoord;\n\x7d\n" ∧
      named.map Prod.fst = returnsFragCoord.mentions ∧
      (.parameter fragCoord, "webgl_c") ∈ named ∧ (.reference fragCoord, "gl_FragCoord") ∈ named ∧
      hashesLength.SplitsName .empty (.variable fragCoord) := by
  obtain ⟨out, hout⟩ : ∃ out, hashesLength.renderFrom .empty returnsFragCoord = .ok out := ⟨_, rfl⟩
  obtain ⟨tokens, named, htokens, -, hmentions, hprinted, hagree⟩ := printed_eq_iff hout
  have hnames : returnsFragCoord.mentions = [.byName (.builtIn "float"),
      .functionHead { mangled := "f(f1;" }, .byName (.builtIn "float"), .parameter fragCoord,
      .reference fragCoord] := by decide +kernel
  have htexts : named.map Prod.snd = ["float", "webgl_1", "float", "webgl_c", "gl_FragCoord"] := by
    have hsnd := congrArg (List.map Prod.snd) hprinted
    rw [List.map_map] at hsnd
    refine hsnd.symm.trans ?_
    cases htokens
    decide +kernel
  have hnamed := List.zip_of_prod (hmentions.trans hnames) htexts
  have hparameter : (.parameter fragCoord, "webgl_c") ∈ named := by simp [hnamed]
  have huse : (.reference fragCoord, "gl_FragCoord") ∈ named := by simp [hnamed]
  refine ⟨out, named, hout, ?_, hmentions, hparameter, huse, ?_⟩
  · cases hout
    decide +kernel
  · by_contra hsplit
    have htext : "webgl_c" = "gl_FragCoord" :=
      (hagree _ hparameter _ huse rfl).mpr (.inr hsplit)
    exact absurd htext (by decide)

end Renderer

end ShaderText
