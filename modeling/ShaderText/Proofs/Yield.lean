import ShaderText.Proofs.Literal
import ShaderText.Proofs.Memo
import ShaderText.Proofs.SpelledNames
import ShaderText.Proofs.Word

/-! # Yields: the tokens that fragments succeed with

`Fragment.Runs` is the graph of the trace: the tokens that fragments come to after some structs,
and the structs after them. `Fragment.Yields` forgets the structs and the number of open scopes,
which the text of an expression does not depend on, and so is taken apart along the layout of a
tree by one lemma for each way of putting fragments together. What a node writes into a context is
the text of tokens that its fragments yield (`Node.exists_yields_of_write`). -/

namespace ShaderText

theorem Trace.exists_of_seq {first second : Trace} {declared declared' : List StructId}
    {tokens : List Token} (h : first.seq second declared = .ok (tokens, declared')) :
    ∃ front middle back, first declared = .ok (front, middle) ∧
      second middle = .ok (back, declared') ∧ tokens = front ++ back := by
  unfold seq at h
  cases hfirst : first declared with
  | error cause => rw [hfirst] at h; cases h
  | ok x =>
    rw [hfirst] at h
    dsimp only at h
    cases hsecond : second x.2 with
    | error cause => rw [hsecond] at h; cases h
    | ok y =>
      rw [hsecond] at h
      cases h
      exact ⟨x.1, x.2, y.1, rfl, hsecond, rfl⟩

namespace Fragment

/-- Fragments come to tokens, and to the structs `declared'` that are written after them. -/
def Runs (c : Config) (b : Bindings) (depth : Nat) (fs : List Fragment)
    (declared : List StructId) (tokens : List Token) (declared' : List StructId) : Prop :=
  traceAll c fs b depth declared = .ok (tokens, declared')

/-- The tokens that fragments succeed with. -/
def Yields (c : Config) (b : Bindings) (fs : List Fragment) (tokens : List Token) : Prop :=
  ∃ depth declared declared', Runs c b depth fs declared tokens declared'

variable {c : Config} {b : Bindings} {f : Fragment} {fs gs : List Fragment} {tokens : List Token}
  {depth : Nat} {declared declared' : List StructId}

/-! ### Runs -/

theorem runs_nil (h : Runs c b depth [] declared tokens declared') :
    tokens = [] ∧ declared' = declared := by
  cases h
  exact ⟨rfl, rfl⟩

theorem runs_append (h : Runs c b depth (fs ++ gs) declared tokens declared') :
    ∃ front middle back, Runs c b depth fs declared front middle ∧
      Runs c b depth gs middle back declared' ∧ tokens = front ++ back := by
  rw [Runs, traceAll_append] at h
  exact Trace.exists_of_seq h

theorem runs_cons (h : Runs c b depth (f :: fs) declared tokens declared') :
    ∃ front middle back, Runs c b depth [f] declared front middle ∧
      Runs c b depth fs middle back declared' ∧ tokens = front ++ back :=
  runs_append (show Runs c b depth ([f] ++ fs) declared tokens declared' from h)

theorem runs_singleton :
    Runs c b depth [f] declared tokens declared' ↔
      f.trace c b depth declared = .ok (tokens, declared') := by
  rw [Runs, traceAll_singleton]

theorem runs_of_emit {front : List Token} (hf : f.trace c b depth = .emit front)
    (h : Runs c b depth [f] declared tokens declared') : tokens = front ∧ declared' = declared := by
  rw [runs_singleton, hf] at h
  cases h
  exact ⟨rfl, rfl⟩

/-- Fragments that are written as they stand, before others. -/
theorem runs_emit_append (front : List Token) (hf : traceAll c fs b depth = .emit front)
    (h : Runs c b depth (fs ++ gs) declared tokens declared') :
    ∃ back, Runs c b depth gs declared back declared' ∧ tokens = front ++ back := by
  obtain ⟨first, middle, back, hfirst, hback, rfl⟩ := runs_append h
  rw [Runs, hf] at hfirst
  cases hfirst
  exact ⟨back, hback, rfl⟩

/-- Fragments between two that are written as they stand. -/
theorem runs_enclosed {g : Fragment} {front back : List Token}
    (hf : f.trace c b depth = .emit front) (hg : g.trace c b depth = .emit back)
    (h : Runs c b depth (f :: (fs ++ [g])) declared tokens declared') :
    ∃ inner, Runs c b depth fs declared inner declared' ∧ tokens = front ++ (inner ++ back) := by
  obtain ⟨_, _, others, hfirst, hothers, rfl⟩ := runs_cons h
  obtain ⟨rfl, rfl⟩ := runs_of_emit hf hfirst
  obtain ⟨inner, _, _, hinner, hlast, rfl⟩ := runs_append hothers
  obtain ⟨rfl, rfl⟩ := runs_of_emit hg hlast
  exact ⟨inner, hinner, rfl⟩

/-! ### Yields -/

theorem yields_nil (h : Yields c b [] tokens) : tokens = [] := by
  obtain ⟨depth, declared, declared', h⟩ := h
  exact (runs_nil h).1

theorem yields_append (h : Yields c b (fs ++ gs) tokens) :
    ∃ front back, Yields c b fs front ∧ Yields c b gs back ∧ tokens = front ++ back := by
  obtain ⟨depth, declared, declared', h⟩ := h
  obtain ⟨front, middle, back, hfront, hback, rfl⟩ := runs_append h
  exact ⟨front, back, ⟨depth, declared, middle, hfront⟩, ⟨depth, middle, declared', hback⟩, rfl⟩

theorem yields_cons (h : Yields c b (f :: fs) tokens) :
    ∃ front back, Yields c b [f] front ∧ Yields c b fs back ∧ tokens = front ++ back :=
  yields_append (show Yields c b ([f] ++ fs) tokens from h)

theorem yields_singleton (h : Yields c b [f] tokens) :
    ∃ depth declared declared', f.trace c b depth declared = .ok (tokens, declared') := by
  obtain ⟨depth, declared, declared', h⟩ := h
  exact ⟨depth, declared, declared', runs_singleton.mp h⟩

/-- A fragment that is written as it stands. -/
theorem yields_of_emit {front : List Token} (hf : ∀ depth, f.trace c b depth = .emit front)
    (h : Yields c b [f] tokens) : tokens = front := by
  obtain ⟨depth, declared, declared', h⟩ := yields_singleton h
  rw [hf] at h
  cases h
  rfl

theorem yields_text {s : String} (h : Yields c b [.text s] tokens) : tokens = [.text s] :=
  yields_of_emit (fun _ => rfl) h

theorem yields_text_cons {s : String} (h : Yields c b (.text s :: fs) tokens) :
    ∃ back, Yields c b fs back ∧ tokens = .text s :: back := by
  obtain ⟨front, back, hfront, hback, rfl⟩ := yields_cons h
  exact ⟨back, hback, by rw [yields_text hfront]; rfl⟩

theorem yields_append_text {s : String} (h : Yields c b (fs ++ [.text s]) tokens) :
    ∃ front, Yields c b fs front ∧ tokens = front ++ [.text s] := by
  obtain ⟨front, back, hfront, hback, rfl⟩ := yields_append h
  exact ⟨front, hfront, by rw [yields_text hback]⟩

theorem yields_enclosed {before after : String}
    (h : Yields c b (.text before :: (fs ++ [.text after])) tokens) :
    ∃ inner, Yields c b fs inner ∧ tokens = .text before :: (inner ++ [.text after]) := by
  obtain ⟨back, hback, rfl⟩ := yields_text_cons h
  obtain ⟨inner, hinner, rfl⟩ := yields_append_text hback
  exact ⟨inner, hinner, rfl⟩

theorem yields_enclosed_pair {before between after : String}
    (h : Yields c b (.text before :: (fs ++ .text between :: (gs ++ [.text after]))) tokens) :
    ∃ first second, Yields c b fs first ∧ Yields c b gs second ∧
      tokens = .text before :: (first ++ .text between :: (second ++ [.text after])) := by
  obtain ⟨back, hback, rfl⟩ := yields_text_cons h
  obtain ⟨first, rest, hfirst, hrest, rfl⟩ := yields_append hback
  obtain ⟨second, hsecond, rfl⟩ := yields_enclosed hrest
  exact ⟨first, second, hfirst, hsecond, rfl⟩

theorem not_yields_fail {cause : RenderError} : ¬ Yields c b [.fail cause] tokens := by
  intro h
  obtain ⟨depth, declared, declared', h⟩ := yields_singleton h
  cases h

theorem yields_constant {t : ShaderType} {values : List Scalar}
    (h : Yields c b [.constant t values] tokens) : t.constantTokens c values = .ok tokens := by
  obtain ⟨depth, declared, declared', h⟩ := yields_singleton h
  have htrace : t.constantTrace c values declared = .ok (tokens, declared') := h
  rw [ShaderType.constantTrace_eq] at htrace
  cases ht : t.constantTokens c values with
  | error cause => rw [ht] at htrace; cases htrace
  | ok front => rw [ht] at htrace; cases htrace; rfl

/-- Groups with commas between them yield the tokens of each group in turn. -/
theorem yields_commaSeparated {groups : List (List Fragment)}
    (h : Yields c b (commaSeparated groups) tokens) :
    ∃ parts, List.Forall₂ (Yields c b) groups parts ∧
      tokens = List.intercalate [.text ", "] parts := by
  induction groups generalizing tokens with
  | nil => exact ⟨[], .nil, yields_nil h⟩
  | cons group rest ih =>
    cases rest with
    | nil =>
      rw [commaSeparated_singleton] at h
      exact ⟨[tokens], .cons h .nil, by simp [List.intercalate]⟩
    | cons next rest =>
      rw [commaSeparated_cons group (List.cons_ne_nil next rest)] at h
      obtain ⟨front, others, hfront, hothers, rfl⟩ := yields_append h
      obtain ⟨back, hback, rfl⟩ := yields_text_cons hothers
      obtain ⟨parts, hparts, rfl⟩ := ih hback
      cases hparts with
      | cons hnext hrest =>
        exact ⟨front :: _ :: _, .cons hfront (.cons hnext hrest),
          by simp [List.intercalate_cons_cons]⟩

/-! ### The parts of expressions -/

theorem yields_reference {id : SymbolId} {name : Name}
    (h : Yields c b [.reference id name] tokens) :
    (∃ value, b id = some value ∧ tokens = [.text value.repr]) ∨
      (b id = none ∧ tokens = [.used name]) := by
  obtain ⟨depth, declared, declared', h⟩ := yields_singleton h
  unfold trace at h
  cases hid : b id with
  | some value =>
    rw [hid] at h
    cases h
    exact .inl ⟨value, rfl, rfl⟩
  | none =>
    rw [hid] at h
    cases h
    exact .inr ⟨rfl, rfl⟩

theorem memberName_cases (t : ShaderType) (ofBlock : Bool) (index : Int) :
    (∃ owner field, t.memberName ofBlock index = .member owner field) ∨
    (∃ field, t.memberName ofBlock index = .blockMember field) ∨
    ∃ cause, t.memberName ofBlock index = .fail cause := by
  rcases t.memberName_of_names (p := fun _ => True) (fun _ _ => trivial) ofBlock index with
    ⟨owner, field, hname, -⟩ | ⟨field, hname, -⟩ | hfail
  · exact .inl ⟨owner, field, hname⟩
  · exact .inr (.inl ⟨field, hname⟩)
  · exact .inr (.inr hfail)

theorem yields_memberName {t : ShaderType} {ofBlock : Bool} {index : Int}
    (h : Yields c b [t.memberName ofBlock index] tokens) :
    (∃ owner field, t.memberName ofBlock index = .member owner field ∧
      tokens = [.member owner field]) ∨
    ∃ field, t.memberName ofBlock index = .blockMember field ∧ tokens = [.blockMember field] := by
  rcases memberName_cases t ofBlock index with ⟨owner, field, hname⟩ | ⟨field, hname⟩ |
    ⟨cause, hname⟩
  · rw [hname] at h
    exact .inl ⟨owner, field, hname, yields_of_emit (fun _ => rfl) h⟩
  · rw [hname] at h
    exact .inr ⟨field, hname, yields_of_emit (fun _ => rfl) h⟩
  · rw [hname] at h
    exact absurd h not_yields_fail

theorem yields_memberSelection {ofBlock : Bool} {owner position : Node} {operand : List Fragment}
    (h : Yields c b (memberSelection ofBlock owner position operand) tokens) :
    ∃ index t front back, position.asInt? = some index ∧ owner.type? = some t ∧
      Yields c b operand front ∧ Yields c b [t.memberName ofBlock index] back ∧
      tokens = front ++ .text "." :: back := by
  unfold memberSelection at h
  split at h
  · exact absurd h not_yields_fail
  · exact absurd h not_yields_fail
  · rename_i index t hindex htype
    obtain ⟨front, back, hfront, hback, rfl⟩ := yields_append h
    obtain ⟨name, hname, rfl⟩ := yields_text_cons hback
    exact ⟨index, t, front, name, hindex, htype, hfront, hname, rfl⟩

theorem yields_clampedIndex {indexed : Node} {index : List Fragment}
    (h : Yields c b (clampedIndex c indexed index) tokens) :
    ∃ (t : ShaderType) (front : List Token), Yields c b index front ∧
      (tokens = .text "[int(clamp(float(" ::
          (front ++ [.text ("), 0.0, float(" ++ t.lastIndex.repr ++ ")))]")]) ∨
        tokens = .text ("[" ++ Reserved.clampHelper ++ "(") ::
          (front ++ [.text (", 0, " ++ t.lastIndex.repr ++ ")]")])) := by
  unfold clampedIndex at h
  split at h
  · exact absurd h not_yields_fail
  · rename_i t _
    split at h
    · exact absurd h not_yields_fail
    split at h
    · obtain ⟨back, hback, rfl⟩ := yields_text_cons h
      obtain ⟨front, hfront, rfl⟩ := yields_append_text hback
      exact ⟨t, front, hfront, .inl rfl⟩
    · obtain ⟨back, hback, rfl⟩ := yields_text_cons h
      obtain ⟨front, hfront, rfl⟩ := yields_append_text hback
      exact ⟨t, front, hfront, .inr rfl⟩

theorem yields_swizzleSelection {offsets : List Nat}
    (h : Yields c b (swizzleSelection offsets) tokens) :
    ∃ letters, offsets.mapM componentLetter? = some letters ∧
      tokens = [.text (String.ofList ('.' :: letters))] := by
  unfold swizzleSelection at h
  cases hletters : offsets.mapM componentLetter? with
  | none => rw [hletters] at h; exact absurd h not_yields_fail
  | some letters => rw [hletters] at h; exact ⟨letters, rfl, yields_text h⟩

theorem yields_nameFragment {t : ShaderType} (h : Yields c b [t.nameFragment] tokens) :
    ∃ name, t.spelling = .ok name ∧ tokens = [.typeName name] := by
  unfold ShaderType.nameFragment at h
  cases hname : t.spelling with
  | error cause => rw [hname] at h; exact absurd h not_yields_fail
  | ok name => rw [hname] at h; exact ⟨name, rfl, yields_of_emit (fun _ => rfl) h⟩

theorem yields_callee {callee : Callee} {type : ShaderType} {emulated : Bool}
    (h : Yields c b (callee.fragments type emulated) tokens) :
    (∃ name, callee = .function name ∧ tokens = [.function name emulated]) ∨
    (callee = .constructor ∧ ∃ name, type.spelling = .ok name ∧
      tokens = [.typeName name, .text type.brackets]) ∨
    ∃ op, callee = .intrinsic op ∧ tokens = [.intrinsic op.name emulated] := by
  cases callee with
  | function name => exact .inl ⟨name, rfl, yields_of_emit (fun _ => rfl) h⟩
  | constructor =>
    obtain ⟨front, hfront, rfl⟩ := yields_append_text
      (show Yields c b ([type.nameFragment] ++ [.text type.brackets]) tokens from h)
    obtain ⟨name, hname, rfl⟩ := yields_nameFragment hfront
    exact .inr (.inl ⟨rfl, name, hname, rfl⟩)
  | intrinsic op => exact .inr (.inr ⟨op, rfl, yields_of_emit (fun _ => rfl) h⟩)

end Fragment

/-! ### The text of tokens -/

namespace Renderer

/-- The characters of tokens, where `ρ` spells the identifiers of the user. -/
def charsOf (r : Renderer) (ρ : String → String) (tokens : List Token) : List Char :=
  tokens.flatMap fun t => (t.print r ρ).toList

variable {r : Renderer} {ρ : String → String}

@[simp] theorem charsOf_nil : r.charsOf ρ [] = [] := rfl

@[simp] theorem charsOf_cons (t : Token) (tokens : List Token) :
    r.charsOf ρ (t :: tokens) = (t.print r ρ).toList ++ r.charsOf ρ tokens := rfl

@[simp] theorem charsOf_append (front back : List Token) :
    r.charsOf ρ (front ++ back) = r.charsOf ρ front ++ r.charsOf ρ back := List.flatMap_append

@[simp] theorem print_text (s : String) : (Token.text s).print r ρ = s := rfl

theorem toList_join_print (tokens : List Token) :
    (String.join (tokens.map (Token.print r ρ))).toList = r.charsOf ρ tokens := by
  rw [String.toList_join, List.flatMap_map]
  rfl

end Renderer

/-! ### The tokens of a node -/

/-- Whether the text of a token is the choice of the program or of its emulation, and not fixed by
the language. -/
def Token.isChosen : Token → Bool
  | text _ | typeName (.builtIn _) | intrinsic _ false => false
  | _ => true

/-- The names that the program or an emulation chose are all written with a property. -/
def Renderer.EachName (r : Renderer) (ρ : String → String) (p : String → Prop)
    (tokens : List Token) : Prop :=
  ∀ t ∈ tokens, t.isChosen = true → p (t.print r ρ)

section

variable {r : Renderer} {ρ : String → String} {p : String → Prop}

theorem Renderer.eachName_append {front back : List Token} :
    r.EachName ρ p (front ++ back) ↔ r.EachName ρ p front ∧ r.EachName ρ p back :=
  List.forall_mem_append

theorem Renderer.eachName_cons {t : Token} {tokens : List Token} :
    r.EachName ρ p (t :: tokens) ↔
      (t.isChosen = true → p (t.print r ρ)) ∧ r.EachName ρ p tokens :=
  List.forall_mem_cons

end

/-- The tokens that a node is written as in a context. -/
def Node.tokensIn (r : Renderer) (n : Node) (ctx : Context) : Except ConstantFailure (List Token) :=
  (Fragment.traceAll r.config (n.fragments r.config) ctx.counterValue? ctx.depth ctx.declared).map
    Prod.fst

/-- The tokens of a pass are those that the fragments of the tree come to. -/
theorem Renderer.runs_of_tokens {r : Renderer} {root : Node} {tokens : List Token}
    (h : r.tokens root = .ok tokens) :
    ∃ declared, Fragment.Runs r.config (fun _ => none) 0 (root.fragments r.config) [] tokens
      declared := by
  unfold Renderer.tokens Node.trace at h
  cases ht : Fragment.traceAll r.config (root.fragments r.config) (fun _ => none) 0 [] with
  | error cause => rw [ht] at h; cases h
  | ok x => rw [ht] at h; cases h; exact ⟨x.2, ht⟩

/-- The spellings of the names in a node that the program or an emulation chose. -/
def Node.printedNames (r : Renderer) (n : Node) (ctx : Context) : List String :=
  match n.tokensIn r ctx with
  | .ok tokens => (tokens.filter Token.isChosen).map (Token.print r (r.userSpelling ctx.names))
  | .error _ => []

theorem Node.eachName_of_printedNames {r : Renderer} {n : Node} {ctx : Context}
    {tokens : List Token} {p : String → Prop} (htokens : n.tokensIn r ctx = .ok tokens)
    (h : ∀ name ∈ n.printedNames r ctx, p name) :
    r.EachName (r.userSpelling ctx.names) p tokens := by
  unfold printedNames at h
  rw [htokens] at h
  exact fun t ht hchosen => h _ (List.mem_map_of_mem (List.mem_filter.mpr ⟨ht, hchosen⟩))

/-- **A node is written as the text of its tokens,** which its fragments yield. -/
theorem Node.exists_yields_of_write {r : Renderer} {n : Node} {ctx ctx' : Context}
    (h : n.write r ctx = .ok ctx') :
    ∃ tokens, n.tokensIn r ctx = .ok tokens ∧
      Fragment.Yields r.config ctx.counterValue? (n.fragments r.config) tokens ∧
      ctx'.source.text.toList =
        ctx.source.text.toList ++ r.charsOf (r.userSpelling ctx.names) tokens := by
  rw [write, Fragment.writeAll_eq_perform] at h
  unfold Renderer.perform at h
  cases ht : Fragment.traceAll r.config (n.fragments r.config) ctx.counterValue? ctx.depth
      ctx.declared with
  | error cause => rw [ht] at h; cases h
  | ok x =>
    rw [ht] at h
    cases h
    refine ⟨x.1, by unfold tokensIn; rw [ht]; rfl, ⟨_, _, _, ht⟩, ?_⟩
    simp only [Context.writeName, Source.text_write, String.toList_append, r.spellAll_fst,
      Renderer.toList_join_print]

end ShaderText
