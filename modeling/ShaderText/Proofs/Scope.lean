import ShaderText.Proofs.Braces
import ShaderText.Proofs.TripCount

/-! # Where a struct is in scope

The name of a struct is in scope after the body of the struct, as long as the braces around the body
are open (`InScope`). A struct that is declared in a block and used only there and after that
(`Outline.Declares`) is written as often as unrolled loops copy the block, but with its body the
first time only. **`Renderer.inScope_iff_of_renderFrom`: the struct is in scope wherever it is
written by name if its block is written once at most, and is not if the block is written more often:
the second copy is outside of the braces of the first.** -/

namespace ShaderText

/-- The token that a struct is written by name as. -/
def StructDef.nameToken (d : StructDef) : Token := .typeName (.userDefined d.name)

@[simp] theorem StructDef.nameToken_ne_text (d : StructDef) (s : String) :
    d.nameToken ≠ .text s := Token.noConfusion

/-- Wherever tokens have the name of the struct, it is that of a body, or the body is before it and
none of the braces around the body is closed in between. -/
def InScope (c : Config) (d : StructDef) (tokens : List Token) : Prop :=
  ∀ front back, tokens = front ++ d.nameToken :: back →
    front.getLast? = some (.text "struct ") ∨
      ∃ before between, front = before ++ (d.bodyTokens c ++ between) ∧ KeepOpen between

/-! ### Declarations of a struct -/

/-- The type of a use. -/
def TypeUse.type : TypeUse → ShaderType
  | declared t | built t => t

/-- A use of a type that is not made of the struct, nor of another one of its name. -/
def TypeUse.Avoids (d : StructDef) (u : TypeUse) : Prop :=
  (∀ part : ShaderType, part.PartOf u.type → part.spelling ≠ .ok (.userDefined d.name)) ∧
    ∀ e, u.type.structDef = some e → e.id ≠ d.id

namespace Outline

/-- Items with no use of the struct. -/
def Avoid (d : StructDef) (items : List Outline) : Prop := ∀ u ∈ usesIn items, u.Avoids d

/-- The first use of the struct is the type of a declaration, which stands in no block. -/
inductive Begins (d : StructDef) : List Outline → Prop
  | here {t : ShaderType} {later : List Outline} (hbasic : t.basic = .struct)
    (hd : t.structDef = some d) : Begins d (.use (.declared t) :: later)
  | skip {item : Outline} {rest : List Outline} (hitem : Avoid d [item]) (hrest : Begins d rest) :
    Begins d (item :: rest)

/-- The struct is declared in a block that the text has `k` times, and is used only in that block
and only from there on. -/
inductive Declares (d : StructDef) : List Outline → Nat → Prop
  | here {items : List Outline} (hitems : Begins d items) : Declares d items 1
  | block {items rest : List Outline} {k : Nat} (hitems : Declares d items k)
    (hrest : Avoid d rest) : Declares d (.block items :: rest) k
  | copies {count : Nat} {items rest : List Outline} {k : Nat} (hitems : Declares d items k)
    (hrest : Avoid d rest) : Declares d (.copies count items :: rest) (count * k)
  | skip {item : Outline} {rest : List Outline} {k : Nat} (hitem : Avoid d [item])
    (hrest : Declares d rest k) : Declares d (item :: rest) k

variable {d : StructDef} {items others : List Outline} {k : Nat}

@[simp] theorem avoid_nil : Avoid d [] := by simp [Avoid, usesIn]

theorem avoid_append : Avoid d (items ++ others) ↔ Avoid d items ∧ Avoid d others := by
  unfold Avoid
  rw [usesIn_append]
  exact List.forall_mem_append

theorem avoid_cons {item : Outline} : Avoid d (item :: others) ↔ Avoid d [item] ∧ Avoid d others :=
  show Avoid d ([item] ++ others) ↔ _ from avoid_append

theorem begins_append (h : Begins d (items ++ others)) :
    Begins d items ∨ Avoid d items ∧ Begins d others := by
  induction items with
  | nil => exact .inr ⟨avoid_nil, h⟩
  | cons item rest ih =>
    cases h with
    | here hbasic hd => exact .inl (.here hbasic hd)
    | skip hitem hrest =>
      rcases ih hrest with h | ⟨hrest', h⟩
      · exact .inl (.skip hitem h)
      · exact .inr ⟨avoid_cons.mpr ⟨hitem, hrest'⟩, h⟩

theorem declares_append (h : Declares d (items ++ others) k) :
    Begins d items ∧ k = 1 ∨ Declares d items k ∧ Avoid d others ∨
      Avoid d items ∧ Declares d others k := by
  induction items generalizing k with
  | nil => exact .inr (.inr ⟨avoid_nil, h⟩)
  | cons item rest ih =>
    cases h with
    | here hitems =>
      have hbegins : Begins d ((item :: rest) ++ others) := hitems
      rcases begins_append hbegins with h | ⟨hfront, h⟩
      · exact .inl ⟨h, rfl⟩
      · exact .inr (.inr ⟨hfront, .here h⟩)
    | block hitems hrest =>
      obtain ⟨hrest, hothers⟩ := avoid_append.mp hrest
      exact .inr (.inl ⟨.block hitems hrest, hothers⟩)
    | copies hitems hrest =>
      obtain ⟨hrest, hothers⟩ := avoid_append.mp hrest
      exact .inr (.inl ⟨.copies hitems hrest, hothers⟩)
    | skip hitem hrest =>
      rcases ih hrest with ⟨h, rfl⟩ | ⟨h, hothers⟩ | ⟨hrest', h⟩
      · exact .inl ⟨.skip hitem h, rfl⟩
      · exact .inr (.inl ⟨.skip hitem h, hothers⟩)
      · exact .inr (.inr ⟨avoid_cons.mpr ⟨hitem, hrest'⟩, h⟩)

theorem not_declares_nil : ¬ Declares d [] k := by
  intro h
  cases h with
  | here h => cases h

/-- The struct is declared in a block, in copies of one, or by a use itself. -/
theorem declares_singleton {item : Outline} (h : Declares d [item] k) :
    (∃ t : ShaderType, item = .use (.declared t) ∧ Begins d [item] ∧ k = 1) ∨
      (∃ items, item = .block items ∧ Declares d items k) ∨
      ∃ count items j, item = .copies count items ∧ Declares d items j ∧ k = count * j := by
  cases h with
  | here h =>
    cases h with
    | here hbasic hd => exact .inl ⟨_, rfl, .here hbasic hd, rfl⟩
    | skip _ h => cases h
  | block h => exact .inr (.inl ⟨_, rfl, h⟩)
  | copies h => exact .inr (.inr ⟨_, _, _, rfl, h, rfl⟩)
  | skip _ h => exact absurd h not_declares_nil

end Outline

/-! ### Texts without the name of a struct -/

/-- Tokens without the name of the struct, after which no struct begins. -/
def Lacks (d : StructDef) (tokens : List Token) : Prop := d.nameToken ∉ tokens ∧ IsEnded tokens

section

variable {c : Config} {d : StructDef} {front back tokens : List Token}
  {declared middle declared' : List StructId}

theorem Lacks.nil : Lacks d [] := ⟨List.not_mem_nil, isEnded_of_not_mem List.not_mem_nil⟩

theorem Lacks.of_text {s : String} (hs : s ≠ "struct ") : Lacks d [.text s] :=
  ⟨by simp, isEnded_concat [] hs⟩

theorem Lacks.append (h : Lacks d front) (h' : Lacks d back) : Lacks d (front ++ back) :=
  ⟨List.not_mem_append h.1 h'.1, h.2.append h'.2⟩

theorem Lacks.of_plain (h : ∀ t ∈ tokens, t.IsPlain) : Lacks d tokens :=
  ⟨fun hmem => h _ hmem, isEnded_of_not_mem fun hmem => (h _ hmem).ne_struct rfl⟩

theorem not_mem_referenceTokens {t : ShaderType} (h : t.spelling ≠ .ok (.userDefined d.name)) :
    d.nameToken ∉ t.referenceTokens c := by
  intro hmem
  rcases mem_referenceTokens hmem with hplain | ⟨_, hname, heq⟩
  · exact hplain
  · cases heq
    exact h hname

theorem not_mem_fields (name : Field → Token) (hname : ∀ f, (name f).IsPlain)
    {fields : List Field} (h : ∀ f ∈ fields, f.type.spelling ≠ .ok (.userDefined d.name)) :
    d.nameToken ∉ fields.flatMap fun f => f.tokens c (name f) := by
  intro hmem
  rcases mem_fields name hname hmem with hplain | ⟨f, hf, _, hname, heq⟩
  · exact hplain
  · cases heq
    exact h f hf hname

/-- The members of the struct do not have its name. -/
theorem not_mem_drop (h : ∀ f ∈ d.fields, f.type.spelling ≠ .ok (.userDefined d.name)) :
    d.nameToken ∉ (d.bodyTokens c).drop 2 := by
  have hfields := not_mem_fields (c := c) (fun f => .member d.name f.name)
    (fun _ => trivial) h
  simpa [StructDef.bodyTokens] using hfields

/-- A type without the struct is written without its name, and is not that of the struct. -/
theorem lacks_of_written {t : ShaderType} (ht : TypeUse.Avoids d (.declared t))
    (h : t.Written c declared tokens declared') :
    d.nameToken ∉ tokens ∧ (d.id ∈ declared' ↔ d.id ∈ declared) := by
  obtain ⟨hparts, hids⟩ := ht
  have hself := hparts t (.refl t)
  have hname : ∀ {name : String}, t.spelling = .ok (.userDefined name) →
      d.nameToken ≠ .typeName (.userDefined name) := by
    intro name hspelling heq
    cases heq
    exact hself hspelling
  cases h with
  | plain | later => exact ⟨not_mem_referenceTokens hself, Iff.rfl⟩
  | block e hbasic he hmembers =>
    have hfields := not_mem_fields (c := c) (d := d) (fun f => .blockMember f.name)
      (fun _ => trivial) fun f hf => hparts _ (.blockMember he hf (.refl _))
    have hspelling : t.spelling = .ok (.userDefined e.name) := by
      simp [ShaderType.spelling, hbasic, he]
    refine ⟨?_, Iff.rfl⟩
    simpa [BlockDef.bodyTokens, hname hspelling] using hfields
  | first e hbasic he hfirst hmembers =>
    have hfields := not_mem_fields (c := c) (d := d) (fun f => .member e.name f.name)
      (fun _ => trivial) fun f hf => hparts _ (.structMember he hf (.refl _))
    have hspelling : t.spelling = .ok (.userDefined e.name) := by
      simp [ShaderType.spelling, hbasic, he]
    refine ⟨?_, ?_⟩
    · simpa [StructDef.bodyTokens, hname hspelling] using hfields
    · unfold withBody
      split_ifs
      · exact Iff.rfl
      · simp [(hids e he).symm]

theorem lacks_isInvariant : IsInvariant c fun us declared tokens declared' =>
    (∀ u ∈ us, u.Avoids d) →
      d.nameToken ∉ tokens ∧ (d.id ∈ declared' ↔ d.id ∈ declared) where
  append h h' hus := by
    obtain ⟨hfront, hback⟩ := List.forall_mem_append.mp hus
    exact ⟨List.not_mem_append (h hfront).1 (h' hback).1, (h' hback).2.trans (h hfront).2⟩
  plain h _ := ⟨(Lacks.of_plain h).1, Iff.rfl⟩
  built h hus := by
    refine ⟨fun hmem => ?_, Iff.rfl⟩
    rcases h _ hmem with hplain | ⟨part, name, hpart, hname, heq⟩
    · exact hplain
    · cases heq
      exact (List.forall_mem_singleton.mp hus).1 part hpart hname
  written h hus := lacks_of_written (List.forall_mem_singleton.mp hus) h
  enclosed {opening us declared tokens declared'} _ h hus := by
    refine ⟨?_, (h hus).2⟩
    simpa using (h hus).1

/-- Text with an outline that avoids the struct. -/
theorem Fragment.Outlined.lacks {fs : List Fragment} {items : List Outline}
    (h : Outlined c fs items) (hitems : Outline.Avoid d items) {b : Bindings} {depth : Nat}
    (hr : Runs c b depth fs declared tokens declared') :
    Lacks d tokens ∧ (d.id ∈ declared' ↔ d.id ∈ declared) := by
  obtain ⟨hname, hdeclared⟩ := h.invariant lacks_isInvariant hr hitems
  exact ⟨⟨hname, (h.whole hr).ended⟩, hdeclared⟩

/-! ### Texts that declare a struct -/

/-- The body of the struct stands in the text, and no name of it is before that or in `back`. -/
def Bodied (c : Config) (d : StructDef) (back tokens : List Token) : Prop :=
  ∃ front inside, tokens = front ++ (d.bodyTokens c ++ (inside ++ back)) ∧
    d.nameToken ∉ front ∧ d.nameToken ∉ back ∧ Nested inside

/-- The first name of the struct stands by itself. -/
def Named (d : StructDef) (tokens : List Token) : Prop :=
  ∃ front back, tokens = front ++ d.nameToken :: back ∧ Lacks d front

/-- A name of the struct stands by itself, and between it and the other names before it a brace is
closed that is not opened there. -/
def Torn (d : StructDef) (tokens : List Token) : Prop :=
  ∃ front inside between back,
    tokens = front ++ (inside ++ (between ++ d.nameToken :: back)) ∧ d.nameToken ∉ front ∧
      Nested inside ∧ Lacks d between ∧ ¬ KeepOpen between

/-- The text of a struct whose block is written `k` times. -/
structure Placed (c : Config) (d : StructDef) (k : Nat) (declared : List StructId)
    (tokens : List Token) (declared' : List StructId) : Prop where
  none : k = 0 → d.nameToken ∉ tokens ∧ (d.id ∈ declared' ↔ d.id ∈ declared)
  once : k = 1 → d.id ∉ declared → (∃ back, Bodied c d back tokens) ∧ d.id ∈ declared'
  often : 2 ≤ k → d.id ∉ declared → Torn d tokens
  again : k ≠ 0 → d.id ∈ declared → Named d tokens

/-- The text of a struct that is declared outside of blocks. -/
structure Begun (c : Config) (d : StructDef) (declared : List StructId) (tokens : List Token)
    (declared' : List StructId) : Prop where
  fresh : d.id ∉ declared → Bodied c d [] tokens ∧ d.id ∈ declared'
  again : d.id ∈ declared → Named d tokens

theorem Begun.placed (h : Begun c d declared tokens declared') :
    Placed c d 1 declared tokens declared' where
  none := nofun
  once _ hid := ⟨⟨[], (h.fresh hid).1⟩, (h.fresh hid).2⟩
  often hk := absurd hk (by decide)
  again _ := h.again

/-! ### Text before and after -/

theorem Bodied.enclosed {between : List Token} (h : Bodied c d between tokens)
    (hfront : d.nameToken ∉ front) (back : List Token) (hback : d.nameToken ∉ back) :
    Bodied c d (between ++ back) (front ++ (tokens ++ back)) := by
  obtain ⟨before, inside, rfl, hbefore, hbetween, hinside⟩ := h
  exact ⟨front ++ before, inside, by simp, List.not_mem_append hfront hbefore,
    List.not_mem_append hbetween hback, hinside⟩

theorem Named.enclosed (h : Named d tokens) (hfront : Lacks d front) (back : List Token) :
    Named d (front ++ (tokens ++ back)) := by
  obtain ⟨before, after, rfl, hbefore⟩ := h
  exact ⟨front ++ before, after ++ back, by simp, hfront.append hbefore⟩

theorem Torn.enclosed (h : Torn d tokens) (hfront : d.nameToken ∉ front) (back : List Token) :
    Torn d (front ++ (tokens ++ back)) := by
  obtain ⟨before, inside, between, after, rfl, hbefore, hinside, hbetween, hopen⟩ := h
  exact ⟨front ++ before, inside, between, after ++ back, by simp,
    List.not_mem_append hfront hbefore, hinside, hbetween, hopen⟩

/-- Text without the struct around text that declares it. -/
theorem Placed.enclosed {k : Nat} {before after : List StructId}
    (h : Placed c d k before tokens after) (hfront : Lacks d front)
    (hbefore : d.id ∈ before ↔ d.id ∈ declared)
    (back : List Token) (hback : d.nameToken ∉ back) (hafter : d.id ∈ declared' ↔ d.id ∈ after) :
    Placed c d k declared (front ++ (tokens ++ back)) declared' where
  none hk := by
    obtain ⟨htokens, hsame⟩ := h.none hk
    exact ⟨List.not_mem_append hfront.1 (List.not_mem_append htokens hback),
      hafter.trans (hsame.trans hbefore)⟩
  once hk hid := by
    obtain ⟨⟨between, hbody⟩, hid'⟩ := h.once hk (mt hbefore.mp hid)
    exact ⟨⟨_, hbody.enclosed hfront.1 back hback⟩, hafter.mpr hid'⟩
  often hk hid := (h.often hk (mt hbefore.mp hid)).enclosed hfront.1 back
  again hk hid := (h.again hk (hbefore.mpr hid)).enclosed hfront back

/-! ### The declaration -/

theorem Begun.append (h : Begun c d declared front middle) (h' : Whole middle back declared') :
    Begun c d declared (front ++ back) declared' where
  fresh hid := by
    obtain ⟨⟨before, inside, rfl, hbefore, -, hinside⟩, hmiddle⟩ := h.fresh hid
    exact ⟨⟨before, inside ++ back, by simp, hbefore, by simp, hinside.append h'.nested⟩,
      h'.subset hmiddle⟩
  again hid := by simpa using (h.again hid).enclosed .nil back

theorem Begun.after (h : Begun c d middle tokens declared') (hfront : Lacks d front)
    (hmiddle : d.id ∈ middle ↔ d.id ∈ declared) :
    Begun c d declared (front ++ tokens) declared' where
  fresh hid := by
    obtain ⟨hbody, hdeclared⟩ := h.fresh (mt hmiddle.mp hid)
    exact ⟨by simpa using hbody.enclosed hfront.1 [] (by simp), hdeclared⟩
  again hid := by simpa using (h.again (hmiddle.mpr hid)).enclosed hfront []

theorem exists_referenceTokens {t : ShaderType} (hbasic : t.basic = .struct)
    (hd : t.structDef = some d) :
    ∃ front, t.referenceTokens c = front ++ [d.nameToken] ∧ ∀ token ∈ front, token.IsPlain := by
  have hname : t.spelling = .ok (.userDefined d.name) := by simp [ShaderType.spelling, hbasic, hd]
  unfold ShaderType.referenceTokens
  rw [hname]
  refine ⟨_, rfl, ?_⟩
  split_ifs
  · exact isPlainText_precision t.precision
  · simp

/-- The type of a declaration is written with its body, if that is not written yet. -/
theorem begun_of_written {t : ShaderType} (hname : d.name ≠ "") (hbasic : t.basic = .struct)
    (hd : t.structDef = some d) (h : t.Written c declared tokens declared') :
    Begun c d declared tokens declared' := by
  cases h with
  | plain hstruct => exact absurd hbasic hstruct
  | block e hblock => rw [hbasic] at hblock; cases hblock
  | first e _ he hfirst =>
    obtain rfl : d = e := Option.some.inj (hd.symm.trans he)
    refine ⟨fun _ => ⟨⟨[], [], by simp, by simp, by simp, .nil⟩, by simp [withBody, hname]⟩,
      fun hid => ?_⟩
    simp [isWritten, hname, hid] at hfirst
  | later e _ he hlater =>
    obtain rfl : d = e := Option.some.inj (hd.symm.trans he)
    have hid : d.id ∈ declared := by simpa [isWritten, hname] using hlater
    obtain ⟨front, htokens, hplain⟩ := exists_referenceTokens (c := c) hbasic hd
    exact ⟨fun hnot => absurd hid hnot, fun _ => ⟨front, [], htokens, .of_plain hplain⟩⟩

/-- **Text that begins with the declaration of the struct has its body or its name.** -/
theorem Fragment.Outlined.begun {fs : List Fragment} {items : List Outline}
    (h : Outlined c fs items) (hname : d.name ≠ "") (hitems : Outline.Begins d items)
    {b : Bindings} {depth : Nat} (hr : Runs c b depth fs declared tokens declared') :
    Begun c d declared tokens declared' := by
  induction h generalizing b depth declared tokens declared' with
  | nil | plain | absent => cases hitems
  | fail => cases runs_singleton.mp hr
  | append hfs hgs ih ih' =>
    obtain ⟨front, middle, back, hfront, hback, rfl⟩ := runs_append hr
    rcases Outline.begins_append hitems with hitems | ⟨havoid, hitems⟩
    · exact (ih hitems hfront).append (hgs.whole hback)
    · obtain ⟨hlacks, hmiddle⟩ := hfs.lacks havoid hfront
      exact (ih' hitems hback).after hlacks hmiddle
  | occurrence t =>
    obtain ⟨front, back, rfl, hplain, hwritten⟩ := ShaderType.runs_occurrence hr
    cases hitems with
    | here hbasic hd =>
      exact (begun_of_written hname hbasic hd hwritten).after (.of_plain hplain) Iff.rfl
    | skip _ h => cases h
  | scope _ ih => exact ih hitems (runs_singleton.mp hr)
  | name | constant | block | copies =>
    cases hitems with
    | skip _ h => cases h

/-! ### Copies -/

/-- A block with the body of the struct, and a name of the struct after the block. -/
theorem Bodied.torn {inner between : List Token} (h : Bodied c d between inner)
    (hinner : Nested inner) (hback : Named d back) :
    Torn d (.text "\x7b\n" :: (inner ++ .text "\x7d\n" :: back)) := by
  obtain ⟨front, inside, rfl, hfront, hbetween, hinside⟩ := h
  obtain ⟨before, after, rfl, hbefore⟩ := hback
  have hclosing : Lacks d (between ++ [.text "\x7d\n"]) :=
    ⟨List.not_mem_append hbetween (Lacks.of_text (by decide)).1, isEnded_concat _ (by decide)⟩
  refine ⟨.text "\x7b\n" :: front, d.bodyTokens c ++ inside, between ++ [.text "\x7d\n"] ++ before,
    after, by simp, by simpa using hfront, (d.nested_bodyTokens c).append hinside,
    hclosing.append hbefore, fun hopen => ?_⟩
  have hle : closed (between ++ [.text "\x7d\n"]) ≤ opened (between ++ [.text "\x7d\n"]) :=
    hopen _ (List.prefix_append _ _)
  have hrest : opened between ≤ closed between :=
    Nested.opened_le_closed (front ++ (d.bodyTokens c ++ inside)) (by simpa using hinner)
  have hbrace : closed [.text "\x7d\n"] = 1 ∧ opened [.text "\x7d\n"] = 0 := ⟨rfl, rfl⟩
  rw [closed_append, opened_append] at hle
  omega

/-- **Copies of a block.** The struct of a block that is written `k` times. -/
theorem placed_each {copy : Int → Trace} {k : Nat}
    (hcopy : ∀ value declared tokens declared', copy value declared = .ok (tokens, declared') →
      ∃ inner, tokens = .text "\x7b\n" :: (inner ++ [.text "\x7d\n"]) ∧ Nested inner ∧
        Placed c d k declared inner declared') (values : List Int)
    (h : Trace.each copy values declared = .ok (tokens, declared')) :
    Placed c d (values.length * k) declared tokens declared' := by
  induction values generalizing declared tokens with
  | nil =>
    cases h
    exact ⟨fun _ => ⟨List.not_mem_nil, Iff.rfl⟩, by simp, by simp, by simp⟩
  | cons value rest ih =>
    obtain ⟨front, middle, back, hfront, hback, rfl⟩ := Trace.exists_of_seq h
    obtain ⟨inner, rfl, hinner, hfirst⟩ := hcopy value _ _ _ hfront
    have hrest := ih hback
    have hbrace : Lacks d [.text "\x7b\n"] := .of_text (by decide)
    rw [List.length_cons, List.cons_append, List.append_assoc, List.singleton_append]
    constructor
    case none =>
      intro hk
      obtain rfl : k = 0 := by simpa using hk
      obtain ⟨hname, hmiddle⟩ := hfirst.none rfl
      obtain ⟨hname', hdeclared⟩ := hrest.none (Nat.mul_zero _)
      exact ⟨by simp [hname, hname'], hdeclared.trans hmiddle⟩
    case once =>
      intro hk hid
      obtain rfl : k = 1 := Nat.eq_one_of_mul_eq_one_left hk
      obtain ⟨⟨between, hbody⟩, hmiddle⟩ := hfirst.once rfl hid
      obtain ⟨hname, hdeclared⟩ := hrest.none (by omega)
      exact ⟨⟨_, hbody.enclosed hbrace.1 (.text "\x7d\n" :: back) (by simpa using hname)⟩,
        hdeclared.mpr hmiddle⟩
    case often =>
      intro hk hid
      rcases Nat.lt_trichotomy k 1 with hzero | rfl | hmore
      · obtain rfl : k = 0 := by omega
        omega
      · -- the body is in the first copy, and so the second has the name
        obtain ⟨⟨between, hbody⟩, hmiddle⟩ := hfirst.once rfl hid
        exact hbody.torn hinner (hrest.again (by omega) hmiddle)
      · exact (hfirst.often hmore hid).enclosed hbrace.1 (.text "\x7d\n" :: back)
    case again =>
      intro hk hid
      exact (hfirst.again (by rintro rfl; simp at hk) hid).enclosed hbrace _

/-- **Text with a declaration of the struct**, whose block is written `k` times. -/
theorem Fragment.Outlined.placed {fs : List Fragment} {items : List Outline} {k : Nat}
    (h : Outlined c fs items) (hname : d.name ≠ "") (hitems : Outline.Declares d items k)
    {b : Bindings} {depth : Nat} (hr : Runs c b depth fs declared tokens declared') :
    Placed c d k declared tokens declared' := by
  have hopening : Lacks d [.text "\x7b\n"] := .of_text (by decide)
  have hclosing : Lacks d [.text "\x7d\n"] := .of_text (by decide)
  induction h generalizing b depth declared tokens declared' k with
  | nil | plain | absent => exact absurd hitems Outline.not_declares_nil
  | fail => cases runs_singleton.mp hr
  | append hfs hgs ih ih' =>
    obtain ⟨front, middle, back, hfront, hback, rfl⟩ := runs_append hr
    -- what follows a declaration may use the struct, but what follows its block may not
    rcases Outline.declares_append hitems with ⟨hbegins, rfl⟩ | ⟨hitems, havoid⟩ | ⟨havoid, hitems⟩
    · exact ((hfs.begun hname hbegins hfront).append (hgs.whole hback)).placed
    · obtain ⟨hlacks, hdeclared⟩ := hgs.lacks havoid hback
      exact (ih hitems hfront).enclosed .nil Iff.rfl _ hlacks.1 hdeclared
    · obtain ⟨hlacks, hmiddle⟩ := hfs.lacks havoid hfront
      simpa using (ih' hitems hback).enclosed hlacks hmiddle [] List.not_mem_nil Iff.rfl
  | name | constant =>
    rcases Outline.declares_singleton hitems with ⟨_, heq, -⟩ | ⟨_, heq, -⟩ | ⟨_, _, _, heq, -⟩ <;>
      cases heq
  | occurrence t =>
    rcases Outline.declares_singleton hitems with ⟨_, -, hbegins, rfl⟩ | ⟨_, heq, -⟩ |
      ⟨_, _, _, heq, -⟩
    · exact ((occurrence t).begun hname hbegins hr).placed
    · cases heq
    · cases heq
  | scope _ ih => exact ih hitems (runs_singleton.mp hr)
  | block _ ih =>
    obtain ⟨inner, hinner, rfl⟩ := runs_blockFragments hr
    rcases Outline.declares_singleton hitems with ⟨_, heq, -⟩ | ⟨_, heq, hitems⟩ | ⟨_, _, _, heq, -⟩
    · cases heq
    · cases heq
      split_ifs
      · exact (ih hitems hinner).enclosed hopening Iff.rfl _ hclosing.1 Iff.rfl
      · exact ih hitems hinner
    · cases heq
  | copies l hfs ih =>
    obtain ⟨front, inner, hplain, hcopies, rfl⟩ := runs_copies hr
    rcases Outline.declares_singleton hitems with ⟨_, heq, -⟩ | ⟨_, heq, -⟩ |
      ⟨_, _, j, heq, hitems, rfl⟩
    · cases heq
    · cases heq
    · cases heq
      have hplaced := placed_each (fun _ _ _ _ hcopy => by
        obtain ⟨text, htext, rfl⟩ := runs_blockFragments hcopy
        exact ⟨text, by simp, (hfs.whole htext).nested, ih hitems htext⟩) _ hcopies
      rw [Counter.length_values] at hplaced
      have hfront : Lacks d (front ++ [.text ")\n\x7b\n"]) :=
        (Lacks.of_plain hplain).append (.of_text (by decide))
      simpa using hplaced.enclosed hfront Iff.rfl _ hclosing.1 Iff.rfl

/-! ### Scope -/

theorem exists_of_append_eq {α : Type} {as bs front back : List α} {a : α}
    (h : as ++ bs = front ++ a :: back) (ha : a ∉ as) :
    ∃ rest, front = as ++ rest ∧ bs = rest ++ a :: back := by
  rcases List.append_eq_append_iff.mp h with ⟨rest, rfl, hback⟩ | ⟨rest, rfl, hback⟩
  · exact ⟨rest, rfl, hback⟩
  · cases rest with
    | nil => exact ⟨[], by simp, hback.symm⟩
    | cons first rest =>
      cases hback
      simp at ha

theorem exists_of_append_eq_right {α : Type} {as bs front back : List α} {a : α}
    (h : as ++ bs = front ++ a :: back) (ha : a ∉ bs) :
    ∃ rest, as = front ++ a :: rest ∧ back = rest ++ bs := by
  rcases List.append_eq_append_iff.mp h with ⟨rest, rfl, rfl⟩ | ⟨rest, rfl, hback⟩
  · simp at ha
  · cases rest with
    | nil =>
      rw [← (show a :: back = bs from hback)] at ha
      simp at ha
    | cons first rest =>
      cases hback
      exact ⟨rest, rfl, rfl⟩

/-- A struct with one body is in scope, for as long as the block of the body is open. -/
theorem inScope_of_bodied (h : Bodied c d back tokens)
    (hself : d.nameToken ∉ (d.bodyTokens c).drop 2) : InScope c d tokens := by
  obtain ⟨before, inside, rfl, hbefore, hback, hinside⟩ := h
  intro front after htokens
  have hbody : d.bodyTokens c = .text "struct " :: d.nameToken :: (d.bodyTokens c).drop 2 := rfl
  generalize (d.bodyTokens c).drop 2 = members at hbody hself
  obtain ⟨rest, rfl, hrest⟩ := exists_of_append_eq htokens hbefore
  rw [hbody] at hrest
  -- the name is that of the body, or stands after the body
  match rest, hrest with
  | [], hrest => cases hrest
  | [token], hrest =>
    obtain ⟨rfl, -⟩ := List.cons.inj hrest
    exact .inl (by simp)
  | token :: name :: rest, hrest =>
    simp only [List.cons_append, List.cons.injEq] at hrest
    obtain ⟨rfl, rfl, hrest⟩ := hrest
    obtain ⟨between, rfl, hafter⟩ := exists_of_append_eq hrest hself
    obtain ⟨_, rfl, -⟩ := exists_of_append_eq_right hafter hback
    exact .inr ⟨before, between, by simp [hbody],
      hinside.keepOpen.of_prefix (List.prefix_append _ _)⟩

/-- A brace of the block of the body is closed before a name that stands by itself. -/
theorem Torn.not_inScope (h : Torn d tokens) : ¬ InScope c d tokens := by
  obtain ⟨front, inside, between, back, rfl, hfront, hinside, hbetween, hopen⟩ := h
  intro hscope
  rcases hscope (front ++ (inside ++ between)) back (by simp) with
    hlast | ⟨before, after, hafter, hkeep⟩
  · have hne : between ≠ [] := by
      rintro rfl
      exact hopen .nil
    rw [← List.append_assoc, List.getLast?_append_of_ne_nil _ hne] at hlast
    exact hbetween.2 hlast
  · have hname : front ++ (inside ++ between) = (before ++ [.text "struct "]) ++
        d.nameToken :: ((d.bodyTokens c).drop 2 ++ after) := by
      rw [hafter, List.append_assoc]
      rfl
    obtain ⟨rest, -, hrest⟩ := exists_of_append_eq hname hfront
    obtain ⟨last, rfl, hlast⟩ := exists_of_append_eq_right hrest hbetween.1
    have hkeep' : KeepOpen (last ++ between) := hlast ▸ (d.nested_drop c).keepOpen_append hkeep
    have hclosed : opened last ≤ closed last :=
      Nested.opened_le_closed (rest ++ [d.nameToken]) (by simpa using hinside)
    refine hopen fun part hpart => ?_
    have hle := hkeep' (last ++ part) ((List.prefix_append_right_inj last).mpr hpart)
    rw [opened_append, closed_append] at hle
    omega

/-- **A struct is in scope exactly if its block is written once at most.** -/
theorem Placed.inScope_iff {k : Nat} (h : Placed c d k declared tokens declared')
    (hid : d.id ∉ declared) (hself : d.nameToken ∉ (d.bodyTokens c).drop 2) :
    InScope c d tokens ↔ k ≤ 1 := by
  rcases Nat.lt_trichotomy k 1 with hzero | rfl | hmore
  · have hname := (h.none (by omega)).1
    refine iff_of_true (fun front back htokens => absurd ?_ hname) (by omega)
    simp [htokens]
  · obtain ⟨⟨back, hbody⟩, -⟩ := h.once rfl hid
    exact iff_of_true (inScope_of_bodied hbody hself) le_rfl
  · exact iff_of_false (h.often hmore hid).not_inScope (by omega)

end

/-! ### Passes -/

namespace Renderer

/-- **The scope of a struct in the text of a pass.** Let the struct be declared in a block and be
used only in that block and from there on, and let unrolling write the block `k` times. Then each
name of the struct in the text is in scope if and only if `k` is at most one. -/
theorem inScope_iff_of_renderFrom {r : Renderer} {names : NameTable} {root : Node}
    {out : Rendered} {d : StructDef} {k : Nat} (h : r.renderFrom names root = .ok out)
    (hname : d.name ≠ "") (hself : ∀ f ∈ d.fields, f.type.spelling ≠ .ok (.userDefined d.name))
    (hd : Outline.Declares d root.outline k) :
    ∃ tokens, r.tokens root = .ok tokens ∧
      out.source = String.join (tokens.map (Token.print r (r.userSpelling names))) ∧
      (InScope r.config d tokens ↔ k ≤ 1) := by
  obtain ⟨tokens, htokens, hsource, -⟩ := tokens_of_renderFrom h
  obtain ⟨declared, hruns⟩ := runs_of_tokens htokens
  have hplaced := root.outlined_fragments.placed hname hd hruns
  exact ⟨tokens, htokens, by rw [hsource, spellAll_fst],
    hplaced.inScope_iff List.not_mem_nil (not_mem_drop hself)⟩

/-- A struct with one member. -/
def copiedStruct : StructDef := { id := ⟨0⟩, name := "S", fields := [⟨"x", .scalar .float⟩] }

/-- The counter of the loop that copies the struct. -/
def copyCounter : Variable := { id := ⟨1⟩, name := { text := "i" }, type := .scalar .int }

/-- `for (int i = 0; i < 2; ++i) S s;`, to be unrolled. -/
def declaresInCopies : Node :=
  .loop .forLoop (some (copyCounter.startingAt 0)) (some (copyCounter.below 2))
    (some copyCounter.increment)
    (some [.declaration [⟨⟨⟨2⟩, { text := "s" }, .ofStruct copiedStruct⟩, none⟩]]) true

/-- The second copy of the block has the name of the struct without its body. -/
theorem not_inScope_of_declaresInCopies :
    Outline.Declares copiedStruct declaresInCopies.outline 2 ∧
      ∃ out tokens, ({} : Renderer).renderFrom .empty declaresInCopies = .ok out ∧
        out.source = "for (int i = 0; i < 1; ++i)\n\x7b\n\x7b\nstruct S\x7b\nfloat x;\n\x7d s;\n" ++
          "\x7d\n\x7b\nS s;\n\x7d\n\x7d\n" ∧
        ({} : Renderer).tokens declaresInCopies = .ok tokens ∧
        ¬ InScope {} copiedStruct tokens := by
  have houtline : declaresInCopies.outline =
      [.copies 2 [.use (.declared (.ofStruct copiedStruct))]] := by rfl
  have hdeclares : Outline.Declares copiedStruct declaresInCopies.outline (2 * 1) := by
    rw [houtline]
    exact .copies (.here (.here rfl rfl)) Outline.avoid_nil
  have hsource : (({} : Renderer).renderFrom .empty declaresInCopies).toOption.map Rendered.source =
      some ("for (int i = 0; i < 1; ++i)\n\x7b\n\x7b\nstruct S\x7b\nfloat x;\n\x7d s;\n" ++
          "\x7d\n\x7b\nS s;\n\x7d\n\x7d\n") := by
    decide +kernel
  cases hout : ({} : Renderer).renderFrom .empty declaresInCopies with
  | error cause =>
    rw [hout] at hsource
    cases hsource
  | ok out =>
    rw [hout] at hsource
    obtain ⟨tokens, htokens, -, hscope⟩ :=
      inScope_iff_of_renderFrom hout (by decide) (by decide) hdeclares
    exact ⟨hdeclares, out, tokens, rfl, Option.some.inj hsource, htokens,
      fun hin => absurd (hscope.mp hin) (by decide)⟩

end Renderer

end ShaderText
