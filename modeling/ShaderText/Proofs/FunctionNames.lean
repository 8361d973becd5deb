import ShaderText.Proofs.PassOrder
import ShaderText.Proofs.ReservedNames

/-! # Functions of the user and built-in functions

A name that a later version introduces is an ordinary identifier of the earlier ones, so a user of
1.00 may have a function `texture`. A dialect has one spelling for each built-in function, by its
table of texture functions, and without a hash the user's functions keep their names. That the name
is no built-in one of the *source* says nothing about the names the table gives.

The table the pass keeps does not matter here: whatever passes a program has made, an identifier is
spelled as it would be at the start (`Renderer.userSpelling_of_isReached`). With a hash the
spellings are always apart. **Without one, a function of the user is spelled like a built-in
function exactly where the table of the dialect gives its name to that function, and the table has
such a name in each desktop dialect for every version before 3.00
(`Renderer.functionName_eq_iff`).** -/

namespace ShaderText

/-! ### The tables of the dialects -/

namespace TextureFunction

/-- The desktop has two tables, one from 1.30 on. -/
theorem renames_cases (d : Dialect) :
    d = .essl ∧ renames d = [] ∨ d ≠ .essl ∧ (renames d = core ∨ renames d = beforeCore) := by
  cases d
  case essl => exact .inl ⟨rfl, rfl⟩
  case compatibility => exact .inr ⟨nofun, .inr rfl⟩
  all_goals exact .inr ⟨nofun, .inl rfl⟩

theorem spelling_of_mem {d : Dialect} {name target : String} (h : (name, target) ∈ renames d) :
    spelling d name = target := by
  have hcore : ∀ entry ∈ core, (core.lookup entry.1).getD entry.1 = entry.2 := by
    decide +kernel
  have hbeforeCore : ∀ entry ∈ beforeCore,
      (beforeCore.lookup entry.1).getD entry.1 = entry.2 := by
    decide +kernel
  unfold spelling
  rcases renames_cases d with ⟨-, htable⟩ | ⟨-, htable | htable⟩ <;> rw [htable] at h ⊢
  · exact nomatch h
  · exact hcore _ h
  · exact hbeforeCore _ h

/-- Only the desktop renames functions, and only those that 3.00 has dropped. -/
theorem of_mem_renames {d : Dialect} {name target : String} (h : (name, target) ∈ renames d) :
    d ≠ .essl ∧ ∀ s ∈ BuiltIn.symbols, s.name = name → s.since = 100 ∧ s.removedIn = some 300 := by
  have hdropped : ∀ entry ∈ core ++ beforeCore, ∀ s ∈ BuiltIn.symbols, s.name = entry.1 →
      s.since = 100 ∧ s.removedIn = some 300 := by
    decide +kernel
  rcases renames_cases d with ⟨-, htable⟩ | ⟨hd, htable | htable⟩ <;> rw [htable] at h
  · exact nomatch h
  · exact ⟨hd, hdropped _ (List.mem_append_left _ h)⟩
  · exact ⟨hd, hdropped _ (List.mem_append_right _ h)⟩

end TextureFunction

/-! ### Functions of a source -/

/-- A function of the user, in a version of the source language: it has a name, and not one that the
language has or keeps to itself. -/
structure FunctionName.IsOrdinary (f : FunctionName) (version : Nat) : Prop where
  isInternal : f.isInternal = false
  ne_empty : Reserved.unmangled f.mangled ≠ ""
  ne_entryPoint : Reserved.unmangled f.mangled ≠ Reserved.entryPoint
  not_isKnown : BuiltIn.isKnown (Reserved.unmangled f.mangled) version = false
  not_beginsReserved : ¬ Reserved.BeginsReserved (Reserved.unmangled f.mangled)
  not_beginsBuiltIn : ¬ "gl_".toList <+: (Reserved.unmangled f.mangled).toList

/-- A function that a version of the source language defines. -/
structure FunctionName.IsBuiltIn (g : FunctionName) (version : Nat) (b : BuiltIn) : Prop where
  isAvailable : b ∈ BuiltIn.available version
  isFunction : b.kind = .function
  name_eq : Reserved.unmangled g.mangled = b.name

namespace BuiltIn

theorem mem_available_iff {b : BuiltIn} {version : Nat} :
    b ∈ available version ↔
      b ∈ symbols ∧ b.since ≤ version ∧ ∀ removed ∈ b.removedIn, version < removed := by
  cases h : b.removedIn <;> simp [available, isAvailableIn, h]

/-- A version that comes before all symbols of a name does not know it. -/
theorem isKnown_eq_false {name : String} {version : Nat}
    (h : ∀ s ∈ symbols, s.name = name → version < s.since) : isKnown name version = false := by
  rw [Bool.eq_false_iff, Ne, isKnown_iff]
  rintro ⟨s, hs, hname⟩
  obtain ⟨hsymbol, hsince, -⟩ := mem_available_iff.mp hs
  exact absurd (h s hsymbol hname) (by omega)

end BuiltIn

/-- Each desktop dialect spells some function of the versions before 3.00 by a name that these do
not know, and that the user may therefore have taken. -/
theorem TextureFunction.exists_mem_renames {d : Dialect} {version : Nat} (h : d ≠ .essl)
    (hsince : 100 ≤ version) (hbefore : version < 300) :
    ∃ (f g : FunctionName) (b : BuiltIn), f.IsOrdinary version ∧ g.IsBuiltIn version b ∧
      (b.name, Reserved.unmangled f.mangled) ∈ renames d := by
  have hbuiltIn : ∀ name, (⟨name, .function, 100, some 300⟩ : BuiltIn) ∈ BuiltIn.symbols →
      Reserved.unmangled name = name →
      FunctionName.IsBuiltIn { mangled := name } version ⟨name, .function, 100, some 300⟩ := by
    intro name hsymbol hname
    refine ⟨BuiltIn.mem_available_iff.mpr ⟨hsymbol, hsince, ?_⟩, rfl, hname⟩
    rintro _ ⟨⟩
    exact hbefore
  have hlater : ∀ name, (∀ s ∈ BuiltIn.symbols, s.name = name → 300 ≤ s.since) →
      BuiltIn.isKnown name version = false := fun name h =>
    BuiltIn.isKnown_eq_false fun s hs hname => hbefore.trans_le (h s hs hname)
  rcases renames_cases d with ⟨hessl, -⟩ | ⟨-, htable | htable⟩
  · exact absurd hessl h
  · refine ⟨{ mangled := "texture" }, _, _, ⟨rfl, by decide, by decide,
      hlater "texture" (by decide +kernel), by decide, by decide⟩,
      hbuiltIn "texture2D" (by decide +kernel) (by decide), ?_⟩
    rw [htable]
    decide +kernel
  · refine ⟨{ mangled := "texture2DGradARB" }, _, _, ⟨rfl, by decide, by decide,
      hlater "texture2DGradARB" (by decide +kernel), by decide, by decide⟩,
      hbuiltIn "texture2DGradEXT" (by decide +kernel) (by decide), ?_⟩
    rw [htable]
    decide +kernel

namespace Renderer

/-- The tables that a program comes to: some passes are over, and one more is under way. -/
def IsReached (r : Renderer) (names : NameTable) : Prop :=
  ∃ (roots : List Node) (fragments : List Fragment) (c : Context),
    Fragment.writeAll r fragments { names := (r.renderAll .empty roots).2 } = .ok c ∧
      c.names = names

theorem isReached_empty (r : Renderer) : r.IsReached .empty := ⟨[], [], {}, rfl, rfl⟩

theorem userSpelling_writeAll {r : Renderer} {fragments : List Fragment} {c c' : Context}
    (h : Fragment.writeAll r fragments c = .ok c') :
    r.userSpelling c'.names = r.userSpelling c.names := by
  rw [Fragment.writeAll_eq_perform] at h
  unfold perform at h
  split at h
  · cases h
  · cases h
    exact r.userSpelling_spellAll _ c.names

/-- **Whatever a program has rendered, an identifier is spelled as it was at the start.** -/
theorem userSpelling_of_isReached {r : Renderer} {names : NameTable} (h : r.IsReached names) :
    r.userSpelling names = r.userSpelling .empty := by
  obtain ⟨roots, fragments, c, hwrite, rfl⟩ := h
  rw [userSpelling_writeAll hwrite, userSpelling_renderAll]

variable {config : Config} {f g : FunctionName} {b : BuiltIn}

theorem functionSpelling_of_isOrdinary (hf : f.IsOrdinary config.version) :
    ({ config } : Renderer).functionSpelling f = .ofUser (Reserved.unmangled f.mangled) := by
  have hknows : ({ config } : Renderer).knows (Reserved.unmangled f.mangled) = false :=
    hf.not_isKnown
  simp [functionSpelling, Name.spelling, hknows, hf.isInternal, hf.ne_empty, hf.ne_entryPoint]

theorem functionSpelling_of_isBuiltIn (hg : g.IsBuiltIn config.version b) :
    ({ config } : Renderer).functionSpelling g =
      .fixed (TextureFunction.spelling config.output b.name) := by
  have hknows : ({ config } : Renderer).knows b.name = true :=
    BuiltIn.isKnown_iff.mpr ⟨b, hg.isAvailable, rfl⟩
  simp [functionSpelling, hg.name_eq, hknows]

/-- A function of the user is not called like a built-in function. -/
theorem unmangled_ne_of_isOrdinary {version : Nat} (hf : f.IsOrdinary version)
    (hg : g.IsBuiltIn version b) : Reserved.unmangled f.mangled ≠ b.name := by
  intro heq
  have hknown : BuiltIn.isKnown (Reserved.unmangled f.mangled) version = true :=
    BuiltIn.isKnown_iff.mpr ⟨b, hg.isAvailable, heq.symm⟩
  exact absurd (hf.not_isKnown.symm.trans hknown) (by decide)

/-- The spellings meet where names are not hashed and the table renames the one to the other. -/
theorem functionName_eq_iff_mem_renames (hf : f.IsOrdinary config.version)
    (hg : g.IsBuiltIn config.version b) {names names' : NameTable}
    (hnames : ({ config } : Renderer).IsReached names) :
    (({ config } : Renderer).functionName f names).1 =
        (({ config } : Renderer).functionName g names').1 ↔
      config.hash? = none ∧
        (b.name, Reserved.unmangled f.mangled) ∈ TextureFunction.renames config.output := by
  rw [functionName_eq_resolve, functionName_eq_resolve, resolve_fst, resolve_fst,
    functionSpelling_of_isOrdinary hf, functionSpelling_of_isBuiltIn hg, Spelling.text,
    Spelling.text, userSpelling_of_isReached hnames]
  cases hhash : config.hash? with
  | some hash =>
    rw [userSpelling_empty (r := { config }) hhash]
    refine iff_of_false (fun heq => ?_) fun h => Option.some_ne_none hash h.1
    have hbuiltIn : Reserved.IsUnhashed (TextureFunction.spelling config.output b.name) :=
      .inDialect config.output (BuiltIn.mem_available_iff.mp hg.isAvailable).1
    exact Reserved.not_isUnhashed_hashedName _ (heq ▸ hbuiltIn)
  | none =>
    have hplain : ({ config } : Renderer).userSpelling .empty (Reserved.unmangled f.mangled) =
        Reserved.unmangled f.mangled := by
      simp [userSpelling, hhash]
    rw [hplain]
    refine ⟨fun heq => ⟨rfl, ?_⟩, fun h => (TextureFunction.spelling_of_mem h.2).symm⟩
    rcases TextureFunction.mem_renames_or_eq config.output b.name with hmem | hsame
    · exact heq ▸ hmem
    · exact absurd (heq.trans hsame) (unmangled_ne_of_isOrdinary hf hg)

/-- **Where the functions of a user are mistaken for built-in ones.** Whatever the program has
rendered before, a function of the user and a built-in function are spelled alike exactly if names
are not hashed and the table of the dialect renames the second to the first. There are such two in
every desktop dialect and in every version from 1.00 until 3.00 drops the functions that are
renamed, and nowhere else. -/
theorem functionName_eq_iff (config : Config) :
    (∀ (f g : FunctionName) (b : BuiltIn) (names names' : NameTable),
      f.IsOrdinary config.version → g.IsBuiltIn config.version b →
      ({ config } : Renderer).IsReached names →
      ((({ config } : Renderer).functionName f names).1 =
          (({ config } : Renderer).functionName g names').1 ↔
        config.hash? = none ∧
          (b.name, Reserved.unmangled f.mangled) ∈ TextureFunction.renames config.output)) ∧
    ((∃ (f g : FunctionName) (b : BuiltIn), f.IsOrdinary config.version ∧
        g.IsBuiltIn config.version b ∧
        (({ config } : Renderer).functionName f .empty).1 =
          (({ config } : Renderer).functionName g .empty).1) ↔
      config.hash? = none ∧ config.output ≠ .essl ∧ 100 ≤ config.version ∧
        config.version < 300) := by
  have hempty : ({ config } : Renderer).IsReached .empty := isReached_empty _
  refine ⟨fun f g b names names' hf hg hnames => functionName_eq_iff_mem_renames hf hg hnames,
    ?_, ?_⟩
  · rintro ⟨f, g, b, hf, hg, heq⟩
    obtain ⟨hhash, hmem⟩ := (functionName_eq_iff_mem_renames hf hg hempty).mp heq
    obtain ⟨houtput, hdropped⟩ := TextureFunction.of_mem_renames hmem
    obtain ⟨hsymbol, hsince, hremoved⟩ := BuiltIn.mem_available_iff.mp hg.isAvailable
    obtain ⟨hfrom, huntil⟩ := hdropped b hsymbol rfl
    exact ⟨hhash, houtput, hfrom ▸ hsince, hremoved 300 huntil⟩
  · rintro ⟨hhash, houtput, hsince, hbefore⟩
    obtain ⟨f, g, b, hf, hg, hmem⟩ :=
      TextureFunction.exists_mem_renames houtput hsince hbefore
    exact ⟨f, g, b, hf, hg, (functionName_eq_iff_mem_renames hf hg hempty).mpr ⟨hhash, hmem⟩⟩

/-- A shader of 1.00 may define `texture`, which 3.30 makes of its `texture2D`. -/
theorem functionName_eq_texture :
    FunctionName.IsOrdinary { mangled := "texture(s21;vf2;" } 100 ∧
    FunctionName.IsBuiltIn { mangled := "texture2D(s21;vf2;" } 100
      ⟨"texture2D", .function, 100, some 300⟩ ∧
    (({ config := { output := .glsl330Core } } : Renderer).functionName
        { mangled := "texture(s21;vf2;" } .empty).1 =
      (({ config := { output := .glsl330Core } } : Renderer).functionName
        { mangled := "texture2D(s21;vf2;" } .empty).1 := by
  have hordinary : FunctionName.IsOrdinary { mangled := "texture(s21;vf2;" } 100 :=
    ⟨rfl, by decide, by decide, by decide +kernel, by decide, by decide⟩
  have hbuiltIn : FunctionName.IsBuiltIn { mangled := "texture2D(s21;vf2;" } 100
      ⟨"texture2D", .function, 100, some 300⟩ :=
    ⟨by decide +kernel, rfl, by decide⟩
  exact ⟨hordinary, hbuiltIn,
    ((functionName_eq_iff { output := .glsl330Core }).1 _ _ _ .empty .empty hordinary hbuiltIn
      (isReached_empty _)).mpr ⟨rfl, by decide +kernel⟩⟩

end Renderer

end ShaderText
