import ShaderText.Proofs.HashedNames
import ShaderText.Proofs.PassOrder
import ShaderText.Proofs.SpelledNames
import Mathlib.Data.Set.Function

/-! # Reserved names: what a renamed identifier never meets

Hashed names, internal names, names of emulated functions and the clamp helper share their start,
and any text may follow it in an internal or an emulated name. They are still apart: behind the
start a hashed name has a hexadecimal numeral, and the others have an underscore. The entry point
and the built-in functions and variables, in the words of any dialect, do not begin like that at
all.

Numerals tell numbers apart (`Reserved.hexadecimal_injective`), so two identifiers that the hash
tells apart are spelled differently. **In a pass from the empty table no renamed identifier captures
another name (`Renderer.render_captures_nothing`).** -/

namespace ShaderText

namespace Reserved

/-! ### Numerals -/

theorem toDigits_eq_append (n : Nat) :
    Nat.toDigits 16 n =
      (if n < 16 then [] else Nat.toDigits 16 (n / 16)) ++ [(n % 16).digitChar] := by
  rw [Nat.toDigits_eq_if (by decide)]
  split_ifs with h
  · rw [Nat.mod_eq_of_lt h, List.nil_append]
  · rfl

theorem digitChar_inj : ∀ m < 16, ∀ n < 16, m.digitChar = n.digitChar → m = n := by decide

theorem toDigits_inj {m n : Nat} (h : Nat.toDigits 16 m = Nat.toDigits 16 n) : m = n := by
  induction m using Nat.strongRecOn generalizing n with
  | ind m ih =>
    rw [toDigits_eq_append m, toDigits_eq_append n] at h
    obtain ⟨hfront, hlast⟩ := List.append_inj' h rfl
    have hmod : m % 16 = n % 16 :=
      digitChar_inj _ (Nat.mod_lt m (by decide)) _ (Nat.mod_lt n (by decide)) (by simpa using hlast)
    have hdiv : m / 16 = n / 16 := by
      split_ifs at hfront with hm hn hn
      · omega
      · exact absurd hfront.symm Nat.toDigits_ne_nil
      · exact absurd hfront Nat.toDigits_ne_nil
      · exact ih (m / 16) (by omega) hfront
    omega

/-- **A numeral tells its number.** -/
theorem hexadecimal_injective : Function.Injective hexadecimal :=
  fun _ _ h => toDigits_inj (String.ofList_injective h)

/-- Two hashes have two hashed names. -/
theorem hashedName_injective : Function.Injective hashedName := by
  intro hash hash' h
  have hnumeral : hexadecimal hash.toNat = hexadecimal hash'.toNat :=
    String.append_right_inj _ |>.mp h
  exact UInt64.toNat_inj.mp (hexadecimal_injective hnumeral)

theorem internalName_injective : Function.Injective internalName :=
  fun _ _ h => String.append_right_inj _ |>.mp h

/-! ### Names that begin alike -/

/-- There is no underscore in a numeral. -/
theorem underscore_not_mem_hexadecimal (n : Nat) : '_' ∉ (hexadecimal n).toList := by
  have hdigits : ∀ ch ∈ (hexadecimal n).toList, ch ≠ '_' :=
    forall_mem_hexadecimal (q := (· ≠ '_')) (by decide) n
  exact fun h => hdigits '_' h rfl

theorem hashedName_ne_of_mem {rest : String} (h : '_' ∈ rest.toList) (hash : UInt64) :
    hashedName hash ≠ hashedStart ++ rest := by
  intro heq
  have hrest : hexadecimal hash.toNat = rest := String.append_right_inj _ |>.mp heq
  exact underscore_not_mem_hexadecimal hash.toNat (hrest ▸ h)

theorem hashedName_ne_internalName (hash : UInt64) (name : String) :
    hashedName hash ≠ internalName name := by
  have hstart : internalName name = hashedStart ++ ("angle_" ++ name) := by
    rw [← String.append_assoc]
    rfl
  rw [hstart]
  exact hashedName_ne_of_mem (by simp) hash

theorem hashedName_ne_emulatedName (hash : UInt64) (name : String) :
    hashedName hash ≠ emulatedName name := by
  unfold emulatedName
  rw [String.append_assoc]
  exact hashedName_ne_of_mem (by simp) hash

theorem hashedName_ne_clampHelper (hash : UInt64) : hashedName hash ≠ clampHelper := by
  have hstart : clampHelper = hashedStart ++ "int_clamp" := by decide
  rw [hstart]
  exact hashedName_ne_of_mem (by decide) hash

/-! ### Names that begin otherwise -/

/-- A name that begins as the hashed and the internal names do. -/
def BeginsReserved (name : String) : Prop := hashedStart.toList <+: name.toList

instance (name : String) : Decidable (BeginsReserved name) :=
  inferInstanceAs (Decidable (hashedStart.toList <+: name.toList))

theorem beginsReserved_hashedName (hash : UInt64) : BeginsReserved (hashedName hash) := by
  unfold BeginsReserved hashedName
  rw [String.toList_append]
  exact List.prefix_append _ _

theorem beginsReserved_internalName (name : String) : BeginsReserved (internalName name) := by
  have hstart : hashedStart.toList <+: internalStart.toList := by decide
  unfold BeginsReserved internalName
  rw [String.toList_append]
  exact hstart.trans (List.prefix_append _ _)

theorem not_beginsReserved_builtIn : ∀ s ∈ BuiltIn.symbols, ¬ BeginsReserved s.name := by
  decide +kernel

theorem not_beginsReserved_renames (d : Dialect) :
    ∀ entry ∈ TextureFunction.renames d, ¬ BeginsReserved entry.2 := by
  unfold TextureFunction.renames
  split_ifs <;> decide +kernel

theorem not_beginsReserved_spelling (d : Dialect) {s : BuiltIn} (hs : s ∈ BuiltIn.symbols) :
    ¬ BeginsReserved (TextureFunction.spelling d s.name) :=
  TextureFunction.spelling_of_renames (p := (¬ BeginsReserved ·)) (not_beginsReserved_renames d)
    (not_beginsReserved_builtIn s hs)

/-- The names that are spelled without a hash: the other reserved ones, the entry point, and what
the language defines, in the words of the source and of each dialect. -/
inductive IsUnhashed : String → Prop
  | internal (name : String) : IsUnhashed (internalName name)
  | emulated (name : String) : IsUnhashed (emulatedName name)
  | clampHelper : IsUnhashed clampHelper
  | entryPoint : IsUnhashed entryPoint
  | builtIn {s : BuiltIn} (h : s ∈ BuiltIn.symbols) : IsUnhashed s.name
  | inDialect (d : Dialect) {s : BuiltIn} (h : s ∈ BuiltIn.symbols) :
    IsUnhashed (TextureFunction.spelling d s.name)

/-- **A hashed name is no other name,** whatever the hash. -/
theorem not_isUnhashed_hashedName (hash : UInt64) : ¬ IsUnhashed (hashedName hash) := by
  have hbegins : BeginsReserved (hashedName hash) := beginsReserved_hashedName hash
  generalize hname : hashedName hash = name at hbegins
  rintro (other | other | - | - | hs | ⟨d, hs⟩)
  · exact hashedName_ne_internalName hash other hname
  · exact hashedName_ne_emulatedName hash other hname
  · exact hashedName_ne_clampHelper hash hname
  · exact absurd hbegins (by decide)
  · exact not_beginsReserved_builtIn _ hs hbegins
  · exact not_beginsReserved_spelling d hs hbegins

theorem internalName_ne_clampHelper (name : String) : internalName name ≠ clampHelper := by
  intro h
  have hchars : internalStart.toList <+: clampHelper.toList := by
    rw [← h, internalName, String.toList_append]
    exact List.prefix_append _ _
  exact absurd hchars (by decide)

theorem internalName_ne_builtIn (name : String) {s : BuiltIn} (hs : s ∈ BuiltIn.symbols) :
    internalName name ≠ s.name :=
  fun h => not_beginsReserved_builtIn s hs (h ▸ beginsReserved_internalName name)

end Reserved

/-! ### Passes from the empty table -/

namespace Renderer

theorem userSpelling_empty {r : Renderer} {hash : String → UInt64} (h : r.config.hash? = some hash)
    (identifier : String) :
    r.userSpelling .empty identifier = Reserved.hashedName (hash identifier) := by
  unfold userSpelling
  rw [h]
  rfl

/-- The entries that passes leave, from the empty table on, are hashed names. -/
theorem get?_names_renderAll {r : Renderer} {hash : String → UInt64}
    (h : r.config.hash? = some hash) {roots : List Node} {identifier spelling : String}
    (hget : (r.renderAll .empty roots).2.get? identifier = some spelling) :
    spelling = Reserved.hashedName (hash identifier) := by
  have hempty : NameTable.empty.get? identifier = none := rfl
  rw [get?_renderAll, userSpelling_empty h, hempty] at hget
  split_ifs at hget
  exact (Option.some.inj hget).symm

theorem get?_names_render {r : Renderer} {hash : String → UInt64} (h : r.config.hash? = some hash)
    {root : Node} {out : Rendered} (hout : r.render root = .ok out) {identifier spelling : String}
    (hget : out.names.get? identifier = some spelling) :
    spelling = Reserved.hashedName (hash identifier) := by
  have hnames : (r.renderAll .empty [root]).2 = out.names :=
    congrArg (namesAfter .empty) hout
  exact get?_names_renderAll h (hnames ▸ hget)

/-- Identifiers that the hash tells apart are spelled differently. -/
theorem injOn_get?_names_render {r : Renderer} {hash : String → UInt64}
    (h : r.config.hash? = some hash) {root : Node} {out : Rendered}
    (hout : r.render root = .ok out)
    (hhash : Set.InjOn hash {n | (out.names.get? n).isSome}) :
    Set.InjOn out.names.get? {n | (out.names.get? n).isSome} := by
  intro a ha b hb hab
  obtain ⟨spelling, hspelling⟩ := Option.isSome_iff_exists.mp ha
  have hnames : Reserved.hashedName (hash a) = Reserved.hashedName (hash b) := by
    rw [← get?_names_render h hout hspelling, ← get?_names_render h hout (hab ▸ hspelling)]
  exact hhash ha hb (Reserved.hashedName_injective hnames)

/-- A name that the default look-up knows is in the registry. -/
theorem exists_builtIn_of_knows {config : Config} {text : String}
    (h : ({ config } : Renderer).knows text = true) : ∃ s ∈ BuiltIn.symbols, s.name = text := by
  obtain ⟨s, hs, hname⟩ := BuiltIn.isKnown_iff.mp h
  exact ⟨s, (List.mem_filter.mp hs).1, hname⟩

/-- How the default renderer spells a variable where names are hashed. -/
theorem variableName_cases {config : Config} {hash : String → UInt64}
    (h : config.hash? = some hash) {n : Name} (hn : n.text ≠ "") :
    (n.isInternal = true ∧
      (({ config } : Renderer).variableName n .empty).1 = Reserved.internalName n.text) ∨
    (n.isInternal = false ∧ (({ config } : Renderer).variableName n .empty).1 = n.text ∧
      ∃ s ∈ BuiltIn.symbols, s.name = n.text) ∨
    (n.isInternal = false ∧
      (({ config } : Renderer).variableName n .empty).1 =
        Reserved.hashedName (hash n.text)) := by
  obtain ⟨text, isInternal⟩ := n
  rw [variableName_eq_resolve, resolve_fst]
  unfold variableSpelling Name.spelling
  rw [if_neg hn]
  cases isInternal with
  | true => exact .inl ⟨rfl, rfl⟩
  | false =>
    by_cases hknows : ({ config } : Renderer).knows text = true
    · refine .inr (.inl ⟨rfl, ?_, exists_builtIn_of_knows hknows⟩)
      simp [hknows, Spelling.text]
    · refine .inr (.inr ⟨rfl, ?_⟩)
      simp [hknows, Spelling.text, userSpelling_empty (r := { config }) h]

/-- **Variables of different names are spelled differently,** built-in ones and those of the
compiler included. -/
theorem injOn_variableName {config : Config} {hash : String → UInt64}
    (h : config.hash? = some hash) {names : Set Name} (hnames : ∀ n ∈ names, n.text ≠ "")
    (hhash : Set.InjOn hash {text | { text } ∈ names}) :
    Set.InjOn (fun n => (({ config } : Renderer).variableName n .empty).1) names := by
  have hapart : ∀ {hash : UInt64} {name : String}, Reserved.IsUnhashed name →
      name ≠ Reserved.hashedName hash := fun hname heq =>
    Reserved.not_isUnhashed_hashedName _ (heq ▸ hname)
  rintro ⟨a, internal⟩ ha ⟨b, internal'⟩ hb hab
  dsimp only at hab
  rcases variableName_cases h (hnames _ ha) with
      ⟨rfl, hsa⟩ | ⟨rfl, hsa, s, hs, hname⟩ | ⟨rfl, hsa⟩ <;>
    rcases variableName_cases h (hnames _ hb) with
      ⟨rfl, hsb⟩ | ⟨rfl, hsb, t, ht, hname'⟩ | ⟨rfl, hsb⟩ <;>
    rw [hsa, hsb] at hab
  · obtain rfl : a = b := Reserved.internalName_injective hab
    rfl
  · exact absurd (hab.trans hname'.symm) (Reserved.internalName_ne_builtIn a ht)
  · exact absurd hab (hapart (.internal a))
  · exact absurd (hab.symm.trans hname.symm) (Reserved.internalName_ne_builtIn b hs)
  · obtain rfl : a = b := hab
    rfl
  · exact absurd (hname.trans hab) (hapart (.builtIn hs))
  · exact absurd hab.symm (hapart (.internal b))
  · exact absurd (hname'.trans hab.symm) (hapart (.builtIn ht))
  · obtain rfl : a = b := hhash ha hb (Reserved.hashedName_injective hab)
    rfl

/-- **Renamed identifiers capture nothing.** In a pass from the empty table, with the built-in names
of the language, the identifiers that are renamed get different spellings if the hash tells them
apart, and so do all variables. A hashed name is never an internal name, the name of an emulated
function, the clamp helper, the entry point, a built-in name or what this is called in a dialect.
Internal names too are all different, and neither the clamp helper nor built in. -/
theorem render_captures_nothing :
    (∀ (config : Config) (hash : String → UInt64), config.hash? = some hash →
      (∀ (root : Node) (out : Rendered), ({ config } : Renderer).render root = .ok out →
        Set.InjOn hash {n | (out.names.get? n).isSome} →
          Set.InjOn out.names.get? {n | (out.names.get? n).isSome}) ∧
      ∀ names : Set Name, (∀ n ∈ names, n.text ≠ "") → Set.InjOn hash {text | { text } ∈ names} →
        Set.InjOn (fun n => (({ config } : Renderer).variableName n .empty).1) names) ∧
    (∀ (hash : UInt64) (name : String), Reserved.IsUnhashed name →
      Reserved.hashedName hash ≠ name) ∧
    Function.Injective Reserved.internalName ∧
    ∀ name, Reserved.internalName name ≠ Reserved.clampHelper ∧
      ∀ s ∈ BuiltIn.symbols, Reserved.internalName name ≠ s.name := by
  refine ⟨fun config hash h => ⟨fun root out hout hhash => injOn_get?_names_render h hout hhash,
    fun names hnames hhash => injOn_variableName h hnames hhash⟩, ?_,
    Reserved.internalName_injective, fun name => ⟨Reserved.internalName_ne_clampHelper name,
      fun s hs => Reserved.internalName_ne_builtIn name hs⟩⟩
  rintro hash name hname rfl
  exact Reserved.not_isUnhashed_hashedName hash hname

/-- The function `scale` and its parameter `amount` are renamed, and apart. -/
theorem captures_nothing_scale :
    ∃ out, ({ config := { hash? := some fnv1aText } } : Renderer).render
        (identityFunction "scale" "amount") = .ok out ∧
      Set.InjOn fnv1aText {n | (out.names.get? n).isSome} ∧
      (out.names.get? "scale").isSome ∧ (out.names.get? "amount").isSome ∧
      out.names.get? "scale" ≠ out.names.get? "amount" := by
  obtain ⟨out, hout⟩ : ∃ out, ({ config := { hash? := some fnv1aText } } : Renderer).render
      (identityFunction "scale" "amount") = .ok out := ⟨_, rfl⟩
  have hentries : out.names.entries.map Prod.fst = ["amount", "scale"] := by
    cases hout
    decide +kernel
  have hscale : (out.names.get? "scale").isSome := by
    cases hout
    decide +kernel
  have hamount : (out.names.get? "amount").isSome := by
    cases hout
    decide +kernel
  have hkeys : ∀ n, (out.names.get? n).isSome → n ∈ ["amount", "scale"] := by
    intro n hn
    obtain ⟨spelling, hspelling⟩ := Option.isSome_iff_exists.mp hn
    have hentry : (n, spelling) ∈ out.names.entries :=
      (NameTable.mem_iff_lookup out.names.ascending n spelling).mpr hspelling
    rw [← hentries]
    exact List.mem_map_of_mem hentry
  have hdistinct : ∀ a ∈ ["amount", "scale"], ∀ b ∈ ["amount", "scale"],
      fnv1aText a = fnv1aText b → a = b := by
    decide +kernel
  have hhash : Set.InjOn fnv1aText {n | (out.names.get? n).isSome} :=
    fun a ha b hb => hdistinct a (hkeys a ha) b (hkeys b hb)
  have hapart := (render_captures_nothing.1 _ _ rfl).1 _ out hout hhash
  exact ⟨out, hout, hhash, hscale, hamount, fun h => absurd (hapart hscale hamount h) (by decide)⟩

end Renderer

end ShaderText
