import ShaderText.Name.Hash

/-!
# The table of renamed identifiers

A `NameTable` remembers the spelling that an identifier was given, so that it has one spelling
throughout a program. It only grows: an entry that is there is never replaced. Its entries stand in
ascending order of the UTF-8 bytes of the identifiers, each identifier once, which is a field of the
type.

* `NameTable.get?` looks an identifier up.
* `NameTable.insert` adds an entry, and says whether the identifier was new.
* `NameTable.get?_insert` is the law of the two: the first spelling of an identifier stays.
-/

namespace ShaderText

/-- Entries in strictly ascending order of their identifiers. -/
def Ascending (entries : List (String × String)) : Prop :=
  entries.Pairwise fun a b => utf8 a.1 < utf8 b.1

theorem ascending_nil : Ascending [] := List.Pairwise.nil

/-- Identifiers with their spellings. -/
structure NameTable where
  entries : List (String × String)
  ascending : Ascending entries

namespace NameTable

def empty : NameTable := ⟨[], ascending_nil⟩

instance : Inhabited NameTable := ⟨empty⟩

/-- The spelling of an identifier. -/
def get? (t : NameTable) (identifier : String) : Option String := t.entries.lookup identifier

def size (t : NameTable) : Nat := t.entries.length

def isEmpty (t : NameTable) : Bool := t.entries.isEmpty

def toList (t : NameTable) : List (String × String) := t.entries

/-- The entries with one more in its place, unless its identifier is there already. -/
def place (entry : String × String) : List (String × String) → List (String × String)
  | [] => [entry]
  | e :: rest =>
    if utf8 entry.1 < utf8 e.1 then entry :: e :: rest
    else if utf8 e.1 < utf8 entry.1 then e :: place entry rest
    else e :: rest

theorem mem_place {entry e : String × String} {entries : List (String × String)}
    (h : e ∈ place entry entries) : e = entry ∨ e ∈ entries := by
  induction entries with
  | nil => exact .inl (List.mem_singleton.mp h)
  | cons a rest ih =>
    rw [place] at h
    split at h
    · exact List.mem_cons.mp h
    split at h
    · rcases List.mem_cons.mp h with rfl | h
      · exact .inr List.mem_cons_self
      · exact (ih h).imp_right (List.mem_cons_of_mem a)
    · exact .inr h

theorem ascending_place {entries : List (String × String)} (entry : String × String)
    (h : Ascending entries) : Ascending (place entry entries) := by
  induction entries with
  | nil => exact List.pairwise_singleton _ _
  | cons a rest ih =>
    obtain ⟨ha, hr⟩ := List.pairwise_cons.mp h
    rw [place]
    split
    · rename_i hlt
      refine List.pairwise_cons.mpr ⟨fun b hb => ?_, h⟩
      rcases List.mem_cons.mp hb with rfl | hb
      · exact hlt
      · exact List.lt_trans hlt (ha b hb)
    split
    · rename_i hgt
      refine List.pairwise_cons.mpr ⟨fun b hb => ?_, ih hr⟩
      rcases mem_place hb with rfl | hb
      · exact hgt
      · exact ha b hb
    · exact h

/-- The table with one more entry, and whether its identifier is new; a known one keeps its
spelling. -/
def insert (t : NameTable) (identifier spelling : String) : Bool × NameTable :=
  ((t.get? identifier).isNone,
    ⟨place (identifier, spelling) t.entries, ascending_place _ t.ascending⟩)

/-- The table of a list of entries, of which the first for each identifier counts. -/
def ofList (entries : List (String × String)) : NameTable :=
  entries.foldl (fun t e => (t.insert e.1 e.2).2) empty

/-! ### Looking up -/

theorem eq_of_not_lt {s t : String} (h : ¬ utf8 s < utf8 t) (h' : ¬ utf8 t < utf8 s) : s = t :=
  utf8_injective (List.le_antisymm (List.not_lt.mp h') (List.not_lt.mp h))

theorem lookup_cons (key spelling identifier : String) (rest : List (String × String)) :
    ((key, spelling) :: rest).lookup identifier =
      if identifier = key then some spelling else rest.lookup identifier := by
  rw [List.lookup_cons]
  by_cases h : identifier = key
  · simp [h]
  · simp [h, beq_eq_false_iff_ne.mpr h]

/-- An identifier below all others is not among them. -/
theorem lookup_eq_none_of_lt {identifier : String} {entries : List (String × String)}
    (h : ∀ e ∈ entries, utf8 identifier < utf8 e.1) : entries.lookup identifier = none := by
  rw [List.lookup_eq_none_iff]
  intro e he
  have hne : identifier ≠ e.1 := fun heq => List.lt_irrefl _ (heq ▸ h e he)
  exact bne_iff_ne.mpr hne

theorem lookup_place (key spelling identifier : String) {entries : List (String × String)}
    (h : Ascending entries) :
    (place (key, spelling) entries).lookup identifier =
      if identifier = key then some ((entries.lookup key).getD spelling)
      else entries.lookup identifier := by
  induction entries with
  | nil => rw [place, lookup_cons]; rfl
  | cons a rest ih =>
    obtain ⟨key', spelling'⟩ := a
    obtain ⟨ha, hr⟩ := List.pairwise_cons.mp h
    rw [place]
    split
    · rename_i hlt
      have hnone : ((key', spelling') :: rest).lookup key = none :=
        lookup_eq_none_of_lt fun e he => by
          rcases List.mem_cons.mp he with rfl | he
          · exact hlt
          · exact List.lt_trans hlt (ha e he)
      rw [lookup_cons key, hnone, Option.getD_none]
    split
    · rename_i hgt
      have hne : key ≠ key' := fun heq => List.lt_irrefl _ (heq ▸ hgt)
      rw [lookup_cons key', lookup_cons key', lookup_cons key', ih hr, if_neg hne]
      by_cases hk : identifier = key
      · rw [if_pos hk, if_pos hk, if_neg (hk ▸ hne)]
      · rw [if_neg hk, if_neg hk]
    · rename_i hlt hgt
      have heq : key = key' := eq_of_not_lt hlt hgt
      rw [lookup_cons key', lookup_cons key', heq, if_pos rfl, Option.getD_some]
      by_cases hk : identifier = key'
      · rw [if_pos hk, if_pos hk]
      · rw [if_neg hk, if_neg hk]

/-- **The first spelling of an identifier stays,** and no other identifier is touched. -/
theorem get?_insert (t : NameTable) (key spelling identifier : String) :
    (t.insert key spelling).2.get? identifier =
      if identifier = key then some ((t.get? key).getD spelling) else t.get? identifier :=
  lookup_place key spelling identifier t.ascending

end NameTable

end ShaderText
