import ShaderText.Name.Table
import Mathlib.Data.List.Nodup

/-! # Tables of renamed identifiers: the look-up decides

The entries of a `NameTable` stand in strict order, so a table is known when every look-up in it is
known (`NameTable.ext_get?`). The arguments about passes therefore follow look-ups only, and never
the list of entries. -/

namespace ShaderText.NameTable

theorem nodup_of_ascending {entries : List (String × String)} (h : Ascending entries) :
    entries.Nodup := by
  refine List.Pairwise.imp (fun {a b} hlt heq => ?_) h
  rw [heq] at hlt
  exact List.lt_irrefl _ hlt

/-- An entry is in an ascending list exactly if the look-up finds it. -/
theorem mem_iff_lookup {entries : List (String × String)} (h : Ascending entries)
    (key spelling : String) : (key, spelling) ∈ entries ↔ entries.lookup key = some spelling := by
  induction entries with
  | nil => simp
  | cons a rest ih =>
    obtain ⟨key', spelling'⟩ := a
    obtain ⟨ha, hr⟩ := List.pairwise_cons.mp h
    rw [lookup_cons, List.mem_cons, ih hr, Prod.mk.injEq]
    by_cases hk : key = key'
    · subst hk
      have hnone : rest.lookup key = none := lookup_eq_none_of_lt ha
      simp [hnone, eq_comm]
    · simp [hk]

/-- **A table is its look-ups.** -/
theorem ext_get? {t t' : NameTable} (h : ∀ identifier, t.get? identifier = t'.get? identifier) :
    t = t' := by
  obtain ⟨entries, ha⟩ := t
  obtain ⟨entries', ha'⟩ := t'
  have hmem : ∀ e, e ∈ entries ↔ e ∈ entries' := fun e => by
    have he : entries.lookup e.1 = entries'.lookup e.1 := h e.1
    rw [mem_iff_lookup ha e.1 e.2, mem_iff_lookup ha' e.1 e.2, he]
  have hperm : entries.Perm entries' :=
    (List.perm_ext_iff_of_nodup (nodup_of_ascending ha) (nodup_of_ascending ha')).mpr hmem
  have heq : entries = entries' := hperm.eq_of_pairwise
    (fun a b _ _ hab hba => absurd (List.lt_trans hab hba) (List.lt_irrefl _)) ha ha'
  subst heq
  rfl

end ShaderText.NameTable
