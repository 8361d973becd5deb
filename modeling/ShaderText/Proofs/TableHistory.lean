import ShaderText.Proofs.NameTable
import Mathlib.Data.Finset.Card

/-! # Tables of renamed identifiers and their histories

A table is used by inserting entries and looking identifiers up, in any order
(`NameTable.Operation`, `NameTable.run`). All that can be seen of it goes back to its history, the
list of the entries that were inserted, of which the first for an identifier counts
(`NameTable.history`).

* `NameTable.Holds` relates a table to such a list: every look-up in the table is one in the list.
* `NameTable.Holds.perform`: one operation answers from the list, and keeps the relation to the list
  with the entry that it inserts; `NameTable.Holds.run` is the induction over a list of operations.
* **`NameTable.run_answers_history`: from the empty table on, the operations answer from the entries
  that were inserted before them, and the table lists the first entry of each identifier once, in
  the order of the bytes of the identifiers.** -/

namespace ShaderText.NameTable

/-! ### Operations -/

/-- What is done with a table. -/
inductive Operation where
  | insert (identifier spelling : String)
  | look (identifier : String)
  deriving DecidableEq, Repr

/-- What an operation answers. -/
inductive Answer where
  /-- Whether the identifier of the entry is new. -/
  | inserted (isNew : Bool)
  | found (spelling? : Option String)
  deriving DecidableEq, Repr

/-- The answer of an operation, and the table after it. -/
def perform (t : NameTable) : Operation → Answer × NameTable
  | .insert identifier spelling =>
    let after := t.insert identifier spelling
    (.inserted after.1, after.2)
  | .look identifier => (.found (t.get? identifier), t)

/-- The answers of operations one after another, and the table after them. -/
def run (t : NameTable) : List Operation → List Answer × NameTable
  | [] => ([], t)
  | op :: rest =>
    let first := t.perform op
    let others := first.2.run rest
    (first.1 :: others.1, others.2)

/-! ### Histories -/

/-- The entry that an operation inserts. -/
def Operation.entry? : Operation → Option (String × String)
  | insert identifier spelling => some (identifier, spelling)
  | look _ => none

/-- The entries that operations insert, in their order, those of known identifiers included. -/
def history (ops : List Operation) : List (String × String) := ops.filterMap Operation.entry?

/-- What an operation answers if the entries inserted before it are `past`. -/
def Operation.answerAfter (past : List (String × String)) : Operation → Answer
  | insert identifier _ => .inserted (past.lookup identifier).isNone
  | look identifier => .found (past.lookup identifier)

theorem history_cons (op : Operation) (ops : List Operation) :
    history (op :: ops) = history [op] ++ history ops :=
  List.filterMap_append (l := [op])

/-- A table that has the first entry of each identifier in a list. -/
def Holds (t : NameTable) (past : List (String × String)) : Prop :=
  ∀ identifier, t.get? identifier = past.lookup identifier

theorem holds_empty : empty.Holds [] := fun _ => rfl

theorem isSome_lookup_iff {past : List (String × String)} {identifier : String} :
    (past.lookup identifier).isSome ↔ identifier ∈ past.map Prod.fst := by
  rw [List.lookup_isSome_iff, List.mem_map]
  constructor
  · rintro ⟨entry, hentry, hkey⟩
    exact ⟨entry, hentry, (beq_iff_eq.mp hkey).symm⟩
  · rintro ⟨entry, hentry, rfl⟩
    exact ⟨entry, hentry, beq_self_eq_true _⟩

namespace Holds

variable {t : NameTable} {past : List (String × String)}

theorem insert (h : t.Holds past) (identifier spelling : String) :
    (t.insert identifier spelling).2.Holds (past ++ [(identifier, spelling)]) := by
  intro other
  rw [t.get?_insert, h, h, List.lookup_append, lookup_cons]
  by_cases hother : other = identifier
  · rw [if_pos hother, if_pos hother, hother]
    cases past.lookup identifier <;> rfl
  · rw [if_neg hother, if_neg hother, List.lookup_nil, Option.or_none]

/-- **An operation answers from the entries before it,** and records the one it inserts. -/
theorem perform (h : t.Holds past) (op : Operation) :
    (t.perform op).1 = op.answerAfter past ∧ (t.perform op).2.Holds (past ++ history [op]) := by
  cases op with
  | insert identifier spelling =>
    refine ⟨?_, h.insert identifier spelling⟩
    show Answer.inserted (t.get? identifier).isNone = _
    rw [h]
    rfl
  | look identifier =>
    refine ⟨congrArg Answer.found (h identifier), ?_⟩
    show t.Holds (past ++ [])
    rwa [List.append_nil]

/-- Operations one after another. -/
theorem run (h : t.Holds past) (ops : List Operation) :
    (t.run ops).1 =
        ops.mapIdx (fun k op => op.answerAfter (past ++ history (ops.take k))) ∧
      (t.run ops).2.Holds (past ++ history ops) := by
  induction ops generalizing t past with
  | nil => exact ⟨rfl, by simpa [history, NameTable.run] using h⟩
  | cons op rest ih =>
    obtain ⟨hanswer, hafter⟩ := h.perform op
    obtain ⟨hanswers, hlast⟩ := ih hafter
    rw [List.append_assoc, ← history_cons] at hlast
    have hnone : past ++ history ((op :: rest).take 0) = past := List.append_nil past
    have hsome : ∀ k, past ++ history ((op :: rest).take (k + 1)) =
        past ++ history [op] ++ history (rest.take k) := by
      intro k
      rw [List.take_succ_cons, history_cons, List.append_assoc]
    refine ⟨?_, hlast⟩
    rw [NameTable.run, List.mapIdx_cons, hnone]
    simp only [hsome]
    rw [hanswer, hanswers]

/-! ### What a table lists -/

theorem mem_toList_iff (h : t.Holds past) (identifier spelling : String) :
    (identifier, spelling) ∈ t.toList ↔ past.lookup identifier = some spelling := by
  rw [← h]
  exact mem_iff_lookup t.ascending identifier spelling

theorem mem_keys_iff (h : t.Holds past) (identifier : String) :
    identifier ∈ t.toList.map Prod.fst ↔ identifier ∈ past.map Prod.fst := by
  rw [← isSome_lookup_iff, ← isSome_lookup_iff, ← h]
  rfl

/-- An entry changes nothing exactly if its identifier is known. -/
theorem insert_eq_self_iff (h : t.Holds past) (identifier spelling : String) :
    t.insert identifier spelling = (false, t) ↔ identifier ∈ past.map Prod.fst := by
  have hnew : (t.insert identifier spelling).1 = (t.get? identifier).isNone := rfl
  rw [← isSome_lookup_iff, ← h, Prod.ext_iff, hnew]
  constructor
  · rintro ⟨hfalse, -⟩
    exact Option.isNone_eq_false_iff.mp hfalse
  · intro hknown
    obtain ⟨known, hget⟩ := Option.isSome_iff_exists.mp hknown
    refine ⟨by rw [hget]; rfl, ext_get? fun other => ?_⟩
    rw [t.get?_insert, hget]
    split_ifs with hother
    · rw [hother, hget, Option.getD_some]
    · rfl

end Holds

theorem nodup_keys (t : NameTable) : (t.toList.map Prod.fst).Nodup := by
  refine List.pairwise_map.mpr (t.ascending.imp fun {a b} hlt heq => ?_)
  rw [heq] at hlt
  exact List.lt_irrefl _ hlt

/-- A table has as many entries as its history has identifiers. -/
theorem Holds.size_eq {t : NameTable} {past : List (String × String)} (h : t.Holds past) :
    t.size = (past.map Prod.fst).toFinset.card := by
  have hkeys : (t.toList.map Prod.fst).toFinset = (past.map Prod.fst).toFinset := by
    ext identifier
    rw [List.mem_toFinset, List.mem_toFinset, h.mem_keys_iff]
  rw [← hkeys, List.toFinset_card_of_nodup t.nodup_keys, List.length_map]
  rfl

/-! ### Tables that begin empty -/

/-- **A table only grows, and is in order.** Whatever operations are run from the empty table on, an
operation finds the spelling of the first entry inserted for its identifier, and an entry is new if
there is none before it; an entry of a known identifier changes nothing. The table has as many
entries as there were identifiers. It lists each of them once, with its first spelling, in strictly
ascending order of the bytes in UTF-8. -/
theorem run_answers_history (ops : List Operation) :
    (empty.run ops).1 = ops.mapIdx (fun k op => op.answerAfter (history (ops.take k))) ∧
    (∀ identifier, (empty.run ops).2.get? identifier = (history ops).lookup identifier) ∧
    (∀ identifier spelling,
      (empty.run ops).2.insert identifier spelling = (false, (empty.run ops).2) ↔
        identifier ∈ (history ops).map Prod.fst) ∧
    (empty.run ops).2.size = ((history ops).map Prod.fst).toFinset.card ∧
    (empty.run ops).2.toList.Pairwise (fun a b => utf8 a.1 < utf8 b.1) ∧
    ((empty.run ops).2.toList.map Prod.fst).Nodup ∧
    ∀ identifier spelling, (identifier, spelling) ∈ (empty.run ops).2.toList ↔
      (history ops).lookup identifier = some spelling := by
  obtain ⟨hanswers, hlast⟩ := holds_empty.run ops
  rw [List.nil_append] at hlast
  refine ⟨hanswers, hlast, hlast.insert_eq_self_iff, hlast.size_eq, ?_, nodup_keys _,
    hlast.mem_toList_iff⟩
  exact (empty.run ops).2.ascending

example : (empty.run [.insert "é" "x", .insert "z" "y", .insert "é" "w", .look "é"]).1 =
    [.inserted true, .inserted true, .inserted false, .found (some "x")] := by decide +kernel

end ShaderText.NameTable
