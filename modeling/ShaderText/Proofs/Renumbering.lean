import ShaderText.Proofs.RelabelledText
import ShaderText.Proofs.TripCount

/-! # Renumbering: identities up to renaming

The identities of variables, structs and blocks are never written. They are only compared: a
variable with the counters of the loops being unrolled, a struct with those whose body is written,
and nothing is asked of the identity of a block. So a tree may be numbered otherwise, as long as
different variables and different structs stay different (`Relabelling.renumbering`): it has the
same tokens (`Renderer.tokens_relabelled`), and **a pass over it gives the same text and table, or
fails with the same error (`Renderer.renderFrom_renumbered`).** -/

namespace ShaderText

namespace Relabelling

/-- Other identities for variables, structs and blocks. All else stays as it is. -/
def renumbering (symbol : SymbolId → SymbolId) (structId : StructId → StructId)
    (blockId : BlockId → BlockId) : Relabelling where
  symbol
  structId
  blockId

theorem keepsNames_renumbering (symbol : SymbolId → SymbolId) (structId : StructId → StructId)
    (blockId : BlockId → BlockId) : (renumbering symbol structId blockId).KeepsNames where
  name_eq _ := rfl
  functionName_eq _ := rfl
  typeName_eq _ := rfl
  member_eq _ _ := rfl
  blockMember_eq _ := rfl

/-- No configuration sees identities, only whether they are the same. -/
theorem respects_renumbering {symbol : SymbolId → SymbolId} (hsymbol : Function.Injective symbol)
    {structId : StructId → StructId} (hstructId : Function.Injective structId)
    (blockId : BlockId → BlockId) (c : Config) :
    (renumbering symbol structId blockId).Respects c where
  symbol_injective := hsymbol
  structId_injective := hstructId
  name_eq_empty_iff _ := Iff.rfl
  typeName_eq_empty_iff _ := Iff.rfl
  precision_eq _ _ := rfl
  invariant_eq _ _ := rfl
  storageKeyword_eq _ := rfl
  acceptsLocation_eq _ := rfl
  acceptsImageFormat_eq _ := rfl

end Relabelling

namespace Renderer

/-- A relabelling that keeps the names and the qualifiers, and that the target does not see, leaves
the tokens of a tree as they are, or the reason why there are none. -/
theorem tokens_relabelled {r : Renderer} {m : Relabelling} (hm : m.Respects r.config)
    (hnames : m.KeepsNames) (hqualifier : ∀ q, m.qualifier q = q) (root : Node) :
    r.tokens (m.node root) = r.tokens root := by
  have htokens := Relabelling.corresponds_tokens hm root
  revert htokens
  generalize r.tokens root = x
  generalize r.tokens (m.node root) = x'
  rintro (tokens | hcause)
  · rw [hnames.map_token]
  · rw [hnames.eq_of_explains hqualifier hcause]

/-- **Identities matter only up to renaming.** A pass over a tree whose variables and structs are
numbered otherwise, but told apart as before, and whose blocks are numbered in any way, yields the
same text and the same table, or the same error. -/
theorem renderFrom_renumbered (r : Renderer) (seed : NameTable) (root : Node)
    {symbol : SymbolId → SymbolId} (hsymbol : Function.Injective symbol)
    {structId : StructId → StructId} (hstructId : Function.Injective structId)
    (blockId : BlockId → BlockId) :
    r.renderFrom seed ((Relabelling.renumbering symbol structId blockId).node root) =
      r.renderFrom seed root := by
  have hrespects := Relabelling.respects_renumbering hsymbol hstructId blockId r.config
  have hnames := Relabelling.keepsNames_renumbering symbol structId blockId
  rw [renderFrom_eq_spellAll, renderFrom_eq_spellAll,
    tokens_relabelled hrespects hnames (fun _ => rfl) root]

/-- `int name` -/
def counterNamed (id : Nat) (name : String) : Variable :=
  { id := ⟨id⟩, name := { text := name }, type := .scalar .int }

/-- `for (int v = 0; v < 2; ++v) body`, to be unrolled. -/
def twice (v : Variable) (body : List Node) : Node :=
  .loop .forLoop (some (v.startingAt 0)) (some (v.below 2)) (some v.increment) (some body) true

/-- A struct that is declared in each copy of a loop within a loop, both of them to be unrolled, and
an expression of both counters. -/
def declaresInCopiesOfCopies : Node :=
  let i := counterNamed 0 "i"
  let j := counterNamed 1 "j"
  let cell : StructDef := { id := ⟨0⟩, name := "C", fields := [⟨"row", .scalar .int⟩] }
  let c : Variable := { id := ⟨2⟩, name := { text := "c" }, type := .ofStruct cell }
  twice i [twice j [.declaration [⟨c, none⟩],
    .binary .add (.symbol i) (.symbol j) (.scalar .int) false]]

/-- Variables that are numbered from 10 on, structs with odd numbers, and blocks all with one. -/
theorem renderFrom_renumbered_declaresInCopiesOfCopies :
    Function.Injective (fun id : SymbolId => SymbolId.mk (id.value + 10)) ∧
    Function.Injective (fun id : StructId => StructId.mk (2 * id.value + 1)) ∧
    (({} : Renderer).renderFrom .empty declaresInCopiesOfCopies).isOk = true ∧
    ({} : Renderer).renderFrom .empty
        ((Relabelling.renumbering (fun id => ⟨id.value + 10⟩) (fun id => ⟨2 * id.value + 1⟩)
          fun _ => ⟨0⟩).node declaresInCopiesOfCopies) =
      ({} : Renderer).renderFrom .empty declaresInCopiesOfCopies := by
  have hsymbol : Function.Injective (fun id : SymbolId => SymbolId.mk (id.value + 10)) := by
    rintro ⟨m⟩ ⟨n⟩ h
    simp only [SymbolId.mk.injEq] at h ⊢
    omega
  have hstructId : Function.Injective (fun id : StructId => StructId.mk (2 * id.value + 1)) := by
    rintro ⟨m⟩ ⟨n⟩ h
    simp only [StructId.mk.injEq] at h ⊢
    omega
  exact ⟨hsymbol, hstructId, by decide +kernel,
    renderFrom_renumbered {} .empty declaresInCopiesOfCopies hsymbol hstructId fun _ => ⟨0⟩⟩

end Renderer

end ShaderText
