import ShaderText.Proofs.RelabelledText

/-! # Normalization: what a target does without

A target has no word for some of what a type may say: precision outside of the embedded language,
`invariant` and `centroid` where they are left out, `attribute` and `varying` where these are called
`in` and `out`. `Config.normalization` is the relabelling that takes all of it out of a tree, in
every type and in the members of structs and blocks.

It changes what a configuration does not write (`Config.respects_normalization`), and keeps all
names. **So a tree and the normalized one have the same text and table, or the same error but for
the qualifier that it names (`Renderer.renderFrom_normalization`).** -/

namespace ShaderText

/-! ### What is normalized -/

namespace Qualifier

/-- The same qualifier without `centroid`. -/
def withoutCentroid : Qualifier → Qualifier
  | centroidIn => smoothIn
  | centroidOut => smoothOut
  | centroid => global
  | q => q

/-- The same qualifier in the words of desktop 1.30. -/
def modern : Qualifier → Qualifier
  | vertexAttribute | varyingIn => input
  | varyingOut => output
  | q => q

end Qualifier

namespace Config

/-- To write a storage qualifier as the target does. -/
def normalizedQualifier (c : Config) (q : Qualifier) : Qualifier :=
  let q := if c.stripsCentroid then q.withoutCentroid else q
  if c.output.isFrom130 then q.modern else q

/-- To take out of a tree what the target does without. -/
def normalization (c : Config) : Relabelling where
  precision p := if c.writesPrecision then p else .undefined
  qualifier := c.normalizedQualifier
  invariant i := if c.removesInvariant then false else i

/-! ### What a target cannot tell -/

/-- The target writes a qualifier and the normalized one alike. -/
theorem storageKeyword_normalizedQualifier (c : Config) (q : Qualifier) :
    c.storageKeyword (c.normalizedQualifier q) = c.storageKeyword q := by
  unfold normalizedQualifier
  by_cases hstrips : c.stripsCentroid = true <;> by_cases hfrom130 : c.output.isFrom130 = true <;>
    cases q <;> simp [storageKeyword, Qualifier.withoutCentroid, Qualifier.modern,
      Qualifier.keyword, hstrips, hfrom130]

theorem acceptsLocation_normalizedQualifier (c : Config) (q : Qualifier) :
    (c.normalizedQualifier q).acceptsLocation = q.acceptsLocation := by
  unfold normalizedQualifier
  dsimp only
  split_ifs <;> cases q <;> rfl

theorem acceptsImageFormat_normalizedQualifier (c : Config) (q : Qualifier) :
    (c.normalizedQualifier q).acceptsImageFormat = q.acceptsImageFormat := by
  unfold normalizedQualifier
  dsimp only
  split_ifs <;> cases q <;> rfl

/-- **A configuration cannot tell a normalized tree from the tree.** -/
theorem respects_normalization (c : Config) : c.normalization.Respects c where
  symbol_injective := Function.injective_id
  structId_injective := Function.injective_id
  name_eq_empty_iff _ := Iff.rfl
  typeName_eq_empty_iff _ := Iff.rfl
  precision_eq h _ := if_pos h
  invariant_eq h _ := if_neg (by rw [h]; exact Bool.false_ne_true)
  storageKeyword_eq := c.storageKeyword_normalizedQualifier
  acceptsLocation_eq := c.acceptsLocation_normalizedQualifier
  acceptsImageFormat_eq := c.acceptsImageFormat_normalizedQualifier

/-! ### The names stay -/

theorem keepsNames_normalization (c : Config) : c.normalization.KeepsNames where
  name_eq _ := rfl
  functionName_eq _ := rfl
  typeName_eq _ := rfl
  member_eq _ _ := rfl
  blockMember_eq _ := rfl

theorem map_token_normalization (c : Config) (tokens : List Token) :
    tokens.map c.normalization.token = tokens :=
  c.keepsNames_normalization.map_token tokens

end Config

/-! ### Errors -/

/-- An error without the qualifier that it names. -/
def RenderError.withoutQualifier : RenderError → RenderError
  | .imageFormatContext _ => .imageFormatContext .temporary
  | cause => cause

namespace Renderer

/-- A failure of the normalized tree becomes the same error but for the qualifier. -/
theorem withoutQualifier_of_explains {r : Renderer} {cause cause' : ConstantFailure}
    (h : r.config.normalization.Explains cause cause') (seed : NameTable) :
    (r.constantError seed cause').withoutQualifier =
      (r.constantError seed cause).withoutQualifier := by
  cases h with
  | underflow type needed available => rw [r.config.keepsNames_normalization.spelling_eq]
  | _ => rfl

/-- **What the target does without has no influence.** A tree and the normalized one can both be
written, with the same text and the same table, or neither can, and then the errors are the same but
for the qualifier that one of them names. -/
theorem renderFrom_normalization (r : Renderer) (seed : NameTable) (root : Node) :
    (r.renderFrom seed (r.config.normalization.node root)).mapError RenderError.withoutQualifier =
      (r.renderFrom seed root).mapError RenderError.withoutQualifier := by
  have htokens := Relabelling.corresponds_tokens (r := r) r.config.respects_normalization root
  rw [renderFrom_eq_spellAll, renderFrom_eq_spellAll]
  revert htokens
  generalize r.tokens root = x
  generalize r.tokens (r.config.normalization.node root) = x'
  rintro (tokens | hcause)
  · rw [r.config.map_token_normalization]
  · exact congrArg Except.error (withoutQualifier_of_explains hcause seed)

end Renderer

end ShaderText
