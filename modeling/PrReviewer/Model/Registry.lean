import PrReviewer.Model.Ingress

/-!
# `ModelRegistry`

The model aliases of the configuration, and what each of them resolves to.
-/

set_option autoImplicit false

namespace PrReviewer.Model

/-- `ProviderSpec` -/
structure ProviderSpec where
  provider : String
  model : String
  enabled : Bool := true
  authEnv : Option String := none
  deriving DecidableEq, Repr

/-- `ResolvedModel` -/
structure ResolvedModel where
  name : String
  provider : String
  model : String
  authRef : String
  deriving DecidableEq, Repr

/-- `UnknownAliasError` -/
structure UnknownAliasError where
  name : String
  validAliases : List String
  deriving DecidableEq, Repr

/-- The registry of a configuration, with the entry of each alias in `providers`. -/
structure ModelRegistry where
  config : Config
  entry : String → ProviderSpec

namespace ModelRegistry

/-- `valid_aliases` -/
def validAliases (reg : ModelRegistry) : List String :=
  reg.config.providers.mergeSort (· ≤ ·)

/-- `resolve` -/
def resolve (reg : ModelRegistry) (asked : Option String) : Except UnknownAliasError ResolvedModel :=
  let a := if truthy asked then orEmpty asked else reg.config.defaultModel
  if a ∈ reg.config.providers then
    let entry := reg.entry a
    if entry.enabled then
      .ok { name := a, provider := entry.provider, model := entry.model,
            authRef := if truthy entry.authEnv then orEmpty entry.authEnv else "OPENCODE_GO_TOKEN" }
    else .error ⟨a, reg.validAliases⟩
  else .error ⟨a, reg.validAliases⟩

/-- `resolve` accepts the alias. -/
def Accepts (reg : ModelRegistry) (a : String) : Prop :=
  ∃ resolved, reg.resolve (some a) = .ok resolved

/-- The help text of `_reply_post` lists the keys of `providers`. -/
theorem usage_validAliases (reg : ModelRegistry) :
    usage reg.validAliases = usage reg.config.providers := by
  unfold usage validAliases
  rw [List.mergeSort_of_pairwise]
  apply List.pairwise_mergeSort
  · intro a b c hab hbc
    simp only [decide_eq_true_eq] at hab hbc ⊢
    exact String.le_trans hab hbc
  · intro a b
    simpa using String.le_total a b

/-- The aliases that are accepted are those of the enabled providers. -/
theorem accepts_iff {reg : ModelRegistry} {a : String} (ha : a ≠ "") :
    reg.Accepts a ↔ a ∈ reg.config.providers ∧ (reg.entry a).enabled = true := by
  have ht : truthy (some a) = true := (truthy_some a).mpr ha
  unfold Accepts resolve
  simp only [ht, if_true, orEmpty, Option.getD_some]
  by_cases hmem : a ∈ reg.config.providers
  · by_cases henabled : (reg.entry a).enabled = true
    · simp [hmem, henabled]
    · simp [hmem, henabled]
  · simp [hmem]

end ModelRegistry

end PrReviewer.Model
