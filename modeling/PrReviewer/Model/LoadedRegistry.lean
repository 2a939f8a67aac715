import PrReviewer.Model.Load

/-!
# `ModelRegistry` on a loaded configuration

The registry as the program builds it: on the `Config` that `validate` returns, whose aliases
are the keys of the file. An alias that is asked for or switched to is any value.
-/

set_option autoImplicit false

namespace PrReviewer.Model.Load

open PrReviewer.Library (Value Scalar)

/-- `ResolvedModel` -/
structure ResolvedModel where
  name : Value
  provider : String
  model : String
  authRef : Value

/-- What `resolve` and `switchDefault` raise. -/
inductive RegistryError
  /-- `UnknownAliasError` -/
  | unknown (name : Value) (validAliases : List String)
  /-- any other exception -/
  | raised

/-- The registry: what it reads and writes of its configuration. -/
structure ModelRegistry where
  providers : List (Scalar × ProviderSpec)
  defaultModel : Value

/-- `ModelRegistry(config)` -/
def Config.registry (config : Config) : ModelRegistry where
  providers := config.providers
  defaultModel := .ofText config.defaultModel

/-- The key, if it is a string. -/
def keyText : Scalar → Option String
  | .str s => some s
  | _ => none

namespace ModelRegistry

variable (reg : ModelRegistry)

/-- `UnknownAliasError(a, self.valid_aliases())`. Keys that are not all strings make `sorted` or
`join` raise, and so does an alias that cannot be written. -/
def unknownAlias (a : Value) : RegistryError :=
  match reg.providers.mapM fun e => keyText e.1 with
  | some keys => if a.printable then .unknown a (keys.mergeSort (· ≤ ·)) else .raised
  | none => .raised

/-- `resolve` -/
def resolve (asked : Value) : Except RegistryError ResolvedModel :=
  let a := asked.orElse reg.defaultModel
  match a.lookup reg.providers with
  | .error _ => .error .raised
  | .ok none => .error (reg.unknownAlias a)
  | .ok (some entry) =>
    if entry.enabled then
      .ok { name := a, provider := entry.provider, model := entry.model,
            authRef := entry.authEnv.orElse (.ofText "OPENCODE_GO_TOKEN") }
    else .error (reg.unknownAlias a)

/-- `switchDefault`: what it raises, and the registry it leaves. -/
def switchDefault (name : Value) : Option RegistryError × ModelRegistry :=
  match name.lookup reg.providers with
  | .error _ => (some .raised, reg)
  | .ok none => (some (reg.unknownAlias name), reg)
  | .ok (some entry) =>
    if entry.enabled then (none, { reg with defaultModel := name })
    else (some (reg.unknownAlias name), reg)

/-- The registry after these calls of `switchDefault`, each of which may have raised. -/
def switches (names : List Value) : ModelRegistry :=
  names.foldl (fun r name => (r.switchDefault name).2) reg

end ModelRegistry

end PrReviewer.Model.Load
