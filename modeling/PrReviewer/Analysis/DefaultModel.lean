import PrReviewer.Analysis.FailClosed
import PrReviewer.Model.LoadedRegistry

/-!
# The default model of a loaded configuration

The validator looks `default_model` up among the keys of `providers` as it stands in the file,
and then turns it into a string; the registry looks that string up. The two lookups agree where
the value was a string to begin with. From there on every call of `switchDefault` keeps a
default that resolves.
-/

set_option autoImplicit false

namespace PrReviewer.Model.Load

open PrReviewer.Library

variable {rules : TextRules}

/-! ## The providers that are loaded -/

/-- The provider and the model of every entry are non-empty. -/
def Filled (providers : List (Scalar × ProviderSpec)) : Prop :=
  ∀ e ∈ providers, e.2.provider ≠ "" ∧ e.2.model ≠ ""

/-- A field of a provider that passes its check is read as a non-empty text. -/
theorem textField_ne_empty {spec : Value} {key t : String}
    (htruthy : (spec.getD key null).truthy = true) (h : textField rules spec key "" = .ok t) :
    t ≠ "" := by
  unfold textField at h
  obtain ⟨v, hv, htext⟩ := bind_eq_ok.mp h
  obtain ⟨-, rfl⟩ := Value.get_eq_ok.mp hv
  rw [Value.getD_of_truthy htruthy] at htext
  exact Value.text_ne_empty htruthy htext

/-- An entry that names its model is read as a filled one. -/
theorem readProvider_filled {entry : Scalar × Value}
    {row : List String × Option (Scalar × ProviderSpec)} (hgood : namesModel entry.2 = true)
    (h : readProvider rules entry = .ok row) {e : Scalar × ProviderSpec} (he : row.2 = some e) :
    e.2.provider ≠ "" ∧ e.2.model ≠ "" := by
  obtain ⟨name, spec⟩ := entry
  unfold namesModel at hgood
  simp only [Bool.and_eq_true] at hgood
  obtain ⟨⟨hmap, hprovider⟩, hmodel⟩ := hgood
  unfold readProvider at h
  simp only [hmap, if_true] at h
  obtain ⟨noProvider, -, h⟩ := bind_eq_ok.mp h
  obtain ⟨noModel, -, h⟩ := bind_eq_ok.mp h
  obtain ⟨provider, hp, h⟩ := bind_eq_ok.mp h
  obtain ⟨model, hm, h⟩ := bind_eq_ok.mp h
  cases h
  cases he
  exact ⟨textField_ne_empty hprovider hp, textField_ne_empty hmodel hm⟩

/-- Entries that name their models are read as filled ones. -/
theorem readProviders_filled {raw : Value} {errors : List String}
    {providers : List (Scalar × ProviderSpec)}
    (hgood : ∀ entry ∈ providerEntries raw, namesModel entry.2 = true)
    (h : readProviders rules raw = .ok (errors, providers)) : Filled providers := by
  unfold readProviders at h
  obtain ⟨rows, hrows, hpure⟩ := bind_eq_ok.mp h
  cases hpure
  intro e he
  obtain ⟨row, hrow, hsome⟩ := List.mem_filterMap.mp he
  obtain ⟨entry, hentry, hread⟩ := exists_of_mem_mapM hrows hrow
  exact readProvider_filled (hgood entry hentry) hread hsome

/-- Every alias of these providers leads to the entry of the file that it named. -/
def Follows (providers : List (Scalar × ProviderSpec)) (raw : Value) : Prop :=
  ∀ s : Scalar, (providers.find? fun e => e.1.same s).map (fun e => e.2.enabled) =
    ((providerEntries raw).find? fun e => e.1.same s).map fun e =>
      (e.2.getD "enabled" (flag true)).truthy

/-- The front half of the check keeps the providers it was given, and keeps them filled. -/
theorem front_providers {raw : Value} {f : Front} (h : front rules raw = .ok f)
    (hgood : ∀ entry ∈ providerEntries raw, namesModel entry.2 = true) :
    Filled f.providers ∧ Follows f.providers raw := by
  unfold front at h
  obtain ⟨⟨errors, providers⟩, hread, h⟩ := bind_eq_ok.mp h
  obtain ⟨_, -, h⟩ := bind_eq_ok.mp h
  obtain ⟨_, -, h⟩ := bind_eq_ok.mp h
  obtain ⟨⟨_, _⟩, -, h⟩ := bind_eq_ok.mp h
  obtain ⟨_, -, h⟩ := bind_eq_ok.mp h
  obtain ⟨⟨_, _⟩, -, h⟩ := bind_eq_ok.mp h
  obtain ⟨_, -, h⟩ := bind_eq_ok.mp h
  obtain ⟨_, -, h⟩ := bind_eq_ok.mp h
  cases h
  exact ⟨readProviders_filled hgood hread, (readProviders_spec hread).2 hgood⟩

/-- The `Config` takes over the providers, and the default as a text. -/
theorem build_spec {raw : Value} {f : Front} {config : Config} (h : build rules raw f = .ok config) :
    config.providers = f.providers ∧
      (raw.getD "default_model" (.ofText "free")).text rules = .ok config.defaultModel := by
  unfold build at h
  obtain ⟨defaultModel, hdefault, h⟩ := bind_eq_ok.mp h
  obtain ⟨_, -, h⟩ := bind_eq_ok.mp h
  obtain ⟨_, -, h⟩ := bind_eq_ok.mp h
  obtain ⟨_, -, h⟩ := bind_eq_ok.mp h
  obtain ⟨_, -, h⟩ := bind_eq_ok.mp h
  obtain ⟨_, -, h⟩ := bind_eq_ok.mp h
  obtain ⟨_, -, h⟩ := bind_eq_ok.mp h
  obtain ⟨_, -, h⟩ := bind_eq_ok.mp h
  obtain ⟨_, -, h⟩ := bind_eq_ok.mp h
  obtain ⟨_, -, h⟩ := bind_eq_ok.mp h
  obtain ⟨_, -, h⟩ := bind_eq_ok.mp h
  obtain ⟨_, -, h⟩ := bind_eq_ok.mp h
  obtain ⟨_, -, h⟩ := bind_eq_ok.mp h
  cases h
  exact ⟨rfl, hdefault⟩

/-- **What a validated configuration keeps of its file**: no check reported an error, every
provider is filled, every alias leads where it did, and the default is the text of
`default_model`. -/
theorem validate_spec {raw : Value} {config : Config} (h : validate rules raw = .ok config) :
    Silent rules raw ∧ Filled config.providers ∧ Follows config.providers raw ∧
      (raw.getD "default_model" (.ofText "free")).text rules = .ok config.defaultModel := by
  unfold validate at h
  split at h
  · split at h
    · cases h
    · rename_i f hfront
      split at h
      · rename_i hnil
        have hsilent := (front_errors_eq_nil hfront).mp hnil
        split at h
        · cases h
        · rename_i built hbuild
          cases h
          obtain ⟨hfilled, hfollows⟩ := front_providers hfront hsilent.providers.2
          obtain ⟨hproviders, htext⟩ := build_spec hbuild
          exact ⟨hsilent, hproviders ▸ hfilled, hproviders ▸ hfollows, htext⟩
      · cases h
  · cases h

/-! ## The registry -/

namespace ModelRegistry

/-- The default is the alias of an enabled provider. -/
def HasDefault (reg : ModelRegistry) : Prop :=
  ∃ entry, reg.defaultModel.lookup reg.providers = .ok (some entry) ∧ entry.enabled = true

/-- `resolve(None)` returns a non-empty provider and model. -/
def Usable (reg : ModelRegistry) : Prop :=
  ∃ resolved, reg.resolve null = .ok resolved ∧ resolved.provider ≠ "" ∧ resolved.model ≠ ""

/-- An alias that is looked up is one of the entries. -/
theorem mem_of_lookup {providers : List (Scalar × ProviderSpec)} {v : Value} {entry : ProviderSpec}
    (h : v.lookup providers = .ok (some entry)) : ∃ key, (key, entry) ∈ providers := by
  cases v with
  | list items => cases h
  | map entries => cases h
  | scalar s =>
    have hfind : (providers.find? fun e => e.1.same s).map Prod.snd = some entry :=
      Except.ok.inj h
    obtain ⟨e, he, rfl⟩ := Option.map_eq_some_iff.mp hfind
    exact ⟨e.1, List.mem_of_find?_eq_some he⟩

/-- With filled entries a registry is usable exactly when its default exists. -/
theorem usable_iff {reg : ModelRegistry} (hfilled : Filled reg.providers) :
    reg.Usable ↔ reg.HasDefault := by
  have hasked : null.orElse reg.defaultModel = reg.defaultModel := rfl
  unfold Usable HasDefault resolve
  simp only [hasked]
  constructor
  · rintro ⟨resolved, h, -⟩
    split at h
    · cases h
    · cases h
    · rename_i entry hentry
      split at h
      · rename_i henabled
        exact ⟨entry, hentry, henabled⟩
      · cases h
  · rintro ⟨entry, hentry, henabled⟩
    obtain ⟨key, hmem⟩ := mem_of_lookup hentry
    obtain ⟨hprovider, hmodel⟩ := hfilled _ hmem
    simp only [hentry, henabled, if_true]
    exact ⟨_, rfl, hprovider, hmodel⟩

/-- **What a call of `switchDefault` does**: it raises and leaves the registry, or it makes the
alias of an enabled provider the default. -/
theorem switchDefault_cases (reg : ModelRegistry) (name : Value) :
    (∃ e, reg.switchDefault name = (some e, reg)) ∨
      ∃ entry, name.lookup reg.providers = .ok (some entry) ∧ entry.enabled = true ∧
        reg.switchDefault name = (none, { reg with defaultModel := name }) := by
  unfold switchDefault
  split
  · exact Or.inl ⟨_, rfl⟩
  · exact Or.inl ⟨_, rfl⟩
  · rename_i entry hentry
    split
    · rename_i henabled
      exact Or.inr ⟨entry, hentry, henabled, rfl⟩
    · exact Or.inl ⟨_, rfl⟩

/-- Switching the default leaves the providers. -/
theorem switchDefault_providers (reg : ModelRegistry) (name : Value) :
    (reg.switchDefault name).2.providers = reg.providers := by
  rcases reg.switchDefault_cases name with ⟨e, h⟩ | ⟨entry, -, -, h⟩
  · rw [h]
  · rw [h]

/-- Switching the default keeps an existing one. -/
theorem switchDefault_hasDefault {reg : ModelRegistry} (h : reg.HasDefault) (name : Value) :
    (reg.switchDefault name).2.HasDefault := by
  rcases reg.switchDefault_cases name with ⟨e, hcall⟩ | ⟨entry, hentry, henabled, hcall⟩
  · rw [hcall]
    exact h
  · rw [hcall]
    exact ⟨entry, hentry, henabled⟩

/-- No sequence of switches changes the providers. -/
theorem switches_providers (reg : ModelRegistry) (names : List Value) :
    (reg.switches names).providers = reg.providers := by
  unfold switches
  induction names generalizing reg with
  | nil => rfl
  | cons name names ih =>
    rw [List.foldl_cons, ih, switchDefault_providers]

/-- Every history of calls keeps a default that can be used. -/
theorem switches_hasDefault {reg : ModelRegistry} (h : reg.HasDefault) (names : List Value) :
    (reg.switches names).HasDefault := by
  unfold switches
  induction names generalizing reg with
  | nil => exact h
  | cons name names ih => exact ih (switchDefault_hasDefault h name)

/-- After every history of calls the default can be used, and a call that raises leaves it. -/
def DefaultHolds (reg : ModelRegistry) : Prop :=
  ∀ names : List Value, (reg.switches names).Usable ∧
    ∀ name : Value, ((reg.switches names).switchDefault name).1 ≠ none →
      ((reg.switches names).switchDefault name).2.defaultModel = (reg.switches names).defaultModel

/-- With filled entries the default holds through every switch exactly when it exists. -/
theorem defaultHolds_iff {reg : ModelRegistry} (hfilled : Filled reg.providers) :
    reg.DefaultHolds ↔ reg.HasDefault := by
  constructor
  · intro h
    exact (usable_iff hfilled).mp (h []).1
  · intro h names
    constructor
    · rw [usable_iff (by rw [switches_providers]; exact hfilled)]
      exact switches_hasDefault h names
    · intro name hraised
      rcases (reg.switches names).switchDefault_cases name with ⟨e, hcall⟩ | ⟨entry, -, -, hcall⟩
      · rw [hcall]
      · rw [hcall] at hraised
        exact absurd rfl hraised

end ModelRegistry

/-! ## Validated configurations -/

/-- `default_model` is a string, or an enabled provider has its text as an alias. -/
def DefaultNamed (rules : TextRules) (raw : Value) : Prop :=
  (∃ s, raw.getD "default_model" (.ofText "free") = .ofText s) ∨
    ∃ t, (raw.getD "default_model" (.ofText "free")).text rules = .ok t ∧
      AliasIs raw (.ofText t) true

/-- **When a validated configuration has a usable default model.** Of a configuration the
validator returns, `resolve(None)` succeeds with a non-empty provider and model after every
history of `switchDefault` calls, and a raising call leaves the default, exactly if
`default_model` is a string in the file or an enabled provider has its text as an alias. -/
theorem default_usable_iff {raw : Value} {config : Config} (h : validate rules raw = .ok config) :
    config.registry.DefaultHolds ↔ DefaultNamed rules raw := by
  obtain ⟨hsilent, hfilled, hfollows, htext⟩ := validate_spec h
  have hlookup : config.registry.HasDefault ↔ AliasIs raw (.ofText config.defaultModel) true := by
    have hiff := lookup_iff hfollows (v := .ofText config.defaultModel) rfl true
    rw [← hiff, Option.map_eq_some_iff]
    constructor
    · rintro ⟨entry, hentry, henabled⟩
      exact ⟨entry, Except.ok.inj hentry, henabled⟩
    · rintro ⟨entry, hentry, henabled⟩
      exact ⟨entry, congrArg Except.ok hentry, henabled⟩
  rw [ModelRegistry.defaultHolds_iff hfilled, hlookup]
  constructor
  · exact fun halias => Or.inr ⟨_, htext, halias⟩
  · rintro (⟨s, hs⟩ | ⟨t, ht, halias⟩)
    · have hdefault := hsilent.defaultModel
      rw [hs] at htext hdefault
      have hsame : s = config.defaultModel := Except.ok.inj htext
      rwa [← hsame]
    · have hsame : t = config.defaultModel := Except.ok.inj (ht.symm.trans htext)
      rwa [← hsame]

/-- A configuration with one provider under this alias, and this default. -/
def oneProvider (key : Scalar) (default : Value) : Value :=
  .map [(.str "providers", .map [(key, .map [(.str "provider", .ofText "opencode"),
      (.str "model", .ofText "o3-mini")])]),
    (.str "default_model", default),
    (.str "repo_config", .list [.map [(.str "owner", .ofText "acme"), (.str "repo", .ofText "app")]])]

/-- A configuration with the one provider it names has a default that holds. -/
theorem default_usable_iff_free : ∃ config,
    validate plainRules (oneProvider (.str "free") (.ofText "free")) = .ok config ∧
      config.registry.DefaultHolds := by
  have hvalid : validate plainRules (oneProvider (.str "free") (.ofText "free")) = .ok _ := rfl
  exact ⟨_, hvalid, (default_usable_iff hvalid).mpr (Or.inl ⟨"free", rfl⟩)⟩

/-- An alias that is a number is accepted as the default, and then not found. -/
theorem numberedDefault_unusable : ∃ config,
    validate plainRules (oneProvider (.int 1) (number 1)) = .ok config ∧
      config.registry.resolve null = .error .raised ∧ ¬ config.registry.DefaultHolds := by
  refine ⟨_, rfl, rfl, fun h => ?_⟩
  obtain ⟨⟨resolved, hresolved, -⟩, -⟩ := h []
  cases hresolved

end PrReviewer.Model.Load
