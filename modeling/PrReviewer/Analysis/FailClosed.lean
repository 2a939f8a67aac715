import PrReviewer.Model.Load

/-!
# When validation is fail-closed

`validate` ends with a built-in exception exactly if some value it reads on the way has the
wrong type for the operation used on it: `Readable` says when the checks themselves get
through, `Silent` when they report nothing, and `Convertible` when the `Config` can be built
then. None of them runs the validator; each is a condition on the tree.
-/

set_option autoImplicit false

namespace PrReviewer.Model.Load

open PrReviewer.Library

variable {rules : TextRules}

/-! ## Reading a field -/

/-- `int(section.get(key, default))` returns. -/
def ReadsInt (rules : TextRules) (v : Value) (key : String) (default : Int) : Prop :=
  v.isMap = true ∧ (v.getD key (number default)).readsInt rules = true

/-- `str(section.get(key, default))` returns. -/
def ReadsText (v : Value) (key default : String) : Prop :=
  v.isMap = true ∧ (v.getD key (.ofText default)).printable = true

/-- A computation runs exactly when it has a result. -/
theorem exists_eq_ok {ε α : Type} {x : Except ε α} : (∃ a, x = .ok a) ↔ Runs x :=
  Iff.rfl

/-- A numeric field is read exactly when `int` takes its value. -/
theorem runs_intField {v : Value} {key : String} {default : Int} :
    Runs (intField rules v key default) ↔ ReadsInt rules v key default := by
  unfold intField ReadsInt
  rw [Value.runs_bind_get, Value.runs_toInt]

/-- A text field is read exactly when its value can be printed. -/
theorem runs_textField {v : Value} {key default : String} :
    Runs (textField rules v key default) ↔ ReadsText v key default := by
  unfold textField ReadsText
  rw [Value.runs_bind_get, Value.runs_text]

/-- A loop that collects errors collects none exactly if no turn of it reports one. -/
theorem collected_eq_nil {α β : Type} {f : α → Except PyError (List String × β)}
    {good : α → Prop} (hf : ∀ a row, f a = .ok row → (row.1 = [] ↔ good a)) {l : List α}
    {rows : List (List String × β)} (h : l.mapM f = .ok rows) :
    rows.flatMap Prod.fst = [] ↔ ∀ a ∈ l, good a := by
  have hall := mapM_eq_ok.mp h
  clear h
  induction hall with
  | nil => simp
  | @cons a row l rows hrow _ ih =>
    rw [List.flatMap_cons, List.append_eq_nil_iff, List.forall_mem_cons]
    exact and_congr (hf a row hrow) ih

/-! ## `providers` -/

/-- The provider is a mapping with a provider and a model. -/
def namesModel (spec : Value) : Bool :=
  spec.isMap && (spec.getD "provider" null).truthy && (spec.getD "model" null).truthy

/-- The loop over `providers` gets through this entry: its alias is written only into an
error. -/
def ProviderReads (entry : Scalar × Value) : Prop :=
  (namesModel entry.2 = true ∨ entry.1.printable = true) ∧
    (entry.2.isMap = true → ReadsText entry.2 "provider" "" ∧ ReadsText entry.2 "model" "")

/-- A required field is checked without raising unless its error would have to print an unprintable
name. -/
theorem runs_required {name : Scalar} {key : String} {v : Value} :
    Runs (required rules name key v) ↔ v.truthy = true ∨ name.printable = true := by
  unfold required
  split
  · rename_i h
    simp [h]
  · rename_i h
    rw [runs_bind_of_iff (p := True) fun _ _ => iff_true_intro (runs_pure _), Scalar.runs_text]
    simp [h]

/-- A required field is accepted exactly when it is truthy. -/
theorem required_eq_nil {name : Scalar} {key : String} {v : Value} {errors : List String}
    (h : required rules name key v = .ok errors) : errors = [] ↔ v.truthy = true := by
  unfold required at h
  split at h
  · rename_i ht
    cases h
    simp [ht]
  · rename_i ht
    obtain ⟨text, -, hpure⟩ := bind_eq_ok.mp h
    cases hpure
    simp [ht]

/-- A provider's entry is read exactly when its fields are. -/
theorem runs_readProvider {entry : Scalar × Value} :
    Runs (readProvider rules entry) ↔ ProviderReads entry := by
  obtain ⟨name, spec⟩ := entry
  unfold readProvider ProviderReads namesModel
  simp only
  split
  · rename_i hmap
    simp only [runs_bind, runs_pure, and_true, exists_and_right, exists_eq_ok, runs_required,
      runs_textField, hmap, Bool.true_and, Bool.and_eq_true, true_implies]
    tauto
  · rename_i hmap
    rw [runs_bind_of_iff (p := True) fun _ _ => iff_true_intro (runs_pure _), Scalar.runs_text]
    simp [hmap]

/-- A provider that is read without an error keeps its alias and its switch. -/
theorem readProvider_spec {entry : Scalar × Value}
    {row : List String × Option (Scalar × ProviderSpec)}
    (h : readProvider rules entry = .ok row) :
    (row.1 = [] ↔ namesModel entry.2 = true) ∧
      (namesModel entry.2 = true → ∃ spec, row.2 = some (entry.1, spec) ∧
        spec.enabled = (entry.2.getD "enabled" (flag true)).truthy) := by
  obtain ⟨name, spec⟩ := entry
  unfold readProvider at h
  unfold namesModel
  simp only at h
  split at h
  · rename_i hmap
    obtain ⟨noProvider, hprovider, h⟩ := bind_eq_ok.mp h
    obtain ⟨noModel, hmodel, h⟩ := bind_eq_ok.mp h
    obtain ⟨provider, -, h⟩ := bind_eq_ok.mp h
    obtain ⟨model, -, h⟩ := bind_eq_ok.mp h
    cases h
    refine ⟨?_, fun _ => ⟨_, rfl, rfl⟩⟩
    rw [List.append_eq_nil_iff, required_eq_nil hprovider, required_eq_nil hmodel]
    simp [hmap]
  · rename_i hmap
    obtain ⟨text, -, h⟩ := bind_eq_ok.mp h
    cases h
    simp [hmap]

/-- The providers are read exactly when every entry is. -/
theorem runs_readProviders {raw : Value} :
    Runs (readProviders rules raw) ↔ ∀ entry ∈ providerEntries raw, ProviderReads entry := by
  unfold readProviders
  rw [runs_bind_of_iff (p := True) fun _ _ => iff_true_intro (runs_pure _), runs_mapM, and_true]
  simp only [runs_readProvider]

/-- What the aliases of `providers` lead to, if nothing is reported about them. -/
theorem readProviders_spec {raw : Value} {errors : List String}
    {providers : List (Scalar × ProviderSpec)}
    (h : readProviders rules raw = .ok (errors, providers)) :
    (errors = [] ↔ providerEntries raw ≠ [] ∧
        ∀ entry ∈ providerEntries raw, namesModel entry.2 = true) ∧
      ((∀ entry ∈ providerEntries raw, namesModel entry.2 = true) → ∀ s : Scalar,
        (providers.find? fun e => e.1.same s).map (fun e => e.2.enabled) =
          ((providerEntries raw).find? fun e => e.1.same s).map fun e =>
            (e.2.getD "enabled" (flag true)).truthy) := by
  unfold readProviders at h
  obtain ⟨rows, hrows, hpure⟩ := bind_eq_ok.mp h
  cases hpure
  constructor
  · rw [List.append_eq_nil_iff,
      collected_eq_nil (fun _ _ hrow => (readProvider_spec hrow).1) hrows]
    cases providerEntries raw <;> simp
  · intro hgood s
    have hall := mapM_eq_ok.mp hrows
    generalize providerEntries raw = entries at hall hgood
    clear h hrows
    induction hall with
    | nil => rfl
    | @cons entry row entries rows hrow _ ih =>
      obtain ⟨spec, hspec, henabled⟩ := (readProvider_spec hrow).2 (hgood entry List.mem_cons_self)
      have hrest := ih fun e he => hgood e (List.mem_cons_of_mem _ he)
      rw [List.filterMap_cons_some hspec]
      cases hsame : entry.1.same s with
      | true => simp [hsame, henabled]
      | false => simpa [hsame] using hrest

/-! ## `default_model`, `switch_default` -/

/-- The default model is checked exactly when it is hashable. -/
theorem runs_checkDefaultModel {providers : List (Scalar × ProviderSpec)} {raw : Value} :
    Runs (checkDefaultModel providers raw) ↔
      (raw.getD "default_model" (.ofText "free")).hashable = true := by
  unfold checkDefaultModel
  rw [runs_bind_of_iff (p := True), Value.runs_lookup, and_true]
  intro found _
  cases found <;> exact iff_true_intro (runs_pure _)

/-- The switch's default is checked exactly when it is hashable. -/
theorem runs_checkSwitchDefault {providers : List (Scalar × ProviderSpec)} {raw : Value} :
    Runs (checkSwitchDefault providers raw) ↔
      (raw.getD "switch_default" null).hashable = true := by
  unfold checkSwitchDefault
  simp only
  split
  · rename_i heq
    rw [heq]
    exact iff_of_true (runs_pure _) rfl
  · rw [runs_bind_of_iff (p := True), Value.runs_lookup, and_true]
    intro found _
    cases found <;> exact iff_true_intro (runs_pure _)

/-- The value is an alias of `providers`, with this `enabled` switch. -/
def AliasIs (raw v : Value) (enabled : Bool) : Prop :=
  ∃ s, v = .scalar s ∧
    ((providerEntries raw).find? fun e => e.1.same s).map
      (fun e => (e.2.getD "enabled" (flag true)).truthy) = some enabled

section Aliases

variable {raw : Value} {providers : List (Scalar × ProviderSpec)} (hsame : ∀ s : Scalar,
    (providers.find? fun e => e.1.same s).map (fun e => e.2.enabled) =
      ((providerEntries raw).find? fun e => e.1.same s).map fun e =>
        (e.2.getD "enabled" (flag true)).truthy)

include hsame

/-- Looking an alias up among the providers that were read. -/
theorem lookup_iff {v : Value} {found : Option ProviderSpec} (h : v.lookup providers = .ok found)
    (enabled : Bool) : found.map ProviderSpec.enabled = some enabled ↔ AliasIs raw v enabled := by
  cases v with
  | list items => cases h
  | map entries => cases h
  | scalar s =>
    cases h
    have hs := hsame s
    unfold AliasIs
    rw [Option.map_map]
    constructor
    · exact fun heq => ⟨s, rfl, hs.symm.trans heq⟩
    · rintro ⟨s', heq, hfind⟩
      cases heq
      exact hs.trans hfind

/-- The default model is accepted exactly when it is an enabled alias. -/
theorem checkDefaultModel_eq_nil {errors : List String}
    (h : checkDefaultModel providers raw = .ok errors) :
    errors = [] ↔ AliasIs raw (raw.getD "default_model" (.ofText "free")) true := by
  unfold checkDefaultModel at h
  obtain ⟨found, hfound, h⟩ := bind_eq_ok.mp h
  rw [← lookup_iff hsame hfound]
  cases found with
  | none =>
    cases h
    simp
  | some spec =>
    cases h
    cases henabled : spec.enabled <;> simp [henabled]

/-- The switch's default is accepted exactly when it is absent or an alias. -/
theorem checkSwitchDefault_eq_nil {errors : List String}
    (h : checkSwitchDefault providers raw = .ok errors) :
    errors = [] ↔ raw.getD "switch_default" null = null ∨
      ∃ enabled, AliasIs raw (raw.getD "switch_default" null) enabled := by
  unfold checkSwitchDefault at h
  simp only at h
  split at h
  · rename_i heq
    cases h
    exact iff_of_true rfl (Or.inl heq)
  · rename_i hne
    obtain ⟨found, hfound, h⟩ := bind_eq_ok.mp h
    have hiff := lookup_iff hsame hfound
    cases found with
    | none =>
      cases h
      simp only [List.cons_ne_nil, false_iff, not_or, not_exists]
      refine ⟨hne, fun enabled hal => ?_⟩
      have hnone := (hiff enabled).mpr hal
      cases hnone
    | some spec =>
      cases h
      exact iff_of_true rfl (Or.inr ⟨spec.enabled, (hiff _).mp rfl⟩)

end Aliases

/-! ## `repo_config` -/

/-- The loop over `repo_config` gets through this entry. -/
def RepoReads (entry : Value) : Prop :=
  namesRepo entry = true →
    (entry.getD "owner" null).printable = true ∧ (entry.getD "repo" null).printable = true

/-- A repository's entry is read exactly when its fields are. -/
theorem runs_readRepo {entry : Value} : Runs (readRepo rules entry) ↔ RepoReads entry := by
  unfold readRepo RepoReads
  split
  · rename_i hnames
    simp only [runs_bind, runs_pure, and_true, exists_and_right, exists_eq_ok, Value.runs_text,
      hnames, true_implies]
  · rename_i hnames
    exact iff_of_true (runs_pure _) fun h => absurd h hnames

/-- A repository's entry is accepted exactly when it names one. -/
theorem readRepo_eq_nil {entry : Value} {row : List String × Option RepoSpec}
    (h : readRepo rules entry = .ok row) : row.1 = [] ↔ namesRepo entry = true := by
  unfold readRepo at h
  split at h
  · rename_i hnames
    obtain ⟨owner, -, h⟩ := bind_eq_ok.mp h
    obtain ⟨repo, -, h⟩ := bind_eq_ok.mp h
    cases h
    simp [hnames]
  · rename_i hnames
    cases h
    simp [hnames]

/-- The items of `repo_config`, if it is a list. -/
def repoItems (raw : Value) : List Value :=
  match raw.getD "repo_config" null with
  | .list items => items
  | _ => []

/-- `repo_config` is falsy, a list, a mapping or a text. -/
def reposIterable (raw : Value) : Bool :=
  ((raw.getD "repo_config" null).orElse (.list [])).iterable

/-- The loop goes through the items of the list, or through no mapping at all. -/
theorem repoEntries_cases {raw : Value} {entries : List Value}
    (h : repoEntries raw = .ok entries) :
    entries = repoItems raw ∨ (repoItems raw = [] ∧ listsRepos raw = false ∧
      ∀ entry ∈ entries, namesRepo entry = false) := by
  have hscalar : ∀ {β : Type} (l : List β) (f : β → Scalar),
      ∀ entry ∈ l.map fun x => Value.scalar (f x), namesRepo entry = false := by
    intro β l f entry hentry
    obtain ⟨x, -, rfl⟩ := List.mem_map.mp hentry
    rfl
  unfold repoEntries Value.orElse at h
  unfold repoItems listsRepos
  split at h
  · cases hraw : raw.getD "repo_config" null with
    | list items =>
      rw [hraw] at h
      cases h
      exact Or.inl rfl
    | map es =>
      rw [hraw] at h
      cases h
      exact Or.inr ⟨rfl, rfl, hscalar es Prod.fst⟩
    | scalar s =>
      rw [hraw] at h
      cases s with
      | str t =>
        cases h
        exact Or.inr ⟨rfl, rfl, hscalar t.toList fun c => .str (String.ofList [c])⟩
      | bytes data =>
        cases h
        exact Or.inr ⟨rfl, rfl, hscalar data fun b => .int b.toNat⟩
      | stamp instant => cases h
      | null => cases h
      | bool b => cases h
      | int n => cases h
      | float x => cases h
  · rename_i hfalsy
    cases h
    left
    cases hraw : raw.getD "repo_config" null with
    | list items =>
      rw [hraw] at hfalsy
      cases items with
      | nil => rfl
      | cons item items => exact absurd rfl hfalsy
    | map es => rfl
    | scalar s => rfl

/-- The repositories are read exactly when they can be iterated and every entry is read. -/
theorem runs_readRepos {raw : Value} :
    Runs (readRepos rules raw) ↔
      reposIterable raw = true ∧ ∀ entry ∈ repoItems raw, RepoReads entry := by
  unfold readRepos reposIterable
  rw [runs_bind_of_iff (p := ∀ entry ∈ repoItems raw, RepoReads entry)]
  · exact and_congr_left' Value.runs_iterate
  · intro entries hentries
    rw [runs_bind_of_iff (p := True) fun _ _ => iff_true_intro (runs_pure _), runs_mapM, and_true]
    simp only [runs_readRepo]
    rcases repoEntries_cases hentries with rfl | ⟨hnil, -, hno⟩
    · rfl
    · rw [hnil]
      refine iff_of_true (fun entry hentry hnames => ?_) (by simp)
      rw [hno entry hentry] at hnames
      cases hnames

/-- The repositories are accepted exactly when they are listed and every entry names one. -/
theorem readRepos_eq_nil {raw : Value} {errors : List String} {repos : List RepoSpec}
    (h : readRepos rules raw = .ok (errors, repos)) :
    errors = [] ↔ listsRepos raw = true ∧ ∀ entry ∈ repoItems raw, namesRepo entry = true := by
  unfold readRepos at h
  obtain ⟨entries, hentries, h⟩ := bind_eq_ok.mp h
  obtain ⟨rows, hrows, h⟩ := bind_eq_ok.mp h
  cases h
  rw [List.append_eq_nil_iff, collected_eq_nil (fun _ _ hrow => readRepo_eq_nil hrow) hrows]
  rcases repoEntries_cases hentries with rfl | ⟨-, hlist, -⟩
  · cases hlist : listsRepos raw <;> simp
  · simp [hlist]

/-! ## The sections -/

/-- The gate's section is read exactly when its two numbers are. -/
theorem runs_readCiGate {raw : Value} :
    Runs (readCiGate rules raw) ↔ ReadsInt rules (sectionOf raw "ci_gate") "settle_seconds" 75 ∧
      ReadsInt rules (sectionOf raw "ci_gate") "wait_cap_minutes" 60 := by
  unfold readCiGate
  simp only [runs_bind, runs_pure, and_true, exists_and_right, exists_eq_ok, Value.runs_get,
    runs_intField]
  exact ⟨fun h => h.2, fun h => ⟨h.1.1, h⟩⟩

/-- The skill set is read exactly when its base is and its items can be printed. -/
theorem runs_readSkillSet {raw : Value} :
    Runs (readSkillSet rules raw) ↔
      ReadsText (sectionOf raw "agent_skill_set") "base" "/code-review" ∧
        ∀ item ∈ situationalItems raw, item.printable = true := by
  unfold readSkillSet
  simp only [runs_bind, runs_pure, and_true, exists_and_right, exists_eq_ok, runs_textField,
    runs_mapM, Value.runs_text]

/-- The skill set is accepted exactly when the situational skills are a list. -/
theorem readSkillSet_eq_nil {raw : Value} {errors : List String} {skills : AgentSkillSet}
    (h : readSkillSet rules raw = .ok (errors, skills)) :
    errors = [] ↔ (situationalOf raw).isList = true := by
  unfold readSkillSet at h
  obtain ⟨base, -, h⟩ := bind_eq_ok.mp h
  obtain ⟨situational, -, h⟩ := bind_eq_ok.mp h
  cases h
  cases (situationalOf raw).isList <;> simp

/-- Whatever the default of `binary` is, it can be printed. -/
theorem readsText_default {v : Value} {key default default' : String} :
    ReadsText v key default ↔ ReadsText v key default' := by
  unfold ReadsText
  cases v with
  | scalar s => rfl
  | list items => rfl
  | map entries =>
    simp only [Value.getD]
    cases Value.pair? entries (.str key) with
    | none => exact Iff.rfl
    | some v => exact Iff.rfl

/-- The runner's section is read exactly when its two texts are. -/
theorem runs_readRunner {raw : Value} :
    Runs (readRunner rules raw) ↔ ReadsText (sectionOf raw "runner") "type" "antigravity" ∧
      ReadsText (sectionOf raw "runner") "binary" "opencode" := by
  unfold readRunner
  simp only
  rw [runs_bind_of_iff (p := ReadsText (sectionOf raw "runner") "binary" "opencode"),
    runs_textField]
  intro type _
  rw [runs_bind_of_iff (p := True) fun _ _ => iff_true_intro (runs_pure _), runs_textField, and_true]
  exact readsText_default

/-- The webhook's secret is checked exactly when it can be printed. -/
theorem runs_checkWebhookSecret {raw : Value} :
    Runs (checkWebhookSecret rules raw) ↔
      (raw.getD "webhook_secret" null).printable = true := by
  unfold checkWebhookSecret
  split
  · rename_i heq
    rw [heq]
    exact iff_of_true (runs_pure _) rfl
  · rw [runs_bind_of_iff (p := True) fun _ _ => iff_true_intro (runs_pure _), Value.runs_text,
      and_true]

/-- The webhook secret is absent or has sixteen characters. -/
def SecretLong (rules : TextRules) (raw : Value) : Prop :=
  raw.getD "webhook_secret" null = null ∨
    ∀ text, (raw.getD "webhook_secret" null).text rules = .ok text → 16 ≤ text.length

/-- The webhook's secret is accepted exactly when it is long enough. -/
theorem checkWebhookSecret_eq_nil {raw : Value} {errors : List String}
    (h : checkWebhookSecret rules raw = .ok errors) : errors = [] ↔ SecretLong rules raw := by
  unfold checkWebhookSecret at h
  unfold SecretLong
  split at h
  · rename_i heq
    cases h
    exact iff_of_true rfl (Or.inl heq)
  · rename_i hne
    obtain ⟨text, htext, h⟩ := bind_eq_ok.mp h
    cases h
    have hnot : raw.getD "webhook_secret" null ≠ null := hne
    simp only [hnot, false_or, htext, Except.ok.injEq, forall_eq']
    by_cases hlen : text.length < 16
    · simp [hlen]
    · simp [hlen, Nat.le_of_not_lt hlen]

/-! ## The conditions -/

/-- Every operation of the checks returns. -/
structure Readable (rules : TextRules) (raw : Value) : Prop where
  providers : ∀ entry ∈ providerEntries raw, ProviderReads entry
  defaultModel : (raw.getD "default_model" (.ofText "free")).hashable = true
  switchDefault : (raw.getD "switch_default" null).hashable = true
  repoConfig : reposIterable raw = true
  repos : ∀ entry ∈ repoItems raw, RepoReads entry
  settleSeconds : ReadsInt rules (sectionOf raw "ci_gate") "settle_seconds" 75
  waitCapMinutes : ReadsInt rules (sectionOf raw "ci_gate") "wait_cap_minutes" 60
  baseSkill : ReadsText (sectionOf raw "agent_skill_set") "base" "/code-review"
  situational : ∀ item ∈ situationalItems raw, item.printable = true
  runnerType : ReadsText (sectionOf raw "runner") "type" "antigravity"
  runnerBinary : ReadsText (sectionOf raw "runner") "binary" "opencode"
  webhookSecret : (raw.getD "webhook_secret" null).printable = true

/-- No check reports an error. -/
structure Silent (rules : TextRules) (raw : Value) : Prop where
  providers : providerEntries raw ≠ [] ∧ ∀ entry ∈ providerEntries raw, namesModel entry.2 = true
  defaultModel : AliasIs raw (raw.getD "default_model" (.ofText "free")) true
  switchDefault : raw.getD "switch_default" null = null ∨
    ∃ enabled, AliasIs raw (raw.getD "switch_default" null) enabled
  repoConfig : listsRepos raw = true ∧ ∀ entry ∈ repoItems raw, namesRepo entry = true
  denylist : (denylistOf raw).isList = true
  situational : (situationalOf raw).isList = true
  webhookSecret : SecretLong rules raw

/-- The items of a list. -/
def itemsOf : Value → List Value
  | .list items => items
  | _ => []

/-- The value under `backoff_seconds`. -/
def backoffOf (raw : Value) : Value :=
  (sectionOf raw "retry").getD "backoff_seconds" (.list [number 30, number 120])

/-- Every operation of the construction of the `Config` returns. -/
structure Convertible (rules : TextRules) (raw : Value) : Prop where
  defaultModel : (raw.getD "default_model" (.ofText "free")).printable = true
  denylist : ∀ item ∈ itemsOf (denylistOf raw), item.printable = true
  concurrency : ReadsInt rules (sectionOf raw "defaults") "concurrency" 1
  diskCapBytes : ReadsInt rules (sectionOf raw "defaults") "disk_cap_bytes"
    (10 * 1024 * 1024 * 1024)
  reconcileInterval : ReadsInt rules raw "reconcile_interval_seconds" 300
  maxAttempts : ReadsInt rules (sectionOf raw "retry") "max_attempts" 3
  backoffSeconds : ∃ items, (backoffOf raw).iterate = .ok items ∧
    ∀ item ∈ items, item.readsInt rules = true
  specsDocsDir : ReadsText raw "specs_docs_dir" "specs"
  workspaceCacheDir : ReadsText raw "workspace_cache_dir" "/var/agent_cache/repos"
  ngrokAgentUrl : ReadsText raw "ngrok_agent_url" "http://ngrok:4040"
  webhookSecretEnv : ReadsText raw "webhook_secret_env" "WEBHOOK_SECRET"
  githubTokenEnv : ReadsText raw "github_token_env" "GITHUB_TOKEN"

/-! ## `validate` -/

/-- **The checks get through** exactly if every value they read has a fitting type. -/
theorem runs_front {raw : Value} : Runs (front rules raw) ↔ Readable rules raw := by
  unfold front
  constructor
  · intro h
    obtain ⟨⟨_, providers⟩, hproviders, h⟩ := runs_bind.mp h
    obtain ⟨_, hdefault, h⟩ := runs_bind.mp h
    obtain ⟨_, hswitch, h⟩ := runs_bind.mp h
    obtain ⟨⟨_, _⟩, hrepos, h⟩ := runs_bind.mp h
    obtain ⟨_, hgate, h⟩ := runs_bind.mp h
    obtain ⟨⟨_, _⟩, hskills, h⟩ := runs_bind.mp h
    obtain ⟨_, hrunner, h⟩ := runs_bind.mp h
    obtain ⟨_, hsecret, -⟩ := runs_bind.mp h
    obtain ⟨hiter, hentries⟩ := runs_readRepos.mp ⟨_, hrepos⟩
    obtain ⟨hsettle, hcap⟩ := runs_readCiGate.mp ⟨_, hgate⟩
    obtain ⟨hbase, hitems⟩ := runs_readSkillSet.mp ⟨_, hskills⟩
    obtain ⟨htype, hbinary⟩ := runs_readRunner.mp ⟨_, hrunner⟩
    exact ⟨runs_readProviders.mp ⟨_, hproviders⟩, runs_checkDefaultModel.mp ⟨_, hdefault⟩,
      runs_checkSwitchDefault.mp ⟨_, hswitch⟩, hiter, hentries, hsettle, hcap, hbase, hitems, htype,
      hbinary, runs_checkWebhookSecret.mp ⟨_, hsecret⟩⟩
  · intro h
    obtain ⟨⟨_, providers⟩, hproviders⟩ := runs_readProviders.mpr h.providers
    obtain ⟨_, hdefault⟩ : Runs (checkDefaultModel providers raw) :=
      runs_checkDefaultModel.mpr h.defaultModel
    obtain ⟨_, hswitch⟩ : Runs (checkSwitchDefault providers raw) :=
      runs_checkSwitchDefault.mpr h.switchDefault
    obtain ⟨⟨_, _⟩, hrepos⟩ := runs_readRepos.mpr ⟨h.repoConfig, h.repos⟩
    obtain ⟨_, hgate⟩ := runs_readCiGate.mpr ⟨h.settleSeconds, h.waitCapMinutes⟩
    obtain ⟨⟨_, _⟩, hskills⟩ := runs_readSkillSet.mpr ⟨h.baseSkill, h.situational⟩
    obtain ⟨_, hrunner⟩ := runs_readRunner.mpr ⟨h.runnerType, h.runnerBinary⟩
    obtain ⟨_, hsecret⟩ := runs_checkWebhookSecret.mpr h.webhookSecret
    refine runs_bind.mpr ⟨_, hproviders, runs_bind.mpr ⟨_, hdefault, runs_bind.mpr ⟨_, hswitch,
      runs_bind.mpr ⟨_, hrepos, runs_bind.mpr ⟨_, hgate, runs_bind.mpr ⟨_, hskills,
      runs_bind.mpr ⟨_, hrunner, runs_bind.mpr ⟨_, hsecret, runs_pure _⟩⟩⟩⟩⟩⟩⟩⟩

/-- **They report nothing** exactly if the tree is as they want it. -/
theorem front_errors_eq_nil {raw : Value} {f : Front} (h : front rules raw = .ok f) :
    f.errors = [] ↔ Silent rules raw := by
  unfold front at h
  obtain ⟨⟨providerErrors, providers⟩, hproviders, h⟩ := bind_eq_ok.mp h
  obtain ⟨defaultErrors, hdefault, h⟩ := bind_eq_ok.mp h
  obtain ⟨switchErrors, hswitch, h⟩ := bind_eq_ok.mp h
  obtain ⟨⟨repoErrors, repoConfig⟩, hrepos, h⟩ := bind_eq_ok.mp h
  obtain ⟨ciGate, -, h⟩ := bind_eq_ok.mp h
  obtain ⟨⟨skillErrors, agentSkillSet⟩, hskills, h⟩ := bind_eq_ok.mp h
  obtain ⟨runner, -, h⟩ := bind_eq_ok.mp h
  obtain ⟨secretErrors, hsecret, h⟩ := bind_eq_ok.mp h
  cases h
  obtain ⟨hnil, hlookup⟩ := readProviders_spec hproviders
  have hdenylist : (if (denylistOf raw).isList then [] else ["denylist must be a list"]) =
      ([] : List String) ↔ (denylistOf raw).isList = true := by
    cases (denylistOf raw).isList <;> simp
  simp only [List.append_eq_nil_iff, hnil, readRepos_eq_nil hrepos, readSkillSet_eq_nil hskills,
    checkWebhookSecret_eq_nil hsecret, hdenylist]
  constructor
  · rintro ⟨⟨⟨⟨⟨⟨hprov, hdef⟩, hsw⟩, hrepo⟩, hdeny⟩, hskill⟩, hsec⟩
    have hsame := hlookup hprov.2
    exact ⟨hprov, (checkDefaultModel_eq_nil hsame hdefault).mp hdef,
      (checkSwitchDefault_eq_nil hsame hswitch).mp hsw, hrepo, hdeny, hskill, hsec⟩
  · rintro ⟨hprov, hdef, hsw, hrepo, hdeny, hskill, hsec⟩
    have hsame := hlookup hprov.2
    exact ⟨⟨⟨⟨⟨⟨hprov, (checkDefaultModel_eq_nil hsame hdefault).mpr hdef⟩,
      (checkSwitchDefault_eq_nil hsame hswitch).mpr hsw⟩, hrepo⟩, hdeny⟩, hskill⟩, hsec⟩

/-- The retry's section is read exactly when its number and its waits are. -/
theorem runs_readRetry {raw : Value} :
    Runs (readRetry rules raw) ↔ ReadsInt rules (sectionOf raw "retry") "max_attempts" 3 ∧
      ∃ items, (backoffOf raw).iterate = .ok items ∧ ∀ item ∈ items, item.readsInt rules = true := by
  unfold readRetry backoffOf
  simp only
  rw [runs_bind_of_iff (p := ReadsInt rules (sectionOf raw "retry") "max_attempts" 3 →
      ∃ items, ((sectionOf raw "retry").getD "backoff_seconds"
        (.list [number 30, number 120])).iterate = .ok items ∧
        ∀ item ∈ items, item.readsInt rules = true), runs_intField]
  · exact ⟨fun h => ⟨h.1, h.2 h.1⟩, fun h => ⟨h.1, fun _ => h.2⟩⟩
  · intro n hn
    have hread := runs_intField.mp ⟨n, hn⟩
    rw [Value.runs_bind_get, runs_bind]
    simp only [runs_bind, runs_pure, and_true, exists_eq_ok, runs_mapM, Value.runs_toInt]
    exact ⟨fun h _ => h.2, fun h => ⟨hread.1, h hread⟩⟩

/-- **The `Config` can be built** exactly if every value it is made of can be converted. -/
theorem runs_build {raw : Value} {f : Front}
    (hdeny : (denylistOf raw).isList = true) :
    Runs (build rules raw f) ↔ Convertible rules raw := by
  have hitems : (denylistOf raw).iterate = .ok (itemsOf (denylistOf raw)) := by
    cases hd : denylistOf raw with
    | list items => rfl
    | map es =>
      rw [hd] at hdeny
      cases hdeny
    | scalar s =>
      rw [hd] at hdeny
      cases hdeny
  unfold build
  simp only [hitems, runs_bind, runs_pure, and_true, exists_and_right, exists_eq_ok, Value.runs_text,
    Value.runs_get, runs_mapM, runs_intField, runs_textField, runs_readRetry, Except.ok.injEq,
    exists_eq_left']
  constructor
  · rintro ⟨h1, h2, h3, h4, h5, h6, ⟨h7, h8⟩, h9, h10, h11, h12, h13⟩
    exact ⟨h1, h2, h3, h4, h6, h7, h8, h9, h10, h11, h12, h13⟩
  · rintro ⟨h1, h2, h3, h4, h6, h7, h8, h9, h10, h11, h12, h13⟩
    exact ⟨h1, h2, h3, h4, h3.1, h6, ⟨h7, h8⟩, h9, h10, h11, h12, h13⟩

/-- `validate` returns a configuration or raises `ConfigError`. -/
def FailsClosed (rules : TextRules) (raw : Value) : Prop :=
  (∃ config, validate rules raw = .ok config) ∨
    ∃ message, validate rules raw = .error (.config message)

/-- **When validation is fail-closed.** For every value: the validator returns a configuration
or raises `ConfigError` exactly if the value is not a mapping, or the checks can read it and
either report something or leave a tree of which the configuration can be built. -/
theorem validate_failsClosed_iff (rules : TextRules) (raw : Value) :
    FailsClosed rules raw ↔
      (raw.isMap = true → Readable rules raw ∧ (Silent rules raw → Convertible rules raw)) := by
  unfold FailsClosed validate
  cases hmap : raw.isMap with
  | false =>
    refine iff_of_true (Or.inr ⟨"config.yaml must be a mapping", rfl⟩) fun h => ?_
    cases h
  | true =>
    simp only [if_true, true_implies]
    cases hfront : front rules raw with
    | error e =>
      have hnot : ¬ Readable rules raw := by
        rw [← runs_front, hfront]
        exact not_runs_error e
      simp [hnot]
    | ok f =>
      have hread : Readable rules raw := runs_front.mp ⟨f, hfront⟩
      have herrors := front_errors_eq_nil hfront
      by_cases hnil : f.errors = []
      · have hsilent := herrors.mp hnil
        have hbuild : Runs (build rules raw f) ↔ _ := runs_build hsilent.denylist
        simp only [if_pos hnil]
        cases hb : build rules raw f with
        | error e =>
          have hnot : ¬ Convertible rules raw := by
            rw [← hbuild, hb]
            exact not_runs_error e
          simp [hread, hsilent, hnot]
        | ok config =>
          have hconv := hbuild.mp ⟨config, hb⟩
          simp [hread, hconv]
      · have hsilent : ¬ Silent rules raw := fun h => hnil (herrors.mpr h)
        simp [hnil, hread, hsilent]

/-- The rules of a reader that knows no texts. -/
def plainRules : TextRules where
  floatText := fun _ => "0.0"
  bytesText := fun _ => "b''"
  stampText := fun _ => "2000-01-01"
  containerText := fun _ => "..."
  readInt := fun _ => none
  readBytes := fun _ => none
  encodes := fun _ => true
  floatText_ne := fun _ => by decide
  bytesText_ne := fun _ => by decide
  stampText_ne := fun _ => by decide
  containerText_ne := fun _ => by decide

/-- A configuration that is complete, with a `settle_seconds` that is left empty. -/
def emptySettle : Value :=
  .map [(.str "providers", .map [(.str "free", .map [(.str "provider", .ofText "opencode"),
      (.str "model", .ofText "o3-mini")])]),
    (.str "repo_config", .list [.map [(.str "owner", .ofText "acme"), (.str "repo", .ofText "app")]]),
    (.str "ci_gate", .map [(.str "settle_seconds", null)])]

/-- It is not answered with a `ConfigError`: `int(None)` raises. -/
theorem emptySettle_raises :
    validate plainRules emptySettle = .error (.raised .type) ∧ ¬ FailsClosed plainRules emptySettle := by
  have hraises : validate plainRules emptySettle = .error (.raised .type) := by rfl
  refine ⟨hraises, ?_⟩
  unfold FailsClosed
  rw [hraises]
  rintro (⟨config, h⟩ | ⟨message, h⟩)
  · cases h
  · cases h

end PrReviewer.Model.Load
