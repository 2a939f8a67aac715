import PrReviewer.Library.Dynamic
import PrReviewer.Model.Trigger

/-!
# `config.load.validate`

The validator of `config.yaml`, on any value a YAML parser returns. It collects the texts of
its errors and goes on with the same values, so an operation that raises on the way ends it
with that exception instead. `front` is what it does before it looks at the collected errors,
`build` the construction of the `Config` after that.

A field that is passed through unread is a `Value` here, whatever its annotation says.
-/

set_option autoImplicit false

namespace PrReviewer.Model.Load

open PrReviewer.Library (Value Scalar PyError TextRules)

/-! ## The loaded configuration -/

/-- `ProviderSpec` -/
structure ProviderSpec where
  provider : String
  model : String
  enabled : Bool
  authEnv : Value

/-- `RepoSpec` -/
structure RepoSpec extends Model.RepoSpec where
  defaultModel : Value

/-- `CiGateSpec` -/
structure CiGateSpec where
  enabled : Bool
  settleSeconds : Int
  waitCapMinutes : Int

/-- `RetrySpec` -/
structure RetrySpec where
  maxAttempts : Int
  backoffSeconds : List Int

/-- `AgentSkillSet` -/
structure AgentSkillSet where
  base : String
  situational : List String

/-- `RunnerSpec` -/
structure RunnerSpec where
  type : String
  binary : String

/-- `Config`. The keys of `providers` are those of the file. -/
structure Config where
  providers : List (Scalar × ProviderSpec)
  defaultModel : String
  switchDefault : Value
  repoConfig : List RepoSpec
  denylist : List String
  concurrency : Int
  diskCapBytes : Int
  validatorFilterEnabled : Bool
  ciGate : CiGateSpec
  reconcileIntervalSeconds : Int
  retry : RetrySpec
  specsDocsDir : String
  workspaceCacheDir : String
  ngrokAgentUrl : String
  agentSkillSet : AgentSkillSet
  runner : RunnerSpec
  webhookSecretEnv : String
  githubTokenEnv : String

/-- Why `validate` does not return. -/
inductive LoadError
  /-- `ConfigError` -/
  | config (message : String)
  /-- any other exception -/
  | raised (e : PyError)
  deriving DecidableEq, Repr

/-! ## Fields -/

/-- The null of YAML. -/
def null : Value :=
  .scalar .null

/-- A number of YAML. -/
def number (n : Int) : Value :=
  .scalar (.int n)

/-- A flag of YAML. -/
def flag (b : Bool) : Value :=
  .scalar (.bool b)

/-- `raw.get(key, {}) or {}` -/
def sectionOf (raw : Value) (key : String) : Value :=
  (raw.getD key .empty).orElse .empty

variable (rules : TextRules)

/-- `int(section.get(key, default))` -/
def intField (v : Value) (key : String) (default : Int) : Except PyError Int := do
  (← v.get key (number default)).toInt rules

/-- `str(section.get(key, default))` -/
def textField (v : Value) (key default : String) : Except PyError String := do
  (← v.get key (.ofText default)).text rules

/-! ## `providers` -/

/-- The entries of `providers`, if it is a mapping. -/
def providerEntries (raw : Value) : List (Scalar × Value) :=
  match raw.getD "providers" null with
  | .map entries => entries
  | _ => []

/-- The error for a field of a provider that is falsy. -/
def required (name : Scalar) (key : String) (v : Value) : Except PyError (List String) :=
  if v.truthy then .ok []
  else do return ["providers." ++ (← name.text rules) ++ "." ++ key ++ " is required"]

/-- One turn of the loop over `providers`. -/
def readProvider (entry : Scalar × Value) :
    Except PyError (List String × Option (Scalar × ProviderSpec)) :=
  let (name, spec) := entry
  if spec.isMap then do
    let noProvider ← required rules name "provider" (spec.getD "provider" null)
    let noModel ← required rules name "model" (spec.getD "model" null)
    let provider ← textField rules spec "provider" ""
    let model ← textField rules spec "model" ""
    return (noProvider ++ noModel,
      some (name, {
        provider := provider
        model := model
        enabled := (spec.getD "enabled" (flag true)).truthy
        authEnv := spec.getD "auth_env" null }))
  else do return (["providers." ++ (← name.text rules) ++ " must be a mapping"], none)

/-- The providers, with the errors of their entries. -/
def readProviders (raw : Value) : Except PyError (List String × List (Scalar × ProviderSpec)) := do
  let rows ← (providerEntries raw).mapM (readProvider rules)
  return ((if (providerEntries raw).isEmpty then ["providers must be a non-empty mapping"] else []) ++
      rows.flatMap Prod.fst,
    rows.filterMap Prod.snd)

/-! ## `default_model`, `switch_default` -/

/-- The errors of the default model. -/
def checkDefaultModel (providers : List (Scalar × ProviderSpec)) (raw : Value) :
    Except PyError (List String) := do
  match ← (raw.getD "default_model" (.ofText "free")).lookup providers with
  | none => return ["default_model must be a defined provider alias (REQ-016)"]
  | some spec =>
    return if spec.enabled then [] else ["default_model must reference an enabled alias (REQ-016)"]

/-- The errors of the switch's default. -/
def checkSwitchDefault (providers : List (Scalar × ProviderSpec)) (raw : Value) :
    Except PyError (List String) := do
  let switchDefault := raw.getD "switch_default" null
  match switchDefault with
  | .scalar .null => return []
  | _ =>
    match ← switchDefault.lookup providers with
    | none => return ["switch_default must be a defined provider alias (REQ-016)"]
    | some _ => return []

/-! ## `repo_config`, `denylist` -/

/-- The entry is a mapping with an owner and a repository. -/
def namesRepo (entry : Value) : Bool :=
  entry.isMap && (entry.getD "owner" null).truthy && (entry.getD "repo" null).truthy

/-- One turn of the loop over `repo_config`. -/
def readRepo (entry : Value) : Except PyError (List String × Option RepoSpec) :=
  if namesRepo entry then do
    let owner ← (entry.getD "owner" null).text rules
    let repo ← (entry.getD "repo" null).text rules
    return ([], some {
      owner := owner
      repo := repo
      defaultModel := entry.getD "default_model" null
      enabled := (entry.getD "enabled" (flag true)).truthy
      requireApproval := (entry.getD "require_approval" (flag false)).truthy
      autoMerge := (entry.getD "auto_merge" (flag true)).truthy })
  else return (["repo_config entries need owner and repo"], none)

/-- `repo_config_raw or []`, as the loop goes through it. -/
def repoEntries (raw : Value) : Except PyError (List Value) :=
  ((raw.getD "repo_config" null).orElse (.list [])).iterate

/-- `repo_config` is a list with an entry. -/
def listsRepos (raw : Value) : Bool :=
  (raw.getD "repo_config" null).isList && (raw.getD "repo_config" null).truthy

/-- The repositories, with the errors of their entries. -/
def readRepos (raw : Value) : Except PyError (List String × List RepoSpec) := do
  let entries ← repoEntries raw
  let rows ← entries.mapM (readRepo rules)
  return ((if listsRepos raw then []
      else ["repo_config must list at least one managed repo (REQ-003)"]) ++ rows.flatMap Prod.fst,
    rows.filterMap Prod.snd)

/-- The denied repositories as they are written. -/
def denylistOf (raw : Value) : Value :=
  raw.getD "denylist" (.list [])

/-! ## The sections -/

/-- The gate's section. -/
def readCiGate (raw : Value) : Except PyError CiGateSpec := do
  let ciGate := sectionOf raw "ci_gate"
  let enabled ← ciGate.get "enabled" (flag true)
  let settleSeconds ← intField rules ciGate "settle_seconds" 75
  let waitCapMinutes ← intField rules ciGate "wait_cap_minutes" 60
  return { enabled := enabled.truthy, settleSeconds, waitCapMinutes }

/-- `agent_skill_raw.get("situational", [...])` of a mapping. -/
def situationalOf (raw : Value) : Value :=
  (sectionOf raw "agent_skill_set").getD "situational"
    (.list [.ofText "/diagnosing-bugs", .ofText "/resolving-merge-conflicts"])

/-- What the list of situational skills is read from. -/
def situationalItems (raw : Value) : List Value :=
  match situationalOf raw with
  | .list items => items
  | _ => []

/-- The skill set, with its errors. -/
def readSkillSet (raw : Value) : Except PyError (List String × AgentSkillSet) := do
  let base ← textField rules (sectionOf raw "agent_skill_set") "base" "/code-review"
  let situational ← (situationalItems raw).mapM (Value.text rules)
  return (if (situationalOf raw).isList then []
      else ["agent_skill_set.situational must be a list (REQ-017)"],
    { base, situational })

/-- The `binary` of a runner of this type that names none. -/
def defaultBinary (type : String) : String :=
  if type = "antigravity" ∨ type = "agy" then "agy" else "opencode"

/-- The runner's section. -/
def readRunner (raw : Value) : Except PyError RunnerSpec := do
  let runner := sectionOf raw "runner"
  let type ← textField rules runner "type" "antigravity"
  let binary ← textField rules runner "binary" (defaultBinary type)
  return { type, binary }

/-- The errors of the webhook's secret. -/
def checkWebhookSecret (raw : Value) : Except PyError (List String) :=
  match raw.getD "webhook_secret" null with
  | .scalar .null => return []
  | secret => do
    return if (← secret.text rules).length < 16 then
      ["webhook_secret must be at least 16 characters"] else []

/-! ## `validate` -/

/-- What is read before the errors are raised. -/
structure Front where
  errors : List String
  providers : List (Scalar × ProviderSpec)
  repoConfig : List RepoSpec
  ciGate : CiGateSpec
  agentSkillSet : AgentSkillSet
  runner : RunnerSpec

/-- `validate` up to `if errors:`. -/
def front (raw : Value) : Except PyError Front := do
  let (providerErrors, providers) ← readProviders rules raw
  let defaultErrors ← checkDefaultModel providers raw
  let switchErrors ← checkSwitchDefault providers raw
  let (repoErrors, repoConfig) ← readRepos rules raw
  let denylistErrors := if (denylistOf raw).isList then [] else ["denylist must be a list"]
  let ciGate ← readCiGate rules raw
  let (skillErrors, agentSkillSet) ← readSkillSet rules raw
  let runner ← readRunner rules raw
  let secretErrors ← checkWebhookSecret rules raw
  return {
    errors := providerErrors ++ defaultErrors ++ switchErrors ++ repoErrors ++ denylistErrors ++
      skillErrors ++ secretErrors
    providers, repoConfig, ciGate, agentSkillSet, runner }

/-- `retry` -/
def readRetry (raw : Value) : Except PyError RetrySpec := do
  let retry := sectionOf raw "retry"
  let maxAttempts ← intField rules retry "max_attempts" 3
  let backoff ← retry.get "backoff_seconds" (.list [number 30, number 120])
  let backoffSeconds ← (← backoff.iterate).mapM (Value.toInt rules)
  return { maxAttempts, backoffSeconds }

/-- The construction of the `Config`. -/
def build (raw : Value) (f : Front) : Except PyError Config := do
  let defaultModel ← (raw.getD "default_model" (.ofText "free")).text rules
  let denylist ← (← (denylistOf raw).iterate).mapM (Value.text rules)
  let concurrency ← intField rules (sectionOf raw "defaults") "concurrency" 1
  let diskCapBytes ← intField rules (sectionOf raw "defaults") "disk_cap_bytes" (10 * 1024 * 1024 * 1024)
  let validatorFilter ← (sectionOf raw "defaults").get "validator_filter_enabled" (flag true)
  let reconcileIntervalSeconds ← intField rules raw "reconcile_interval_seconds" 300
  let retry ← readRetry rules raw
  let specsDocsDir ← textField rules raw "specs_docs_dir" "specs"
  let workspaceCacheDir ← textField rules raw "workspace_cache_dir" "/var/agent_cache/repos"
  let ngrokAgentUrl ← textField rules raw "ngrok_agent_url" "http://ngrok:4040"
  let webhookSecretEnv ← textField rules raw "webhook_secret_env" "WEBHOOK_SECRET"
  let githubTokenEnv ← textField rules raw "github_token_env" "GITHUB_TOKEN"
  return {
    providers := f.providers
    defaultModel, denylist, concurrency, diskCapBytes
    switchDefault := raw.getD "switch_default" null
    repoConfig := f.repoConfig
    validatorFilterEnabled := validatorFilter.truthy
    ciGate := f.ciGate
    reconcileIntervalSeconds, retry, specsDocsDir, workspaceCacheDir, ngrokAgentUrl
    agentSkillSet := f.agentSkillSet
    runner := f.runner
    webhookSecretEnv, githubTokenEnv }

/-- `validate` -/
def validate (raw : Value) : Except LoadError Config :=
  if raw.isMap then
    match front rules raw with
    | .error e => .error (.raised e)
    | .ok f =>
      if f.errors = [] then
        match build rules raw f with
        | .error e => .error (.raised e)
        | .ok config => .ok config
      else .error (.config ("; ".intercalate f.errors))
  else .error (.config "config.yaml must be a mapping")

end PrReviewer.Model.Load
