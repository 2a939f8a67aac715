import PrReviewer.Model.Ingress

/-!
# `WebhookRegistrar.reconcile`

The pass over the enabled repositories that points the webhook of each at the tunnel, against
a GitHub whose calls may raise. A call that raises may still have had its effect. `none` as a
result stands for an exception.
-/

set_option autoImplicit false

namespace PrReviewer.Model

/-! ## The webhooks on GitHub -/

/-- The `config` of a webhook: the text of its `url`, if it has that key. -/
structure HookConfig where
  url : Option String := none
  deriving DecidableEq, Repr

/-- An entry of `list_webhooks`. -/
structure HookEntry where
  /-- what `int(hook["id"])` returns, unless it raises -/
  id : Option Int
  config : Option HookConfig := none
  deriving DecidableEq, Repr

/-- `str((h.get("config") or {}).get("url", ""))` -/
def HookEntry.url (h : HookEntry) : String :=
  (h.config.bind HookConfig.url).getD ""

/-- The webhook as `_ensure` reads it, if it has an id. -/
def HookEntry.hook (h : HookEntry) : Hook :=
  ⟨h.id.getD 0, h.url⟩

/-- `url.rstrip("/").endswith(self._webhook_path)` -/
def HookEntry.ours (h : HookEntry) : Bool :=
  webhookPath.toList.isSuffixOf (rstripSlash h.url)

/-- `update_webhook` replaces the `config` of the webhook with this id. -/
def HookEntry.repoint (id : Int) (url : String) (h : HookEntry) : HookEntry :=
  if h.id = some id then { h with config := some { url := some url } } else h

/-- How GitHub serves a call that writes. -/
inductive WriteAnswer
  /-- it is done, and the call returns -/
  | done
  /-- it is not done, and the call raises -/
  | refused
  /-- it is done, and the call raises -/
  | lost
  deriving DecidableEq, Repr

/-- How GitHub serves one visit of the registrar. -/
structure HookAnswers where
  /-- `list_webhooks` returns -/
  lists : Bool := true
  write : WriteAnswer := .done
  /-- the id of a webhook it creates -/
  newId : Option Int := none
  deriving DecidableEq, Repr

/-- The calls of the visit return. -/
def HookAnswers.served (a : HookAnswers) : Prop :=
  a.lists = true ∧ a.write = .done

/-- The repository whose webhooks a call writes to. -/
def GitHubWrite.hookRepo : GitHubWrite → Option (String × String)
  | .createWebhook owner repo _ => some (owner, repo)
  | .updateWebhook owner repo _ _ => some (owner, repo)
  | _ => none

/-! ## The tunnel -/

/-- An entry of `tunnels`. -/
structure Tunnel where
  proto : Option String
  publicUrl : Option String
  deriving DecidableEq, Repr

/-- What `tunnel_public_url` reads. -/
structure TunnelSources where
  /-- `PUBLIC_AGENT_URL` -/
  publicAgentUrl : Option String := none
  /-- `NGROK_PUBLIC_URL` -/
  ngrokPublicUrl : Option String := none
  /-- the tunnels of the ngrok agent, unless asking for them raised -/
  tunnels : Option (List Tunnel) := none
  deriving DecidableEq, Repr

/-- `tunnel_public_url` -/
def TunnelSources.publicUrl (src : TunnelSources) : Option String :=
  let env := if truthy src.publicAgentUrl then src.publicAgentUrl else src.ngrokPublicUrl
  let strip (url : Option String) : Option String :=
    url.map fun url => String.ofList (rstripSlash url)
  if truthy env then strip env
  else
    match src.tunnels with
    | none => none
    | some tunnels =>
      match tunnels.find? fun t => t.proto = some "https" && truthy t.publicUrl with
      | none => none
      | some t => strip t.publicUrl

/-! ## The registrar -/

/-- `"📢 *PR Review Agent Started & Ready!*"` -/
def startedAndReady : String :=
  "📢 *PR Review Agent Started & Ready!*"

/-- The registrar, the webhooks on GitHub, and what has been asked of GitHub and Slack. -/
structure Registrar where
  hooks : String → String → List HookEntry
  /-- `_last_tunnel_url` -/
  lastTunnelUrl : Option String := none
  /-- the calls of `create_webhook` and `update_webhook`, and whether they returned -/
  calls : List (GitHubWrite × Bool) := []
  messages : List String := []

/-- The surroundings of one `reconcile`. -/
structure RegistrarEnv where
  /-- a Slack notifier is present -/
  slack : Bool
  tunnel : TunnelSources
  /-- `send_message` returns -/
  slackOk : Bool := true
  /-- how GitHub serves the visit of the `n`-th enabled repository -/
  answers : Nat → HookAnswers

namespace Registrar

variable (s : Registrar)

/-- A call that writes to the webhooks of a repository. -/
def call (w : GitHubWrite) (owner repo : String) (f : List HookEntry → List HookEntry)
    (a : WriteAnswer) : Option Bool × Registrar :=
  (if a = .done then some true else none,
    { s with
      hooks := fun o r =>
        if o = owner ∧ r = repo ∧ a ≠ .refused then f (s.hooks o r) else s.hooks o r
      calls := s.calls ++ [(w, decide (a = .done))] })

/-- `_ensure` -/
def ensure (owner repo desired : String) (a : HookAnswers) : Option Bool × Registrar :=
  if a.lists then
    match (s.hooks owner repo).find? HookEntry.ours with
    | none =>
      s.call (.createWebhook owner repo desired) owner repo
        (· ++ [{ id := a.newId, config := some { url := some desired } }]) a.write
    | some hook =>
      if rstripSlash hook.url = rstripSlash desired then (some false, s)
      else
        match hook.id with
        | none => (none, s)
        | some id =>
          s.call (.updateWebhook owner repo id desired) owner repo
            (·.map (HookEntry.repoint id desired)) a.write
  else (none, s)

/-- The loop over the enabled repositories: what it adds to `changed`. -/
def ensureAll (desired : String) (answers : Nat → HookAnswers) :
    Nat → List RepoSpec → Registrar → Nat × Registrar
  | _, [], s => (0, s)
  | n, spec :: specs, s =>
    match s.ensure spec.owner spec.repo desired (answers n) with
    | (some true, s) =>
      let r := ensureAll desired answers (n + 1) specs s
      (r.1 + 1, r.2)
    -- an exception is logged, and the loop goes on
    | (_, s) => ensureAll desired answers (n + 1) specs s

/-- The first `try` of `reconcile`: the tunnel, announced on Slack if it is a new one. -/
def announce (env : RegistrarEnv) : Option String × Registrar :=
  match env.tunnel.publicUrl with
  | none => (none, s)
  | some tunnel =>
    if s.lastTunnelUrl = some tunnel then (some tunnel, s)
    else
      let s := { s with lastTunnelUrl := some tunnel }
      if env.slack then
        (if env.slackOk then some tunnel else none,
          { s with messages := s.messages ++ [startedAndReady] })
      else (some tunnel, s)

/-- `reconcile`, with what it returns. -/
def reconcile (config : Config) (env : RegistrarEnv) : Option Nat × Registrar :=
  match s.announce env with
  | (none, s) => (some 0, s)
  | (some tunnel, s) =>
    let r := ensureAll (desiredUrl tunnel) env.answers 0 config.enabledRepos s
    (some r.1, r.2)

end Registrar

end PrReviewer.Model
