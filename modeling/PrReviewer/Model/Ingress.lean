import Mathlib.Data.List.Sort
import PrReviewer.Model.GitHubClient
import PrReviewer.Model.Trigger

/-!
# What comes in, and what keeps it coming

The events `WebhookHandler` makes of payloads and lets through, the help text for a malformed
command, the events `BootBackfill` makes of open pull requests, and the decision of
`WebhookRegistrar` about the webhook of a repository.
-/

set_option autoImplicit false

namespace PrReviewer.Model

/-! ## `WebhookHandler` -/

/-- `SUPPORTED_EVENTS` -/
def supportedEvents : List String :=
  ["pull_request", "issue_comment", "check_run", "workflow_run"]

/-- `SUPPORTED_ACTIONS` -/
def supportedActions (event : String) : List String :=
  if event = "pull_request" then
    ["opened", "ready_for_review", "synchronize", "review_requested", "closed", "merged"]
  else if event = "issue_comment" then ["created"]
  else if event = "check_run" ∨ event = "workflow_run" then ["completed"]
  else []

/-- The event is dispatched, not ignored. -/
def NormalizedEvent.supported (e : NormalizedEvent) : Bool :=
  supportedEvents.contains e.event && (supportedActions e.event).contains e.action

/-- The `pull_request` object of a payload. -/
structure PrPayload where
  number : Option Int := none
  headSha : Option String := none
  user : Option String := none
  /-- the `login` of each -/
  requestedReviewers : List (Option String) := []
  state : Option String := none
  merged : Option Bool := none
  draft : Bool := false
  deriving DecidableEq, Repr

/-- A `check_run` or `workflow_run` object. -/
structure CiPayload where
  conclusion : Option String := none
  status : Option String := none
  deriving DecidableEq, Repr

/-- What `normalize_event` reads of a payload. An object that is not there reads like an empty
one. -/
structure WebhookPayload where
  pullRequest : PrPayload := {}
  owner : Option String := none
  repo : Option String := none
  issueNumber : Option Int := none
  commentBody : Option String := none
  commentAuthor : Option String := none
  checkRun : CiPayload := {}
  workflowRun : CiPayload := {}
  sender : Option String := none
  deriving DecidableEq, Repr

/-- `_parse_bool_or_state(pr.get("state") or pr.get("merged"))` -/
def PrPayload.prState (pr : PrPayload) : Option String :=
  if truthy pr.state then pr.state
  else pr.merged.map fun merged => if merged then "merged" else "open"

/-- The conclusion if there is one, else the status. -/
def CiPayload.ciStatus (ci : CiPayload) : Option String :=
  if truthy ci.conclusion then ci.conclusion
  else if truthy ci.status then ci.status
  else none

/-- `_ci_status` -/
def WebhookPayload.ciStatus (payload : WebhookPayload) (event : String) : Option String :=
  if event = "check_run" then payload.checkRun.ciStatus
  else if event = "workflow_run" then payload.workflowRun.ciStatus
  else none

/-- `normalize_event` -/
def normalizeEvent (event action : String) (payload : WebhookPayload) : NormalizedEvent :=
  let pr := payload.pullRequest
  if event = "pull_request" then
    { event := event, action := action, owner := orEmpty payload.owner,
      repo := orEmpty payload.repo, prNumber := pr.number, headSha := pr.headSha,
      author := pr.user, requestedReviewers := pr.requestedReviewers.map orEmpty,
      prState := pr.prState, sender := payload.sender, draft := pr.draft }
  else if event = "issue_comment" then
    { event := event, action := action, owner := orEmpty payload.owner,
      repo := orEmpty payload.repo,
      prNumber := if prTruthy payload.issueNumber then payload.issueNumber else pr.number,
      headSha := pr.headSha, commentBody := payload.commentBody, author := payload.commentAuthor,
      sender := payload.sender }
  else
    { event := event, action := action, owner := orEmpty payload.owner,
      repo := orEmpty payload.repo, prNumber := pr.number, headSha := pr.headSha,
      ciStatus := payload.ciStatus event, sender := payload.sender }

/-! ## `filter/command.py` -/

/-- `usage` -/
def usage (validAliases : List String) : String :=
  "Usage: `@review [--model <alias>]`\nValid model aliases: " ++
    String.intercalate ", " (validAliases.mergeSort (· ≤ ·)) ++
    "\nUnknown or malformed commands are ignored."

/-! ## `BootBackfill` -/

/-- An entry of `list_open_prs`. -/
structure OpenPr where
  number : Option Int
  head : Option String
  author : Option String
  requestedReviewers : List String
  state : Option String
  deriving DecidableEq, Repr

/-- The event made of an open pull request. -/
def OpenPr.event (p : OpenPr) (owner repo : String) : NormalizedEvent where
  event := "pull_request"
  action := "opened"
  owner := owner
  repo := repo
  prNumber := p.number
  headSha := p.head
  author := p.author
  requestedReviewers := p.requestedReviewers
  prState := p.state

/-- The open pull requests `BootBackfill.run` comes to, in its order, if `list_open_prs` returns
this for a repository, or raises (`none`). -/
def Config.openPrs (config : Config) (answers : RepoSpec → Option (List OpenPr)) :
    List (RepoSpec × OpenPr) :=
  config.enabledRepos.flatMap fun spec => ((answers spec).getD []).map fun p => (spec, p)

/-! ## `WebhookRegistrar` -/

/-- An entry of `list_webhooks`. -/
structure Hook where
  id : Int
  url : String
  deriving DecidableEq, Repr

/-- `_WEBHOOK_PATH` -/
def webhookPath : String :=
  "/api/webhook"

/-- `url.rstrip("/")` -/
def rstripSlash (url : String) : List Char :=
  (url.toList.reverse.dropWhile (· == '/')).reverse

/-- `f"{tunnel.rstrip('/')}{self._webhook_path}"` -/
def desiredUrl (tunnel : String) : String :=
  String.ofList (rstripSlash tunnel) ++ webhookPath

/-- `_ensure`: the write it makes, if it makes one. -/
def ensureWebhook (owner repo desired : String) (hooks : List Hook) : Option GitHubWrite :=
  match hooks.find? fun h => webhookPath.toList.isSuffixOf (rstripSlash h.url) with
  | none => some (.createWebhook owner repo desired)
  | some hook =>
    if rstripSlash hook.url = rstripSlash desired then none
    else some (.updateWebhook owner repo hook.id desired)

end PrReviewer.Model
