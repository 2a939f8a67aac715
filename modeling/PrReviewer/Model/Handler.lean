import PrReviewer.Library.Dynamic
import PrReviewer.Model.Ingress
import PrReviewer.Model.Text

/-!
# `WebhookHandler.handle`

The webhook endpoint on raw requests: a body of bytes, which `json.loads` may read as any
value, and two headers. What `normalize_event` makes of a payload that is not GitHub's has
values of any type in its fields, so its events are `RawEvent`s; on a `WebhookPayload` it is the
`normalizeEvent` of `PrReviewer.Model.Ingress`.
-/

set_option autoImplicit false

namespace PrReviewer.Model

open PrReviewer.Library (Value Scalar PyError TextRules)

/-- A `NormalizedEvent` whose fields hold what the payload has there. -/
structure RawEvent where
  event : String
  action : String
  owner : Value
  repo : Value
  prNumber : Value := .scalar .null
  headSha : Value := .scalar .null
  author : Value := .scalar .null
  requestedReviewers : List Value := []
  commentBody : Value := .scalar .null
  ciStatus : Option String := none
  prState : Option String := none
  sender : Value := .scalar .null
  draft : Bool := false

/-- Why `json.loads` does not return. -/
inductive LoadsError
  /-- a `JSONDecodeError` or `UnicodeDecodeError` -/
  | malformed
  /-- any other exception -/
  | raised
  deriving DecidableEq, Repr

/-- What the handler uses of Python's library. -/
structure HandlerEnv where
  rules : TextRules
  /-- `hmac.new(secret.encode(), payload, hashlib.sha256).hexdigest()` -/
  hmac : String → List UInt8 → String
  /-- `json.loads` -/
  loads : List UInt8 → Except LoadsError Value

/-! ## `normalize_event` -/

/-- `v.get(key)` -/
def field (v : Value) (key : String) : Except PyError Value :=
  v.get key (.scalar .null)

/-- `v.get(key) or {}` -/
def object (v : Value) (key : String) : Except PyError Value :=
  return (← field v key).orElse .empty

namespace HandlerEnv

variable (env : HandlerEnv)

/-- `str(v) if v else None` -/
def textIfTruthy (v : Value) : Except PyError (Option String) :=
  if v.truthy then return some (← v.text env.rules) else return none

/-- `_parse_bool_or_state` -/
def parseBoolOrState (v : Value) : Except PyError (Option String) :=
  match v with
  | .scalar .null => return none
  | .scalar (.bool b) => return some (if b then "merged" else "open")
  | .map _ => do
    let state ← field v "state"
    let merged ← field v "merged"
    match merged with
    | .scalar (.bool true) => return some "merged"
    | _ => if state.truthy then return some (← state.text env.rules) else env.textIfTruthy v
  | v => env.textIfTruthy v

/-- The conclusion of a `check_run` or `workflow_run` if there is one, else its status. -/
def runStatus (payload : Value) (key : String) : Except PyError (Option String) := do
  let run ← object payload key
  let conclusion ← field run "conclusion"
  let status ← field run "status"
  if conclusion.truthy then return some (← conclusion.text env.rules)
  else env.textIfTruthy status

/-- `_ci_status` -/
def ciStatus (event : String) (payload : Value) : Except PyError (Option String) :=
  if event = "check_run" then env.runStatus payload "check_run"
  else if event = "workflow_run" then env.runStatus payload "workflow_run"
  else return none

/-- `(u.get("login") or "")` -/
def loginOrEmpty (u : Value) : Except PyError Value :=
  return (← field u "login").orElse (.ofText "")

/-- `normalize_event` -/
def normalizeEvent (event action : String) (payload : Value) : Except PyError RawEvent := do
  let pr ← object payload "pull_request"
  let repo ← object payload "repository"
  let sender ← field (← object payload "sender") "login"
  if event = "pull_request" then
    return {
      event := event, action := action
      owner := ← loginOrEmpty (← object repo "owner")
      repo := (← field repo "name").orElse (.ofText "")
      prNumber := ← field pr "number"
      headSha := ← field (← object pr "head") "sha"
      author := ← field (← object pr "user") "login"
      requestedReviewers :=
        ← ((← ((← field pr "requested_reviewers").orElse (.list [])).iterate).mapM loginOrEmpty)
      prState := ← env.parseBoolOrState ((← field pr "state").orElse (← field pr "merged"))
      sender := sender
      draft := (← field pr "draft").truthy }
  else if event = "issue_comment" then
    let comment ← object payload "comment"
    let issue ← object payload "issue"
    return {
      event := event, action := action
      owner := ← loginOrEmpty (← object repo "owner")
      repo := (← field repo "name").orElse (.ofText "")
      -- `pr.get` is called here only for an issue without a number; the next line calls it too
      prNumber := (← field issue "number").orElse (← field pr "number")
      headSha := ← field (← object pr "head") "sha"
      commentBody := ← field comment "body"
      author := ← field (← object comment "user") "login"
      sender := sender }
  else
    return {
      event := event, action := action
      owner := ← loginOrEmpty (← object repo "owner")
      repo := (← field repo "name").orElse (.ofText "")
      prNumber := ← field pr "number"
      headSha := ← field (← object pr "head") "sha"
      ciStatus := ← env.ciStatus event payload
      sender := sender }

end HandlerEnv

/-! ## GitHub's payloads -/

/-- An optional text as a JSON value. -/
def jsonText (s : Option String) : Value :=
  s.elim (.scalar .null) .ofText

/-- An optional number as a JSON value. -/
def jsonInt (n : Option Int) : Value :=
  n.elim (.scalar .null) fun n => .scalar (.int n)

/-- `{key: text}` -/
def jsonField (key : String) (s : Option String) : Value :=
  .map [(.str key, jsonText s)]

/-- The object of a pull request. -/
def PrPayload.json (pr : PrPayload) : Value :=
  .map [(.str "number", jsonInt pr.number), (.str "head", jsonField "sha" pr.headSha),
    (.str "user", jsonField "login" pr.user),
    (.str "requested_reviewers", .list (pr.requestedReviewers.map (jsonField "login"))),
    (.str "state", jsonText pr.state),
    (.str "merged", pr.merged.elim (.scalar .null) fun b => .scalar (.bool b)),
    (.str "draft", .scalar (.bool pr.draft))]

/-- The object of a CI run. -/
def CiPayload.json (ci : CiPayload) : Value :=
  .map [(.str "conclusion", jsonText ci.conclusion), (.str "status", jsonText ci.status)]

/-- The payload as `json.loads` returns it, as far as `normalize_event` reads it. -/
def WebhookPayload.json (payload : WebhookPayload) : Value :=
  .map [(.str "pull_request", payload.pullRequest.json),
    (.str "repository", .map [(.str "owner", jsonField "login" payload.owner),
      (.str "name", jsonText payload.repo)]),
    (.str "issue", .map [(.str "number", jsonInt payload.issueNumber)]),
    (.str "comment", .map [(.str "body", jsonText payload.commentBody),
      (.str "user", jsonField "login" payload.commentAuthor)]),
    (.str "check_run", payload.checkRun.json), (.str "workflow_run", payload.workflowRun.json),
    (.str "sender", jsonField "login" payload.sender)]

/-- The event of a typed payload, with its fields as values. -/
def NormalizedEvent.raw (e : NormalizedEvent) : RawEvent where
  event := e.event
  action := e.action
  owner := .ofText e.owner
  repo := .ofText e.repo
  prNumber := jsonInt e.prNumber
  headSha := jsonText e.headSha
  author := jsonText e.author
  requestedReviewers := e.requestedReviewers.map .ofText
  commentBody := jsonText e.commentBody
  ciStatus := e.ciStatus
  prState := e.prState
  sender := jsonText e.sender
  draft := e.draft

namespace HandlerEnv

variable (env : HandlerEnv)

/-! ## `parse_webhook` -/

/-- Why `parse_webhook` does not return. -/
inductive ParseError
  /-- `SignatureError` -/
  | signature
  | raised
  deriving DecidableEq, Repr

/-- `verify_hmac`; `compare_digest` raises on a text that is not ASCII. -/
def verifyHmac (secret : String) (payload : List UInt8) (signature : Option String) :
    Except PyError Bool :=
  if truthy signature then
    let expected := "sha256=" ++ env.hmac secret payload
    let given := orEmpty signature
    if given.toList.all isAscii then .ok (decide (expected = given)) else .error .type
  else .ok false

/-- `str((body.get("action") or "") if isinstance(body, dict) else "")` -/
def actionText (body : Value) : Except PyError String :=
  if body.isMap then
    ((body.getD "action" (.scalar .null)).orElse (.ofText "")).text env.rules
  else .ok ""

/-- `parse_webhook` -/
def parseWebhook (secret : String) (payload : List UInt8) (event : String)
    (signature : Option String) : Except ParseError RawEvent :=
  match env.verifyHmac secret payload signature with
  | .error _ => .error .raised
  | .ok false => .error .signature
  | .ok true =>
    match env.loads payload with
    | .error _ => .error .raised
    | .ok body =>
      match env.actionText body >>= fun action => env.normalizeEvent event action body with
      | .error _ => .error .raised
      | .ok normalized => .ok normalized

/-! ## `handle` -/

/-- How a request ends. -/
inductive Reply
  | status (code : Nat)
  /-- the handler raises -/
  | raised
  deriving DecidableEq, Repr

/-- The reply to a request, and the events whose dispatch has been scheduled. -/
structure Handled where
  reply : Reply
  scheduled : List RawEvent := []

/-- `event in SUPPORTED_EVENTS` and `(body.get("action") or "") in SUPPORTED_ACTIONS.get(event, ...)`;
an action without a hash raises. -/
def actionable (event : String) (body : Value) : Except PyError Bool :=
  if supportedEvents.contains event then do
    match (← field body "action").orElse (.ofText "") with
    | .scalar action => return (supportedActions event).any fun a => action.same (.str a)
    | _ => .error .type
  else return false

/-- `handle` -/
def handle (secret : String) (payload : List UInt8) (event : String) (signature : Option String) :
    Handled :=
  match if payload = [] then .ok .empty else env.loads payload with
  | .error .malformed => { reply := .status 400 }
  | .error .raised => { reply := .raised }
  | .ok body =>
    match env.parseWebhook secret payload event signature with
    | .error .signature => { reply := .status 401 }
    | .error .raised => { reply := .raised }
    | .ok normalized =>
      match actionable event body with
      | .error _ => { reply := .raised }
      | .ok false =>
        -- the log line reads the action again
        match field body "action" with
        | .error _ => { reply := .raised }
        | .ok _ => { reply := .status 204 }
      | .ok true => { reply := .status 200, scheduled := [normalized] }

end HandlerEnv

end PrReviewer.Model
