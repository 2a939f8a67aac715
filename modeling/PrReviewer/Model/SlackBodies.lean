import PrReviewer.Model.Channel
import PrReviewer.Model.Handler

/-!
# Slack's payloads as they come

`_process_slack_event_payload` on the body of a request, which is any value that `json.loads`
returns, and the two endpoints that hand it one. All that it starts, it starts after its last
step that may raise, so a body it raises on has no effect.
-/

set_option autoImplicit false

namespace PrReviewer.Model

open PrReviewer.Library (Value Scalar PyError TextRules)

/-! ## Values -/

/-- `v == text` -/
def isText (v : Value) (text : String) : Bool :=
  match v with
  | .scalar s => s.same (.str text)
  | _ => false

/-- `actions[0]` of `actions` that are true. -/
def firstAction : Value → Except PyError (Option Value)
  | .list actions => .ok actions.head?
  | .map [] => .ok none
  | .map (e :: entries) =>
    match Value.pair? (e :: entries) (.int 0) with
    | some action => .ok (some action)
    | none => .error .key
  | .scalar (.str s) => .ok (s.toList.head?.map fun c => .ofText (String.ofList [c]))
  | .scalar (.bytes data) => .ok (data.head?.map fun b => .scalar (.int b.toNat))
  | v => if v.truthy then .error .type else .ok none

/-! ## Tasks -/

/-- A button of a message. -/
structure SlackButton where
  text : String
  value : String
  deriving DecidableEq, Repr

/-- The blocks that ask for a repository. -/
structure RepoPrompt where
  question : String
  buttons : List SlackButton
  /-- the text of the message -/
  text : String
  deriving DecidableEq, Repr

/-- The tasks that a payload starts. -/
structure SlackTasks where
  /-- `slack.send_message` -/
  said : List AgentText := []
  /-- `slack.send_blocks` -/
  prompt : Option RepoPrompt := none
  /-- the channel of what is sent -/
  channel : Option String := none
  request : SlackRequest := .nothing
  deriving DecidableEq, Repr

namespace TriggerDecisionEngine

variable (t : TriggerDecisionEngine)

/-- `f"select_repo_{r.owner}/{r.repo}_{pr_num}"` and its label. -/
def repoButton (pr : Int) (r : RepoSpec) : SlackButton where
  text := r.owner ++ "/" ++ r.repo
  value := "select_repo_" ++ r.owner ++ "/" ++ r.repo ++ "_" ++ toString pr

/-- The question which repository is meant. -/
def repoPrompt (pr : Int) : RepoPrompt where
  question := "❓ *Multiple repositories configured.* Please select which repository to " ++
    "review PR #" ++ toString pr ++ " for:"
  buttons := (t.config.enabledRepos.take 5).map (repoButton pr)
  text := "Specify repository for PR #" ++ toString pr

/-- A message with its text and channel. -/
def messageTasks (mention : Bool) (text channel : String) : Except PyError SlackTasks :=
  let clean := stripMentions text.toList
  match firstDigits t.unicode clean with
  | none => if mention then .ok { said := [.help], channel := some channel } else .ok {}
  | some digits =>
    match pyInt t.unicode digits with
    | none => .error .value
    | some pr =>
      if t.mentionedRepo clean = none ∧ t.config.enabledRepos.length > 1 then
        .ok { prompt := some (t.repoPrompt pr), channel := some channel }
      else
        let request := t.slackMessage text clean pr
        .ok { said := request.said, channel := some channel, request := request }

/-- `str(body.get("container", {}).get("channel_id", "")) or None` -/
def containerChannel (rules : TextRules) (body : Value) : Except PyError (Option String) := do
  let container ← body.get "container" .empty
  let channel ← (← container.get "channel_id" (.ofText "")).text rules
  return if channel = "" then none else some channel

/-- `state.get_job` cannot encode the run that a button approves, and raises
`UnicodeEncodeError`. -/
def runUnreadable (rules : TextRules) (value : String) : Bool :=
  match t.slackButton value with
  | .approve run _ _ => !rules.encodes run
  | _ => false

/-- A press of a button with its value. -/
def buttonTasks (rules : TextRules) (body : Value) (value : String) :
    Except PyError SlackTasks :=
  if "select_repo_".toList.isPrefixOf value.toList then
    let rest := removeAll "select_repo_".toList value.toList
    if '_' ∉ rest then .ok {}
    else
      match pyInt t.unicode (rest.reverse.takeWhile (· != '_')).reverse with
      | none => .error .value
      | some _ => do
        let channel ← containerChannel rules body
        let request := t.slackButton value
        return { said := request.said, channel := channel, request := request }
  else if t.runUnreadable rules value then .error .value
  else .ok { request := t.slackButton value }

/-- `_process_slack_event_payload` -/
def processSlackBody (rules : TextRules) (body : Value) : Except PyError SlackTasks := do
  let type ← field body "type"
  if isText type "event_callback" then
    let event ← body.get "event" .empty
    match ← field event "type" with
    | .scalar kind =>
      if kind.same (.str "app_mention") || kind.same (.str "message") then
        let text ← (← event.get "text" (.ofText "")).text rules
        let channel ← (← event.get "channel" (.ofText "")).text rules
        t.messageTasks (kind.same (.str "app_mention")) text channel
      else return {}
    -- a set is asked for what has no hash
    | _ => .error .type
  else if isText type "block_actions" then
    match ← firstAction (← body.get "actions" (.list [])) with
    | none => return {}
    | some action =>
      let value ← (← action.get "value" (.ofText "")).text rules
      t.buttonTasks rules body value
  else return {}

/-- What it starts, if anything. -/
def slackTasks (rules : TextRules) (body : Value) : SlackTasks :=
  (t.processSlackBody rules body).toOption.getD {}

end TriggerDecisionEngine

/-! ## The endpoints -/

/-- How a request of Slack is answered. -/
inductive SlackReply
  /-- `{"status": "bad_request"}` -/
  | badRequest
  /-- `{"challenge": ...}` -/
  | challenge (v : Value)
  /-- `{"status": "ok"}` -/
  | ok
  /-- the endpoint raises -/
  | raised

/-- The answer once the payload has been processed. -/
def answered : Except PyError SlackTasks → SlackReply × SlackTasks
  | .error _ => (.raised, {})
  | .ok tasks => (.ok, tasks)

namespace TriggerDecisionEngine

variable (t : TriggerDecisionEngine)

/-- `slack_events`, from `await request.json()` on, which may raise. -/
def slackEvents (rules : TextRules) (json : Option Value) : SlackReply × SlackTasks :=
  match json with
  | none => (.badRequest, {})
  | some body =>
    match field body "type" with
    | .error _ => (.raised, {})
    | .ok type =>
      if isText type "url_verification" then
        (.challenge (body.getD "challenge" (.ofText "")), {})
      else answered (t.processSlackBody rules body)

/-- `slack_interactivity`, from the fields `payload` of the form on; a body that is no text
raises. -/
def slackInteractivity (rules : TextRules) (loads : String → Option Value)
    (form : Option (List String)) : SlackReply × SlackTasks :=
  match form with
  | none => (.raised, {})
  | some [] => (.ok, {})
  | some (payload :: _) =>
    match loads payload with
    | none => (.ok, {})
    | some body => (.ok, t.slackTasks rules body)

end TriggerDecisionEngine

/-! ## Slack's own payloads -/

/-- The payload as Slack sends it, as far as the service reads it. -/
def SlackPayload.json (channel : String) : SlackPayload → Value
  | .eventCallback type text =>
    .map [(.str "type", .ofText "event_callback"),
      (.str "event", .map [(.str "type", .ofText type), (.str "text", .ofText text),
        (.str "channel", .ofText channel)])]
  | .blockActions value =>
    .map [(.str "type", .ofText "block_actions"),
      (.str "actions", .list [.map [(.str "value", .ofText value)]]),
      (.str "container", .map [(.str "channel_id", .ofText channel)])]
  | .other => .empty

end PrReviewer.Model
