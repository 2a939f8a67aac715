import PrReviewer.Model.App
import PrReviewer.Model.Registrar

/-!
# The Slack channel

What the service says in its channel with `send_message`, and the application together with
the channel, which may deliver what was said there back to the application.
-/

set_option autoImplicit false

namespace PrReviewer.Model

open PrReviewer.Library (Machine)

/-! ## `send_message` -/

/-- A text the service sends. -/
inductive AgentText
  /-- of `WebhookRegistrar.reconcile` -/
  | ready
  /-- of `Dispatcher.dispatch` -/
  | enqueued (owner repo : String) (pr : Option Int)
  /-- of `ReviewPipeline.execute` -/
  | reviewStarted (owner repo : String) (pr : Option Int)
  /-- `notify_review_failed` -/
  | reviewFailed (run : RunId) (owner repo : String) (pr : Option Int) (reason : String)
  /-- of `CiGateMonitor._fail` -/
  | ciFailed (owner repo : String) (pr : Option Int)
  /-- of `_process_slack_event_payload` -/
  | approved (owner repo : String) (pr : Option Int)
  | received (owner repo : String) (pr : Option Int)
  | help
  deriving DecidableEq, Repr

/-- `f"{pr}"` -/
def prText (pr : Option Int) : String :=
  match pr with
  | some number => toString number
  | none => "None"

/-- `pr_link` -/
def prLink (owner repo : String) (pr : Option Int) : String :=
  "https://github.com/" ++ owner ++ "/" ++ repo ++ "/pull/" ++ prText pr

/-- `<{pr_link}|*{owner}/{repo}#{pr}*>` -/
def linkTo (link owner repo : String) (pr : Option Int) : String :=
  "<" ++ link ++ "|*" ++ owner ++ "/" ++ repo ++ "#" ++ prText pr ++ "*>"

namespace AgentText

/-- The text as it is sent. -/
def text : AgentText → String
  | ready => startedAndReady
  | enqueued owner repo pr =>
    "📥 *PR Review Event Received:* Enqueued review for " ++
      linkTo (prLink owner repo pr) owner repo pr ++ ". Checking CI status..."
  | reviewStarted owner repo pr =>
    "⚙️ *PR Review Started:* Running review & security pipeline for " ++
      linkTo (prLink owner repo pr) owner repo pr ++ "..."
  | reviewFailed run owner repo pr reason =>
    let link := if owner ≠ "" ∧ repo ≠ "" ∧ prTruthy pr then prLink owner repo pr else ""
    "⚠️ *PR Review Failed:* Review run for " ++ linkTo link owner repo pr ++
      " failed.\n• *Reason:* " ++ reason ++ "\n• *Run ID:* `" ++ run ++ "`"
  | ciFailed owner repo pr =>
    "❌ *CI Gate Failed:* CI checks failed for " ++ linkTo (prLink owner repo pr) owner repo pr ++
      ". Posted diagnosis comment on GitHub."
  | approved owner repo pr =>
    "🚀 *Approved PR #" ++ prText pr ++ " (`" ++ owner ++ "/" ++ repo ++
      "`)!* Merging on GitHub..."
  | received owner repo pr =>
    "👀 *Received review command for PR #" ++ prText pr ++ " (`" ++ owner ++ "/" ++ repo ++
      "`)!* Initiating pipeline run..."
  | help =>
    "👋 *PR Reviewer Agent*: I review and approve existing GitHub PRs!\n\n" ++
      "• *Review a PR:* `@PR-Reviewer review #<PR_NUMBER>` (e.g. `@PR-Reviewer review #1`)\n" ++
      "• *Approve a PR:* `@PR-Reviewer approve #<PR_NUMBER>`\n\n" ++
      "_(Note: To create a new PR, please raise it on GitHub first, then tag me to review it!)_"

/-- The text comes back, as a message of the channel. -/
def echo (m : AgentText) : SlackPayload :=
  .eventCallback "message" m.text

end AgentText

/-- What the service sends to a request as it takes it on. -/
def SlackRequest.said : SlackRequest → List AgentText
  | .nothing => []
  | .dispatch event => [.received event.owner event.repo event.prNumber]
  | .approve _ otherwise _ => [.approved otherwise.owner otherwise.repo otherwise.pr]

/-- What `_process_slack_event_payload` sends. -/
def TriggerDecisionEngine.sends (t : TriggerDecisionEngine) : SlackPayload → List AgentText
  | .eventCallback type text =>
    if type = "app_mention" ∨ type = "message" then
      let clean := stripMentions text.toList
      match firstDigits t.unicode clean with
      | none => if type = "app_mention" then [.help] else []
      | some digits =>
        match pyInt t.unicode digits with
        | none => []
        | some pr => (t.slackMessage text clean pr).said
    else []
  | .blockActions value =>
    match t.slackButton value with
    | .dispatch event => (SlackRequest.dispatch event).said
    -- the approval by a button is not announced
    | _ => []
  | .other => []

/-- The text about a run that the dispatcher has just enqueued. -/
def AppEvent.enqueuedText : AppEvent → Option AgentText
  | .core (.inserted job) =>
    if job.cause = .webhook then some (.enqueued job.owner job.repo job.pr) else none
  | _ => none

/-- What is said in a step of the application that emits `es` and ends in `s`. -/
def App.sends (cfg : AppConfig) (s : App) (es : List AppEvent) : AppAction → List AgentText
  | .slack payload => cfg.trigger.sends payload
  | .dispatch _ _ | .backfill _ _ _ => if cfg.slack then es.filterMap AppEvent.enqueuedText else []
  | .exec i _ =>
    match s.core.workers[i]? with
    | some (.busy job .announce) => [.reviewStarted job.owner job.repo job.pr]
    | _ => []
  | .watch i _ =>
    match s.core.watchers[i]? with
    | some w => if w.pc = .notifySlack then [.ciFailed w.job.owner w.job.repo w.job.pr] else []
    | none => []
  -- the workers look for a notifier that `QueueManager` does not have
  | _ => []

/-! ## The application in its channel -/

/-- The application and its channel in Slack. -/
structure Channel where
  app : App
  /-- what the service has said so far -/
  sent : List AgentText

/-- What happens in the channel and behind it. -/
inductive ChannelAction
  /-- a step of the application, or of its other surroundings; its Slack payloads are those of
  the users -/
  | app (a : AppAction)
  /-- `reconcile` finds the tunnel at a new URL -/
  | ready
  /-- the `k`-th text that was said is delivered, for the first time or again -/
  | echo (k : Nat)

/-- What can be seen in the channel and behind it. -/
inductive ChannelEvent
  | app (e : AppEvent)
  /-- a payload of a user is processed, and makes this request -/
  | user (request : SlackRequest)
  | echoed (m : AgentText) (request : SlackRequest)
  deriving DecidableEq, Repr

/-- A user's payload among the actions of the application. -/
def AppAction.request? (t : TriggerDecisionEngine) : AppAction → Option SlackRequest
  | .slack payload => some (t.processSlackEventPayload payload)
  | _ => none

namespace Channel

/-- One step, of the application or of the channel. -/
def step (cfg : AppConfig) (s : Channel) : ChannelAction → Option (Channel × List ChannelEvent)
  | .app a =>
    (App.step cfg s.app a).map fun r =>
      (⟨r.1, s.sent ++ r.1.sends cfg r.2 a⟩,
        ((a.request? cfg.trigger).map .user).toList ++ r.2.map .app)
  | .ready =>
    if s.app.core.up && cfg.slack then some ({ s with sent := s.sent ++ [.ready] }, []) else none
  | .echo k =>
    match s.sent[k]? with
    | none => none
    | some m =>
      (App.step cfg s.app (.slack m.echo)).map fun r =>
        (⟨r.1, s.sent ++ cfg.trigger.sends m.echo⟩,
          .echoed m (cfg.trigger.processSlackEventPayload m.echo) :: r.2.map .app)

/-- The application in an empty channel. -/
def machine (cfg : AppConfig) : Machine Channel ChannelAction ChannelEvent where
  start := fun s => s.app.New ∧ s.sent = []
  step := step cfg

end Channel

end PrReviewer.Model
