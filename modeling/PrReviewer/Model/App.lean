import PrReviewer.Model.Ingress
import PrReviewer.Model.Pipeline

/-!
# The application

`create_app`: the scheduler with the real pipeline, the tasks that dispatch events and publish
approved reviews, and the environment, which delivers webhooks, Slack payloads and approvals,
pushes to pull requests, answers requests and stops the process at any time.

A step of the application makes at most one step of its scheduler, `App.core`.
-/

set_option autoImplicit false

namespace PrReviewer.Model

open PrReviewer.Library (Machine)

/-- The wiring of `create_app`. -/
structure AppConfig where
  unicode : Unicode
  config : Config
  selfAccount : String
  gate : GateConfig
  maxAttempts : Int
  concurrency : Nat
  /-- a Slack notifier is present; `create_app` always makes one -/
  slack : Bool

namespace AppConfig

/-- What decides on the events. -/
def trigger (cfg : AppConfig) : TriggerDecisionEngine where
  unicode := cfg.unicode
  config := cfg.config
  selfAccount := cfg.selfAccount

/-- The settings of the pipeline. -/
def pipeline (cfg : AppConfig) : PipelineConfig where
  config := cfg.config
  slack := cfg.slack

/-- The settings of the scheduler. -/
def sched (cfg : AppConfig) : SchedConfig ExecPc where
  gate := cfg.gate
  slack := cfg.slack
  maxAttempts := cfg.maxAttempts
  concurrency := cfg.concurrency
  start := .start

end AppConfig

/-- The service, its store and its disk, and the pull requests on GitHub. -/
structure App where
  core : Sched ExecPc
  /-- the tasks `dispatcher.dispatch(event)` that have not run yet -/
  dispatches : List NormalizedEvent
  /-- the tasks `publish_approved_review` of this process -/
  approvals : List Approval
  staged : StagedReviews
  cache : Cache
  /-- the head of each pull request on GitHub -/
  head : PrRef → String
  /-- the approval requests so far -/
  requests : Nat
  /-- the runs of the review requests that nobody waits for any more and that GitHub had not
  accepted when their answer came or the process died -/
  orphans : List RunId

/-- The steps of the application and of its environment. -/
inductive AppAction
  /-- time passes -/
  | tick (d : Nat)
  /-- the `i`-th `_watch` task is resumed -/
  | watch (i : Nat) (inp : WatchInput)
  /-- the `i`-th worker calls `dequeue` -/
  | wake (i : Nat)
  /-- the wait of the `i`-th worker times out -/
  | timeout (i : Nat)
  /-- the pipeline of the `i`-th worker is resumed -/
  | exec (i : Nat) (inp : ExecInput)
  /-- `POST /api/webhook` with a valid signature -/
  | webhook (event : NormalizedEvent)
  | slack (payload : SlackPayload)
  /-- `POST /api/reviews/{run_id}/approve` -/
  | approve (run : RunId) (owner repo : Option String) (pr : Option Int)
  /-- the `k`-th dispatch task runs, with the run id `r` if it enqueues -/
  | dispatch (k : Nat) (r : RunId)
  /-- the backfill comes to an open pull request, with the run id `r` if it enqueues -/
  | backfill (spec : RepoSpec) (p : OpenPr) (r : RunId)
  /-- the `k`-th publication is resumed -/
  | publish (k : Nat) (inp : ApprovalInput)
  /-- the registrar comes to a repository that has these webhooks -/
  | registrar (spec : RepoSpec) (tunnel : String) (hooks : List Hook)
  | crash
  | boot
  | push (ref : PrRef) (sha : String)
  /-- GitHub accepts the review the `i`-th worker is sending -/
  | acceptWorker (i : Nat)
  /-- GitHub accepts the review the `k`-th publication is sending -/
  | acceptApproval (k : Nat)
  /-- GitHub accepts a review nobody waits for -/
  | acceptOrphan (k : Nat)

/-- The run whose review a worker is sending, if GitHub has not accepted it. -/
def Worker.unaccepted : Worker ExecPc → Option RunId
  | .busy _ (.publishing review pc) => if pc.unaccepted then some review.run else none
  | _ => none

/-- The run whose review a publication is sending, if GitHub has not accepted it. -/
def Approval.unaccepted (p : Approval) : Option RunId :=
  match p.pc with
  | .submitting review pc => if pc.unaccepted then some review.run else none
  | _ => none

namespace App

variable (cfg : AppConfig) (s : App)

/-- The scheduler makes a step. -/
def coreStep (a : SchedAction ExecPc) : Option (App × List AppEvent) :=
  (Sched.step cfg.sched s.core a).map fun r => ({ s with core := r.1 }, r.2.map .core)

/-- Nobody waits any more for the review of this run, which GitHub has not accepted. -/
def orphan (run : Option RunId) : App :=
  { s with orphans := s.orphans ++ run.toList }

/-! ## Events -/

/-- `dispatcher.dispatch(event)`, with the run id of the job it may enqueue. -/
def dispatchEvent (event : NormalizedEvent) (r : RunId) : Option (App × List AppEvent) :=
  let d := cfg.trigger.decide event
  match d.action with
  | .enqueue | .advanceCi => s.coreStep cfg (.enqueue r d .webhook)
  -- `_reply_post`
  | .reply =>
    if d.reason = some "malformed-command" then
      some (s, [.write .reply (.postComment d.owner d.repo d.pr (usage cfg.config.providers))])
    else s.coreStep cfg (.enqueue r d .comment)
  | .notifyMerged | .skip => some (s, [])

/-- The backfill on one open pull request of an enabled repository. -/
def backfillPr (spec : RepoSpec) (p : OpenPr) (r : RunId) : Option (App × List AppEvent) :=
  let event := p.event spec.owner spec.repo
  if prTruthy p.number && truthy p.head &&
      !s.core.table.hasRunForHead spec.owner spec.repo (p.number.getD 0) (orEmpty p.head) &&
      (cfg.trigger.decide event).action == .enqueue then
    s.dispatchEvent cfg event r
  else some (s, [])

/-! ## Approvals -/

/-- An approval request for a run, with the job it is published as if the run has no row. -/
def ask (request : ApprovalRequest) (run : RunId) (otherwise : Option ReviewJob)
    (summary : String) : App × List AppEvent :=
  let stored := s.core.table.getJob run
  let event job := AppEvent.asked s.requests request stored job
  match stored.or otherwise with
  | none => ({ s with requests := s.requests + 1 }, [event none])
  | some job =>
    ({ s with
        requests := s.requests + 1,
        approvals := s.approvals ++ [{ number := s.requests, job := job, summary := summary }] },
      [event (some job)])

/-- The job `approve_staged_review` makes of its query parameters. -/
def jobOfQuery (run : RunId) (owner repo : Option String) (pr : Option Int) : Option ReviewJob :=
  if truthy owner && truthy repo && prTruthy pr then
    some { owner := orEmpty owner, repo := orEmpty repo, pr := pr, head := some "", runId := run }
  else none

/-- `_process_slack_event_payload` -/
def slackPayload (payload : SlackPayload) : App × List AppEvent :=
  match cfg.trigger.processSlackEventPayload payload with
  | .nothing => (s, [])
  | .dispatch event => ({ s with dispatches := s.dispatches ++ [event] }, [])
  | .approve run otherwise summary => s.ask (.slack payload) run otherwise summary

/-! ## Tasks -/

/-- The pipeline of worker `i` on `job` makes a step. -/
def execMove (i : Nat) (job : ReviewJob) (pc : ExecPc) (inp : ExecInput) :
    Option (App × List AppEvent) :=
  match execStep cfg.pipeline s.core.now s.cache s.staged job pc inp with
  | none => none
  | some m =>
    let s := { s with cache := m.cache, staged := m.staged }.orphan (Worker.busy job pc).unaccepted
    let a := match m.next with
      | .goOn sha pc => .advance i sha pc
      | .finish out => .finish i out
    (s.coreStep cfg a).map fun r => (r.1, m.events ++ r.2)

/-- A publication makes a step. -/
def publishMove (k : Nat) (p : Approval) (inp : ApprovalInput) : Option (App × List AppEvent) :=
  (p.step cfg.pipeline s.staged (s.head p.job.ref) inp).map fun m =>
    (({ s with staged := m.staged, approvals := s.approvals.set k { p with pc := m.pc } }).orphan
      p.unaccepted, m.events)

/-! ## The process and its environment -/

/-- The process dies. -/
def crash (s : App) : App :=
  { s with
    dispatches := [], approvals := [], staged := [],
    orphans := s.orphans ++ s.core.workers.filterMap Worker.unaccepted ++
      s.approvals.filterMap Approval.unaccepted }

/-- GitHub accepts the review worker `i` is sending. -/
def acceptWorker (i : Nat) : Option (App × List AppEvent) :=
  match s.core.workers[i]? with
  | some (.busy _ (.publishing review pc)) =>
    match pc.accept with
    | some pc =>
      (s.coreStep cfg (.advance i none (.publishing review pc))).map fun r =>
        (r.1, .accepted review.run :: r.2)
    | none => none
  | _ => none

/-- GitHub accepts the review publication `k` is sending. -/
def acceptApproval (k : Nat) : Option (App × List AppEvent) :=
  match s.approvals[k]? with
  | some p =>
    match p.pc with
    | .submitting review pc =>
      pc.accept.map fun pc =>
        ({ s with approvals := s.approvals.set k { p with pc := .submitting review pc } },
          [.accepted review.run])
    | _ => none
  | none => none

/-- One step of the application or of its environment. -/
def step : AppAction → Option (App × List AppEvent)
  | .tick d => s.coreStep cfg (.tick d)
  | .watch i inp => s.coreStep cfg (.watch i inp)
  | .wake i => s.coreStep cfg (.wake i)
  | .timeout i => s.coreStep cfg (.timeout i)
  | .exec i inp =>
    match s.core.workers[i]? with
    | some (.busy job pc) => s.execMove cfg i job pc inp
    | _ => none
  | .webhook event =>
    if s.core.up && event.supported then
      some ({ s with dispatches := s.dispatches ++ [event] }, [])
    else none
  | .slack payload => if s.core.up then some (s.slackPayload cfg payload) else none
  | .approve run owner repo pr =>
    if s.core.up then
      some (s.ask (.endpoint run owner repo pr) run (jobOfQuery run owner repo pr)
        "Review Approved via Agent")
    else none
  | .dispatch k r =>
    match s.dispatches[k]? with
    | some event =>
      { s with dispatches := s.dispatches.eraseIdx k }.dispatchEvent cfg event r
    | none => none
  | .backfill spec p r =>
    if s.core.up && cfg.config.repoConfig.contains spec && spec.enabled then
      s.backfillPr cfg spec p r
    else none
  | .publish k inp =>
    match s.approvals[k]? with
    | some p => s.publishMove cfg k p inp
    | none => none
  | .registrar spec tunnel hooks =>
    if s.core.up && cfg.config.repoConfig.contains spec && spec.enabled then
      some (s, (ensureWebhook spec.owner spec.repo (desiredUrl tunnel) hooks).toList.map
        (.write .registrar))
    else none
  | .crash => (s.crash.coreStep cfg .crash).map fun r => (r.1, .crashed :: r.2)
  | .boot => s.coreStep cfg .boot
  | .push ref sha =>
    some ({ s with head := fun k => if k = ref then sha else s.head k }, [.pushed ref sha])
  | .acceptWorker i => s.acceptWorker cfg i
  | .acceptApproval k => s.acceptApproval k
  | .acceptOrphan k =>
    match s.orphans[k]? with
    | some run => some ({ s with orphans := s.orphans.eraseIdx k }, [.accepted run])
    | none => none

end App

/-- A new installation: an empty database, no process, and whatever is on disk and on GitHub. -/
structure App.New (s : App) : Prop where
  core : s.core = Sched.new
  dispatches : s.dispatches = []
  approvals : s.approvals = []
  staged : s.staged = []
  orphans : s.orphans = []

/-- The application as a machine. -/
def App.machine (cfg : AppConfig) : Machine App AppAction AppEvent where
  start := App.New
  step := App.step cfg

/-! ## `/status` -/

/-- An entry of `open_jobs`. -/
structure OpenJob where
  runId : RunId
  repo : String
  pr : Option Int
  status : String
  attempts : Nat
  deriving DecidableEq, Repr

/-- The entry of an open job in the report. -/
def ReviewJob.openJob (job : ReviewJob) : OpenJob where
  runId := job.runId
  repo := job.owner ++ "/" ++ job.repo
  pr := job.pr
  status := job.status.text
  attempts := job.attempts

/-- The answer of `get_status`. -/
structure StatusReport where
  status : String := "healthy"
  activeWorkers : Int
  managedRepos : List String
  openJobsCount : Nat
  openJobs : List OpenJob
  deriving DecidableEq, Repr

/-- `get_status` -/
def App.getStatus (cfg : AppConfig) (s : App) : StatusReport where
  activeWorkers := s.core.active
  managedRepos := cfg.config.enabledRepos.map fun r => r.owner ++ "/" ++ r.repo
  openJobsCount := s.core.table.reconcileOpenJobs.length
  openJobs := s.core.table.reconcileOpenJobs.map ReviewJob.openJob

/-! ## A small installation -/

/-- One repository, `me/app`, and the account `me`. -/
def smallConfig (slack : Bool) (concurrency : Nat) : AppConfig where
  unicode := .ascii
  config := { repoConfig := [{ owner := "me", repo := "app" }], providers := ["free"] }
  selfAccount := "me"
  gate := {}
  maxAttempts := 3
  concurrency := concurrency
  slack := slack

/-- Nothing is on disk, and the head of every pull request is `a`. -/
def App.small : App where
  core := .new
  dispatches := []
  approvals := []
  staged := []
  cache := ⟨[], []⟩
  head := fun _ => "a"
  requests := 0
  orphans := []

/-- The small application is new. -/
theorem App.small_new : App.small.New :=
  ⟨rfl, rfl, rfl, rfl, rfl⟩

namespace AppEvent

/-- A poll of the gate. -/
def isPolled : AppEvent → Bool
  | .core (.polled _ _) => true
  | _ => false

/-- The event is a push. -/
def isPushed : AppEvent → Bool
  | .pushed _ _ => true
  | _ => false

/-- The event asks for a publication. -/
def isAsked : AppEvent → Bool
  | .asked _ _ _ _ => true
  | _ => false

end AppEvent

/-- The webhook for a pull request of `me` that has just been opened. -/
def openedPr (pr : Int) (head : String) : NormalizedEvent where
  event := "pull_request"
  action := "opened"
  owner := "me"
  repo := "app"
  prNumber := some pr
  headSha := some head
  author := some "me"

/-- The pull request is opened and its run `r` is enqueued. -/
def openPr (pr : Int) (head : String) (r : RunId) : List AppAction :=
  [.webhook (openedPr pr head), .dispatch 0 r]

/-- The job of the first pull request. -/
def firstJob : ReviewJob where
  owner := "me"
  repo := "app"
  pr := some 7
  head := some "a"
  runId := "r1"

/-- The webhook for a comment of `me`; it has no head. -/
def reviewComment (pr : Int) : NormalizedEvent where
  event := "issue_comment"
  action := "created"
  owner := "me"
  repo := "app"
  prNumber := some pr
  author := some "me"
  commentBody := some "@review"

/-- Git does all it is asked, and the disk is empty. -/
def GitAnswers.fine : GitAnswers where
  clone := true
  fetch := true
  checkout := true
  disk := { size := fun _ => 0 }

/-- Worker `i` claims a job and its pipeline goes on to the call of the runner, on a pull request
with this head. -/
def runJob (i : Nat) (head : String) : List AppAction :=
  [.wake i, .exec i .go, .exec i (.pr (some ⟨some "open", false, some head⟩)), .exec i .slack,
    .exec i (.clone .fine true), .exec i (.diff (some ""))]

/-- A pull request is opened with head `a`, and its run is executed after its gate, up to the
call of the runner. -/
def openedRun : List AppAction :=
  .boot :: openPr 7 "a" "r1" ++ [.watch 0 .go, .watch 0 (.polled (.runs []))] ++ runJob 0 "a"

/-- Its review is staged. -/
def stagedRun : List AppAction :=
  openedRun ++ [.exec 0 (.reviewed (some {}) []), .exec 0 .slack]

/-- The run `r1` is approved and published, and its pull request is promoted and merged. -/
def approveAndMerge : List AppAction :=
  [.approve "r1" none none none, .publish 0 .go, .publish 0 (.submit .created),
    .publish 0 (.submit .go), .publish 0 (.answered true)]

end PrReviewer.Model
