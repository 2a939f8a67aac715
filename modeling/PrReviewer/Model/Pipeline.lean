import PrReviewer.Model.Cache
import PrReviewer.Model.GitHubClient
import PrReviewer.Model.Scheduler
import PrReviewer.Model.SlackEvents

/-!
# `ReviewPipeline`

`execute`, which a worker awaits on a claimed job, and `publish_approved_review`, which an
approval request starts. Each is a local state and the step it makes when what it awaits is
there; a step is never longer than one stretch of code between two awaits.
-/

set_option autoImplicit false

namespace PrReviewer.Model

/-- A staged review, an entry of `_staged_reviews`. -/
structure StagedReview where
  summary : String
  findings : List Finding
  deriving DecidableEq, Repr

/-- `_staged_reviews`, a dictionary by `run_id`. -/
abbrev StagedReviews : Type := List (RunId × StagedReview)

/-- `self._staged_reviews[run_id] = review` -/
def StagedReviews.stage (l : StagedReviews) (r : RunId) (x : StagedReview) : StagedReviews :=
  (r, x) :: l.filter fun p => p.1 != r

/-- `self._staged_reviews.pop(run_id)`, on what is left. -/
def StagedReviews.drop (l : StagedReviews) (r : RunId) : StagedReviews :=
  l.filter fun p => p.1 != r

/-- The review staged for a run. -/
def StagedReviews.find (l : StagedReviews) (r : RunId) : Option StagedReview :=
  l.lookup r

/-- Dropping a run's review leaves the others. -/
@[simp] theorem StagedReviews.find_drop (l : StagedReviews) (r r' : RunId) :
    (l.drop r').find r = if r = r' then none else l.find r := by
  unfold StagedReviews.drop StagedReviews.find
  induction l with
  | nil => simp
  | cons p l ih =>
    by_cases hp : p.1 = r'
    · rw [List.filter_cons_of_neg (by simp [hp]), ih, List.lookup_cons]
      by_cases hr : r = r'
      · rw [if_pos hr, if_pos hr]
      · have hne : (r == p.1) = false := by simp [hp, hr]
        rw [if_neg hr, if_neg hr, hne]
    · rw [List.filter_cons_of_pos (by simp [hp]), List.lookup_cons, List.lookup_cons, ih]
      by_cases hr : r = p.1
      · have hne : ¬ r = r' := fun h => hp (hr.symm.trans h)
        rw [if_neg hne, if_neg hne]
      · have hne : (r == p.1) = false := by simp [hr]
        rw [hne]

/-- Staging a run's review leaves the others. -/
@[simp] theorem StagedReviews.find_stage (l : StagedReviews) (r r' : RunId) (x : StagedReview) :
    (l.stage r' x).find r = if r = r' then some x else l.find r := by
  show List.lookup r ((r', x) :: l.drop r') = _
  rw [List.lookup_cons]
  by_cases hr : r = r'
  · simp [hr]
  · have hne : (r == r') = false := by simp [hr]
    rw [hne, if_neg hr]
    exact (StagedReviews.find_drop l r r').trans (if_neg hr)

/-- What the pipeline reads of a pull request. -/
structure PrData where
  state : Option String
  merged : Bool
  headSha : Option String
  deriving DecidableEq, Repr

/-- The pull request is closed or merged. -/
def PrData.over (d : PrData) : Bool :=
  d.state == some "closed" || d.merged

/-- `ReviewResult`, what the runner returns. -/
structure ReviewResult where
  summary : String := ""
  findings : List Finding := []
  retryable : Bool := false
  deriving DecidableEq, Repr

/-! ## What can be observed -/

/-- Who makes a write. -/
inductive Origin
  /-- the gate, for this run -/
  | gate (run : RunId)
  /-- a worker in `execute`, for this run -/
  | worker (run : RunId)
  /-- the publication for the approval request of this number -/
  | approval (number : Nat)
  /-- `_reply_post` -/
  | reply
  | registrar
  deriving DecidableEq, Repr

/-- An approval request. -/
inductive ApprovalRequest
  /-- `POST /api/reviews/{run_id}/approve` with its query parameters -/
  | endpoint (run : RunId) (owner repo : Option String) (pr : Option Int)
  | slack (payload : SlackPayload)
  deriving DecidableEq, Repr

/-- What happens in the service, and to the pull requests on GitHub. -/
inductive AppEvent
  | core (e : SchedEvent)
  /-- the head of a pull request changes on GitHub -/
  | pushed (ref : PrRef) (sha : String)
  /-- `fetch_pr` returned this to the pipeline on this job -/
  | fetched (job : ReviewJob) (data : PrData)
  /-- `runner.run` is called for this job -/
  | ran (job : ReviewJob) (checkout diff modelAlias : String)
  | staged (job : ReviewJob) (review : StagedReview)
  /-- an approval request arrives, with the row of its run as a job if there is one, and the
  job `publish_approved_review` is called with if it is called -/
  | asked (number : Nat) (request : ApprovalRequest) (stored job : Option ReviewJob)
  /-- `publish_approved_review` starts with this `user_approved`, and takes the review staged
  for the run if there is one -/
  | publishing (number : Nat) (job : ReviewJob) (userApproved : Bool) (taken : Option StagedReview)
  | write (origin : Origin) (w : GitHubWrite)
  /-- GitHub accepts a review with the marker of this run -/
  | accepted (run : RunId)
  /-- the process dies -/
  | crashed
  deriving DecidableEq, Repr

/-- The scheduler's part of an event. -/
def AppEvent.core? : AppEvent → Option SchedEvent
  | .core e => some e
  | _ => none

/-- The write an event is, if it is one. -/
def AppEvent.write? : AppEvent → Option (Origin × GitHubWrite)
  | .core (.gateComment job body) => some (.gate job.runId, commentOn job.ref body)
  | .write origin w => some (origin, w)
  | _ => none

/-! ## `execute` -/

/-- The settings of the pipeline. -/
structure PipelineConfig where
  config : Config
  /-- a Slack notifier is present -/
  slack : Bool
  deriving DecidableEq, Repr

/-- Where a call of `execute` is suspended. -/
inductive ExecPc
  /-- it has been called -/
  | start
  /-- awaiting `fetch_pr` -/
  | fetchPr
  /-- awaiting the Slack message about the start -/
  | announce
  /-- about to call `ensure` -/
  | clone
  /-- awaiting `fetch_pr_diff`, with this checkout -/
  | fetchDiff (checkout : String)
  /-- awaiting `runner.run`, with this checkout -/
  | running (checkout : String)
  /-- awaiting the Slack preview of the staged review -/
  | notify
  /-- awaiting `submit_review` -/
  | publishing (review : Review) (pc : SubmitPc)
  deriving DecidableEq, Repr

/-- What resumes a call of `execute`. -/
inductive ExecInput
  | go
  /-- `fetch_pr` raised (`none`) or returned -/
  | pr (data : Option PrData)
  /-- Slack was called; its client does not raise -/
  | slack
  /-- `ensure` is called, and then `docs.load`, which returns or raises -/
  | clone (git : GitAnswers) (docs : Bool)
  /-- `fetch_pr_diff` raised (`none`) or returned -/
  | diff (d : Option String)
  /-- `runner.run` raised (`none`) or returned, and the scans that follow found `extra` -/
  | reviewed (result : Option ReviewResult) (extra : List Finding)
  | submit (reply : SubmitReply)

/-- How a call of `execute` goes on. -/
inductive ExecNext
  /-- to its next await, perhaps after `job.head = sha or ""` -/
  | goOn (sha : Option (Option String)) (pc : ExecPc)
  | finish (out : Outcome)

/-- A step of `execute`. -/
structure ExecMove where
  next : ExecNext
  cache : Cache
  staged : StagedReviews
  events : List AppEvent

/-- `PipelineResult(retryable=True)` -/
def Outcome.retry : Outcome :=
  .result "posted" true

/-- `job.model or default_model` -/
def modelAlias (config : Config) (job : ReviewJob) : String :=
  if truthy job.model then orEmpty job.model else config.defaultModel

/-- What follows the look at the pull request. -/
def PipelineConfig.afterPr (cfg : PipelineConfig) : ExecPc :=
  if cfg.slack then .announce else .clone

/-- `_assemble_findings`, from the runner's findings and those of the scans. -/
def assembleFindings (findings extra : List Finding) : List Finding :=
  (findings ++ extra).take 100

/-- A call of `execute` runs to its next await. -/
def execStep (cfg : PipelineConfig) (now : Nat) (cache : Cache) (staged : StagedReviews)
    (job : ReviewJob) : ExecPc → ExecInput → Option ExecMove
  | .start, .go =>
    if job.owner ≠ "" ∧ job.repo ≠ "" ∧ prTruthy job.pr then
      some ⟨.goOn none .fetchPr, cache, staged, []⟩
    else some ⟨.goOn none cfg.afterPr, cache, staged, []⟩
  | .fetchPr, .pr none => some ⟨.goOn none cfg.afterPr, cache, staged, []⟩
  | .fetchPr, .pr (some data) =>
    if data.over then some ⟨.finish (.result "skipped" false), cache, staged, [.fetched job data]⟩
    else some ⟨.goOn (some data.headSha) cfg.afterPr, cache, staged, [.fetched job data]⟩
  | .announce, .slack => some ⟨.goOn none .clone, cache, staged, []⟩
  | .clone, .clone git docs =>
    match cache.ensure cfg.config.diskCapBytes now git job.owner job.repo job.head with
    | (cache, false) => some ⟨.finish .retry, cache, staged, []⟩
    | (cache, true) =>
      if docs then some ⟨.goOn none (.fetchDiff (repoKey job.owner job.repo)), cache, staged, []⟩
      else some ⟨.finish .raised, cache, staged, []⟩
  | .fetchDiff _, .diff none => some ⟨.finish .retry, cache, staged, []⟩
  | .fetchDiff checkout, .diff (some diff) =>
    let model := modelAlias cfg.config job
    -- `self._config.providers[model_alias]`
    if model ∈ cfg.config.providers then
      some ⟨.goOn none (.running checkout), cache, staged, [.ran job checkout diff model]⟩
    else some ⟨.finish .raised, cache, staged, []⟩
  | .running _, .reviewed none _ => some ⟨.finish .raised, cache, staged, []⟩
  | .running _, .reviewed (some result) extra =>
    if result.retryable then some ⟨.finish .retry, cache, staged, []⟩
    else
      let findings := assembleFindings result.findings extra
      if cfg.slack then
        let review := ⟨result.summary, findings⟩
        some ⟨.goOn none .notify, cache, staged.stage job.runId review, [.staged job review]⟩
      else
        let review := reviewOf job result.summary findings .comment
        some ⟨.goOn none (.publishing review .first), cache, staged,
          [.write (.worker job.runId) (.submitReview review)]⟩
  | .notify, .slack => some ⟨.finish (.result "pending_approval" false), cache, staged, []⟩
  | .publishing review pc, .submit reply =>
    (submitStep review pc reply).map fun
      | .goOn pc writes =>
        ⟨.goOn none (.publishing review pc), cache, staged, writes.map (.write (.worker job.runId))⟩
      | .returned => ⟨.finish (.result "posted" false), cache, staged, []⟩
      | .raised => ⟨.finish .raised, cache, staged, []⟩
  | _, _ => none

/-! ## `publish_approved_review` -/

/-- Where a call of `publish_approved_review` is suspended. -/
inductive ApprovalPc
  /-- `create_task` has scheduled it, it has not run yet -/
  | created
  /-- awaiting `submit_review` -/
  | submitting (review : Review) (pc : SubmitPc)
  /-- awaiting `mark_pr_ready_for_review` -/
  | marking
  /-- awaiting the answer to `merge_pr`'s request with the first of these methods -/
  | merging (methods : List String)
  /-- awaiting the Slack message about the result -/
  | notifying
  | ended
  deriving DecidableEq, Repr

/-- A call of `publish_approved_review`, with the arguments every caller in `webhook/app.py`
gives it. -/
structure Approval where
  /-- of the approval request -/
  number : Nat
  job : ReviewJob
  summary : String
  findings : Option (List Finding) := some []
  isDraft : Bool := true
  autoMerge : Bool := true
  userApproved : Bool := true
  pc : ApprovalPc := .created
  deriving DecidableEq, Repr

/-- What resumes a call of `publish_approved_review`. -/
inductive ApprovalInput
  | go
  | submit (reply : SubmitReply)
  /-- the answer to the request is the one hoped for, or not -/
  | answered (ok : Bool)
  | slack
  deriving DecidableEq, Repr

/-- A step of `publish_approved_review`. -/
structure ApprovalMove where
  pc : ApprovalPc
  staged : StagedReviews
  events : List AppEvent
  deriving DecidableEq, Repr

namespace Approval

/-- The summary and the findings it publishes: the staged review, or what it was given. -/
def content (p : Approval) (taken : Option StagedReview) : StagedReview :=
  match taken with
  | some x => x
  | none =>
    if p.summary = "" ∧ p.findings = none then ⟨"Approved via Slack", []⟩
    else ⟨p.summary, p.findings.getD []⟩

/-- `requires_user_approval and not user_approved` -/
def blocked (p : Approval) (config : Config) : Bool :=
  ((config.getRepoSpec p.job.owner p.job.repo).map RepoSpec.requireApproval).getD false &&
    !p.userApproved

/-- `should_auto_merge` -/
def shouldAutoMerge (p : Approval) (config : Config) : Bool :=
  p.autoMerge && ((config.getRepoSpec p.job.owner p.job.repo).map RepoSpec.autoMerge).getD true

/-- The review it submits. -/
def review (p : Approval) (taken : Option StagedReview) : Review :=
  reviewOf p.job (p.content taken).summary (p.content taken).findings
    (if p.isDraft then .approve else .comment)

/-- A write it makes. -/
def writes (p : Approval) (w : GitHubWrite) : AppEvent :=
  .write (.approval p.number) w

/-- What follows the merge. -/
def afterMerge (cfg : PipelineConfig) : ApprovalPc :=
  if cfg.slack then .notifying else .ended

/-- What follows the promotion: the merge, of the head GitHub has then. -/
def merge (p : Approval) (cfg : PipelineConfig) (staged : StagedReviews) (head : String) :
    ApprovalMove :=
  if p.shouldAutoMerge cfg.config then
    ⟨.merging (mergeMethods "squash"), staged, [p.writes (.mergePr p.job.ref p.job.runId head)]⟩
  else ⟨afterMerge cfg, staged, []⟩

/-- A call of `publish_approved_review` runs to its next await; `head` is the head of its pull
request on GitHub. -/
def step (p : Approval) (cfg : PipelineConfig) (staged : StagedReviews) (head : String) :
    ApprovalInput → Option ApprovalMove
  | .go =>
    match p.pc with
    | .created =>
      let taken := staged.find p.job.runId
      let staged := staged.drop p.job.runId
      let started := AppEvent.publishing p.number p.job p.userApproved taken
      if p.blocked cfg.config then some ⟨.ended, staged, [started]⟩
      else
        some ⟨.submitting (p.review taken) .first, staged,
          [started, p.writes (.submitReview (p.review taken))]⟩
    | _ => none
  | .submit reply =>
    match p.pc with
    | .submitting review pc =>
      (submitStep review pc reply).map fun
        | .goOn pc writes => ⟨.submitting review pc, staged, writes.map p.writes⟩
        | .returned =>
          if p.isDraft then ⟨.marking, staged, [p.writes (.markReady p.job.ref p.job.runId)]⟩
          else p.merge cfg staged head
        | .raised => ⟨.ended, staged, []⟩
    | _ => none
  | .answered ok =>
    match p.pc with
    | .marking => some (p.merge cfg staged head)
    | .merging (_ :: method :: methods) =>
      if ok then some ⟨afterMerge cfg, staged, []⟩
      else some ⟨.merging (method :: methods), staged, []⟩
    | .merging _ => some ⟨afterMerge cfg, staged, []⟩
    | _ => none
  | .slack =>
    match p.pc with
    | .notifying => some ⟨.ended, staged, []⟩
    | _ => none

end Approval

end PrReviewer.Model
