import Mathlib.Data.List.Basic

/-!
# The shared data of the service

The types of `domain.py`, the job of `queue/manager.py` and the row of the `review_runs`
table of `state/db.py`. Optional text keeps Python's two empty values apart, `None` and
`""`; `truthy` is the test `if x:` makes on it.
-/

set_option autoImplicit false

namespace PrReviewer.Model

/-- `run_id`: `uuid.uuid4().hex` for an enqueued run, any text in an approval request. -/
abbrev RunId : Type := String

/-- `if x:` on an optional string: neither `None` nor `""`. -/
def truthy : Option String → Bool
  | none => false
  | some s => s != ""

/-- `x or ""` on an optional string. -/
def orEmpty (s : Option String) : String :=
  s.getD ""

/-- A text is truthy exactly when it is not empty. -/
@[simp] theorem truthy_some (s : String) : truthy (some s) = true ↔ s ≠ "" := by
  simp [truthy]

/-- An optional text is truthy exactly when it is one that is not empty. -/
theorem truthy_iff {s : Option String} : truthy s = true ↔ ∃ t, s = some t ∧ t ≠ "" := by
  cases s <;> simp [truthy]

/-- An optional text is truthy exactly when it is not empty in place of a missing one. -/
theorem truthy_iff_orEmpty {s : Option String} : truthy s = true ↔ orEmpty s ≠ "" := by
  cases s <;> simp [truthy, orEmpty]

/-- `if x:` on an optional number: neither `None` nor 0. -/
def prTruthy (pr : Option Int) : Bool :=
  pr.any (· != 0)

/-- The status of a run, `_RUN_STATES` of `state/db.py`. -/
inductive RunStatus
  | pendingCi
  | queued
  | running
  | pendingApproval
  | posted
  | failed
  | partialReport
  | skipped
  | ciFailed
  deriving DecidableEq, Repr

namespace RunStatus

/-- The text stored for a status. -/
def text : RunStatus → String
  | pendingCi => "pending_ci"
  | queued => "queued"
  | running => "running"
  | pendingApproval => "pending_approval"
  | posted => "posted"
  | failed => "failed"
  | partialReport => "partial"
  | skipped => "skipped"
  | ciFailed => "ci-failed"

/-- `_RUN_STATES`, in the source's order. -/
def all : List RunStatus :=
  [pendingCi, queued, running, pendingApproval, posted, failed, partialReport, skipped, ciFailed]

/-- The status a text stands for; `none` for a text outside `_RUN_STATES`, which
`set_status` refuses with an assertion error. -/
def ofText (s : String) : Option RunStatus :=
  all.find? fun st => st.text == s

/-- A status is read back from its text. -/
theorem ofText_text (st : RunStatus) : ofText st.text = some st := by
  cases st <;> decide

/-- A status has the text it was read from. -/
theorem text_of_ofText {s : String} {st : RunStatus} (h : ofText s = some st) : st.text = s := by
  simpa using List.find?_some h

/-- The statuses after which a run is over: no worker and no watcher works on it. -/
def final : RunStatus → Bool
  | pendingCi | queued | running => false
  | _ => true

end RunStatus

/-- What made a run: a webhook delivery (or the boot backfill), or a comment command. -/
inductive Cause
  | webhook
  | comment
  deriving DecidableEq, Repr

/-- `Severity` of a finding. -/
inductive Severity
  | high
  | medium
  | low
  deriving DecidableEq, Repr

/-- The text of a severity, `Severity.value`. -/
def Severity.value : Severity → String
  | .high => "high"
  | .medium => "medium"
  | .low => "low"

/-- `Finding`: one review finding, of whichever phase. -/
structure Finding where
  path : String
  line : Option Int := none
  severity : Severity := .low
  title : String := ""
  detail : String := ""
  type : String := "review"
  deriving DecidableEq, Repr

/-- `Command`: a parsed comment command. -/
structure Command where
  kind : String := "review"
  model : Option String := none
  deriving DecidableEq, Repr

/-- `NormalizedEvent`: the event the dispatcher works on. -/
structure NormalizedEvent where
  event : String
  action : String
  owner : String
  repo : String
  prNumber : Option Int := none
  headSha : Option String := none
  author : Option String := none
  requestedReviewers : List String := []
  commentBody : Option String := none
  ciStatus : Option String := none
  prState : Option String := none
  sender : Option String := none
  draft : Bool := false
  deriving DecidableEq, Repr

/-- The actions of a `Decision`. -/
inductive DecisionAction
  | enqueue
  | skip
  | reply
  | advanceCi
  | notifyMerged
  deriving DecidableEq, Repr

/-- `Decision`: what the trigger filter makes of an event. -/
structure Decision where
  action : DecisionAction
  reason : Option String := none
  owner : Option String := none
  repo : Option String := none
  pr : Option Int := none
  head : Option String := none
  model : Option String := none
  target : Option Command := none
  deriving DecidableEq, Repr

/-- `ReviewJob`: the job object the queue, the watcher and the worker of a run share. -/
structure ReviewJob where
  owner : String
  repo : String
  pr : Option Int
  head : Option String
  model : Option String := none
  runId : RunId
  attempts : Nat := 0
  status : RunStatus := .pendingCi
  cause : Cause := .webhook
  deriving DecidableEq, Repr

/-- `if not job.head: job.head = sha or ""`, the only change `execute` makes to its job. -/
def ReviewJob.fillHead (job : ReviewJob) (sha : Option String) : ReviewJob :=
  if truthy job.head then job else { job with head := some (orEmpty sha) }

/-- Filling in the head leaves the run's id. -/
@[simp] theorem ReviewJob.fillHead_runId (job : ReviewJob) (sha : Option String) :
    (job.fillHead sha).runId = job.runId := by
  unfold fillHead
  split <;> rfl

/-- A head that is there is not filled in. -/
theorem ReviewJob.fillHead_of_truthy {job : ReviewJob} (sha : Option String)
    (h : truthy job.head = true) : job.fillHead sha = job := by
  simp [fillHead, h]

/-- A row of `review_runs`. The column `model` may be `NULL`. -/
structure Row where
  runId : RunId
  owner : String
  repo : String
  pr : Int
  head : String
  model : Option String
  status : RunStatus
  attempts : Nat
  cause : Cause
  createdAt : Nat
  updatedAt : Nat
  deriving DecidableEq, Repr

/-- The job a row is read back as. -/
def Row.job (row : Row) : ReviewJob where
  owner := row.owner
  repo := row.repo
  pr := some row.pr
  head := some row.head
  model := row.model
  runId := row.runId
  attempts := row.attempts
  status := row.status
  cause := row.cause

/-- The job of a row is of its run. -/
@[simp] theorem Row.job_runId (row : Row) : row.job.runId = row.runId := rfl

/-- The job of a row has its head. -/
@[simp] theorem Row.job_head (row : Row) : row.job.head = some row.head := rfl

/-- The columns `owner`, `repo`, `pr`, `head` and `model`. -/
abbrev DedupKey : Type := String × String × Int × String × String

/-- The dedup key of a row, `UNIQUE (owner, repo, pr, head, model)`. A row with `NULL` in it has
none: the index takes it for different from every other row. -/
def Row.key (row : Row) : Option DedupKey :=
  row.model.map fun model => (row.owner, row.repo, row.pr, row.head, model)

/-- `UPDATE ... SET status=?, updated_at=?` on one row. -/
def Row.stamp (row : Row) (st : RunStatus) (now : Nat) : Row :=
  { row with status := st, updatedAt := now }

/-- A stamp leaves the run's id. -/
@[simp] theorem Row.stamp_runId (row : Row) (st : RunStatus) (now : Nat) :
    (row.stamp st now).runId = row.runId := rfl

/-- A stamp leaves the key. -/
@[simp] theorem Row.stamp_key (row : Row) (st : RunStatus) (now : Nat) :
    (row.stamp st now).key = row.key := rfl

/-- A stamp sets the status. -/
@[simp] theorem Row.stamp_status (row : Row) (st : RunStatus) (now : Nat) :
    (row.stamp st now).status = st := rfl

/-- A stamp sets the time. -/
@[simp] theorem Row.stamp_updatedAt (row : Row) (st : RunStatus) (now : Nat) :
    (row.stamp st now).updatedAt = now := rfl

/-- A stamp leaves the head. -/
@[simp] theorem Row.stamp_head (row : Row) (st : RunStatus) (now : Nat) :
    (row.stamp st now).head = row.head := rfl

end PrReviewer.Model
