import PrReviewer.Library.Machine
import PrReviewer.Model.Gate
import PrReviewer.Model.Store

/-!
# The scheduler: queue manager, CI gate watchers and workers

One process of the service as far as runs are concerned: `QueueManager`, the `_watch` tasks
of `CiGateMonitor`, the loops of `WorkerScheduler`, and the `review_runs` table they share.
The pipeline a worker awaits is any coroutine: `π` is the type of its local states, it may
fill in the head of its job while it runs, and it ends with an `Outcome`.

A step is one stretch of code between two awaits (all tasks run on one event loop), so every
interleaving at await boundaries is a run of `machine`. The queue, the watcher and the worker
of a run share one job object in the source; here each holds the job by value. Only the
worker executing a job changes it, and `watched_not_held` and `queued_not_held` of
`PrReviewer.Analysis.Ownership` show that nobody else holds the job then.
-/

set_option autoImplicit false

namespace PrReviewer.Model

open PrReviewer.Library (Machine)

/-! ## Tasks -/

/-- Where a `_watch` task is suspended. -/
inductive WatchPc
  /-- `create_task` has scheduled it, it has not run yet -/
  | created
  /-- awaiting `poll_check_runs` -/
  | polling
  /-- the sleep after a poll that raised -/
  | backoff
  /-- the sleep after a poll that returned these check runs -/
  | sleeping (runs : List CheckRun)
  /-- `_fail`, awaiting `fetch_failure_logs` -/
  | fetchLogs
  /-- `_fail`, awaiting the comment with the diagnosis -/
  | postDiagnosis
  /-- `_fail`, awaiting the comment posted when the logs were unavailable -/
  | postUnavailable
  /-- `_fail`, awaiting the Slack message -/
  | notifySlack
  /-- awaiting the comment posted at the wait cap -/
  | postTimeout
  | ended
  deriving DecidableEq, Repr

/-- The task has not decided on its run yet: it is still inside the `while` loop. -/
def WatchPc.undecided : WatchPc → Bool
  | created | polling | backoff | sleeping _ => true
  | _ => false

/-- A `_watch` task. -/
structure Watcher where
  job : ReviewJob
  elapsed : Int := 0
  pc : WatchPc := .created
  deriving DecidableEq, Repr

/-- What resumes a `_watch` task. -/
inductive WatchInput
  /-- the event loop runs the new task, or its sleep is over -/
  | go
  /-- `poll_check_runs` raised or returned -/
  | polled (o : PollOutcome)
  /-- `fetch_failure_logs` raised (`none`) or returned -/
  | logs (l : Option String)
  /-- a comment or message was sent (`true`), or sending it raised -/
  | sent (ok : Bool)
  deriving DecidableEq, Repr

/-- A `_worker_loop` task. -/
inductive Worker (π : Type)
  /-- about to call `dequeue` -/
  | ready
  /-- blocked in `_waker.wait()` -/
  | waiting
  /-- its wait has been resolved by `_waker.set()` -/
  | woken
  /-- in the idle sleep after `dequeue` returned `None` -/
  | resting
  /-- awaiting the pipeline on a claimed job -/
  | busy (job : ReviewJob) (pc : π)
  deriving DecidableEq, Repr

/-- How a call of the pipeline ends, whatever the pipeline is. -/
inductive Outcome
  /-- it returned `None` -/
  | none
  /-- it returned a result with this `status` (`""` also stands for `None`) and `retryable` -/
  | result (status : String) (retryable : Bool)
  /-- it raised an `Exception` -/
  | raised
  deriving DecidableEq, Repr

/-! ## The state -/

/-- The store, the clock, and the memory of the process. While the process is down its
memory is empty. -/
structure Sched (π : Type) where
  /-- `review_runs` -/
  table : RunTable
  /-- `int(time.time())` -/
  now : Nat
  /-- every `uuid4().hex` handed out so far, by any process -/
  issued : List RunId
  up : Bool
  /-- `QueueManager._queue` -/
  queue : List ReviewJob
  /-- `QueueManager._queued`, a set -/
  queued : List RunId
  /-- `QueueManager._waker` is set -/
  waker : Bool
  /-- the `_watch` tasks of this process, ended ones included -/
  watchers : List Watcher
  /-- the `_worker_loop` tasks of this process -/
  workers : List (Worker π)
  /-- `WorkerScheduler._active` -/
  active : Int

/-- The wiring of a process. -/
structure SchedConfig (π : Type) where
  gate : GateConfig
  /-- a Slack notifier is present -/
  slack : Bool
  /-- `max_attempts` -/
  maxAttempts : Int
  /-- `concurrency`, the number of workers `range` makes of it -/
  concurrency : Nat
  /-- the local state of a pipeline call that has just been made -/
  start : π

/-- What a step does that can be observed. -/
inductive SchedEvent
  /-- `insert_run` stored the row of this job -/
  | inserted (job : ReviewJob)
  /-- `poll_check_runs(job.owner, job.repo, job.head)`, called by the gate for this job, ended -/
  | polled (job : ReviewJob) (o : PollOutcome)
  /-- the gate calls `post_comment` on the job's pull request -/
  | gateComment (job : ReviewJob) (body : String)
  deriving DecidableEq, Repr

/-- `EnqueueResult` -/
structure EnqueueResult where
  runId : RunId
  duplicate : Bool := false
  reason : String := ""
  deriving DecidableEq, Repr

section Operations

variable {π : Type}

/-- `_waker.set()`: every blocked `wait()` is resolved. -/
def Worker.wake : Worker π → Worker π
  | .waiting => .woken
  | w => w

namespace Sched

/-- `_waker.set()`. -/
def setWaker (s : Sched π) : Sched π :=
  { s with waker := true, workers := s.workers.map Worker.wake }

/-- `_queue.put_nowait(job)`. -/
def put (s : Sched π) (job : ReviewJob) : Sched π :=
  { s with queue := s.queue ++ [job] }

/-- `_queued.add(run_id)`. -/
def addQueued (s : Sched π) (r : RunId) : Sched π :=
  { s with queued := s.queued.insert r }

/-- `state.set_status(run_id, st)`. -/
def writeStatus (s : Sched π) (r : RunId) (st : RunStatus) : Sched π :=
  { s with table := s.table.setStatus r st s.now }

/-- `ci_gate.watch(job)`: a new task. -/
def watch (s : Sched π) (job : ReviewJob) : Sched π :=
  { s with watchers := s.watchers ++ [{ job := job }] }

/-- `QueueManager.put_back`. -/
def putBack (s : Sched π) (job : ReviewJob) : Sched π :=
  if job.runId ∈ s.queued then s
  else ((s.addQueued job.runId).put job).setWaker

/-! ## `QueueManager.enqueue` -/

/-- The job `enqueue` makes of a decision that names a repository. -/
def jobOf (r : RunId) (d : Decision) (owner repo : String) (cause : Cause) : ReviewJob where
  owner := owner
  repo := repo
  pr := d.pr
  head := d.head
  model := d.model
  runId := r
  cause := cause

/-- `enqueue`, with the fresh `run_id` of the job. A decision without owner or repository
violates `NOT NULL`, so its insertion is ignored. -/
def enqueue (s : Sched π) (r : RunId) (d : Decision) (cause : Cause) :
    Sched π × List SchedEvent :=
  match d.owner, d.repo with
  | some owner, some repo =>
    let job := jobOf r d owner repo cause
    let s := { s with issued := r :: s.issued }
    match s.table.insertRun job s.now with
    | (table, true) =>
      (((({ s with table := table }.watch job).addQueued job.runId).put job).setWaker,
        [.inserted job])
    | (table, false) => ({ s with table := table }, [])
  | _, _ => ({ s with issued := r :: s.issued }, [])

/-- What `enqueue` returns then. -/
def enqueueResult (s : Sched π) (r : RunId) (d : Decision) (cause : Cause) : EnqueueResult :=
  match d.owner, d.repo with
  | some owner, some repo =>
    if (s.table.insertRun (jobOf r d owner repo cause) s.now).2 then { runId := r }
    else { runId := r, duplicate := true, reason := "dedup" }
  | _, _ => { runId := r, duplicate := true, reason := "dedup" }

/-! ## `CiGateMonitor._watch` -/

/-- The task goes on with a new local state. -/
def setWatcher (s : Sched π) (i : Nat) (w : Watcher) : Sched π :=
  { s with watchers := s.watchers.set i w }

/-- `set_status(QUEUED)`, `_pass(job)`, `return`. -/
def passGate (s : Sched π) (i : Nat) (w : Watcher) : Sched π :=
  ((s.writeStatus w.job.runId .queued).putBack w.job).setWatcher i { w with pc := .ended }

/-- A final status is written and the task goes on to what follows it. -/
def closeGate (s : Sched π) (i : Nat) (w : Watcher) (st : RunStatus) (pc : WatchPc) : Sched π :=
  (s.writeStatus w.job.runId st).setWatcher i { w with pc := pc }

/-- The head of the `while` loop, up to the await of the poll. Without a head there is no
poll: `runs = []`, which passes the gate at once. A deleted row raises `KeyError`. -/
def loopTop (s : Sched π) (i : Nat) (w : Watcher) : Sched π :=
  match s.table.row? w.job.runId with
  | none => s.setWatcher i { w with pc := .ended }
  | some row =>
    if row.status = .pendingCi then
      if truthy w.job.head then s.setWatcher i { w with pc := .polling }
      else s.passGate i w
    else s.setWatcher i { w with pc := .ended }

/-- A decision block: what it writes, and `goOn` when it decides nothing. -/
def decideGate (s : Sched π) (i : Nat) (w : Watcher) (v : GateVerdict) (goOn : Sched π) :
    Sched π × List SchedEvent :=
  match v with
  | .pass => (s.passGate i w, [])
  | .fail => (s.closeGate i w .ciFailed .fetchLogs, [])
  | .timeout => (s.closeGate i w .skipped .postTimeout, [.gateComment w.job waitCapReached])
  | .wait => (goOn, [])

/-- A `_watch` task runs to its next await. -/
def watchStep (cfg : SchedConfig π) (s : Sched π) (i : Nat) (inp : WatchInput) :
    Option (Sched π × List SchedEvent) :=
  match s.watchers[i]? with
  | none => none
  | some w =>
    match w.pc, inp with
    | .created, .go => some (s.loopTop i w, [])
    | .polling, .polled .error =>
      some (s.setWatcher i { w with pc := .backoff }, [.polled w.job .error])
    | .polling, .polled (.runs runs) =>
      let r := s.decideGate i w (afterPoll cfg.gate w.elapsed runs)
        (s.setWatcher i { w with pc := .sleeping runs })
      some (r.1, .polled w.job (.runs runs) :: r.2)
    | .backoff, .go =>
      some (s.loopTop i { w with elapsed := w.elapsed + cfg.gate.pollIntervalSeconds }, [])
    | .sleeping runs, .go =>
      let w := { w with elapsed := w.elapsed + cfg.gate.pollIntervalSeconds }
      some (s.decideGate i w (afterSleep cfg.gate w.elapsed runs) (s.loopTop i w))
    | .fetchLogs, .logs (some logs) =>
      some (s.setWatcher i { w with pc := .postDiagnosis }, [.gateComment w.job (diagnose logs)])
    | .fetchLogs, .logs none =>
      some (s.setWatcher i { w with pc := .postUnavailable }, [.gateComment w.job logsUnavailable])
    -- the first comment is posted inside the `try`, so its failure posts the second one
    | .postDiagnosis, .sent false =>
      some (s.setWatcher i { w with pc := .postUnavailable }, [.gateComment w.job logsUnavailable])
    | .postDiagnosis, .sent true =>
      some (s.setWatcher i { w with pc := if cfg.slack then .notifySlack else .ended }, [])
    | .postUnavailable, .sent true =>
      some (s.setWatcher i { w with pc := if cfg.slack then .notifySlack else .ended }, [])
    | .postUnavailable, .sent false => some (s.setWatcher i { w with pc := .ended }, [])
    | .notifySlack, .sent _ => some (s.setWatcher i { w with pc := .ended }, [])
    | .postTimeout, .sent _ => some (s.setWatcher i { w with pc := .ended }, [])
    | _, _ => none

/-! ## `WorkerScheduler._worker_loop` -/

/-- The loop of `dequeue` over a non-empty queue: pop, discard from `_queued`, claim; a lost
claim drops the job and tries the next. -/
def claimNext (now : Nat) :
    RunTable → List ReviewJob → List RunId → RunTable × List ReviewJob × List RunId × Option ReviewJob
  | t, [], queued => (t, [], queued, none)
  | t, job :: rest, queued =>
    match t.claimRun job.runId now with
    | (t', true) => (t', rest, queued.filter (· ≠ job.runId), some job)
    | (t', false) => claimNext now t' rest (queued.filter (· ≠ job.runId))

/-- Worker `i` runs `dequeue`: with a claimed job it calls the pipeline, on an empty queue it
clears the waker and waits. -/
def dequeue (cfg : SchedConfig π) (s : Sched π) (i : Nat) : Sched π :=
  match claimNext s.now s.table s.queue s.queued with
  | (table, queue, queued, some job) =>
    { s with
      table := table, queue := queue, queued := queued, active := s.active + 1,
      workers := s.workers.set i (.busy job cfg.start) }
  | (table, queue, queued, none) =>
    { s with
      table := table, queue := queue, queued := queued, waker := false,
      workers := s.workers.set i .waiting }

/-- What the worker does with the outcome of its pipeline call. A status outside
`_RUN_STATES` fails the assertion of `set_status` and so takes the exception path. -/
def settle (cfg : SchedConfig π) (s : Sched π) (job : ReviewJob) : Outcome → Sched π
  | .none => s
  | .raised => s.writeStatus job.runId .failed
  | .result status retryable =>
    if retryable then
      if (job.attempts : Int) < cfg.maxAttempts then
        -- the retry is put on the queue but not added to `_queued`
        (s.writeStatus job.runId .queued).put { job with attempts := job.attempts + 1 }
      else s.writeStatus job.runId .failed
    else
      match RunStatus.ofText (if status = "" then "posted" else status) with
      | some st => s.writeStatus job.runId st
      | none => s.writeStatus job.runId .failed

/-- The `finally` of the loop body. -/
def release (s : Sched π) (i : Nat) : Sched π :=
  { s with active := s.active - 1, workers := s.workers.set i .ready }

/-- The pipeline call of worker `i` on `job` ends; the worker goes on to its next await. -/
def finish (cfg : SchedConfig π) (s : Sched π) (i : Nat) (job : ReviewJob) (out : Outcome) :
    Sched π :=
  ((s.settle cfg job out).release i).dequeue cfg i

/-! ## Crash and boot -/

/-- The process dies; the store and the clock stay. -/
def crash (s : Sched π) : Sched π :=
  { s with
    up := false, queue := [], queued := [], waker := false, watchers := [], workers := [],
    active := 0 }

/-- One open job of the boot sweep. -/
def resume (s : Sched π) (job : ReviewJob) : Sched π :=
  ((if job.status = .pendingCi then s.watch job else s).addQueued job.runId).put job

/-- `QueueManager.reconcile(lease_ttl_seconds)`. -/
def reconcile (s : Sched π) (leaseTtl : Int) : Sched π × Nat :=
  let r := s.table.recoverOrphans leaseTtl s.now
  let s := { s with table := r.1 }
  (s.table.reconcileOpenJobs.foldl resume s, r.2)

/-- `startup`: the sweep with lease TTL 0, then the workers are created. -/
def boot (cfg : SchedConfig π) (s : Sched π) : Sched π :=
  { ({ s.crash with up := true }.reconcile 0).1 with
    workers := List.replicate cfg.concurrency .ready }

end Sched

end Operations

/-! ## The machine -/

/-- The steps of a scheduler. -/
inductive SchedAction (π : Type)
  /-- time passes -/
  | tick (d : Nat)
  /-- `enqueue(decision, cause)`, drawing the run id `r` -/
  | enqueue (r : RunId) (d : Decision) (cause : Cause)
  /-- the `i`-th `_watch` task is resumed -/
  | watch (i : Nat) (inp : WatchInput)
  /-- the `i`-th worker calls `dequeue`, or goes on in its loop after its wait -/
  | wake (i : Nat)
  /-- the wait of the `i`-th worker times out, perhaps just after it has been resolved -/
  | timeout (i : Nat)
  /-- the pipeline of the `i`-th worker goes on to `pc`, perhaps after
  `if not job.head: job.head = sha or ""` -/
  | advance (i : Nat) (sha : Option (Option String)) (pc : π)
  /-- the pipeline of the `i`-th worker ends -/
  | finish (i : Nat) (out : Outcome)
  | crash
  | boot

/-- `job.head` after the pipeline filled it in, if it did. -/
def ReviewJob.fill (job : ReviewJob) : Option (Option String) → ReviewJob
  | none => job
  | some sha => job.fillHead sha

/-- Filling in the head leaves the run's id. -/
@[simp] theorem ReviewJob.fill_runId (job : ReviewJob) (sha : Option (Option String)) :
    (job.fill sha).runId = job.runId := by
  cases sha <;> simp [fill]

variable {π : Type}

/-- One step of a scheduler. A run id is drawn once only. -/
def Sched.step (cfg : SchedConfig π) (s : Sched π) :
    SchedAction π → Option (Sched π × List SchedEvent)
  | .tick d => some ({ s with now := s.now + d }, [])
  | .enqueue r d cause => if s.up && r ∉ s.issued then some (s.enqueue r d cause) else none
  | .watch i inp => s.watchStep cfg i inp
  | .wake i =>
    match s.workers[i]? with
    | some .ready | some .woken | some .resting => some (s.dequeue cfg i, [])
    | _ => none
  | .timeout i =>
    match s.workers[i]? with
    | some .waiting | some .woken => some ({ s with workers := s.workers.set i .resting }, [])
    | _ => none
  | .advance i sha pc =>
    match s.workers[i]? with
    | some (.busy job _) => some ({ s with workers := s.workers.set i (.busy (job.fill sha) pc) }, [])
    | _ => none
  | .finish i out =>
    match s.workers[i]? with
    | some (.busy job _) => some (s.finish cfg i job out, [])
    | _ => none
  | .crash => if s.up then some (s.crash, []) else none
  | .boot => if s.up then none else some (s.boot cfg, [])

/-- The states a service may be started in: the process is down and the database is whatever
earlier processes left, as long as the clock has not run backwards since. -/
structure Sched.Cold (s : Sched π) : Prop where
  down : s.up = false
  memory : s.crash = s
  stamped : ∀ row ∈ s.table.rows, row.updatedAt ≤ s.now
  issued : ∀ row ∈ s.table.rows, row.runId ∈ s.issued

/-- A new installation: an empty database and no process. -/
def Sched.new : Sched π where
  table := .empty
  now := 0
  issued := []
  up := false
  queue := []
  queued := []
  waker := false
  watchers := []
  workers := []
  active := 0

/-- A new service is down. -/
theorem Sched.new_cold : (Sched.new : Sched π).Cold := by
  refine ⟨rfl, rfl, ?_, ?_⟩
  · intro row hrow
    exact absurd hrow List.not_mem_nil
  · intro row hrow
    exact absurd hrow List.not_mem_nil

/-- The scheduler as a machine. -/
def Sched.machine (cfg : SchedConfig π) : Machine (Sched π) (SchedAction π) SchedEvent where
  start := Sched.Cold
  step := Sched.step cfg

/-- The scheduler of a new installation as a machine. -/
def Sched.newMachine (cfg : SchedConfig π) : Machine (Sched π) (SchedAction π) SchedEvent where
  start := fun s => s = Sched.new
  step := Sched.step cfg

/-- A run of a new installation is a run of the scheduler. -/
theorem Sched.reaches_of_new {cfg : SchedConfig π}
    {D : Machine.Discipline (Sched π) (SchedAction π) SchedEvent} {s : Sched π}
    {h : List SchedEvent} (hr : (newMachine cfg).Reaches D s h) : (machine cfg).Reaches D s h := by
  refine Machine.Reaches.of_start (M := newMachine cfg) ?_ ?_ hr
  · rintro s (rfl : s = Sched.new)
    exact Sched.new_cold
  · exact fun _ _ => rfl

end PrReviewer.Model
