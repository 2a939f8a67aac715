import PrReviewer.Analysis.GateReference
import PrReviewer.Analysis.SchedulerSteps
import Mathlib.Logic.Function.Iterate

/-!
# A watcher on its own

`_watch` as a task that makes calls: what it does until its next await depends on its local
state, on the status it reads and on what resumes it, and it touches the rest of the service
only by the calls of `GateCall`. `watchStep_eq_turn` says that a step of the scheduler's watcher
is this, so what is shown of the task alone holds of it in the service.
-/

set_option autoImplicit false

namespace PrReviewer.Model

/-! ## Calls -/

/-- A call of a watcher on the rest of the service. -/
inductive GateCall
  /-- `poll_check_runs` is called, with this much time elapsed -/
  | poll (elapsed : Int)
  | setStatus (st : RunStatus)
  | putBack
  | postComment (body : String)
  deriving DecidableEq, Repr

/-- The call is a poll. -/
def GateCall.isPoll : GateCall → Bool
  | poll _ => true
  | _ => false

/-- The call is a comment. -/
def GateCall.isComment : GateCall → Bool
  | postComment _ => true
  | _ => false

/-- The status a call writes. -/
def GateCall.status? : GateCall → Option RunStatus
  | setStatus st => some st
  | _ => none

/-- What a decision block calls before its next await. -/
def GateVerdict.calls : GateVerdict → List GateCall
  | pass => [.setStatus .queued, .putBack]
  | fail => [.setStatus .ciFailed]
  | timeout => [.setStatus .skipped, .postComment waitCapReached]
  | wait => []

/-- Where the task is after a decision block that decides. -/
def GateVerdict.next : GateVerdict → WatchPc
  | fail => .fetchLogs
  | timeout => .postTimeout
  | _ => .ended

namespace Watcher

/-- The head of the loop, where `get_run` finds this status. -/
def loopTop (w : Watcher) (status : Option RunStatus) : Watcher × List GateCall :=
  if status = some .pendingCi then
    if truthy w.job.head then ({ w with pc := .polling }, [.poll w.elapsed])
    else ({ w with pc := .ended }, GateVerdict.pass.calls)
  else ({ w with pc := .ended }, [])

/-- The watcher ends with the verdict, or goes on where it is to wait. -/
def decide (w : Watcher) (v : GateVerdict) (goOn : Watcher × List GateCall) :
    Watcher × List GateCall :=
  if v = .wait then goOn else ({ w with pc := v.next }, v.calls)

/-- The task runs to its next await. -/
def turn (cfg : GateConfig) (slack : Bool) (w : Watcher) (status : Option RunStatus)
    (inp : WatchInput) : Option (Watcher × List GateCall) :=
  match w.pc, inp with
  | .created, .go => some (w.loopTop status)
  | .polling, .polled .error => some ({ w with pc := .backoff }, [])
  | .polling, .polled (.runs runs) =>
    some (w.decide (afterPoll cfg w.elapsed runs) ({ w with pc := .sleeping runs }, []))
  | .backoff, .go =>
    some (Watcher.loopTop { w with elapsed := w.elapsed + cfg.pollIntervalSeconds } status)
  | .sleeping runs, .go =>
    let w := { w with elapsed := w.elapsed + cfg.pollIntervalSeconds }
    some (w.decide (afterSleep cfg w.elapsed runs) (w.loopTop status))
  | .fetchLogs, .logs (some logs) =>
    some ({ w with pc := .postDiagnosis }, [.postComment (diagnose logs)])
  | .fetchLogs, .logs none => some ({ w with pc := .postUnavailable }, [.postComment logsUnavailable])
  | .postDiagnosis, .sent false =>
    some ({ w with pc := .postUnavailable }, [.postComment logsUnavailable])
  | .postDiagnosis, .sent true =>
    some ({ w with pc := if slack then .notifySlack else .ended }, [])
  | .postUnavailable, .sent true =>
    some ({ w with pc := if slack then .notifySlack else .ended }, [])
  | .postUnavailable, .sent false => some ({ w with pc := .ended }, [])
  | .notifySlack, .sent _ => some ({ w with pc := .ended }, [])
  | .postTimeout, .sent _ => some ({ w with pc := .ended }, [])
  | _, _ => none

end Watcher

namespace Sched

variable {π : Type} {cfg : SchedConfig π} {s : Sched π} {i : Nat} {w : Watcher}

/-- A call for this job takes effect. -/
def perform (job : ReviewJob) (s : Sched π) : GateCall → Sched π
  | .setStatus st => s.writeStatus job.runId st
  | .putBack => s.putBack job
  | _ => s

/-- What can be observed of a call. -/
def callEvent (job : ReviewJob) : GateCall → Option SchedEvent
  | .postComment body => some (.gateComment job body)
  | _ => none

/-- What can be observed of what resumes a task. -/
def inputEvents (job : ReviewJob) : WatchInput → List SchedEvent
  | .polled o => [.polled job o]
  | _ => []

/-- The calls of a task take effect, and it waits. -/
def afterCalls (s : Sched π) (i : Nat) (job : ReviewJob) (m : Watcher × List GateCall) : Sched π :=
  (m.2.foldl (perform job) s).setWatcher i m.1

/-- The scheduler's loop head is the watcher's, with its calls performed. -/
theorem loopTop_eq (s : Sched π) (i : Nat) (w : Watcher) :
    s.loopTop i w = s.afterCalls i w.job (w.loopTop (s.table.statusOf w.job.runId)) ∧
      (w.loopTop (s.table.statusOf w.job.runId)).2.filterMap (callEvent w.job) = [] := by
  unfold Sched.loopTop Watcher.loopTop RunTable.statusOf
  cases s.table.row? w.job.runId with
  | none => exact ⟨rfl, rfl⟩
  | some row =>
    by_cases hp : row.status = .pendingCi
    · simp only [hp, if_true, Option.map_some]
      cases truthy w.job.head <;> exact ⟨rfl, rfl⟩
    · simp only [hp, if_false, Option.map_some, Option.some.injEq]
      exact ⟨rfl, rfl⟩

/-- The scheduler's verdict is the watcher's, with its calls performed. -/
theorem decideGate_eq (s : Sched π) (i : Nat) (w : Watcher) (v : GateVerdict) {t : Sched π}
    {goOn : Watcher × List GateCall} (ht : t = s.afterCalls i w.job goOn)
    (hgo : goOn.2.filterMap (callEvent w.job) = []) :
    s.decideGate i w v t =
      (s.afterCalls i w.job (w.decide v goOn),
        (w.decide v goOn).2.filterMap (callEvent w.job)) := by
  unfold Sched.decideGate Watcher.decide
  cases v with
  | wait => simp [ht, hgo]
  | pass => rfl
  | fail => rfl
  | timeout => rfl

/-- **A step of the watcher is a turn of its task**: its calls take effect, and nothing else of
the scheduler changes. -/
theorem watchStep_eq_turn (hw : s.watchers[i]? = some w) (inp : WatchInput) :
    s.watchStep cfg i inp =
      (w.turn cfg.gate cfg.slack (s.table.statusOf w.job.runId) inp).map fun m =>
        (s.afterCalls i w.job m, inputEvents w.job inp ++ m.2.filterMap (callEvent w.job)) := by
  unfold watchStep
  rw [hw]
  simp only
  unfold Watcher.turn
  cases w with
  | mk job elapsed pc =>
    simp only
    cases pc with
    | created =>
      cases inp <;> try rfl
      have hloop := loopTop_eq s i ⟨job, elapsed, .created⟩
      simp only [Option.map_some, inputEvents, List.nil_append, hloop.1, hloop.2]
    | polling =>
      cases inp <;> try rfl
      rename_i o
      cases o with
      | error => rfl
      | runs runs =>
        have hdecide := @decideGate_eq π s i ⟨job, elapsed, .polling⟩
          (afterPoll cfg.gate elapsed runs) (s.setWatcher i ⟨job, elapsed, .sleeping runs⟩)
          (⟨job, elapsed, .sleeping runs⟩, []) rfl rfl
        simp only [Option.map_some, inputEvents, hdecide]
        rfl
    | backoff =>
      cases inp <;> try rfl
      have hloop := loopTop_eq s i ⟨job, elapsed + cfg.gate.pollIntervalSeconds, .backoff⟩
      simp only [Option.map_some, inputEvents, List.nil_append, hloop.1, hloop.2]
    | sleeping runs =>
      cases inp <;> try rfl
      have hloop := loopTop_eq s i ⟨job, elapsed + cfg.gate.pollIntervalSeconds, .sleeping runs⟩
      simp only [Option.map_some, inputEvents, List.nil_append]
      rw [decideGate_eq s i _ _ hloop.1 hloop.2]
    | fetchLogs =>
      cases inp <;> try rfl
      rename_i l
      cases l <;> rfl
    | postDiagnosis =>
      cases inp <;> try rfl
      rename_i ok
      cases ok <;> rfl
    | postUnavailable =>
      cases inp <;> try rfl
      rename_i ok
      cases ok <;> rfl
    | notifySlack => cases inp <;> rfl
    | postTimeout => cases inp <;> rfl
    | ended => cases inp <;> rfl

/-! ## What a task does to its run -/

/-- What the store and the queue hold of one run. -/
structure RunView where
  status : Option RunStatus
  /-- it is in `_queued` -/
  marked : Bool
  /-- its entries in the queue -/
  entries : List ReviewJob
  deriving DecidableEq, Repr

/-- What can be seen of one run. -/
def view (s : Sched π) (r : RunId) : RunView :=
  ⟨s.table.statusOf r, decide (r ∈ s.queued), s.queue.filter fun job => job.runId == r⟩

/-- What a call does to the run of its job. -/
def RunView.act (job : ReviewJob) (v : RunView) : GateCall → RunView
  | .setStatus st => { v with status := v.status.map fun _ => st }
  | .putBack => if v.marked then v else { v with marked := true, entries := v.entries ++ [job] }
  | _ => v

/-- A call changes what can be seen of its run only as it says. -/
theorem view_perform (s : Sched π) (job : ReviewJob) (c : GateCall) :
    (perform job s c).view job.runId = (s.view job.runId).act job c := by
  cases c with
  | poll elapsed => rfl
  | postComment body => rfl
  | setStatus st =>
    have hst : (s.table.setStatus job.runId st s.now).statusOf job.runId
        = (s.table.statusOf job.runId).map fun _ => st := by
      rw [RunTable.statusOf_setStatus, if_pos rfl]
    exact congrArg (fun status => RunView.mk status _ _) hst
  | putBack =>
    show (s.putBack job).view job.runId = _
    by_cases hm : job.runId ∈ s.queued
    · simp [putBack, RunView.act, view, hm]
    · simp [putBack, RunView.act, view, hm, setWaker, put, addQueued]

/-- A call leaves the watchers. -/
theorem perform_watchers (s : Sched π) (job : ReviewJob) (c : GateCall) :
    (perform job s c).watchers = s.watchers := by
  cases c with
  | putBack => exact putBack_watchers s job
  | poll elapsed => rfl
  | setStatus st => rfl
  | postComment body => rfl

/-- Calls leave the watchers. -/
theorem calls_watchers (job : ReviewJob) (calls : List GateCall) (s : Sched π) :
    (calls.foldl (perform job) s).watchers = s.watchers := by
  induction calls generalizing s with
  | nil => rfl
  | cons c calls ih => rw [List.foldl_cons, ih, perform_watchers]

/-- Calls change what can be seen of their run one after the other. -/
theorem view_calls (job : ReviewJob) (calls : List GateCall) (s : Sched π) :
    (calls.foldl (perform job) s).view job.runId
      = calls.foldl (RunView.act job) (s.view job.runId) := by
  induction calls generalizing s with
  | nil => rfl
  | cons c calls ih => rw [List.foldl_cons, ih, view_perform, List.foldl_cons]

/-- After its calls the watcher stands where it said. -/
theorem afterCalls_watchers {m : Watcher × List GateCall} (hw : s.watchers[i]? = some w) :
    (s.afterCalls i w.job m).watchers[i]? = some m.1 := by
  obtain ⟨hi, -⟩ := List.getElem?_eq_some_iff.mp hw
  show ((m.2.foldl (perform w.job) s).watchers.set i m.1)[i]? = some m.1
  rw [calls_watchers]
  exact List.getElem?_set_self hi

/-- After the calls the run is seen as they say. -/
theorem afterCalls_view (s : Sched π) (i : Nat) (job : ReviewJob) (m : Watcher × List GateCall) :
    (s.afterCalls i job m).view job.runId = m.2.foldl (RunView.act job) (s.view job.runId) :=
  view_calls job m.2 s

end Sched

/-! ## Runs of a task -/

/-- How the calls of a task are answered. -/
structure GateScript where
  /-- how the `n`-th poll ends -/
  polls : Nat → PollOutcome
  /-- what `fetch_failure_logs` returns, if it does not raise -/
  logs : Option String
  /-- the `n`-th comment is posted -/
  comments : Nat → Bool
  /-- the Slack message is sent -/
  slack : Bool

/-- What resumes a task that has made these calls. -/
def GateScript.input (script : GateScript) (log : List GateCall) : WatchPc → WatchInput
  | .polling => .polled (script.polls (log.countP GateCall.isPoll - 1))
  | .fetchLogs => .logs script.logs
  | .postDiagnosis => .sent (script.comments (log.countP GateCall.isComment - 1))
  | .postUnavailable => .sent (script.comments (log.countP GateCall.isComment - 1))
  | .postTimeout => .sent (script.comments (log.countP GateCall.isComment - 1))
  | .notifySlack => .sent script.slack
  | _ => .go

namespace Sched

variable {π : Type} {cfg : SchedConfig π} {script : GateScript} {i : Nat}

/-- The `i`-th watcher is resumed, as the script has it, and its calls are written down. An ended
one stays as it is. -/
def resumeWatch (cfg : SchedConfig π) (script : GateScript) (i : Nat)
    (m : Sched π × List GateCall) : Sched π × List GateCall :=
  match m.1.watchers[i]? with
  | none => m
  | some w =>
    let inp := script.input m.2 w.pc
    match m.1.watchStep cfg i inp, w.turn cfg.gate cfg.slack (m.1.table.statusOf w.job.runId) inp with
    | some (s, _), some (_, calls) => (s, m.2 ++ calls)
    | _, _ => m

/-- A run of the service seen by its `i`-th watcher: the states it is resumed in, and the calls
it has made by then. What the rest of the service does in between is a step of `touch`. -/
structure WatchRun (cfg : SchedConfig π) (script : GateScript) (i : Nat)
    (touch : Sched π → Sched π → Prop) (run : Nat → Sched π × List GateCall) : Prop where
  fresh : (run 0).2 = []
  calls : ∀ n, (run (n + 1)).2 = (resumeWatch cfg script i (run n)).2
  others : ∀ n, touch (resumeWatch cfg script i (run n)).1 (run (n + 1)).1

variable {touch : Sched π → Sched π → Prop} {run : Nat → Sched π × List GateCall} {n : Nat}
  {w : Watcher}

/-- The next turn of a task that is not ended. -/
theorem WatchRun.turn (hrun : WatchRun cfg script i touch run)
    (hw : (run n).1.watchers[i]? = some w) {m : Watcher × List GateCall}
    (hm : w.turn cfg.gate cfg.slack ((run n).1.table.statusOf w.job.runId)
      (script.input (run n).2 w.pc) = some m) :
    (run (n + 1)).2 = (run n).2 ++ m.2 ∧
      touch ((run n).1.afterCalls i w.job m) (run (n + 1)).1 := by
  have hresume : resumeWatch cfg script i (run n)
      = ((run n).1.afterCalls i w.job m, (run n).2 ++ m.2) := by
    unfold resumeWatch
    rw [hw]
    simp only [watchStep_eq_turn hw, hm, Option.map_some]
  refine ⟨?_, ?_⟩
  · rw [hrun.calls n, hresume]
  · have hothers := hrun.others n
    rw [hresume] at hothers
    exact hothers

/-- A watcher that has ended makes no more calls. -/
theorem WatchRun.rest (hrun : WatchRun cfg script i touch run)
    (hw : (run n).1.watchers[i]? = some w) (hended : w.pc = .ended) :
    (run (n + 1)).2 = (run n).2 ∧ touch (run n).1 (run (n + 1)).1 := by
  have hturn : w.turn cfg.gate cfg.slack ((run n).1.table.statusOf w.job.runId)
      (script.input (run n).2 w.pc) = none := by
    unfold Watcher.turn
    rw [hended]
  have hresume : resumeWatch cfg script i (run n) = run n := by
    unfold resumeWatch
    rw [hw]
    simp only [watchStep_eq_turn hw, hturn, Option.map_none]
  refine ⟨?_, ?_⟩
  · rw [hrun.calls n, hresume]
  · have hothers := hrun.others n
    rw [hresume] at hothers
    exact hothers

/-- The rest of the service leaves the task alone, and does not put its run back to
`pending_ci`. -/
structure SparesTask (i : Nat) (r : RunId) (s s' : Sched π) : Prop where
  task : s'.watchers[i]? = s.watchers[i]?
  pending : s'.table.statusOf r = some .pendingCi → s.table.statusOf r = some .pendingCi

/-- The rest of the service leaves the task and its run alone. -/
structure LeavesRun (i : Nat) (r : RunId) (s s' : Sched π) : Prop where
  task : s'.watchers[i]? = s.watchers[i]?
  view : s'.view r = s.view r

/-- What leaves the run alone spares the task. -/
theorem LeavesRun.spares {r : RunId} {s s' : Sched π} (h : LeavesRun i r s s') :
    SparesTask i r s s' := by
  refine ⟨h.task, ?_⟩
  intro hp
  have hstatus : s'.table.statusOf r = s.table.statusOf r := congrArg RunView.status h.view
  rw [← hstatus]
  exact hp

/-- The run in which the rest of the service does nothing. -/
def ownTurns (cfg : SchedConfig π) (script : GateScript) (i : Nat) (s : Sched π) (n : Nat) :
    Sched π × List GateCall :=
  (resumeWatch cfg script i)^[n] (s, [])

/-- The watcher's own turns are one of its runs. -/
theorem ownTurns_watchRun (hrefl : ∀ s, touch s s) (s : Sched π) :
    WatchRun cfg script i touch (ownTurns cfg script i s) := by
  refine ⟨rfl, ?_, ?_⟩
  · intro n
    show ((resumeWatch cfg script i)^[n + 1] (s, [])).2 = _
    rw [Function.iterate_succ_apply']
    rfl
  · intro n
    show touch _ ((resumeWatch cfg script i)^[n + 1] (s, [])).1
    rw [Function.iterate_succ_apply']
    exact hrefl _

end Sched

end PrReviewer.Model
