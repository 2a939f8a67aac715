import PrReviewer.Model.Domain

/-!
# `CiGateMonitor`: the decisions

The two decision functions of `ci/gate.py`: `resolveGate`, which the unit tests exercise, and
the two decision blocks of the loop `_watch`, which the service runs: `afterPoll` on the check
runs just polled and `afterSleep`, after the sleep, on those same check runs. Times are whole
seconds, as the configuration has them.
-/

set_option autoImplicit false

namespace PrReviewer.Model

/-- `CheckRun` of `github/client.py`. -/
structure CheckRun where
  name : String
  status : String
  conclusion : Option String
  completed : Bool
  failed : Bool
  deriving DecidableEq, Repr

/-- The check run `poll_check_runs` makes of an API entry. -/
def CheckRun.ofApi (name status : String) (conclusion : Option String) : CheckRun where
  name := name
  status := status
  conclusion := conclusion
  completed := status == "completed"
  failed := truthy conclusion && conclusion != some "success"

/-- What a call of `poll_check_runs` does: raise, or return the check runs of the head. -/
inductive PollOutcome
  | error
  | runs (l : List CheckRun)
  deriving DecidableEq, Repr

/-- The settings of the gate. -/
structure GateConfig where
  settleSeconds : Int := 75
  waitCapMinutes : Int := 60
  pollIntervalSeconds : Int := 30
  deriving DecidableEq, Repr

/-- `self._cap = wait_cap_minutes * 60`. -/
def GateConfig.cap (g : GateConfig) : Int :=
  g.waitCapMinutes * 60

/-- `GateResult.reason`. -/
inductive GateReason
  | noCi
  | pending
  | ciFailed
  | green
  | timeout
  deriving DecidableEq, Repr

/-- `GateResult.ci_status`. -/
inductive CiStatus
  | absent
  | failed
  | success
  | pending
  deriving DecidableEq, Repr

/-- `GateResult`. -/
structure GateResult where
  passed : Bool
  reason : GateReason
  ciStatus : CiStatus
  deriving DecidableEq, Repr

/-- All check runs of a list are completed. -/
def allCompleted (runs : List CheckRun) : Bool :=
  runs.all CheckRun.completed

/-- Some check run of a list failed. -/
def anyFailed (runs : List CheckRun) : Bool :=
  runs.any CheckRun.failed

/-- The check runs a Rule B review may proceed on: none at all, or all of them completed and
none failed. -/
def greenOrAbsent (runs : List CheckRun) : Bool :=
  runs.isEmpty || allCompleted runs && !anyFailed runs

/-- `resolve_gate`, after its poll. -/
def resolveGate (g : GateConfig) (o : PollOutcome) (elapsed : Int) : GateResult :=
  -- `except Exception: runs = []`
  let runs := match o with
    | .error => []
    | .runs l => l
  if runs.isEmpty then
    if elapsed ≥ g.settleSeconds then ⟨true, .noCi, .absent⟩
    else ⟨false, .pending, .absent⟩
  else if allCompleted runs && anyFailed runs then ⟨false, .ciFailed, .failed⟩
  else if allCompleted runs then ⟨true, .green, .success⟩
  else if elapsed ≥ g.cap then ⟨false, .timeout, .pending⟩
  else ⟨false, .pending, .pending⟩

/-- What a decision block of `_watch` does with the run. -/
inductive GateVerdict
  | pass
  | fail
  | timeout
  | wait
  deriving DecidableEq, Repr

/-- The decision block of `_watch` right after a poll that returned `runs`. -/
def afterPoll (g : GateConfig) (elapsed : Int) (runs : List CheckRun) : GateVerdict :=
  if runs.isEmpty then .pass
  else if allCompleted runs then (if anyFailed runs then .fail else .pass)
  else if elapsed ≥ g.cap then .timeout
  else .wait

/-- The decision block of `_watch` after the sleep, on the runs of the poll before it. -/
def afterSleep (g : GateConfig) (elapsed : Int) (runs : List CheckRun) : GateVerdict :=
  if allCompleted runs then (if anyFailed runs then .fail else .pass)
  else if elapsed ≥ g.cap then .timeout
  else .wait

/-- A poll opens the gate only on no check runs or on completed ones of which none failed. -/
theorem afterPoll_eq_pass {g : GateConfig} {elapsed : Int} {runs : List CheckRun} :
    afterPoll g elapsed runs = .pass ↔ greenOrAbsent runs = true := by
  unfold afterPoll greenOrAbsent
  cases runs.isEmpty <;> cases allCompleted runs <;> cases anyFailed runs <;> simp
  all_goals split <;> simp

/-- The loop sleeps after a poll only on runs of which one is not completed, so the block
after the sleep never passes or fails the run on them. -/
theorem afterSleep_of_wait {g : GateConfig} {e e' : Int} {runs : List CheckRun}
    (h : afterPoll g e runs = .wait) :
    afterSleep g e' runs = if e' ≥ g.cap then .timeout else .wait := by
  unfold afterPoll at h
  unfold afterSleep
  cases hc : allCompleted runs with
  | false => simp
  | true =>
    simp only [hc, if_true] at h
    split at h
    · simp at h
    · split at h <;> simp at h

/-! ## `_watch` alone, on a script of poll outcomes -/

/-- What the `k`-th round of the loop learns: the outcome of its poll, or no check runs at all
for a job without a head. -/
def reported (head : Option String) (script : Nat → PollOutcome) (k : Nat) : PollOutcome :=
  if truthy head then script k else .runs []

/-- `elapsed` at the `k`-th poll. -/
def GateConfig.elapsedAt (g : GateConfig) (k : Nat) : Int :=
  k * g.pollIntervalSeconds

/-- The status a deciding verdict writes. -/
def GateVerdict.written : GateVerdict → Option RunStatus
  | .pass => some .queued
  | .fail => some .ciFailed
  | .timeout => some .skipped
  | .wait => none

/-- The `k`-th round of the loop on what it learns: the status it writes, with the number of
poll intervals elapsed then; `none` if the loop goes on. -/
def watchRound (g : GateConfig) (k : Nat) : PollOutcome → Option (Nat × RunStatus)
  | .error => none
  | .runs runs =>
    match (afterPoll g (g.elapsedAt k) runs).written with
    | some st => some (k, st)
    | none => (afterSleep g (g.elapsedAt (k + 1)) runs).written.map fun st => (k + 1, st)

/-- The first `n` rounds of the loop from the `k`-th on, for a run that stays `pending_ci`
until the loop writes. -/
def watchRounds (g : GateConfig) (reports : Nat → PollOutcome) :
    Nat → Nat → Option (Nat × RunStatus)
  | 0, _ => none
  | n + 1, k => (watchRound g k (reports k)).or (watchRounds g reports n (k + 1))

/-- `_diagnose`: the comment posted for a failed gate, from the failure logs. -/
def diagnose (logs : String) : String :=
  if logs = "" then "CI failed for this head; logs were unavailable."
  else
    -- `logs[-2000:]`
    let tail := String.ofList (logs.toList.drop (logs.length - 2000))
    "**CI gate failed.**\nRoot-cause notes from the failure logs:\n```\n" ++ tail ++
      "\n```\nThis review run will not proceed until CI is green."

/-- The comment posted when the logs could not be fetched or the diagnosis not posted. -/
def logsUnavailable : String :=
  "CI failed for this head; logs were unavailable during diagnosis."

/-- The comment posted at the wait cap. -/
def waitCapReached : String :=
  "CI hasn't completed; no review run"

end PrReviewer.Model
