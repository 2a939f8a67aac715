import PrReviewer.Analysis.OutputShapes
import PrReviewer.Model.AgentProcess
import PrReviewer.Model.Pipeline

/-!
# How the agent's process ends

`run` and `security_step` look at the same outcomes of a child process. Under CPython both call
`subprocess.run`, but only `security_step` catches the exception of its timeout; an output that
does not decode, or that `_parse_result` cannot take, escapes from both.
-/

set_option autoImplicit false

namespace PrReviewer.Model

open Library

/-- What `execute` gets of a call of `run`. -/
inductive Hands : Except RunError ParsedResult → Option ReviewResult → Prop
  | raised (e : RunError) : Hands (.error e) none
  | returned (r : ParsedResult) (review : ReviewResult) (hsummary : review.summary = r.summary)
      (hretryable : review.retryable = r.retryable) : Hands (.ok r) (some review)

/-- The worker puts the job back on the queue after its call of `run`, with one attempt more. -/
def Retried (run : Except RunError ParsedResult) : Prop :=
  ∀ (cfg : PipelineConfig) (now : Nat) (cache : Cache) (staged : StagedReviews) (job : ReviewJob)
    (checkout : String) (result : Option ReviewResult) (extra : List Finding), Hands run result →
    ∃ out, (execStep cfg now cache staged job (.running checkout) (.reviewed result extra)).map
        ExecMove.next = some (.finish out) ∧
      ∀ (sc : SchedConfig ExecPc) (s : Sched ExecPc), (job.attempts : Int) < sc.maxAttempts →
        s.settle sc job out =
          (s.writeStatus job.runId .queued).put { job with attempts := job.attempts + 1 }

/-- Both calls classify the outcome alike and neither raises; a child that has not ended or has
not started is worth a retry, and the worker makes it. -/
def AgentEnv.Alike (env : AgentEnv) (streamed : String) (o : ChildOutcome) : Prop :=
  ∃ r r', env.execSync cpython streamed o = .ok r ∧ env.securityStep o = .ok r' ∧
    r.exitCode = r'.exitCode ∧ r.retryable = r'.retryable ∧
    (o = .timedOut ∨ o = .notFound →
      r.retryable = true ∧ Retried (env.execSync cpython streamed o))

/-- The child ends in time, if it starts; what it writes decodes, and after the exit code 0 it is
no JSON at all or a review. -/
inductive AgentEnv.Readable (env : AgentEnv) : ChildOutcome → Prop
  | notFound : Readable env .notFound
  | exited (code : Int) (stdout stderr : List UInt8) (out err : String)
      (hout : env.readAll stdout = some out) (herr : env.readAll stderr = some err)
      (hparse : code = 0 → Accepted (env.json.loads (cleanOutput out.toList))) :
      Readable env (.exited code stdout stderr)

/-- A result that may be retried is retried. -/
theorem retried_of_retryable {run : Except RunError ParsedResult} {r : ParsedResult}
    (hrun : run = .ok r) (hr : r.retryable = true) : Retried run := by
  intro cfg now cache staged job checkout result extra hands
  subst hrun
  cases hands with
  | returned r review hsummary hretryable =>
    refine ⟨.retry, ?_, ?_⟩
    · simp [execStep, hretryable, hr]
    · intro sc s hattempts
      simp [Sched.settle, Outcome.retry, hattempts]

/-- A call that raises ends its run, whatever is left of its attempts. -/
theorem settle_of_raised {run : Except RunError ParsedResult} {e : RunError} (hrun : run = .error e)
    {cfg : PipelineConfig} {now : Nat} {cache : Cache} {staged : StagedReviews} {job : ReviewJob}
    {checkout : String} {result : Option ReviewResult} {extra : List Finding}
    (hands : Hands run result) (sc : SchedConfig ExecPc) (s : Sched ExecPc) :
    ∃ out, (execStep cfg now cache staged job (.running checkout) (.reviewed result extra)).map
        ExecMove.next = some (.finish out) ∧
      s.settle sc job out = s.writeStatus job.runId .failed := by
  subst hrun
  cases hands
  exact ⟨.raised, rfl, rfl⟩

/-- A call that raises is not retried by the worker's own rule. -/
theorem not_retried_of_raised {run : Except RunError ParsedResult} {e : RunError}
    (hrun : run = .error e) : ¬ Retried run := by
  intro h
  have hands : Hands run none := hrun ▸ .raised e
  let job : ReviewJob := { owner := "me", repo := "app", pr := some 1, head := some "a", runId := "r" }
  let cfg : PipelineConfig := ⟨⟨[], [], [], "free", 0⟩, true⟩
  let sc : SchedConfig ExecPc := ⟨{}, true, 3, 1, .start⟩
  obtain ⟨out, hnext, hretried⟩ := h cfg 0 ⟨[], []⟩ [] job "" none [] hands
  have hends : ∃ out, (execStep cfg 0 ⟨[], []⟩ [] job (.running "") (.reviewed none [])).map
        ExecMove.next = some (.finish out) ∧
      Sched.new.settle sc job out = Sched.new.writeStatus job.runId .failed :=
    settle_of_raised hrun hands sc Sched.new
  obtain ⟨out', hnext', hfailed⟩ := hends
  rw [hnext, Option.some.injEq, ExecNext.finish.injEq] at hnext'
  -- a job put back makes the queue longer
  have hqueue := congrArg (fun s => s.queue.length)
    (hfailed.symm.trans (hnext' ▸ hretried sc Sched.new (by decide)))
  simp [Sched.put, Sched.writeStatus, Sched.new] at hqueue

section Outcomes

variable {env : AgentEnv}

/-- The implementation that CPython runs. -/
theorem AgentEnv.execSync_cpython (streamed : String) (o : ChildOutcome) :
    env.execSync cpython streamed o =
      match env.subprocessRun o with
      | .ok proc => env.completed proc.returncode proc.stdout
      | .error .fileNotFound => .ok { summary := "", exitCode := 127, retryable := true }
      | .error e => .error (.process e) :=
  if_pos (by decide)

/-- A child that has ended is classified unless its output cannot be taken. -/
theorem AgentEnv.runs_completed (code : Int) (stdout : String) :
    Runs (env.completed code stdout) ↔
      (code = 0 → Accepted (env.json.loads (cleanOutput stdout.toList))) := by
  unfold completed
  by_cases hcode : code = 0
  · rw [if_neg (by simp [hcode]), runs_mapError]
    simp only [hcode, true_imp_iff]
    cases hloads : env.json.loads (cleanOutput stdout.toList) with
    | ok data => exact RunnerEnv.runs_of_decoded hloads
    | error e => exact RunnerEnv.runs_of_undecoded hloads
  · rw [if_pos hcode]
    exact iff_of_true (runs_ok _) (fun h => absurd h hcode)

/-- Where `subprocess.run` returns, the two calls are the same. -/
theorem AgentEnv.calls_of_returned {o : ChildOutcome} {proc : CompletedProcess} (streamed : String)
    (h : env.subprocessRun o = .ok proc) :
    env.execSync cpython streamed o = env.completed proc.returncode proc.stdout ∧
      env.securityStep o = env.completed proc.returncode proc.stdout := by
  rw [execSync_cpython, securityStep, h]
  exact ⟨rfl, rfl⟩

/-- **The two calls agree on an outcome** exactly if it is no timeout and can be read. -/
theorem agent_outcomes_alike_iff (env : AgentEnv) (streamed : String) (o : ChildOutcome) :
    env.Alike streamed o ↔ env.Readable o := by
  constructor
  · rintro ⟨r, r', hrun, -⟩
    cases hsub : env.subprocessRun o with
    | ok proc =>
      obtain ⟨stdout, stderr, rfl, hout, herr⟩ := AgentEnv.subprocessRun_eq_ok.mp hsub
      rw [(AgentEnv.calls_of_returned streamed hsub).1] at hrun
      exact .exited _ _ _ _ _ hout herr ((AgentEnv.runs_completed _ _).mp ⟨r, hrun⟩)
    | error e =>
      rw [AgentEnv.execSync_cpython, hsub] at hrun
      cases e with
      | timeoutExpired => cases hrun
      | undecodable => cases hrun
      | fileNotFound =>
        rw [AgentEnv.subprocessRun_eq_notFound.mp hsub]
        exact .notFound
  · intro hread
    cases hread with
    | notFound =>
      have hrun : env.execSync cpython streamed .notFound =
          .ok { summary := "", exitCode := 127, retryable := true } := by
        rw [AgentEnv.execSync_cpython]
        rfl
      exact ⟨_, _, hrun, rfl, rfl, rfl, fun _ => ⟨rfl, retried_of_retryable hrun rfl⟩⟩
    | exited code stdout stderr out err hout herr hparse =>
      have hsub : env.subprocessRun (.exited code stdout stderr) = .ok ⟨code, out, err⟩ :=
        AgentEnv.subprocessRun_eq_ok.mpr ⟨stdout, stderr, rfl, hout, herr⟩
      obtain ⟨r, hr⟩ := (AgentEnv.runs_completed code out).mpr hparse
      obtain ⟨hrun, hstep⟩ := AgentEnv.calls_of_returned streamed hsub
      refine ⟨r, r, hrun.trans hr, hstep.trans hr, rfl, rfl, ?_⟩
      rintro (h | h) <;> cases h

end Outcomes

/-- A runner of texts that are ASCII. -/
def plainAgent : AgentEnv where
  toRunnerEnv := plainRunner
  decode := fun data =>
    if data.all (· < 128) then some (data.map fun b => Char.ofNat b.toNat) else none

/-- A hung agent: `run` raises where `security_step` reports exit code 124, and the worker ends
the run on its first attempt. -/
theorem hung_agent_fails :
    ¬ plainAgent.Alike "" .timedOut ∧
      plainAgent.execSync cpython "" .timedOut = .error (.process .timeoutExpired) ∧
      plainAgent.securityStep .timedOut = .ok { summary := "", exitCode := 124, retryable := true } ∧
      ¬ Retried (plainAgent.execSync cpython "" .timedOut) := by
  have hrun : plainAgent.execSync cpython "" .timedOut = .error (.process .timeoutExpired) := by
    rw [AgentEnv.execSync_cpython]
    rfl
  refine ⟨?_, hrun, rfl, not_retried_of_raised hrun⟩
  rintro ⟨r, r', hr, -⟩
  rw [hrun] at hr
  cases hr

end PrReviewer.Model
