import PrReviewer.Library.Progress
import PrReviewer.Analysis.NoLoss
import PrReviewer.Analysis.RetryBudget
import PrReviewer.Analysis.WakeUps
import PrReviewer.Analysis.WatchTask

/-!
# The service gets done

Work that is left in a process is counted: the turns its watchers may still take before the wait
cap, the entries of the queue with the retries they have left, and the workers that will look into
the queue once more. `workLeft_step` charges every step with what it can add: an accepted command
adds a fixed amount, a poll that raises and a wait that times out add one, everything else uses
work up. So a process that is left alone comes to rest, whatever the polls and the pipeline calls
return, and `Drained` says where.
-/

set_option autoImplicit false

namespace PrReviewer.Model

open PrReviewer.Library

variable {π : Type}

/-! ## What is left to do -/

/-- The executions an entry of the queue may still stand for. -/
def SchedConfig.entryWeight (cfg : SchedConfig π) (job : ReviewJob) : Nat :=
  (cfg.maxAttempts - job.attempts).toNat + 1

/-- What opening the gate puts on others: an entry of the queue, and a look into the queue for
every worker. -/
def SchedConfig.passWeight (cfg : SchedConfig π) (job : ReviewJob) : Nat :=
  cfg.entryWeight job + cfg.concurrency

/-- The turns left at a poll with this much time elapsed, and what follows them. -/
def SchedConfig.roundsLeft (cfg : SchedConfig π) (job : ReviewJob) (elapsed : Int) : Nat :=
  2 * (cfg.gate.cap - elapsed).toNat + (cfg.passWeight job + 5)

/-- The turns a watcher may still take, and the work it may still make. -/
def Watcher.weight (cfg : SchedConfig π) (w : Watcher) : Nat :=
  match w.pc with
  | .created => cfg.roundsLeft w.job w.elapsed + 2
  | .backoff => cfg.roundsLeft w.job w.elapsed + 2
  | .polling => cfg.roundsLeft w.job w.elapsed + 1
  | .sleeping _ => cfg.roundsLeft w.job w.elapsed
  | .fetchLogs => 4
  | .postDiagnosis => 3
  | .postUnavailable => 2
  | .notifySlack => 1
  | .postTimeout => 1
  | .ended => 0

/-- A worker that executes a job stands for the retries of the job, an idle one that is not
blocked for its next look into the queue. -/
def Worker.weight (cfg : SchedConfig π) : Worker π → Nat
  | .busy job _ => cfg.entryWeight job
  | .waiting => 0
  | _ => 1

/-- What a call of a watcher adds to the work of others. -/
def GateCall.weight (cfg : SchedConfig π) (job : ReviewJob) : GateCall → Nat
  | .putBack => cfg.passWeight job
  | _ => 0

/-- What an accepted command adds: its watcher, its entry, and the looks into the queue. -/
def SchedConfig.acceptWeight (cfg : SchedConfig π) : Nat :=
  2 * cfg.gate.cap.toNat + 2 * cfg.maxAttempts.toNat + 2 * cfg.concurrency + 9

/-- What a step may add to the work that is left, its own turn included. -/
def SchedAction.charge (cfg : SchedConfig π) : SchedAction π → Nat
  | .enqueue _ _ _ => cfg.acceptWeight + 1
  | .watch _ (.polled .error) => 2
  | .timeout _ => 2
  | .tick _ => 1
  | .advance _ _ _ => 1
  | _ => 0

/-- A step of a process that stays up. -/
def SchedAction.stays : SchedAction π → Bool
  | .crash => false
  | .boot => false
  | _ => true

namespace Sched

/-- The work that is left in a process. -/
def workLeft (cfg : SchedConfig π) (s : Sched π) : Nat :=
  (s.watchers.map (Watcher.weight cfg)).sum + (s.queue.map cfg.entryWeight).sum +
    (s.workers.map (Worker.weight cfg)).sum

end Sched

/-- A retry uses up a step of the entry's weight. -/
theorem SchedConfig.entryWeight_retried {cfg : SchedConfig π} {job : ReviewJob}
    (h : (job.attempts : Int) < cfg.maxAttempts) :
    cfg.entryWeight { job with attempts := job.attempts + 1 } + 1 = cfg.entryWeight job := by
  unfold SchedConfig.entryWeight
  push_cast
  omega

/-- Waking a worker gives it at most one step. -/
theorem Worker.weight_wake (cfg : SchedConfig π) (w : Worker π) :
    w.wake.weight cfg ≤ w.weight cfg + 1 := by
  cases w <;> simp [wake, weight]

/-- Waking every worker gives at most one step for each. -/
theorem Worker.sum_weight_wake (cfg : SchedConfig π) (l : List (Worker π)) :
    ((l.map Worker.wake).map (Worker.weight cfg)).sum
      ≤ (l.map (Worker.weight cfg)).sum + l.length := by
  induction l with
  | nil => exact Nat.le_refl _
  | cons w l ih =>
    have hw := w.weight_wake cfg
    simp only [List.map_cons, List.sum_cons, List.length_cons]
    omega

/-! ## A turn of a watcher -/

section Turns

variable {cfg : SchedConfig π} {w : Watcher} {m : Watcher × List GateCall}

/-- The calls of a task, as work for others. -/
def callsWeight (cfg : SchedConfig π) (job : ReviewJob) (calls : List GateCall) : Nat :=
  (calls.map (GateCall.weight cfg job)).sum

/-- The calls of a verdict weigh no more than the pass of the gate. -/
theorem callsWeight_verdict (cfg : SchedConfig π) (job : ReviewJob) (v : GateVerdict) :
    callsWeight cfg job v.calls ≤ cfg.passWeight job := by
  cases v <;> simp [callsWeight, GateVerdict.calls, GateCall.weight]

/-- The head of the loop polls, or is done with the run. -/
theorem loopTop_weight (cfg : SchedConfig π) (w : Watcher) (status : Option RunStatus) :
    callsWeight cfg w.job (w.loopTop status).2 + (w.loopTop status).1.weight cfg
      ≤ cfg.roundsLeft w.job w.elapsed + 1 := by
  unfold Watcher.loopTop
  split
  · split
    · simp [callsWeight, GateCall.weight, Watcher.weight]
    · have hpass := callsWeight_verdict cfg w.job .pass
      simp only [Watcher.weight, SchedConfig.roundsLeft]
      omega
  · simp [callsWeight, Watcher.weight]

/-- A decision block that decides leaves less than any round of the loop. -/
theorem decide_weight {v : GateVerdict} {goOn : Watcher × List GateCall} {n : Nat}
    (hround : cfg.passWeight w.job + 5 ≤ n)
    (hgo : v = .wait → callsWeight cfg w.job goOn.2 + goOn.1.weight cfg + 1 ≤ n) :
    callsWeight cfg w.job (w.decide v goOn).2 + (w.decide v goOn).1.weight cfg + 1 ≤ n := by
  unfold Watcher.decide
  by_cases hv : v = .wait
  · rw [if_pos hv]
    exact hgo hv
  · rw [if_neg hv]
    have hcalls := callsWeight_verdict cfg w.job v
    have hnext : Watcher.weight cfg { w with pc := v.next } ≤ 4 := by
      cases v <;> simp [Watcher.weight, GateVerdict.next]
    dsimp only
    omega

/-- The gate sleeps again only below the cap. -/
theorem below_cap_of_afterSleep {g : GateConfig} {e : Int} {runs : List CheckRun}
    (h : afterSleep g e runs = .wait) : e < g.cap := by
  unfold afterSleep at h
  split at h
  · split at h <;> cases h
  · split at h
    · cases h
    · omega

/-- **A turn of a watcher uses work up**, unless its poll raised. -/
theorem turn_weight (hpoll : 0 < cfg.gate.pollIntervalSeconds) {status : Option RunStatus}
    {inp : WatchInput} (h : w.turn cfg.gate cfg.slack status inp = some m) :
    callsWeight cfg w.job m.2 + m.1.weight cfg + 1
      ≤ w.weight cfg + if inp = .polled .error then 2 else 0 := by
  obtain ⟨job, elapsed, pc⟩ := w
  unfold Watcher.turn at h
  dsimp only at h
  split at h <;> try rw [Option.some.injEq] at h
  case h_1 =>
    have htop := loopTop_weight cfg ⟨job, elapsed, .created⟩ status
    rw [← h]
    simp only [Watcher.weight, reduceCtorEq, if_false]
    exact Nat.succ_le_succ htop
  case h_2 =>
    rw [← h]
    simp [callsWeight, Watcher.weight]
  case h_3 runs =>
    rw [← h]
    refine Nat.le_trans
      (@decide_weight π cfg ⟨job, elapsed, .polling⟩ _ _ _ ?_ fun _ => Nat.le_refl _) ?_
    · simp only [callsWeight, Watcher.weight, SchedConfig.roundsLeft]
      omega
    · simp [callsWeight, Watcher.weight]
  case h_4 =>
    have htop := loopTop_weight cfg ⟨job, elapsed + cfg.gate.pollIntervalSeconds, .backoff⟩ status
    rw [← h]
    simp only [Watcher.weight, SchedConfig.roundsLeft, reduceCtorEq, if_false] at htop ⊢
    omega
  case h_5 runs =>
    rw [← h]
    have htop := loopTop_weight cfg
      ⟨job, elapsed + cfg.gate.pollIntervalSeconds, .sleeping runs⟩ status
    refine @decide_weight π cfg ⟨job, elapsed + cfg.gate.pollIntervalSeconds, .sleeping runs⟩ _ _ _
      ?_ ?_
    · simp only [Watcher.weight, SchedConfig.roundsLeft]
      omega
    · -- the sleep has brought the cap nearer
      intro hwait
      have hbelow := below_cap_of_afterSleep hwait
      simp only [Watcher.weight, SchedConfig.roundsLeft, reduceCtorEq, if_false] at htop ⊢
      omega
  case h_9 | h_10 =>
    rw [← h]
    cases cfg.slack <;> simp [callsWeight, Watcher.weight]
  case h_14 => cases h
  all_goals
    rw [← h]
    simp [callsWeight, GateCall.weight, Watcher.weight]

end Turns

namespace Sched

section Steps

variable {cfg : SchedConfig π} {s s' : Sched π}

/-! ## A step of the scheduler -/

/-- Setting the waker adds at most one step for each worker. -/
theorem workLeft_setWaker (hslots : s.workers.length = cfg.concurrency) :
    s.setWaker.workLeft cfg ≤ s.workLeft cfg + cfg.concurrency := by
  have hwake := Worker.sum_weight_wake cfg s.workers
  unfold workLeft setWaker
  dsimp only
  omega

/-- A queued run adds the weight of its entry. -/
theorem workLeft_put (s : Sched π) (job : ReviewJob) :
    (s.put job).workLeft cfg = s.workLeft cfg + cfg.entryWeight job := by
  unfold workLeft put
  simp only [List.map_append, List.sum_append, List.map_cons, List.map_nil, List.sum_cons,
    List.sum_nil]
  omega

/-- A gate's call adds at most its weight and keeps the number of workers. -/
theorem workLeft_perform (job : ReviewJob) (c : GateCall)
    (hslots : s.workers.length = cfg.concurrency) :
    (perform job s c).workLeft cfg ≤ s.workLeft cfg + c.weight cfg job ∧
      (perform job s c).workers.length = cfg.concurrency := by
  cases c with
  | poll elapsed => exact ⟨Nat.le_refl _, hslots⟩
  | setStatus st => exact ⟨Nat.le_refl _, hslots⟩
  | postComment body => exact ⟨Nat.le_refl _, hslots⟩
  | putBack =>
    show (s.putBack job).workLeft cfg ≤ _ ∧ (s.putBack job).workers.length = _
    unfold putBack
    split
    · exact ⟨Nat.le_add_right _ _, hslots⟩
    · have hwake := @workLeft_setWaker π cfg ((s.addQueued job.runId).put job) hslots
      rw [workLeft_put] at hwake
      refine ⟨?_, ?_⟩
      · refine Nat.le_trans hwake (Nat.le_of_eq ?_)
        exact Nat.add_assoc _ _ _
      · show (s.workers.map Worker.wake).length = _
        rw [List.length_map]
        exact hslots

/-- A list of gate's calls adds at most its weight. -/
theorem workLeft_calls (job : ReviewJob) (calls : List GateCall) {s : Sched π}
    (hslots : s.workers.length = cfg.concurrency) :
    (calls.foldl (perform job) s).workLeft cfg ≤ s.workLeft cfg + callsWeight cfg job calls := by
  induction calls generalizing s with
  | nil => exact Nat.le_refl _
  | cons c calls ih =>
    obtain ⟨hle, hslots'⟩ := workLeft_perform job c hslots
    have hrest := ih hslots'
    rw [List.foldl_cons]
    simp only [callsWeight, List.map_cons, List.sum_cons] at hrest ⊢
    omega

/-- A watcher that moves takes the place it had. -/
theorem workLeft_setWatcher {i : Nat} {w : Watcher} (hw : s.watchers[i]? = some w) (w' : Watcher) :
    (s.setWatcher i w').workLeft cfg + w.weight cfg = s.workLeft cfg + w'.weight cfg := by
  have hsum := sum_map_set_add (a := w') (Watcher.weight cfg) hw
  unfold workLeft setWatcher
  dsimp only
  omega

/-- A step of a watcher. -/
theorem workLeft_watch (hpoll : 0 < cfg.gate.pollIntervalSeconds)
    (hslots : s.workers.length = cfg.concurrency) {i : Nat} {inp : WatchInput}
    {es : List SchedEvent} (h : s.watchStep cfg i inp = some (s', es)) :
    s'.workLeft cfg + 1 ≤ s.workLeft cfg + if inp = .polled .error then 2 else 0 := by
  obtain ⟨w, hw, -⟩ := watchStep_move h
  rw [watchStep_eq_turn hw] at h
  obtain ⟨m, hm, heq⟩ := Option.map_eq_some_iff.mp h
  obtain ⟨rfl, -⟩ := Prod.mk.inj heq
  have hturn := turn_weight hpoll hm
  have hcalls := workLeft_calls w.job m.2 hslots
  have hw' : (m.2.foldl (perform w.job) s).watchers[i]? = some w := by
    rw [calls_watchers]
    exact hw
  have hset := @workLeft_setWatcher π cfg _ i w hw' m.1
  show ((m.2.foldl (perform w.job) s).setWatcher i m.1).workLeft cfg + 1 ≤ _
  omega

/-- A worker that is not blocked looks into the queue, and takes a job or is blocked. -/
theorem workLeft_dequeue {i : Nat} {w : Worker π} (hw : s.workers[i]? = some w)
    (hone : w.weight cfg = 1) : (s.dequeue cfg i).workLeft cfg + 1 ≤ s.workLeft cfg := by
  obtain ⟨lost, -, ⟨job, rest, hq, -, heq⟩ | ⟨-, heq⟩⟩ :=
    claimNext_spec s.now s.table s.queue s.queued
  · have hsum := sum_map_set_add (a := Worker.busy job cfg.start) (Worker.weight cfg) hw
    have hbusy : (Worker.busy job cfg.start).weight cfg = cfg.entryWeight job := rfl
    have hqueue : (s.queue.map cfg.entryWeight).sum
        = (lost.map cfg.entryWeight).sum +
          (cfg.entryWeight job + (rest.map cfg.entryWeight).sum) := by
      rw [hq, List.map_append, List.sum_append, List.map_cons, List.sum_cons]
    unfold dequeue
    rw [heq]
    unfold workLeft
    dsimp only
    omega
  · have hsum := sum_map_set_add (a := (Worker.waiting : Worker π)) (Worker.weight cfg) hw
    have hwaiting : (Worker.waiting : Worker π).weight cfg = 0 := rfl
    unfold dequeue
    rw [heq]
    unfold workLeft
    dsimp only
    simp only [List.map_nil, List.sum_nil]
    omega

/-- A call that ends gives its entry back with one retry less, if at all. -/
theorem workLeft_settle (s : Sched π) (job : ReviewJob) (out : Outcome) :
    (s.settle cfg job out).workLeft cfg + 1 ≤ s.workLeft cfg + cfg.entryWeight job := by
  have hpos : 1 ≤ cfg.entryWeight job := Nat.le_add_left _ _
  have hwrite : ∀ st : RunStatus,
      (s.writeStatus job.runId st).workLeft cfg + 1 ≤ s.workLeft cfg + cfg.entryWeight job :=
    fun st => Nat.add_le_add_left hpos _
  cases out with
  | none => exact Nat.add_le_add_left hpos _
  | raised => exact hwrite .failed
  | result status retryable =>
    cases retryable with
    | true =>
      by_cases hatt : (job.attempts : Int) < cfg.maxAttempts
      · simp only [settle, hatt, if_true]
        rw [workLeft_put, Nat.add_assoc, SchedConfig.entryWeight_retried hatt]
        exact Nat.le_refl _
      · simp only [settle, hatt, if_true, if_false]
        exact hwrite .failed
    | false =>
      cases hst : RunStatus.ofText (if status = "" then "posted" else status) with
      | none =>
        simp only [settle, hst]
        exact hwrite .failed
      | some st =>
        simp only [settle, hst]
        exact hwrite st

/-- The end of a run uses work up. -/
theorem workLeft_finish {i : Nat} {job : ReviewJob} {pc : π} (out : Outcome)
    (hw : s.workers[i]? = some (.busy job pc)) :
    (s.finish cfg i job out).workLeft cfg + 1 ≤ s.workLeft cfg := by
  have hsettle := @workLeft_settle π cfg s job out
  have hdequeue := @workLeft_dequeue π cfg _ i .ready (ready_of_release cfg out hw) rfl
  have hw' : (s.settle cfg job out).workers[i]? = some (.busy job pc) := by
    rw [settle_workers]
    exact hw
  have hsum := sum_map_set_add (a := (Worker.ready : Worker π)) (Worker.weight cfg) hw'
  have hbusy : (Worker.busy job pc).weight cfg = cfg.entryWeight job := rfl
  have hready : (Worker.ready : Worker π).weight cfg = 1 := rfl
  have hrelease : ((s.settle cfg job out).release i).workLeft cfg + cfg.entryWeight job
      = (s.settle cfg job out).workLeft cfg + 1 := by
    unfold workLeft release
    dsimp only
    omega
  show (((s.settle cfg job out).release i).dequeue cfg i).workLeft cfg + 1 ≤ _
  omega

/-- What an accepted command adds. -/
theorem workLeft_enqueue (hslots : s.workers.length = cfg.concurrency) (r : RunId) (d : Decision)
    (cause : Cause) : (s.enqueue r d cause).1.workLeft cfg ≤ s.workLeft cfg + cfg.acceptWeight := by
  unfold enqueue
  split
  · rename_i owner repo _ _
    dsimp only
    split
    · rename_i table hins
      have hwake := workLeft_setWaker
        (s := ((({ s with issued := r :: s.issued, table := table } : Sched π).watch
          (jobOf r d owner repo cause)).addQueued r).put (jobOf r d owner repo cause)) hslots
      rw [workLeft_put] at hwake
      have hwatch : ((({ s with issued := r :: s.issued, table := table } : Sched π).watch
          (jobOf r d owner repo cause)).addQueued r).workLeft cfg
            = s.workLeft cfg + (2 * cfg.gate.cap.toNat + (cfg.maxAttempts.toNat + 1 +
              cfg.concurrency + 5) + 2) := by
        simp [workLeft, watch, addQueued, Watcher.weight, SchedConfig.roundsLeft,
          SchedConfig.passWeight, SchedConfig.entryWeight, jobOf]
        omega
      have hentry : cfg.entryWeight (jobOf r d owner repo cause) = cfg.maxAttempts.toNat + 1 := by
        simp [SchedConfig.entryWeight, jobOf]
      unfold SchedConfig.acceptWeight
      refine Nat.le_trans hwake ?_
      omega
    · exact Nat.le_add_right _ _
  · exact Nat.le_add_right _ _

/-- **Every step uses work up, up to what it is charged.** -/
theorem workLeft_step (hpoll : 0 < cfg.gate.pollIntervalSeconds)
    (hslots : s.workers.length = cfg.concurrency) {a : SchedAction π} {es : List SchedEvent}
    (hstays : a.stays = true) (h : Sched.step cfg s a = some (s', es)) :
    s'.workLeft cfg + 1 ≤ s.workLeft cfg + a.charge cfg := by
  -- an idle worker that goes on is not blocked
  have hidle : ∀ {w : Worker π}, w.idle = true → w.weight cfg ≤ 1 := by
    intro w hw
    cases w <;> simp [Worker.weight, Worker.idle] at hw ⊢
  cases a with
  | tick d =>
    cases step_cases h
    exact Nat.le_refl _
  | enqueue r d cause =>
    cases step_cases h
    exact Nat.succ_le_succ (workLeft_enqueue hslots r d cause)
  | watch i inp =>
    have hwatch := workLeft_watch hpoll hslots h
    refine Nat.le_trans hwatch (Nat.le_of_eq ?_)
    cases inp with
    | polled o => cases o <;> rfl
    | _ => rfl
  | wake i =>
    simp only [Sched.step] at h
    split at h <;> try rw [Option.some.injEq, Prod.mk.injEq] at h
    case h_4 => cases h
    all_goals
      rename_i hw
      rw [← h.1]
      exact workLeft_dequeue hw rfl
  | timeout i =>
    cases step_cases h with
    | @timeout _ w hw hi =>
      have hsum := sum_map_set_add (a := (Worker.resting : Worker π)) (Worker.weight cfg) hw
      have hresting : (Worker.resting : Worker π).weight cfg = 1 := rfl
      have hw := hidle hi
      unfold workLeft SchedAction.charge
      dsimp only
      omega
  | advance i sha pc =>
    cases step_cases h with
    | @advance _ _ _ pc' job hw =>
      have hsum := sum_map_set_add (a := Worker.busy (job.fill sha) pc) (Worker.weight cfg) hw
      have hbusy : (Worker.busy (job.fill sha) pc).weight cfg =
          (Worker.busy job pc').weight cfg := by
        simp [Worker.weight, SchedConfig.entryWeight]
      unfold workLeft SchedAction.charge
      dsimp only
      omega
  | finish i out =>
    cases step_cases h with
    | finish hw => exact workLeft_finish out hw
  | crash => cases hstays
  | boot => cases hstays

end Steps

end Sched

/-! ## Coming to rest -/

/-- A pipeline call that ends a run or asks for a retry. -/
def Outcome.ends : Outcome → Bool
  | .none => false
  | .raised => true
  | .result status retryable =>
    retryable || (RunStatus.ofText (if status = "" then "posted" else status)).all RunStatus.final

/-- A step by which the service gets on with its work: a watcher is resumed, other than by a poll
that raised, a worker goes on, or a pipeline call ends. -/
def SchedAction.serves : SchedAction π → Bool
  | .watch _ inp => inp != .polled .error
  | .wake _ => true
  | .finish _ out => out.ends
  | _ => false

/-- An outcome that ends the run completes it. -/
theorem Outcome.endsIn_of_ends {out : Outcome} (h : out.ends = true) :
    out.EndsIn Sched.Completes := by
  cases out with
  | none => cases h
  | raised => trivial
  | result status retryable =>
    cases retryable with
    | true => trivial
    | false =>
      intro st hst
      simp only [ends, hst, Bool.false_or, Option.all_some] at h
      exact ⟨st, rfl, h⟩

namespace Sched

/-- Nothing is left to do: no entry, no watcher at work, every worker blocked, every run over. -/
structure Drained (s : Sched π) : Prop where
  queue : s.queue = []
  watchers : ∀ w ∈ s.watchers, w.pc = .ended
  workers : ∀ w ∈ s.workers, w = .waiting
  rows : ∀ row ∈ s.table.rows, row.status.final = true

/-- The service gets on, and nothing else happens. -/
def serving (cfg : SchedConfig π) : Sched π → List SchedEvent → List (SchedAction π) →
    Option (Sched π × List SchedEvent) :=
  (machine cfg).run fun _ _ a => a.serves

section Rest

variable {cfg : SchedConfig π} {s s' : Sched π} {h : List SchedEvent}

/-- What the service does neither takes a row away nor adds one, and the process stays up. -/
theorem runIds_of_serves {a : SchedAction π} {es : List SchedEvent} (ha : a.serves = true)
    (hstep : Sched.step cfg s a = some (s', es)) :
    s'.table.rows.map Row.runId = s.table.rows.map Row.runId ∧ s'.up = s.up := by
  have hdequeue : ∀ (t : Sched π) (i : Nat),
      (t.dequeue cfg i).table.rows.map Row.runId = t.table.rows.map Row.runId := by
    intro t i
    obtain ⟨-, -, -, -, ⟨job, -, -, htable, -⟩ | ⟨htable, -⟩, -⟩ := dequeue_frame cfg t i
    · rw [htable]
      exact RunTable.stampWhere_runIds _ _ _ _
    · rw [htable]
  cases step_cases hstep with
  | watch hwatch =>
    obtain ⟨w, -, hmove⟩ := watchStep_move hwatch
    obtain ⟨htable | ⟨-, st, htable⟩, -, -, hup, -⟩ := hmove.frame
    · rw [htable]
      exact ⟨rfl, hup⟩
    · rw [htable]
      exact ⟨RunTable.stampWhere_runIds _ _ _ _, hup⟩
  | @wake i w hw hidle => exact ⟨hdequeue s i, (dequeue_frame cfg s i).2.2.1⟩
  | @finish i out pc job hw =>
    obtain ⟨htable, -, -, hup, -⟩ := settle_frame cfg s job out
    refine ⟨(hdequeue _ i).trans ?_, (dequeue_frame cfg _ i).2.2.1.trans hup⟩
    show (s.settle cfg job out).table.rows.map Row.runId = _
    rcases htable with htable | ⟨st, htable⟩
    · rw [htable]
    · rw [htable]
      exact RunTable.stampWhere_runIds _ _ _ _
  | tick d => cases ha
  | enqueue _ _ => cases ha
  | timeout _ _ => cases ha
  | advance _ => cases ha
  | crash _ => cases ha
  | boot _ => cases ha

/-- A step of the service goes on with an execution. -/
theorem reaches_of_serves {a : SchedAction π} {es : List SchedEvent}
    (hr : (machine cfg).Reaches (endsIn Completes) s h) (ha : a.serves = true)
    (hstep : Sched.step cfg s a = some (s', es)) :
    (machine cfg).Reaches (endsIn Completes) s' (h ++ es) := by
  refine .step hr ?_ hstep
  rintro i out rfl
  exact Outcome.endsIn_of_ends ha

/-- A watcher that has not ended can be resumed. -/
theorem watch_enabled {i : Nat} {w : Watcher} (hw : s.watchers[i]? = some w)
    (hpc : w.pc ≠ .ended) : ∃ inp s' es, inp ≠ .polled .error ∧
      s.watchStep cfg i inp = some (s', es) := by
  have hturn : ∃ inp, inp ≠ .polled .error ∧
      (w.turn cfg.gate cfg.slack (s.table.statusOf w.job.runId) inp).isSome = true := by
    unfold Watcher.turn
    cases hpc' : w.pc with
    | created => exact ⟨.go, by simp, rfl⟩
    | polling => exact ⟨.polled (.runs []), by simp, rfl⟩
    | backoff => exact ⟨.go, by simp, rfl⟩
    | sleeping runs => exact ⟨.go, by simp, rfl⟩
    | fetchLogs => exact ⟨.logs none, by simp, rfl⟩
    | postDiagnosis => exact ⟨.sent true, by simp, rfl⟩
    | postUnavailable => exact ⟨.sent true, by simp, rfl⟩
    | notifySlack => exact ⟨.sent true, by simp, rfl⟩
    | postTimeout => exact ⟨.sent true, by simp, rfl⟩
    | ended => exact absurd hpc' hpc
  obtain ⟨inp, hne, hsome⟩ := hturn
  obtain ⟨m, hm⟩ := Option.isSome_iff_exists.mp hsome
  exact ⟨inp, s.afterCalls i w.job m,
    inputEvents w.job inp ++ m.2.filterMap (callEvent w.job), hne,
    by rw [watchStep_eq_turn hw, hm, Option.map_some]⟩

/-- A worker that is not blocked can go on. -/
theorem worker_enabled {i : Nat} {w : Worker π} (hw : s.workers[i]? = some w) (hne : w ≠ .waiting) :
    ∃ a s' es, a.serves = true ∧ Sched.step cfg s a = some (s', es) := by
  cases w with
  | ready => exact ⟨.wake i, s.dequeue cfg i, [], rfl, by simp [Sched.step, hw]⟩
  | woken => exact ⟨.wake i, s.dequeue cfg i, [], rfl, by simp [Sched.step, hw]⟩
  | resting => exact ⟨.wake i, s.dequeue cfg i, [], rfl, by simp [Sched.step, hw]⟩
  | busy job pc =>
    exact ⟨.finish i .raised, s.finish cfg i job .raised, [], rfl, by simp [Sched.step, hw]⟩
  | waiting => exact absurd rfl hne

/-- **The service is never stuck**: unless it is done, it can get on. -/
theorem drained_or_enabled (hslots : 0 < cfg.concurrency)
    (hr : (machine cfg).Reaches (endsIn Completes) s h) (hup : s.up = true) :
    s.Drained ∨ ∃ a s' es, a.serves = true ∧ Sched.step cfg s a = some (s', es) := by
  by_cases hwatch : ∀ w ∈ s.watchers, w.pc = .ended
  · by_cases hwork : ∀ w ∈ s.workers, w = .waiting
    · left
      obtain ⟨hqueued, hpending, hrunning, -⟩ := no_run_lost cfg hr hup
      have hlen : 0 < s.workers.length := by
        rw [(reaches_grounded hr).slots hup]
        exact hslots
      have hfirst : s.workers[0]? = some .waiting := by
        rw [List.getElem?_eq_getElem hlen]
        exact congrArg some (hwork _ (List.getElem_mem hlen))
      have hempty := queue_empty_of_waiting hr.reachable hfirst
      refine ⟨hempty, hwatch, hwork, ?_⟩
      intro row hrow
      cases hst : row.status with
      | queued =>
        obtain ⟨job, hjob, -⟩ := hqueued row hrow hst
        rw [hempty] at hjob
        cases hjob
      | pendingCi =>
        obtain ⟨w, hw, -, hundecided⟩ := hpending row hrow hst
        rw [hwatch w hw] at hundecided
        cases hundecided
      | running =>
        obtain ⟨job, pc, hbusy, -⟩ := hrunning row hrow hst
        cases hwork _ hbusy
      | _ => rfl
    · right
      push Not at hwork
      obtain ⟨w, hw, hne⟩ := hwork
      obtain ⟨i, hi⟩ := List.getElem?_of_mem hw
      exact worker_enabled hi hne
  · right
    push Not at hwatch
    obtain ⟨w, hw, hne⟩ := hwatch
    obtain ⟨i, hi⟩ := List.getElem?_of_mem hw
    obtain ⟨inp, s', es, hinp, hstep⟩ := watch_enabled hi hne
    exact ⟨.watch i inp, s', es, bne_iff_ne.mpr hinp, hstep⟩

/-- What holds all along a stretch of service that starts in `s`. -/
def InService (cfg : SchedConfig π) (s t : Sched π) (h : List SchedEvent) : Prop :=
  (machine cfg).Reaches (endsIn Completes) t h ∧ t.up = true ∧
    t.table.rows.map Row.runId = s.table.rows.map Row.runId

/-- A serving step stays in service and uses work up. -/
theorem InService.step (hpoll : 0 < cfg.gate.pollIntervalSeconds) {t t' : Sched π}
    {a : SchedAction π} {es : List SchedEvent} (ht : InService cfg s t h) (ha : a.serves = true)
    (hstep : Sched.step cfg t a = some (t', es)) :
    InService cfg s t' (h ++ es) ∧ t'.workLeft cfg + 1 ≤ t.workLeft cfg := by
  obtain ⟨hr, hup, hids⟩ := ht
  obtain ⟨hids', hup'⟩ := runIds_of_serves ha hstep
  refine ⟨⟨reaches_of_serves hr ha hstep, hup'.trans hup, hids'.trans hids⟩, ?_⟩
  have hstays : a.stays = true ∧ a.charge cfg = 0 := by
    cases a with
    | watch i inp =>
      refine ⟨rfl, ?_⟩
      cases inp with
      | polled o =>
        cases o with
        | error => cases ha
        | runs l => rfl
      | _ => rfl
    | wake i => exact ⟨rfl, rfl⟩
    | finish i out => exact ⟨rfl, rfl⟩
    | _ => cases ha
  have hle := workLeft_step hpoll ((reaches_grounded hr).slots hup) hstays.1 hstep
  rw [hstays.2] at hle
  exact hle

/-- **The service drains.** In a process that is up, in whatever state an execution has left it,
let only the service itself go on: watchers are resumed, by polls with any answer, workers look into
the queue, and pipeline calls end with a retry, a final status or an exception. The poll interval is
positive and there is a worker; a wait that times out is not a step of a schedule. However the steps
interleave, the service stops after a bounded number of them, it can stop only where nothing is left
to do and every run is over, and no row gets lost on the way. -/
theorem drains (cfg : SchedConfig π) (hpoll : 0 < cfg.gate.pollIntervalSeconds)
    (hslots : 0 < cfg.concurrency) (s : Sched π) (h : List SchedEvent)
    (hr : (machine cfg).Reaches (endsIn Completes) s h) (hup : s.up = true) :
    (∀ as t h', serving cfg s h as = some (t, h') → as.length ≤ s.workLeft cfg ∧
        t.table.rows.map Row.runId = s.table.rows.map Row.runId ∧
        (t.Drained ∨ ∃ a t' h'', serving cfg s h (as ++ [a]) = some (t', h''))) ∧
      ∃ as t h', serving cfg s h as = some (t, h') ∧ t.Drained := by
  have hstart : InService cfg s s h := ⟨hr, hup, rfl⟩
  refine ⟨?_, ?_⟩
  · intro as t h' hrun
    obtain ⟨hr', hup', hids⟩ := Machine.run_invariant (I := fun t h => InService cfg s t h)
      (fun _ _ _ _ _ ht ha hstep => (ht.step hpoll ha hstep).1) hstart hrun
    have hbound := Machine.run_charged (I := fun t h => InService cfg s t h) (workLeft cfg)
      (fun _ => 0) (fun _ _ _ _ _ ht ha hstep => ht.step hpoll ha hstep) hstart hrun
    refine ⟨?_, hids, ?_⟩
    · have hfree : (as.map fun _ : SchedAction π => 0).sum = 0 := by simp
      omega
    · rcases drained_or_enabled hslots hr' hup' with hdone | ⟨a, t', es, ha, hstep⟩
      · exact Or.inl hdone
      · exact Or.inr ⟨a, t', h' ++ es, Machine.run_snoc hrun ha hstep⟩
  · refine Machine.exists_run_of_variant (I := fun t h => InService cfg s t h) (workLeft cfg)
      (fun _ _ _ _ _ ht ha hstep => ht.step hpoll ha hstep) ?_ hstart
    exact fun _ _ ht => drained_or_enabled hslots ht.1 ht.2.1

/-- The action ends no pipeline call. -/
def endsNoCall : SchedAction π → Bool
  | .finish _ _ => false
  | _ => true

/-- A run that is being executed, with a second worker idle. -/
theorem drains_claimed :
    ∃ (s : Sched Unit) (h : List SchedEvent), (∃ job, s.workers[0]? = some (.busy job ())) ∧
      (∀ as t h', serving twoWorkers s h as = some (t, h') → as.length ≤ s.workLeft twoWorkers ∧
          t.table.rows.map Row.runId = s.table.rows.map Row.runId ∧
          (t.Drained ∨ ∃ a t' h'', serving twoWorkers s h (as ++ [a]) = some (t', h''))) ∧
        ∃ as t h', serving twoWorkers s h as = some (t, h') ∧ t.Drained := by
  -- no pipeline call has ended yet
  have hok : ∀ (s : Sched Unit) (h : List SchedEvent) (a : SchedAction Unit),
      endsNoCall a = true → endsIn Completes s h a := by
    intro s h a ha i out heq
    rw [heq] at ha
    cases ha
  have hx : ((machine twoWorkers).run (fun _ _ a => endsNoCall a) Sched.new []
      claimedRun).isSome = true := by
    decide
  have hr := Machine.reaches_run hok new_cold hx
  exact ⟨_, _, ⟨_, rfl⟩, drains twoWorkers (by decide) (by decide) _ _ hr rfl⟩

/-! ## The work of a process -/

/-- A boot leaves the work of the rows that are not over, and a look into the queue for every
worker. -/
theorem workLeft_boot (cfg : SchedConfig π) (s : Sched π) :
    (s.boot cfg).workLeft cfg
      ≤ cfg.acceptWeight * (s.table.rows.countP fun row => !row.status.final)
        + cfg.concurrency := by
  obtain ⟨table, queued, htable, -, hboot⟩ := boot_eq cfg s
  have hopen : table.reconcileOpenJobs.length ≤
      s.table.rows.countP fun row => !row.status.final := by
    rw [htable]
    simp only [RunTable.reconcileOpenJobs, RunTable.recoverOrphans, RunTable.stampWhere,
      RunTable.update, List.length_map]
    rw [← List.countP_eq_length_filter, List.countP_map]
    apply List.countP_mono_left
    intro row _ hrow
    simp only [Function.comp] at hrow
    split at hrow
    · rename_i horphan
      simp only [Bool.and_eq_true, beq_iff_eq] at horphan
      rw [horphan.1]
      rfl
    · simp only [Bool.or_eq_true, beq_iff_eq] at hrow
      rcases hrow with hst | hst <;> rw [hst] <;> rfl
  have hentry : ∀ job : ReviewJob, cfg.entryWeight job ≤ cfg.maxAttempts.toNat + 1 := by
    intro job
    unfold SchedConfig.entryWeight
    omega
  have hqueue : (table.reconcileOpenJobs.map cfg.entryWeight).sum
      ≤ table.reconcileOpenJobs.length * (cfg.maxAttempts.toNat + 1) :=
    sum_map_le fun job _ => hentry job
  generalize hpending : table.reconcileOpenJobs.filter (·.status = .pendingCi) = pending at hboot
  have hwatch : ((pending.map fun job => ({ job := job } : Watcher)).map (Watcher.weight cfg)).sum
      ≤ pending.length * (2 * cfg.gate.cap.toNat + (cfg.maxAttempts.toNat + 1 + cfg.concurrency + 5)
        + 2) := by
    rw [List.map_map]
    apply sum_map_le
    intro job _
    have hle := hentry job
    simp only [Function.comp, Watcher.weight, SchedConfig.roundsLeft, SchedConfig.passWeight,
      Int.sub_zero]
    omega
  have hlength : pending.length ≤ table.reconcileOpenJobs.length := by
    rw [← hpending]
    exact List.length_filter_le _ _
  have hworkers : ((List.replicate cfg.concurrency (Worker.ready : Worker π)).map
      (Worker.weight cfg)).sum = cfg.concurrency := by
    simp [Worker.weight]
  rw [hboot]
  unfold workLeft
  dsimp only
  rw [hworkers]
  generalize table.reconcileOpenJobs.length = n at hopen hlength hqueue
  generalize hrows : (s.table.rows.countP fun row => !row.status.final) = rows at hopen
  calc
    _ ≤ n * (2 * cfg.gate.cap.toNat + (cfg.maxAttempts.toNat + 1 + cfg.concurrency + 5) + 2)
        + n * (cfg.maxAttempts.toNat + 1) + cfg.concurrency := by
      have hmul := Nat.mul_le_mul_right
        (2 * cfg.gate.cap.toNat + (cfg.maxAttempts.toNat + 1 + cfg.concurrency + 5) + 2) hlength
      omega
    _ ≤ cfg.acceptWeight * n + cfg.concurrency := by
      rw [← Nat.mul_add, Nat.mul_comm]
      refine Nat.add_le_add_right (Nat.mul_le_mul_right n ?_) _
      unfold SchedConfig.acceptWeight
      omega
    _ ≤ cfg.acceptWeight * rows + cfg.concurrency :=
      Nat.add_le_add_right (Nat.mul_le_mul_left _ hopen) _

/-- A step that neither crashes nor boots leaves the service up or down as it is. -/
theorem up_of_stays {a : SchedAction π} {es : List SchedEvent} (hstays : a.stays = true)
    (hstep : Sched.step cfg s a = some (s', es)) : s'.up = s.up := by
  cases step_cases hstep with
  | tick d => rfl
  | @enqueue r d cause _ _ => exact (enqueue_frame s r d cause).2.2.1
  | watch hwatch =>
    obtain ⟨w, -, hmove⟩ := watchStep_move hwatch
    exact hmove.frame.2.2.2.1
  | @wake i _ _ _ => exact (dequeue_frame cfg s i).2.2.1
  | timeout _ _ => rfl
  | advance _ => rfl
  | @finish i out _ job _ =>
    exact (dequeue_frame cfg _ i).2.2.1.trans (settle_frame cfg s job out).2.2.2.1
  | crash _ => cases hstays
  | boot _ => cases hstays

/-- **A process never spins.** Between a boot and the next crash it takes at most a fixed number of
steps for every row that was not over at the boot and for every command it accepts, one look into
the queue for every worker, and one or two for every tick, poll that raises, wait that times out and
await inside a pipeline call. -/
theorem steps_paid_for (cfg : SchedConfig π) (hpoll : 0 < cfg.gate.pollIntervalSeconds)
    (s : Sched π) (h : List SchedEvent) (hr : (machine cfg).Reachable s h) (hdown : s.up = false)
    (as : List (SchedAction π)) (t : Sched π) (h' : List SchedEvent)
    (hrun : (machine cfg).run (fun _ _ a => a.stays) (s.boot cfg) h as = some (t, h')) :
    as.length ≤ cfg.acceptWeight * (s.table.rows.countP fun row => !row.status.final)
      + cfg.concurrency + (as.map (SchedAction.charge cfg)).sum := by
  have hboot : (machine cfg).Reachable (s.boot cfg) h := by
    have hstep : (machine cfg).step s .boot = some (s.boot cfg, []) := by
      simp [machine, Sched.step, hdown]
    have hreach := Machine.Reaches.step hr trivial hstep
    rwa [List.append_nil] at hreach
  have hup : (s.boot cfg).up = true := by
    obtain ⟨table, queued, -, -, heq⟩ := boot_eq cfg s
    rw [heq]
  have hbound := Machine.run_charged
    (I := fun u h => (machine cfg).Reachable u h ∧ u.up = true) (workLeft cfg)
    (SchedAction.charge cfg) ?_ ⟨hboot, hup⟩ hrun
  · have hstart := workLeft_boot cfg s
    omega
  · rintro u hu a u' es ⟨hreach, hup'⟩ hstays hstep
    have hg := reaches_grounded hreach
    exact ⟨⟨.step hreach trivial hstep, (up_of_stays hstays hstep).trans hup'⟩,
      workLeft_step hpoll (hg.slots hup') hstays hstep⟩

end Rest

/-- The first steps of a new installation, whose boot finds nothing to take up. -/
theorem steps_paid_for_claimed :
    (claimedRun.drop 1).length ≤ twoWorkers.acceptWeight *
        ((Sched.new : Sched Unit).table.rows.countP fun row => !row.status.final)
      + twoWorkers.concurrency + ((claimedRun.drop 1).map (SchedAction.charge twoWorkers)).sum := by
  have hx : ((machine twoWorkers).run (fun _ _ a => a.stays) ((Sched.new : Sched Unit).boot
      twoWorkers) [] (claimedRun.drop 1)).isSome = true := by
    decide
  obtain ⟨r, hrun⟩ := Option.isSome_iff_exists.mp hx
  exact steps_paid_for twoWorkers (by decide) Sched.new [] (.start new_cold) rfl _ r.1 r.2 hrun

end Sched

end PrReviewer.Model
