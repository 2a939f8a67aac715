import PrReviewer.Analysis.Ownership

/-!
# The retry budget of a run

`attempts` is a counter on the in-memory job: a retry raises it, the table has a column of
that name which nothing writes, and the boot sweep makes new jobs. The executions of a run are
therefore bounded by the budget as long as no crash finds the run executed and still open;
`Spends` is the invariant, and a run that the process dies of is executed once a boot.
-/

set_option autoImplicit false

namespace PrReviewer.Model

open PrReviewer.Library
open PrReviewer.Interface (Life)
open PrReviewer.Interface.Life

variable {π : Type}

/-- Filling in the head leaves the attempts. -/
@[simp] theorem ReviewJob.fill_attempts (job : ReviewJob) (sha : Option (Option String)) :
    (job.fill sha).attempts = job.attempts := by
  cases sha with
  | none => rfl
  | some sha =>
    show (job.fillHead sha).attempts = job.attempts
    unfold fillHead
    split <;> rfl

namespace Sched

/-! ## Executions -/

/-- The job whose execution a step has begun: a worker that calls `dequeue`, at once or after
its last job, and gets a job, calls the pipeline on it. -/
def begun (s' : Sched π) : SchedAction π → List ReviewJob
  | .wake i | .finish i _ =>
    match s'.workers[i]? with
    | some (.busy job _) => [job]
    | _ => []
  | _ => []

/-- A step begins one execution at most. -/
theorem begun_length (s' : Sched π) (a : SchedAction π) : (begun s' a).length ≤ 1 := by
  unfold begun
  split
  · split <;> simp
  · split <;> simp
  · simp

/-- The scheduler, observed at the calls of the pipeline. -/
def executions (cfg : SchedConfig π) : Machine (Sched π) (SchedAction π) ReviewJob where
  start := Cold
  step := fun s a => (Sched.step cfg s a).map fun r => (r.1, begun r.1 a)

/-- How often the pipeline has been called for a run. -/
def spent (r : RunId) (h : List ReviewJob) : Nat :=
  h.countP fun job => job.runId == r

/-- The run is over, or its row is gone. -/
def Closed (s : Sched π) (r : RunId) : Prop :=
  ∀ st, s.table.statusOf r = some st → st.final = true

/-- Whether a run is closed can be decided. -/
instance (s : Sched π) (r : RunId) : Decidable (s.Closed r) :=
  inferInstanceAs (Decidable (∀ st, s.table.statusOf r = some st → st.final = true))

/-- The action is a crash. -/
def isCrash : SchedAction π → Bool
  | .crash => true
  | _ => false

/-- No crash finds the run executed and still open. -/
def undisturbed (r : RunId) : Machine.Discipline (Sched π) (SchedAction π) ReviewJob :=
  fun s h a => isCrash a = true → spent r h = 0 ∨ s.Closed r

/-- Whether a step leaves the run undisturbed can be decided. -/
instance (r : RunId) (s : Sched π) (h : List ReviewJob) (a : SchedAction π) :
    Decidable (undisturbed r s h a) :=
  inferInstanceAs (Decidable (isCrash a = true → spent r h = 0 ∨ s.Closed r))

/-- A step of the executions is one of the scheduler, observed. -/
theorem executions_step {cfg : SchedConfig π} {s s' : Sched π} {a : SchedAction π}
    {es : List ReviewJob} (h : (executions cfg).step s a = some (s', es)) :
    ∃ es', Sched.step cfg s a = some (s', es') ∧ es = begun s' a := by
  obtain ⟨⟨t, es'⟩, ht, heq⟩ := Option.map_eq_some_iff.mp h
  cases heq
  exact ⟨es', ht, rfl⟩

/-- A state of an observed run is a state of a run. -/
theorem reachable_of_executions {cfg : SchedConfig π}
    {D : Machine.Discipline (Sched π) (SchedAction π) ReviewJob} {s : Sched π}
    {h : List ReviewJob} (hr : (executions cfg).Reaches D s h) :
    ∃ h', (machine cfg).Reachable s h' := by
  refine hr.invariant (I := fun s _ => ∃ h', (machine cfg).Reachable s h') ?_ ?_
  · exact fun s hs => ⟨[], .start hs⟩
  · rintro s h a s' es - ⟨h', hr'⟩ - hstep
    obtain ⟨es', hbase, -⟩ := executions_step hstep
    exact ⟨h' ++ es', .step hr' trivial hbase⟩

/-! ## The invariant -/

/-- A job that is not being executed has counted the `k` executions of its run, and may be
executed once more. -/
def Fit (cfg : SchedConfig π) (k : Nat) (job : ReviewJob) : Prop :=
  k ≤ job.attempts ∧ (k = 0 ∨ (job.attempts : Int) ≤ cfg.maxAttempts)

/-- Before the first execution every job fits. -/
theorem fit_zero (cfg : SchedConfig π) (job : ReviewJob) : Fit cfg 0 job :=
  ⟨Nat.zero_le _, Or.inl rfl⟩

/-- After `k` executions of the run, every copy of its job has counted them. -/
structure Spends (cfg : SchedConfig π) (r : RunId) (k : Nat) (s : Sched π) : Prop where
  unused : r ∉ s.issued → k = 0
  queued : ∀ job ∈ s.queue, job.runId = r → Fit cfg k job
  watched : ∀ w ∈ s.watchers, w.pc.undecided = true → w.job.runId = r → Fit cfg k w.job
  busy : ∀ job pc, Worker.busy job pc ∈ s.workers → job.runId = r → k ≤ job.attempts + 1
  down : s.up = false → k = 0 ∨ s.Closed r

/-- A step that begins no execution keeps the invariant if every copy it leaves is one that
was there, or fits. -/
theorem Spends.keep {cfg : SchedConfig π} {r : RunId} {k : Nat} {s s' : Sched π}
    (hs : Spends cfg r k s) (hissued : ∀ r ∈ s.issued, r ∈ s'.issued)
    (hqueue : ∀ job ∈ s'.queue, job ∈ s.queue ∨ (job.runId = r → Fit cfg k job))
    (hwatch : ∀ w ∈ s'.watchers, w ∈ s.watchers ∨
      (w.pc.undecided = true → w.job.runId = r → Fit cfg k w.job))
    (hbusy : ∀ job pc, Worker.busy job pc ∈ s'.workers → Worker.busy job pc ∈ s.workers ∨
      (job.runId = r → k ≤ job.attempts + 1))
    (hdown : s'.up = false → k = 0 ∨ s'.Closed r) : Spends cfg r k s' where
  unused hr := hs.unused fun hc => hr (hissued r hc)
  queued job hjob hr := by
    rcases hqueue job hjob with h | h
    · exact hs.queued job h hr
    · exact h hr
  watched w hw hu hr := by
    rcases hwatch w hw with h | h
    · exact hs.watched w h hu hr
    · exact h hu hr
  busy job pc hw hr := by
    rcases hbusy job pc hw with h | h
    · exact hs.busy job pc h hr
    · exact h hr
  down := hdown

/-- A worker that is busy after a wake-up was busy before. -/
theorem busy_of_wake {l : List (Worker π)} {job : ReviewJob} {pc : π}
    (h : Worker.busy job pc ∈ l.map Worker.wake) : Worker.busy job pc ∈ l := by
  obtain ⟨w, hw, heq⟩ := List.mem_map.mp h
  cases w with
  | busy job' pc' =>
    cases heq
    exact hw
  | ready => cases heq
  | waiting => cases heq
  | woken => cases heq
  | resting => cases heq

/-- A watcher's move queues at most its own job, and only before it has decided. -/
theorem WatchMove.copies {s s' : Sched π} {i : Nat} {w : Watcher} {es : List SchedEvent}
    (h : WatchMove s i w s' es) :
    (∀ job ∈ s'.queue, job ∈ s.queue ∨ (w.pc.undecided = true ∧ job = w.job)) ∧
      ∀ x ∈ s'.watchers, x ∈ s.watchers ∨ x.pc.undecided = false ∨
        (w.pc.undecided = true ∧ x.job = w.job) := by
  cases h with
  | @goOn w' _ hj hu _ =>
    refine ⟨fun job hjob => Or.inl hjob, fun x hx => ?_⟩
    rcases List.mem_or_eq_of_mem_set hx with hx | rfl
    · exact Or.inl hx
    · cases hw : w.pc.undecided with
      | false => exact Or.inr (Or.inl (hu.trans hw))
      | true => exact Or.inr (Or.inr ⟨rfl, hj⟩)
  | @leave w' _ hj hu _ =>
    refine ⟨fun job hjob => Or.inl hjob, fun x hx => ?_⟩
    rcases List.mem_or_eq_of_mem_set hx with hx | rfl
    · exact Or.inl hx
    · exact Or.inr (Or.inl hu)
  | @pass w' _ hj hu _ =>
    constructor
    · intro job hjob
      have hjob' : job ∈ ((s.writeStatus w'.job.runId .queued).putBack w'.job).queue := hjob
      exact (mem_queue_putBack hjob').imp_right fun heq => ⟨hu, heq.trans hj⟩
    · intro x hx
      have hx' : x ∈ ((s.writeStatus w'.job.runId .queued).putBack w'.job).watchers.set i
          { w' with pc := .ended } := hx
      rw [putBack_watchers] at hx'
      rcases List.mem_or_eq_of_mem_set hx' with hx' | rfl
      · exact Or.inl hx'
      · exact Or.inr (Or.inl rfl)
  | @close w' st pc _ hj hu _ hpc =>
    refine ⟨fun job hjob => Or.inl hjob, fun x hx => ?_⟩
    rcases List.mem_or_eq_of_mem_set hx with hx | rfl
    · exact Or.inl hx
    · exact Or.inr (Or.inl hpc)

/-- The end of a pipeline call queues a retry only within the budget. -/
theorem settle_queue (cfg : SchedConfig π) (s : Sched π) (job : ReviewJob) (out : Outcome) :
    ∀ j ∈ (s.settle cfg job out).queue, j ∈ s.queue ∨
      (j = { job with attempts := job.attempts + 1 } ∧ (job.attempts : Int) < cfg.maxAttempts) := by
  intro j hj
  cases out with
  | none => exact Or.inl hj
  | raised => exact Or.inl hj
  | result status retryable =>
    cases retryable with
    | false =>
      have hsame : (s.settle cfg job (.result status false)).queue = s.queue := by
        simp only [settle, Bool.false_eq_true, if_false]
        split <;> rfl
      exact Or.inl (hsame ▸ hj)
    | true =>
      by_cases hatt : (job.attempts : Int) < cfg.maxAttempts
      · simp only [settle, if_true, hatt] at hj
        rcases List.mem_append.mp hj with hj | hj
        · exact Or.inl hj
        · exact Or.inr ⟨List.mem_singleton.mp hj, hatt⟩
      · simp only [settle, if_true, hatt, if_false] at hj
        exact Or.inl hj

/-! ## Steps -/

/-- The run's share of the budget after a step that begins the executions `es`. -/
structure Charged (cfg : SchedConfig π) (r : RunId) (k : Nat) (s' : Sched π)
    (es : List ReviewJob) : Prop where
  spends : Spends cfg r (k + spent r es) s'
  counted : ∀ job ∈ es, job.runId = r → k ≤ job.attempts
  within : (k : Int) ≤ max cfg.maxAttempts 0 + 1 →
    ((k + spent r es : Nat) : Int) ≤ max cfg.maxAttempts 0 + 1

/-- A step that begins no execution is charged with none. -/
theorem Spends.charged {cfg : SchedConfig π} {r : RunId} {k : Nat} {s' : Sched π}
    (h : Spends cfg r k s') : Charged cfg r k s' [] where
  spends := h
  counted := fun _ hjob => absurd hjob List.not_mem_nil
  within := fun hle => hle

/-- A run that a worker executes has no other copy of its job. -/
theorem spends_of_held {cfg : SchedConfig π} {r : RunId} {k : Nat} {s : Sched π} {i : Nat}
    {job : ReviewJob} {pc : π} (hw : s.workers[i]? = some (.busy job pc)) (hr : job.runId = r)
    (hk : k ≤ job.attempts + 1) (hup : s.up = true) (hg : Grounded cfg s)
    (hsound : (s.life r).Sound) : Spends cfg r k s := by
  have hheld : 0 < (s.life r).held := countP_pos_of_getElem? hw (by simp [Worker.holds, hr])
  have hqueue := hsound.heldOrQueued
  have hwatch := hsound.heldOrWatched
  refine ⟨fun hno => ?_, fun j hj hjr => ?_, fun x hx hu hxr => ?_, fun j pc' hj hjr => ?_,
    fun hdown => ?_⟩
  · rw [hg.fresh r hno] at hheld
    exact absurd hheld (Nat.lt_irrefl 0)
  · have hpos : 0 < (s.life r).inQueue := List.countP_pos_iff.mpr ⟨j, hj, by simp [hjr]⟩
    omega
  · have hpos : 0 < (s.life r).watched :=
      List.countP_pos_iff.mpr ⟨x, hx, by simp [Watcher.watches, hu, hxr]⟩
    omega
  · obtain ⟨n, hn⟩ := List.mem_iff_getElem?.mp hj
    have hone : s.workers.countP (Worker.holds r) ≤ 1 := by
      show (s.life r).held ≤ 1
      omega
    have hin : i = n :=
      eq_of_countP_le_one hone hw hn (by simp [Worker.holds, hr]) (by simp [Worker.holds, hjr])
    rw [← hin, hw] at hn
    cases hn
    exact hk
  · rw [hup] at hdown
    cases hdown

/-- **A worker that looks for work** claims a job that has counted every execution of its run,
and the claim leaves no other copy of it. -/
theorem Spends.dequeue {cfg : SchedConfig π} {r : RunId} {k : Nat} {s : Sched π} {i : Nat}
    {w : Worker π} (hs : Spends cfg r k s) (hup : s.up = true) (hw : s.workers[i]? = some w)
    (hg : Grounded cfg (s.dequeue cfg i)) (hsound : ((s.dequeue cfg i).life r).Sound) :
    Charged cfg r k (s.dequeue cfg i) (begun (s.dequeue cfg i) (.wake i)) := by
  obtain ⟨-, hissued, hup', hwatchers, hcase, hqueue⟩ := dequeue_frame cfg s i
  have hi : i < s.workers.length := (List.getElem?_eq_some_iff.mp hw).1
  -- the other slots, the queue and the watchers are what they were
  have hkeep : (∀ job pc, Worker.busy job pc ∈ (s.dequeue cfg i).workers →
      Worker.busy job pc ∈ s.workers ∨ (job.runId = r → k ≤ job.attempts + 1)) →
      Spends cfg r k (s.dequeue cfg i) := by
    intro hbusy
    refine hs.keep ?_ (fun job hjob => Or.inl (hqueue job hjob)) ?_ hbusy ?_
    · rw [hissued]
      exact fun _ hr => hr
    · rw [hwatchers]
      exact fun x hx => Or.inl hx
    · rw [hup', hup]
      intro hdown
      cases hdown
  rcases hcase with ⟨job, hjob, -, -, hworkers, -⟩ | ⟨-, hworkers, -⟩
  · have hslot : (s.dequeue cfg i).workers[i]? = some (.busy job cfg.start) := by
      rw [hworkers]
      exact List.getElem?_set_self hi
    have hbegun : begun (s.dequeue cfg i) (.wake i) = [job] := by
      simp only [begun, hslot]
    rw [hbegun]
    by_cases hr : job.runId = r
    · -- the worker calls the pipeline on the run
      have hspent : spent r [job] = 1 := by simp [spent, hr]
      obtain ⟨hcount, hroom⟩ := hs.queued job hjob hr
      refine ⟨?_, ?_, ?_⟩
      · rw [hspent]
        exact spends_of_held hslot hr (Nat.succ_le_succ hcount) (hup'.trans hup) hg hsound
      · intro j hj _
        rw [List.mem_singleton.mp hj]
        exact hcount
      · intro hle
        rw [hspent]
        omega
    · have hspent : spent r [job] = 0 := by simp [spent, hr]
      refine ⟨?_, ?_, ?_⟩
      · rw [hspent]
        apply hkeep
        intro j pc hj
        rw [hworkers] at hj
        rcases List.mem_or_eq_of_mem_set hj with hj | heq
        · exact Or.inl hj
        · cases heq
          exact Or.inr fun hjr => absurd hjr hr
      · intro j hj hjr
        rw [List.mem_singleton.mp hj] at hjr
        exact absurd hjr hr
      · rw [hspent]
        exact id
  · have hbegun : begun (s.dequeue cfg i) (.wake i) = [] := by
      simp only [begun, hworkers, List.getElem?_set_self hi]
    rw [hbegun]
    apply Spends.charged
    apply hkeep
    intro j pc hj
    rw [hworkers] at hj
    rcases List.mem_or_eq_of_mem_set hj with hj | heq
    · exact Or.inl hj
    · cases heq

/-- The end of a call leaves a retry that has counted it. -/
theorem Spends.release {cfg : SchedConfig π} {r : RunId} {k : Nat} {s : Sched π} {i : Nat}
    {job : ReviewJob} {pc : π} (hs : Spends cfg r k s) (hup : s.up = true)
    (hw : s.workers[i]? = some (.busy job pc)) (out : Outcome) :
    Spends cfg r k ((s.settle cfg job out).release i) := by
  obtain ⟨-, -, hissued, hup', -, hwatchers, hworkers, -⟩ := settle_frame cfg s job out
  refine hs.keep ?_ ?_ ?_ ?_ ?_
  · show ∀ r ∈ s.issued, r ∈ (s.settle cfg job out).issued
    rw [hissued]
    exact fun _ hr => hr
  · intro j hj
    rcases settle_queue cfg s job out j hj with hj | ⟨rfl, hlt⟩
    · exact Or.inl hj
    · refine Or.inr fun hr => ⟨hs.busy job pc (List.mem_of_getElem? hw) hr, Or.inr ?_⟩
      show ((job.attempts + 1 : Nat) : Int) ≤ cfg.maxAttempts
      omega
  · intro x hx
    have hx' : x ∈ (s.settle cfg job out).watchers := hx
    rw [hwatchers] at hx'
    exact Or.inl hx'
  · intro j pc' hj
    have hj' : Worker.busy j pc' ∈ (s.settle cfg job out).workers.set i .ready := hj
    rw [hworkers] at hj'
    rcases List.mem_or_eq_of_mem_set hj' with hj' | heq
    · exact Or.inl hj'
    · cases heq
  · intro hdown
    have hdown' : (s.settle cfg job out).up = false := hdown
    rw [hup', hup] at hdown'
    cases hdown'

/-- A new job belongs to a run that has not been executed. -/
theorem Spends.enqueue {cfg : SchedConfig π} {r r' : RunId} {k : Nat} {s : Sched π} {d : Decision}
    {cause : Cause} (hs : Spends cfg r k s) (hup : s.up = true)
    (hfresh : r' ∉ s.issued) : Spends cfg r k (s.enqueue r' d cause).1 := by
  obtain ⟨-, hissued, hup', -, hworkers, -⟩ := enqueue_frame s r' d cause
  have hbusy : ∀ job pc, Worker.busy job pc ∈ (s.enqueue r' d cause).1.workers →
      Worker.busy job pc ∈ s.workers ∨ (job.runId = r → k ≤ job.attempts + 1) := by
    intro job pc hw
    rcases hworkers with hworkers | hworkers <;> rw [hworkers] at hw
    · exact Or.inl hw
    · exact Or.inl (busy_of_wake hw)
  have hissued' : ∀ r ∈ s.issued, r ∈ (s.enqueue r' d cause).1.issued := by
    rw [hissued]
    exact fun _ hr => List.mem_cons_of_mem _ hr
  have hdown : (s.enqueue r' d cause).1.up = false →
      k = 0 ∨ (s.enqueue r' d cause).1.Closed r := by
    rw [hup', hup]
    intro hdown
    cases hdown
  rcases enqueue_cases s r' d cause with ⟨job, table, hid, -, -, -, -, heq⟩ | ⟨table, -, heq⟩
  · have hnew : job.runId = r → Fit cfg k job := by
      intro hr
      rw [hs.unused (by rwa [← hr, hid])]
      exact fit_zero cfg job
    refine hs.keep hissued' ?_ ?_ hbusy hdown
    all_goals rw [heq]
    · intro j hj
      rcases List.mem_append.mp hj with hj | hj
      · exact Or.inl hj
      · rw [List.mem_singleton.mp hj]
        exact Or.inr hnew
    · intro x hx
      rcases List.mem_append.mp hx with hx | hx
      · exact Or.inl hx
      · rw [List.mem_singleton.mp hx]
        exact Or.inr fun _ => hnew
  · refine hs.keep hissued' ?_ ?_ hbusy hdown
    all_goals rw [heq]
    · exact fun j hj => Or.inl hj
    · exact fun x hx => Or.inl hx

/-- A watcher passes on its own job. -/
theorem Spends.watch {cfg : SchedConfig π} {r : RunId} {k : Nat} {s s' : Sched π} {i : Nat}
    {w : Watcher} {es : List SchedEvent} (hs : Spends cfg r k s) (hm : WatchMove s i w s' es)
    (hmem : w ∈ s.watchers) (hup : s.up = true) : Spends cfg r k s' := by
  obtain ⟨-, -, hissued, hup', -, hworkers⟩ := hm.frame
  obtain ⟨hqueue, hwatchers⟩ := hm.copies
  refine hs.keep ?_ ?_ ?_ ?_ ?_
  · rw [hissued]
    exact fun _ hr => hr
  · intro j hj
    rcases hqueue j hj with hj | ⟨hu, rfl⟩
    · exact Or.inl hj
    · exact Or.inr (hs.watched w hmem hu)
  · intro x hx
    rcases hwatchers x hx with hx | hu | ⟨hu, hj⟩
    · exact Or.inl hx
    · refine Or.inr fun hu' => ?_
      rw [hu] at hu'
      cases hu'
    · rw [hj]
      exact Or.inr fun _ => hs.watched w hmem hu
  · intro job pc hb
    rcases hworkers with hworkers | hworkers <;> rw [hworkers] at hb
    · exact Or.inl hb
    · exact Or.inl (busy_of_wake hb)
  · rw [hup', hup]
    intro hdown
    cases hdown

/-- A boot makes fresh jobs of the open rows, so it needs the run unexecuted or closed. -/
theorem Spends.boot {cfg : SchedConfig π} {r : RunId} {k : Nat} {s : Sched π}
    (hs : Spends cfg r k s) (hg : Grounded cfg s) (hdown : s.up = false) :
    Spends cfg r k (s.boot cfg) := by
  obtain ⟨table, queued, htable, -, hboot⟩ := boot_eq cfg s
  -- every job of the sweep is the job of an open row
  have hfit : ∀ job ∈ table.reconcileOpenJobs, job.runId = r → Fit cfg k job := by
    intro job hjob hr
    rcases hs.down hdown with hk | hclosed
    · rw [hk]
      exact fit_zero cfg job
    · have hopen := RunTable.countP_reconcileOpenJobs table r
      have hpos : 0 < table.reconcileOpenJobs.countP fun job => job.runId == r :=
        List.countP_pos_iff.mpr ⟨job, hjob, by simp [hr]⟩
      rw [hopen, htable, RunTable.statusOf_recoverOrphans hg.stamped r] at hpos
      cases hst : s.table.statusOf r with
      | none => simp [hst] at hpos
      | some st =>
        have hfinal := hclosed st hst
        rw [hst] at hpos
        cases st <;> simp [RunStatus.final] at hfinal hpos
  rw [hboot]
  refine ⟨hs.unused, hfit, ?_, ?_, ?_⟩
  · intro w hw _ hr
    obtain ⟨job, hjob, rfl⟩ := List.mem_map.mp hw
    exact hfit job (List.mem_filter.mp hjob).1 hr
  · intro job pc hw
    cases List.eq_of_mem_replicate hw
  · intro hdown'
    cases hdown'

/-- **One step.** Whatever the scheduler does, unless it crashes at the wrong moment, the share
of the run stays counted. -/
theorem Spends.step {cfg : SchedConfig π} {r : RunId} {s s' : Sched π} {h : List ReviewJob}
    {a : SchedAction π} {es : List SchedEvent} (hs : Spends cfg r (spent r h) s)
    (hg : Grounded cfg s) (hg' : Grounded cfg s') (hsound : (s'.life r).Sound)
    (hd : undisturbed r s h a) (hstep : Sched.step cfg s a = some (s', es)) :
    Charged cfg r (spent r h) s' (begun s' a) := by
  cases step_cases hstep with
  | tick d =>
    apply Spends.charged
    exact hs.keep (fun _ hr => hr) (fun _ => Or.inl) (fun _ => Or.inl) (fun _ _ => Or.inl) hs.down
  | @enqueue r' d cause hup hfresh => exact (hs.enqueue hup hfresh).charged
  | @watch i inp _ _ hw =>
    obtain ⟨w, hwi, hm⟩ := watchStep_move hw
    have hmem := List.mem_of_getElem? hwi
    exact (hs.watch hm hmem (hg.up_of_watcher hmem)).charged
  | @wake i w hw hidle =>
    exact hs.dequeue (hg.up_of_worker (List.mem_of_getElem? hw)) hw hg' hsound
  | @timeout i w hw _ =>
    apply Spends.charged
    refine hs.keep (fun _ hr => hr) (fun _ => Or.inl) (fun _ => Or.inl) ?_ hs.down
    intro job pc hb
    rcases List.mem_or_eq_of_mem_set hb with hb | heq
    · exact Or.inl hb
    · cases heq
  | @advance i sha pc pc' job hw =>
    apply Spends.charged
    refine hs.keep (fun _ hr => hr) (fun _ => Or.inl) (fun _ => Or.inl) ?_ hs.down
    intro j pc₀ hb
    rcases List.mem_or_eq_of_mem_set hb with hb | heq
    · exact Or.inl hb
    · cases heq
      refine Or.inr fun hr => ?_
      rw [ReviewJob.fill_runId] at hr
      rw [ReviewJob.fill_attempts]
      exact hs.busy job pc' (List.mem_of_getElem? hw) hr
  | @finish i out pc job hw =>
    have hup := hg.up_of_worker (List.mem_of_getElem? hw)
    have hup' : ((s.settle cfg job out).release i).up = true :=
      (settle_frame cfg s job out).2.2.2.1.trans hup
    exact (hs.release hup hw out).dequeue hup' (ready_of_release cfg out hw) hg' hsound
  | crash hup =>
    apply Spends.charged
    refine hs.keep (fun _ hr => hr) ?_ ?_ ?_ ?_
    · exact fun _ hj => absurd hj List.not_mem_nil
    · exact fun _ hx => absurd hx List.not_mem_nil
    · exact fun _ _ hb => absurd hb List.not_mem_nil
    · exact fun _ => hd rfl
  | boot hdown => exact (hs.boot hg hdown).charged

/-! ## Whole runs -/

/-- **The retry budget.** In a run in which no crash finds the run executed and still open, a
worker has counted every execution when it begins the next one, and the pipeline is called
`max_attempts + 1` times at most. -/
theorem executions_within_budget (cfg : SchedConfig π) (r : RunId) {s : Sched π}
    {h : List ReviewJob} (hr : (executions cfg).Reaches (undisturbed r) s h) :
    (spent r h : Int) ≤ max cfg.maxAttempts 0 + 1 ∧
      Each (fun before job => job.runId = r → spent r before ≤ job.attempts) h := by
  have hinv : Spends cfg r (spent r h) s ∧ (spent r h : Int) ≤ max cfg.maxAttempts 0 + 1 ∧
      Each (fun before job => job.runId = r → spent r before ≤ job.attempts) h := by
    refine hr.invariant (I := fun s h => Spends cfg r (spent r h) s ∧
      (spent r h : Int) ≤ max cfg.maxAttempts 0 + 1 ∧
      Each (fun before job => job.runId = r → spent r before ≤ job.attempts) h) ?_ ?_
    · intro s hs
      refine ⟨⟨fun _ => rfl, ?_, ?_, ?_, fun _ => Or.inl rfl⟩, ?_, each_nil⟩
      · exact fun job _ _ => fit_zero cfg job
      · exact fun w _ _ _ => fit_zero cfg w.job
      · exact fun _ _ _ _ => Nat.zero_le _
      · show ((0 : Nat) : Int) ≤ max cfg.maxAttempts 0 + 1
        omega
    · rintro s h a s' es hreach ⟨hs, hle, heach⟩ hd hstep
      obtain ⟨es', hbase, rfl⟩ := executions_step hstep
      obtain ⟨h₀, hr₀⟩ := reachable_of_executions hreach
      have hg := reaches_grounded hr₀
      have hr' : (machine cfg).Reachable s' (h₀ ++ es') := .step hr₀ trivial hbase
      obtain ⟨hspends, hcounted, hwithin⟩ :=
        hs.step hg (reaches_grounded hr') (reaches_sound hr' r) hd hbase
      have hsum : spent r (h ++ begun s' a) = spent r h + spent r (begun s' a) :=
        List.countP_append
      refine ⟨hsum ▸ hspends, ?_, ?_⟩
      · rw [hsum]
        exact hwithin hle
      · -- a step begins one execution at most
        apply heach.append
        intro pre job post heq hjr
        have hpre : pre = [] := by
          have hlen := begun_length s' a
          rw [heq, List.length_append, List.length_cons] at hlen
          exact List.length_eq_zero_iff.mp (by omega)
        rw [hpre, List.append_nil]
        exact hcounted job (heq ▸ List.mem_append_right _ List.mem_cons_self) hjr
  exact hinv.2

/-- A boot, a run whose gate passes, and the call of the pipeline on it. -/
def firstExecution : List (SchedAction Unit) :=
  [.boot, .enqueue "r1" { action := .enqueue, owner := "o", repo := "p", pr := some 7, head := "a" }
      .webhook,
    .watch 0 .go, .watch 0 (.polled (.runs [])), .wake 0]

/-- The first call is retried, the second one posts, and the process dies after it. -/
theorem executions_within_budget_retried :
    ∃ s h, decide (spent "r1" h = 2) = true ∧
      ((spent "r1" h : Int) ≤ max twoWorkers.maxAttempts 0 + 1 ∧
        Each (fun before job => job.runId = "r1" → spent "r1" before ≤ job.attempts) h) ∧
      (executions twoWorkers).Reaches (undisturbed "r1") s h := by
  obtain ⟨s, h, hr, hspent⟩ := Machine.exists_reaches_decide (M := executions twoWorkers)
    (D := undisturbed "r1")
    (firstExecution ++ [.finish 0 (.result "" true), .finish 0 (.result "" false), .crash, .boot])
    (fun _ h => decide (spent "r1" h = 2)) new_cold (by decide)
  exact ⟨s, h, hspent, executions_within_budget twoWorkers "r1" hr, hr⟩

/-- Four processes die of the run and a fifth one executes it again: five calls of the pipeline,
with `max_attempts` 3, and each of them on a job that has counted none. -/
theorem poison_run_exceeds_budget :
    ∃ s h, (executions twoWorkers).Reachable s h ∧
      ¬ ((spent "r1" h : Int) ≤ twoWorkers.maxAttempts + 1) ∧
      ¬ Each (fun before job => job.runId = "r1" → spent "r1" before ≤ job.attempts) h := by
  obtain ⟨s, h, hr, hspent⟩ := Machine.exists_reachable_run (M := executions twoWorkers)
    (firstExecution ++ [.crash, .boot, .wake 0, .crash, .boot, .wake 0, .crash, .boot, .wake 0,
      .crash, .boot, .wake 0])
    (fun _ h => decide (spent "r1" h = 5) &&
      h.all (fun job => job.runId == "r1" && job.attempts == 0)) new_cold (by decide)
  simp only [Bool.and_eq_true, decide_eq_true_eq, List.all_eq_true, beq_iff_eq] at hspent
  obtain ⟨hfive, hall⟩ := hspent
  refine ⟨s, h, hr, ?_, fun heach => ?_⟩
  · rw [hfive]
    decide
  · -- the last execution has four others before it and a counter at zero
    rcases List.eq_nil_or_concat h with rfl | ⟨before, job, rfl⟩
    · cases hfive
    · rw [List.concat_eq_append] at hfive hall heach
      obtain ⟨hid, hzero⟩ := hall job (List.mem_append_right _ List.mem_cons_self)
      have hle := (each_snoc.mp heach).2 hid
      simp only [spent, List.countP_append, List.countP_singleton, hid, beq_self_eq_true,
        if_true] at hfive
      rw [hzero] at hle
      unfold spent at hle
      omega

end Sched

end PrReviewer.Model
