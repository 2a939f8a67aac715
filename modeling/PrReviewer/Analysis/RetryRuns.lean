import PrReviewer.Analysis.RetryBudget
import PrReviewer.Analysis.TableSteps
import Mathlib.Data.ENat.Lattice

/-!
# The executions of one run

The worker compares the attempts of a job with the limit, raises them and puts the job back.
Here one run is followed through the interleavings of a process: its executions end as a script
says, nobody else deletes or closes it, and the process does not die of it. `Stage` says where
the run stands after the executions that were begun and ended so far, and `Copies` that every
job object of the run has counted the ended ones.
-/

set_option autoImplicit false

namespace PrReviewer.Model

open PrReviewer.Library
open PrReviewer.Interface (Life)
open PrReviewer.Interface.Life

variable {π : Type}

/-! ## Outcomes -/

/-- The pipeline asks for a retry. -/
def Outcome.retries : Outcome → Bool
  | .result _ retryable => retryable
  | _ => false

/-- The outcomes of a pipeline call on a run that is not superseded. -/
def Outcome.Listed : Outcome → Prop
  | .none => False
  | .raised => True
  | .result status retryable => retryable = true ∨
      status ∈ ["posted", "pending_approval", "skipped", "partial", "failed"]

/-- The status the outcome of a last execution leaves: its own if it has one, and `failed` for a
retry that is not granted and for an exception. -/
def Outcome.endStatus : Outcome → RunStatus
  | .result status false => (RunStatus.ofText status).getD .failed
  | _ => .failed

/-- The position, counted from 1, of the first outcome that does not ask for a retry. -/
noncomputable def firstFinal (o : Nat → Outcome) : ℕ∞ :=
  sInf {k | ∃ j : Nat, (o j).retries = false ∧ k = ((j + 1 : Nat) : ℕ∞)}

/-- The first outcome that is not retried comes after the retried ones. -/
theorem lt_firstFinal {o : Nat → Outcome} {k : Nat} (h : ∀ j < k, (o j).retries = true) :
    ((k + 1 : Nat) : ℕ∞) ≤ firstFinal o := by
  apply le_sInf
  rintro x ⟨j, hj, rfl⟩
  by_contra hlt
  have hjk : j < k := by
    have h' := lt_of_not_ge hlt
    rw [Nat.cast_lt] at h'
    omega
  rw [h j hjk] at hj
  cases hj

/-- The number of executions, from the one that was the last. -/
theorem limit_eq {o : Nat → Outcome} {N k : Nat} (h : ∀ j < k, (o j).retries = true) (hk : k ≤ N)
    (hlast : (o k).retries = true → k = N) :
    min (firstFinal o) ((N + 1 : Nat) : ℕ∞) = ((k + 1 : Nat) : ℕ∞) := by
  apply le_antisymm
  · cases hretry : (o k).retries with
    | true =>
      rw [hlast hretry]
      exact min_le_right _ _
    | false => exact (min_le_left _ _).trans (sInf_le ⟨k, hretry, rfl⟩)
  · apply le_min (lt_firstFinal h)
    rw [Nat.cast_le]
    omega

/-- An execution within the attempts is within the limit. -/
theorem le_limit {o : Nat → Outcome} {N k : Nat} (h : ∀ j < k, (o j).retries = true) (hk : k ≤ N) :
    ((k + 1 : Nat) : ℕ∞) ≤ min (firstFinal o) ((N + 1 : Nat) : ℕ∞) := by
  apply le_min (lt_firstFinal h)
  rw [Nat.cast_le]
  omega

namespace Sched

/-! ## Observing one run -/

/-- What is seen of one run. -/
inductive RunEvent
  /-- a worker calls the pipeline on this job -/
  | began (job : ReviewJob)
  /-- a call ends with this outcome, and leaves the row with this status and the queue with this
  many entries of the run -/
  | ended (out : Outcome) (status : Option RunStatus) (entries : Nat)

/-- The event begins an execution. -/
def RunEvent.begins : RunEvent → Bool
  | .began _ => true
  | .ended _ _ _ => false

/-- The executions begun so far. -/
def starts (h : List RunEvent) : Nat :=
  h.countP RunEvent.begins

/-- The executions ended so far. -/
def ends (h : List RunEvent) : Nat :=
  h.countP fun e => !e.begins

/-- The executions begun in two parts of a history. -/
theorem starts_append (h es : List RunEvent) : starts (h ++ es) = starts h + starts es :=
  List.countP_append

/-- The executions ended in two parts of a history. -/
theorem ends_append (h es : List RunEvent) : ends (h ++ es) = ends h + ends es :=
  List.countP_append

/-- The end of a call on the run, with what it leaves. -/
def endedBy (cfg : SchedConfig π) (r : RunId) (s : Sched π) : SchedAction π → List RunEvent
  | .finish i out =>
    match s.workers[i]? with
    | some (.busy job _) =>
      if job.runId = r then
        let left := (s.settle cfg job out).release i
        [.ended out (left.table.statusOf r) (left.queue.countP fun job => job.runId == r)]
      else []
    | _ => []
  | _ => []

/-- The call on the run that a step begins. -/
def begunOf (r : RunId) (s' : Sched π) (a : SchedAction π) : List RunEvent :=
  ((begun s' a).filter fun job => job.runId == r).map .began

/-- The scheduler, observed at the executions of one run whose stored attempts are 0. -/
def observed (cfg : SchedConfig π) (r : RunId) : Machine (Sched π) (SchedAction π) RunEvent where
  start := fun s => s.Cold ∧ ∀ row ∈ s.table.rows, row.runId = r → row.attempts = 0
  step := fun s a => (Sched.step cfg s a).map fun t => (t.1, endedBy cfg r s a ++ begunOf r t.1 a)

/-- The decision names the pull request of the row. -/
def names (d : Decision) (row : Row) : Bool :=
  d.owner == some row.owner && d.repo == some row.repo && d.pr == some row.pr

/-- The executions of the run end as the script says, no comment deletes its row, and the
process does not die once the run was executed. -/
def permits (r : RunId) (o : Nat → Outcome) (s : Sched π) (h : List RunEvent) :
    SchedAction π → Bool
  | .finish i out =>
    match s.workers[i]? with
    | some (.busy job _) => job.runId != r || out == o (ends h)
    | _ => true
  | .enqueue _ d .comment => s.table.rows.all fun row => row.runId != r || !names d row
  | .crash => starts h == 0
  | _ => true

/-- The executions of the run end as the script says. -/
def scripted (r : RunId) (o : Nat → Outcome) :
    Machine.Discipline (Sched π) (SchedAction π) RunEvent :=
  fun s h a => permits r o s h a = true

/-- Whether a step follows the script can be decided. -/
instance (r : RunId) (o : Nat → Outcome) (s : Sched π) (h : List RunEvent) (a : SchedAction π) :
    Decidable (scripted r o s h a) :=
  inferInstanceAs (Decidable (permits r o s h a = true))

/-- A step of the observed machine is one of the scheduler, with what is observed of it. -/
theorem observed_step {cfg : SchedConfig π} {r : RunId} {s s' : Sched π} {a : SchedAction π}
    {es : List RunEvent} (h : (observed cfg r).step s a = some (s', es)) :
    ∃ es', Sched.step cfg s a = some (s', es') ∧ es = endedBy cfg r s a ++ begunOf r s' a := by
  obtain ⟨⟨t, es'⟩, ht, heq⟩ := Option.map_eq_some_iff.mp h
  cases heq
  exact ⟨es', ht, rfl⟩

/-- What an observed run reaches is reachable. -/
theorem reachable_of_observed {cfg : SchedConfig π} {r : RunId}
    {D : Machine.Discipline (Sched π) (SchedAction π) RunEvent} {s : Sched π} {h : List RunEvent}
    (hr : (observed cfg r).Reaches D s h) : ∃ h', (machine cfg).Reachable s h' := by
  refine hr.invariant (I := fun s _ => ∃ h', (machine cfg).Reachable s h') ?_ ?_
  · exact fun s hs => ⟨[], .start hs.1⟩
  · rintro s h a s' es - ⟨h', hr'⟩ - hstep
    obtain ⟨es', hbase, -⟩ := observed_step hstep
    exact ⟨h' ++ es', .step hr' trivial hbase⟩

/-! ## Where the run stands -/

section Stages

variable (o : Nat → Outcome) (N : Nat)

/-- Where a run stands after the executions that were begun and ended. -/
inductive Stage (l : Life) : Nat → Nat → Prop
  /-- not executed yet -/
  | fresh : l.held = 0 → Stage l 0 0
  | executing {k : Nat} : l.held = 1 → l.status = some .running → (∀ j < k, (o j).retries = true) →
      k ≤ N → Stage l (k + 1) k
  /-- between two executions -/
  | waiting {k : Nat} : l.held = 0 → l.status = some .queued → l.inQueue = 1 → l.watched = 0 →
      (∀ j < k + 1, (o j).retries = true) → k < N → Stage l (k + 1) (k + 1)
  | spent {k : Nat} : l.held = 0 → l.status = some (o k).endStatus → l.inQueue = 0 → l.watched = 0 →
      (∀ j < k, (o j).retries = true) → k ≤ N → ((o k).retries = true → k = N) →
      Stage l (k + 1) (k + 1)

variable {o N} {l l' : Life} {b e : Nat}

/-- A run that has been executed is watched no longer. -/
theorem Stage.unwatched (h : Stage o N l b e) (hs : l.Sound) (hb : 0 < b) : l.watched = 0 := by
  have hone := hs.heldOrWatched
  cases h with
  | fresh _ => omega
  | executing hheld _ _ _ => omega
  | waiting _ _ _ hw _ _ => exact hw
  | spent _ _ _ hw _ _ _ => exact hw

/-- A run whose life is the same stands at the same stage. -/
theorem Stage.same (h : Stage o N l b e) (hsame : l = l') : Stage o N l' b e :=
  hsame ▸ h

/-- A run that was not executed is with no worker. -/
theorem Stage.unstarted (h : Stage o N l 0 e) : l.held = 0 ∧ e = 0 := by
  generalize hb : 0 = b at h
  cases h with
  | fresh hheld => exact ⟨hheld, hb⟩
  | executing _ _ _ _ => omega
  | waiting _ _ _ _ _ _ => omega
  | spent _ _ _ _ _ _ _ => omega

/-- A run without a row was not executed. -/
theorem Stage.of_status_none (h : Stage o N l b e) (hnone : l.status = none) : b = 0 := by
  cases h with
  | fresh _ => rfl
  | executing _ hst _ _ =>
    rw [hnone] at hst
    cases hst
  | waiting _ hst _ _ _ _ =>
    rw [hnone] at hst
    cases hst
  | spent _ hst _ _ _ _ _ =>
    rw [hnone] at hst
    cases hst

/-- The statuses in which a run is over are not open. -/
theorem endStatus_final {out : Outcome} (h : out.Listed) : out.endStatus.final = true := by
  cases out with
  | none => cases h
  | raised => rfl
  | result status retryable =>
    cases retryable with
    | true => rfl
    | false =>
      rcases h with h | h
      · cases h
      · simp only [List.mem_cons, List.not_mem_nil, or_false] at h
        rcases h with rfl | rfl | rfl | rfl | rfl <;> decide

/-- A pop that adds a worker to the run has claimed its queued row. -/
theorem claimed_of_held (hpop : Pop l l') (hheld : l'.held = l.held + 1) :
    l.status = some .queued ∧ 0 < l.inQueue ∧ l'.status = some .running := by
  cases hpop with
  | lost _ _ _ =>
    have : l.held = l.held + 1 := hheld
    omega
  | claimed hq hst =>
    refine ⟨hst, hq, ?_⟩
    show l.status.map (fun _ => RunStatus.running) = some .running
    rw [hst]
    rfl

/-- A worker that claims the run begins its next execution. -/
theorem Stage.claim (ho : ∀ j, (o j).Listed) (h : Stage o N l b e) (hs : l.Sound)
    (hpop : Pop l l') (hheld : l'.held = l.held + 1) : Stage o N l' (b + 1) e := by
  obtain ⟨hst, hq, hrunning⟩ := claimed_of_held hpop hheld
  have hone := hs.heldOrQueued
  have hheld' : l'.held = 1 := by omega
  cases h with
  | fresh _ =>
    exact .executing hheld' hrunning (fun j hj => absurd hj (Nat.not_lt_zero j)) (Nat.zero_le N)
  | executing hone' _ _ _ => omega
  | waiting _ _ _ _ hretries hk => exact .executing hheld' hrunning hretries hk
  | @spent k _ hst' _ _ _ _ _ =>
    have hfinal := endStatus_final (ho k)
    rw [hst'] at hst
    rw [Option.some.inj hst] at hfinal
    cases hfinal

/-- A worker that does not claim the run leaves it where it stands. -/
theorem Stage.pop (h : Stage o N l b e) (hpop : l = l' ∨ Pop l l') (hheld : l'.held = l.held) :
    Stage o N l' b e := by
  rcases hpop with rfl | hpop
  · exact h
  · cases hpop with
    | claimed _ _ =>
      have : l.held + 1 = l.held := hheld
      omega
    | @lost k hk hle hst =>
      cases h with
      | fresh hheld' => exact .fresh hheld'
      | executing hheld' hst' hretries hN => exact .executing hheld' hst' hretries hN
      | waiting _ hst' _ _ _ _ => exact absurd hst' hst
      | spent _ _ hq _ _ _ _ => omega

end Stages

/-! ## The copies of the job -/

/-- Every job in the queue, with an undecided watcher or with a worker satisfies `P`. -/
structure Copies (P : ReviewJob → Prop) (s : Sched π) : Prop where
  queued : ∀ job ∈ s.queue, P job
  watched : ∀ w ∈ s.watchers, w.pc.undecided = true → P w.job
  busy : ∀ job pc, Worker.busy job pc ∈ s.workers → P job

section Copies

variable {P : ReviewJob → Prop} {cfg : SchedConfig π} {s s' : Sched π}

/-- Taking a run from the queue adds no copy. -/
theorem Copies.dequeue (hs : Copies P s) (cfg : SchedConfig π) (i : Nat) :
    Copies P (s.dequeue cfg i) := by
  obtain ⟨-, -, -, hwatchers, hcase, hqueue⟩ := dequeue_frame cfg s i
  refine ⟨fun job hjob => hs.queued job (hqueue job hjob), ?_, ?_⟩
  · rw [hwatchers]
    exact hs.watched
  · intro job pc hb
    rcases hcase with ⟨next, hnext, -, -, hworkers, -⟩ | ⟨-, hworkers, -⟩
    · rw [hworkers] at hb
      rcases List.mem_or_eq_of_mem_set hb with hb | heq
      · exact hs.busy job pc hb
      · cases heq
        exact hs.queued job hnext
    · rw [hworkers] at hb
      rcases List.mem_or_eq_of_mem_set hb with hb | heq
      · exact hs.busy job pc hb
      · cases heq

/-- A watcher's move adds no copy. -/
theorem Copies.watch {i : Nat} {w : Watcher} {es : List SchedEvent} (hs : Copies P s)
    (hm : WatchMove s i w s' es) (hmem : w ∈ s.watchers) : Copies P s' := by
  obtain ⟨-, -, -, -, -, hworkers⟩ := hm.frame
  obtain ⟨hqueue, hwatchers⟩ := hm.copies
  refine ⟨?_, ?_, ?_⟩
  · intro job hjob
    rcases hqueue job hjob with hjob | ⟨hu, rfl⟩
    · exact hs.queued job hjob
    · exact hs.watched w hmem hu
  · intro x hx hux
    rcases hwatchers x hx with hx | hu | ⟨hu, hj⟩
    · exact hs.watched x hx hux
    · rw [hu] at hux
      cases hux
    · rw [hj]
      exact hs.watched w hmem hu
  · intro job pc hb
    rcases hworkers with hworkers | hworkers <;> rw [hworkers] at hb
    · exact hs.busy job pc hb
    · exact hs.busy job pc (busy_of_wake hb)

/-- The new job of `enqueue` has not been attempted. -/
theorem Copies.enqueue {r : RunId} {d : Decision} {cause : Cause} (hs : Copies P s)
    (hnew : ∀ job : ReviewJob, job.runId = r → job.attempts = 0 → P job) :
    Copies P (s.enqueue r d cause).1 := by
  have hbusy : ∀ job pc, Worker.busy job pc ∈ (s.enqueue r d cause).1.workers → P job := by
    intro job pc hb
    rcases (enqueue_frame s r d cause).2.2.2.2.1 with hworkers | hworkers <;> rw [hworkers] at hb
    · exact hs.busy job pc hb
    · exact hs.busy job pc (busy_of_wake hb)
  rcases stores_or_none d r cause with ⟨job, pr, hj⟩ | hnone
  · have hjob : P job := by
      refine hnew job hj.runId ?_
      obtain ⟨⟨owner, repo, -, -, rfl⟩, -, -⟩ := hj
      rfl
    rw [enqueue_of_insertRun hj] at hbusy ⊢
    split at hbusy
    · rename_i hstored
      rw [if_pos hstored]
      refine ⟨?_, ?_, hbusy⟩
      · intro x hx
        rcases List.mem_append.mp hx with hx | hx
        · exact hs.queued x hx
        · rw [List.mem_singleton.mp hx]
          exact hjob
      · intro x hx hu
        rcases List.mem_append.mp hx with hx | hx
        · exact hs.watched x hx hu
        · rw [List.mem_singleton.mp hx]
          exact hjob
    · rename_i hstored
      rw [if_neg hstored]
      exact ⟨hs.queued, hs.watched, hbusy⟩
  · rw [enqueue_of_columns_none hnone] at hbusy ⊢
    exact ⟨hs.queued, hs.watched, hbusy⟩

/-- The end of a call queues at most the job with one more attempt. -/
theorem Copies.release {i : Nat} {job : ReviewJob} (hs : Copies P s) (cfg : SchedConfig π)
    (out : Outcome) (hretry : P { job with attempts := job.attempts + 1 }) :
    Copies P ((s.settle cfg job out).release i) := by
  obtain ⟨-, -, -, -, -, hwatchers, hworkers, -⟩ := settle_frame cfg s job out
  refine ⟨?_, ?_, ?_⟩
  · intro j hj
    rcases settle_queue cfg s job out j hj with hj | ⟨rfl, -⟩
    · exact hs.queued j hj
    · exact hretry
  · show ∀ w ∈ (s.settle cfg job out).watchers, _
    rw [hwatchers]
    exact hs.watched
  · intro j pc hb
    have hb' : Worker.busy j pc ∈ (s.settle cfg job out).workers.set i .ready := hb
    rw [hworkers] at hb'
    rcases List.mem_or_eq_of_mem_set hb' with hb' | heq
    · exact hs.busy j pc hb'
    · cases heq

/-- A wait that times out adds no copy. -/
theorem Copies.timeout {i : Nat} (hs : Copies P s) :
    Copies P { s with workers := s.workers.set i .resting } := by
  refine ⟨hs.queued, hs.watched, ?_⟩
  intro job pc hb
  rcases List.mem_or_eq_of_mem_set hb with hb | heq
  · exact hs.busy job pc hb
  · cases heq

/-- A pipeline call that goes on keeps its copy, with the head filled in. -/
theorem Copies.advance {i : Nat} {sha : Option (Option String)} {pc pc' : π} {job : ReviewJob}
    (hs : Copies P s) (hw : s.workers[i]? = some (.busy job pc'))
    (hfill : P job → P (job.fill sha)) :
    Copies P { s with workers := s.workers.set i (.busy (job.fill sha) pc) } := by
  refine ⟨hs.queued, hs.watched, ?_⟩
  intro j pc₀ hb
  rcases List.mem_or_eq_of_mem_set hb with hb | heq
  · exact hs.busy j pc₀ hb
  · cases heq
    exact hfill (hs.busy job pc' (List.mem_of_getElem? hw))

/-- A boot copies the rows of the table. -/
theorem Copies.boot (hopen : ∀ row ∈ s.table.rows, P row.job)
    (hstamp : ∀ (row : Row) (st : RunStatus) (now : Nat), P row.job → P (row.stamp st now).job) :
    Copies P (s.boot cfg) := by
  obtain ⟨table, queued, htable, -, hboot⟩ := boot_eq cfg s
  have hjobs : ∀ job ∈ table.reconcileOpenJobs, P job := by
    intro job hjob
    obtain ⟨row, hrow, -, rfl⟩ := RunTable.mem_reconcileOpenJobs.mp hjob
    rw [htable] at hrow
    obtain ⟨old, hold, rfl | ⟨st, now, rfl⟩⟩ :=
      (RunTable.restamped_stampWhere s.table _ .queued s.now).mem hrow
    · exact hopen _ hold
    · exact hstamp old st now (hopen old hold)
  rw [hboot]
  refine ⟨hjobs, ?_, ?_⟩
  · intro w hw _
    obtain ⟨job, hjob, rfl⟩ := List.mem_map.mp hw
    exact hjobs job (List.mem_filter.mp hjob).1
  · intro job pc hb
    cases List.eq_of_mem_replicate hb

end Copies

/-- The job of the run has counted `k` attempts. -/
def Counted (r : RunId) (k : Nat) (job : ReviewJob) : Prop :=
  job.runId = r → job.attempts = k

/-- The end of the only execution of a run leaves no copy that has not counted it. -/
theorem copies_release {cfg : SchedConfig π} {s : Sched π} {i : Nat} {job : ReviewJob} {pc : π}
    {r : RunId} {k : Nat} (hs : Copies (Counted r k) s) (hw : s.workers[i]? = some (.busy job pc))
    (hr : job.runId = r) (hsound : (s.life r).Sound) (out : Outcome) :
    Copies (Counted r (k + 1)) ((s.settle cfg job out).release i) := by
  have hheld : 0 < (s.life r).held := countP_pos_of_getElem? hw (by simp [Worker.holds, hr])
  have hqueue := hsound.heldOrQueued
  have hwatch := hsound.heldOrWatched
  obtain ⟨-, -, -, -, -, hwatchers, hworkers, -⟩ := settle_frame cfg s job out
  refine ⟨?_, ?_, ?_⟩
  · intro j hj hjr
    rcases settle_queue cfg s job out j hj with hj | ⟨rfl, -⟩
    · have hpos : 0 < (s.life r).inQueue := List.countP_pos_iff.mpr ⟨j, hj, by simp [hjr]⟩
      omega
    · exact congrArg (· + 1) (hs.busy job pc (List.mem_of_getElem? hw) hr)
  · show ∀ w ∈ (s.settle cfg job out).watchers, _
    rw [hwatchers]
    intro w hmem hu hwr
    have hpos : 0 < (s.life r).watched :=
      List.countP_pos_iff.mpr ⟨w, hmem, by simp [Watcher.watches, hu, hwr]⟩
    omega
  · intro j pc' hb hjr
    have hb' : Worker.busy j pc' ∈ (s.settle cfg job out).workers.set i .ready := hb
    rw [hworkers] at hb'
    have hcount := countP_set_add (a := Worker.ready) (Worker.holds r) hw
    have hpos : 0 < (s.workers.set i .ready).countP (Worker.holds r) :=
      List.countP_pos_iff.mpr ⟨_, hb', by simp [Worker.holds, hjr]⟩
    have hone : s.workers.countP (Worker.holds r) ≤ 1 := by
      show (s.life r).held ≤ 1
      omega
    simp only [Worker.holds, hr, beq_self_eq_true, if_true, Bool.false_eq_true, if_false] at hcount
    omega

/-! ## What the steps do to the run -/

/-- The end of a call on another run does not touch the run. -/
theorem life_release_other (cfg : SchedConfig π) {s : Sched π} {i : Nat} {job : ReviewJob} {pc : π}
    {r : RunId} (out : Outcome) (hw : s.workers[i]? = some (.busy job pc)) (hne : job.runId ≠ r) :
    ((s.settle cfg job out).release i).life r = s.life r := by
  have hw' : (s.settle cfg job out).workers[i]? = some (.busy job pc) := by
    rw [settle_workers]
    exact hw
  rw [life_release hw', if_neg hne, Nat.sub_zero]
  rcases settle_cases anyEnd_failed cfg s job (Outcome.endsIn_any out) with
    ⟨heq, -⟩ | ⟨st, heq, -⟩ | heq
  · rw [heq]
  · rw [heq, life_writeStatus, if_neg hne.symm]
  · rw [heq, life_put, life_writeStatus, if_neg hne.symm, if_neg hne, Nat.add_zero]

/-- A watcher does not touch a run it does not watch. -/
theorem life_watch_other {s s' : Sched π} {i : Nat} {w : Watcher} {es : List SchedEvent} {r : RunId}
    (hw : s.watchers[i]? = some w) (hm : WatchMove s i w s' es) (hun : (s.life r).watched = 0) :
    s'.life r = s.life r := by
  have hstatus : s'.table.statusOf r = none → s.table.statusOf r = none := by
    rcases hm.frame.1 with htable | ⟨-, st, htable⟩ <;> rw [htable]
    · exact id
    · rw [RunTable.statusOf_setStatus]
      split
      · exact Option.map_eq_none_iff.mp
      · exact id
  rcases hm.life hw r with heq | hmove
  · exact heq.symm
  · generalize hl : s'.life r = l' at hmove
    cases hmove with
    | deleted =>
      have hnone : (s'.life r).status = none := by rw [hl]
      exact Life.ext (hstatus hnone).symm rfl rfl rfl rfl
    | left hpos _ => omega
    | passedMarked hpos _ => omega
    | passed hpos _ => omega
    | closed hpos _ => omega

/-- A run with the same rows has the same status. -/
theorem statusOf_congr {t t' : RunTable} {r : RunId}
    (h : ∀ row : Row, row.runId = r → (row ∈ t'.rows ↔ row ∈ t.rows)) :
    t'.statusOf r = t.statusOf r := by
  apply Option.ext
  intro st
  rw [RunTable.statusOf_eq_some, RunTable.statusOf_eq_some]
  constructor
  · rintro ⟨row, hrow, hid, hst⟩
    exact ⟨row, (h row hid).mp hrow, hid, hst⟩
  · rintro ⟨row, hrow, hid, hst⟩
    exact ⟨row, (h row hid).mpr hrow, hid, hst⟩

/-- The insertion of another run keeps the row of this one, unless a comment names its pull
request. -/
theorem statusOf_insertRun_kept {t : RunTable} {job : ReviewJob} {now : Nat} {r : RunId}
    (hne : r ≠ job.runId) (hkeep : job.cause = .comment → ∀ row ∈ t.rows, row.runId = r →
      ¬ (row.owner = job.owner ∧ row.repo = job.repo ∧ some row.pr = job.pr)) :
    (t.insertRun job now).1.statusOf r = t.statusOf r := by
  have hinsert : ∀ (u : RunTable) (pr : Int),
      (u.insertRow (RunTable.rowOf job pr now)).1.statusOf r = u.statusOf r := by
    intro u pr
    rcases RunTable.insertRow_cases u (RunTable.rowOf job pr now) with ⟨-, hrows, -⟩ | ⟨-, hsame, -⟩
    · apply statusOf_congr
      intro row hid
      rw [hrows, List.mem_append, List.mem_singleton]
      refine ⟨fun h => h.resolve_right ?_, Or.inl⟩
      rintro rfl
      exact hne hid.symm
    · rw [hsame]
  unfold RunTable.insertRun
  cases hpr : job.pr with
  | none => rfl
  | some pr =>
    cases hcause : job.cause with
    | webhook => exact hinsert t pr
    | comment =>
      refine (hinsert _ pr).trans (statusOf_congr ?_)
      intro row hid
      rw [RunTable.mem_deletePr]
      refine ⟨And.left, fun hrow => ⟨hrow, fun hnamed => ?_⟩⟩
      exact hkeep hcause row hrow hid ⟨hnamed.1, hnamed.2.1, by rw [hpr, hnamed.2.2]⟩

/-- `enqueue` does not touch another run, unless a comment names its pull request. -/
theorem life_enqueue_kept {s : Sched π} {d : Decision} {cause : Cause} {r r' : RunId}
    (hne : r ≠ r')
    (hkeep : cause = .comment → ∀ row ∈ s.table.rows, row.runId = r → names d row = false) :
    (s.enqueue r' d cause).1.life r = s.life r := by
  have hstatus : (s.enqueue r' d cause).1.table.statusOf r = s.table.statusOf r := by
    rcases stores_or_none d r' cause with ⟨job, pr, hj⟩ | hnone
    · have htable : (s.enqueue r' d cause).1.table = (s.table.insertRun job s.now).1 := by
        rw [enqueue_of_insertRun hj]
        split <;> rfl
      rw [htable]
      apply statusOf_insertRun_kept (by rwa [hj.runId])
      obtain ⟨⟨owner, repo, hd, hr, rfl⟩, -, -⟩ := hj
      intro hcause row hrow hid hnamed
      have hfalse := hkeep hcause row hrow hid
      obtain ⟨ho, hp, hpr⟩ := hnamed
      have hpr' : d.pr = some row.pr := hpr.symm
      have ho' : d.owner = some row.owner := by rw [hd, ho]; rfl
      have hp' : d.repo = some row.repo := by rw [hr, hp]; rfl
      simp [names, ho', hp', hpr'] at hfalse
    · rw [enqueue_of_columns_none hnone]
      rfl
  rcases life_enqueue_other s d cause hne with heq | heq
  · exact heq.symm
  · rw [← heq]
    have hnone : s.table.statusOf r = none := by
      rw [← hstatus]
      exact (congrArg Life.status heq).symm
    exact Life.ext hnone.symm rfl rfl rfl rfl

/-- A worker that looks for work begins an execution of the run, or none. -/
theorem begunOf_dequeue {cfg : SchedConfig π} {s : Sched π} {i : Nat} {w : Worker π} (r : RunId)
    (hw : s.workers[i]? = some w) (hidle : w.idle = true) :
    (begunOf r (s.dequeue cfg i) (.wake i) = [] ∧
        ((s.dequeue cfg i).life r).held = (s.life r).held) ∨
      ∃ job, begunOf r (s.dequeue cfg i) (.wake i) = [.began job] ∧
        ((s.dequeue cfg i).life r).held = (s.life r).held + 1 := by
  have hi : i < s.workers.length := (List.getElem?_eq_some_iff.mp hw).1
  have hslot : ∀ w', (s.dequeue cfg i).workers = s.workers.set i w' →
      (s.dequeue cfg i).workers[i]? = some w' ∧
        ((s.dequeue cfg i).life r).held = (s.life r).held + if w'.holds r then 1 else 0 := by
    intro w' hworkers
    constructor
    · rw [hworkers]
      exact List.getElem?_set_self hi
    · show (s.dequeue cfg i).workers.countP (Worker.holds r) = _
      rw [hworkers]
      exact countP_holds_set hw hidle r
  rcases (dequeue_frame cfg s i).2.2.2.2.1 with ⟨job, -, -, -, hworkers, -⟩ | ⟨-, hworkers, -⟩
  · obtain ⟨hget, hheld⟩ := hslot _ hworkers
    by_cases hr : job.runId = r
    · refine Or.inr ⟨job, ?_, ?_⟩
      · simp [begunOf, begun, hget, hr]
      · rw [hheld]
        simp [Worker.holds, hr]
    · refine Or.inl ⟨?_, ?_⟩
      · simp [begunOf, begun, hget, hr]
      · rw [hheld]
        simp [Worker.holds, hr]
  · obtain ⟨hget, hheld⟩ := hslot _ hworkers
    refine Or.inl ⟨?_, ?_⟩
    · simp [begunOf, begun, hget]
    · rw [hheld]
      simp [Worker.holds]

/-- What the end of a call on the run must leave behind: a retry that is granted is queued once,
any other outcome closes the run with its status. -/
def EndsRight (o : Nat → Outcome) (N : Nat) (before : List RunEvent) : RunEvent → Prop
  | .began _ => True
  | .ended out status entries =>
    out = o (ends before) ∧
      if out.retries = true ∧ ends before < N then status = some .queued ∧ entries = 1
      else status = some out.endStatus ∧ entries = 0

section Run

variable {cfg : SchedConfig π} {s s' : Sched π} {r : RunId} {o : Nat → Outcome} {N b e i : Nat}
  {job : ReviewJob} {pc : π}

/-- The worker's branches, for the outcomes of a run that is not superseded. -/
theorem settle_listed (hN : cfg.maxAttempts = (N : Int)) {out : Outcome} (hout : out.Listed) :
    s.settle cfg job out =
      if out.retries = true ∧ job.attempts < N then
        (s.writeStatus job.runId .queued).put { job with attempts := job.attempts + 1 }
      else s.writeStatus job.runId out.endStatus := by
  cases out with
  | none => cases hout
  | raised => rfl
  | result status retryable =>
    cases retryable with
    | true =>
      have hlt : ((job.attempts : Int) < cfg.maxAttempts) ↔ job.attempts < N := by omega
      simp only [settle, Outcome.retries, Outcome.endStatus, if_true, true_and, hlt]
    | false =>
      rcases hout with h | h
      · cases h
      · simp only [List.mem_cons, List.not_mem_nil, or_false] at h
        rcases h with rfl | rfl | rfl | rfl | rfl <;> rfl

/-- **The end of an execution.** The run is queued for another one, or it is over, and its row
and the queue say so at once. -/
theorem Stage.settle (hN : cfg.maxAttempts = (N : Int)) (ho : ∀ j, (o j).Listed)
    (h : Stage o N (s.life r) b e) (hw : s.workers[i]? = some (.busy job pc)) (hr : job.runId = r)
    (hsound : (s.life r).Sound) (hatt : job.attempts = e) :
    Stage o N (((s.settle cfg job (o e)).release i).life r) b (e + 1) ∧
      if (o e).retries = true ∧ e < N then
        (((s.settle cfg job (o e)).release i).life r).status = some .queued ∧
          (((s.settle cfg job (o e)).release i).life r).inQueue = 1
      else (((s.settle cfg job (o e)).release i).life r).status = some (o e).endStatus ∧
        (((s.settle cfg job (o e)).release i).life r).inQueue = 0 := by
  have hpos : 0 < (s.life r).held := countP_pos_of_getElem? hw (by simp [Worker.holds, hr])
  have hqueue := hsound.heldOrQueued
  have hwatch := hsound.heldOrWatched
  have hw' : (s.settle cfg job (o e)).workers[i]? = some (.busy job pc) := by
    rw [settle_workers]
    exact hw
  rw [life_release hw', if_pos hr]
  generalize hl : s.life r = l at *
  cases h with
  | fresh hheld => omega
  | waiting hheld _ _ _ _ _ => omega
  | spent hheld _ _ _ _ _ _ => omega
  | executing hheld hst hretries hk =>
    have hq : l.inQueue = 0 := by omega
    have hwatched : l.watched = 0 := by omega
    rw [settle_listed hN (ho e), hatt]
    by_cases hretry : (o e).retries = true ∧ e < N
    · rw [if_pos hretry, if_pos hretry, life_put, if_pos hr, life_writeStatus, if_pos hr.symm, hl]
      have hst' : (l.stamp .queued).status = some .queued := by simp [Life.stamp, hst]
      have hin : (l.stamp .queued).inQueue + 1 = 1 := congrArg (· + 1) hq
      refine ⟨.waiting ?_ hst' hin hwatched ?_ hretry.2, hst', hin⟩
      · show l.held - 1 = 0
        omega
      · intro j hj
        rcases Nat.lt_succ_iff_lt_or_eq.mp hj with hj | rfl
        · exact hretries j hj
        · exact hretry.1
    · rw [if_neg hretry, if_neg hretry, life_writeStatus, if_pos hr.symm, hl]
      have hst' : (l.stamp (o e).endStatus).status = some (o e).endStatus := by
        simp [Life.stamp, hst]
      refine ⟨.spent ?_ hst' hq hwatched hretries hk ?_, hst', hq⟩
      · show l.held - 1 = 0
        omega
      · intro hr'
        by_contra hne
        exact hretry ⟨hr', by omega⟩

/-! ## The invariant -/

/-- Where the run stands after `b` executions begun and `e` ended, and what its copies say. -/
structure Tells (cfg : SchedConfig π) (r : RunId) (o : Nat → Outcome) (N : Nat) (s : Sched π)
    (b e : Nat) : Prop where
  stage : Stage o N (s.life r) b e
  copies : Copies (Counted r e) s
  rows : ∀ row ∈ s.table.rows, row.runId = r → row.attempts = 0
  live : 0 < b → s.up = true ∧ 0 < cfg.concurrency

/-- Restamping leaves the attempts of the rows. -/
theorem rows_restamped {t t' : RunTable} (h : t.Restamped t')
    (hrows : ∀ row ∈ t.rows, row.runId = r → row.attempts = 0) :
    ∀ row ∈ t'.rows, row.runId = r → row.attempts = 0 := by
  intro row hrow hid
  obtain ⟨old, hold, rfl | ⟨st, now, rfl⟩⟩ := h.mem hrow
  · exact hrows _ hold hid
  · exact hrows old hold hid

/-- The attempts column of the run stays 0. -/
theorem rows_step {a : SchedAction π} {es : List SchedEvent}
    (hrows : ∀ row ∈ s.table.rows, row.runId = r → row.attempts = 0)
    (h : Sched.step cfg s a = some (s', es)) :
    ∀ row ∈ s'.table.rows, row.runId = r → row.attempts = 0 := by
  rcases step_table h with ⟨hstamp, -⟩ | ⟨r', d, cause, -, -, -, heq⟩
  · exact rows_restamped hstamp hrows
  · rw [show s' = (s.enqueue r' d cause).1 by rw [heq]]
    rcases stores_or_none d r' cause with ⟨job, pr, hj⟩ | hnone
    · have htable : (s.enqueue r' d cause).1.table = (s.table.insertRun job s.now).1 := by
        rw [enqueue_of_insertRun hj]
        split <;> rfl
      rw [htable]
      intro row hrow hid
      rcases (RunTable.insertRun_spec s.table job s.now).1 row hrow with hold | ⟨-, pr', -, rfl⟩
      · exact hrows row hold hid
      · obtain ⟨⟨owner, repo, -, -, rfl⟩, -, -⟩ := hj
        rfl
    · rw [enqueue_of_columns_none hnone]
      exact hrows

/-- A worker that looks for work claims the run for its next execution, or leaves it. -/
theorem Tells.dequeue (ho : ∀ j, (o j).Listed) {w : Worker π} (ht : Tells cfg r o N s b e)
    (hw : s.workers[i]? = some w) (hidle : w.idle = true) (hsound : (s.life r).Sound)
    (hup : s.up = true) (hcon : 0 < cfg.concurrency) :
    Tells cfg r o N (s.dequeue cfg i) (b + starts (begunOf r (s.dequeue cfg i) (.wake i))) e := by
  refine ⟨?_, ht.copies.dequeue cfg i, rows_restamped (restamped_dequeue cfg s i) ht.rows,
    fun _ => ⟨?_, hcon⟩⟩
  · rcases begunOf_dequeue r hw hidle with ⟨hbegun, hheld⟩ | ⟨job, hbegun, hheld⟩
    · rw [hbegun]
      exact ht.stage.pop (life_dequeue hw hidle r) hheld
    · rw [hbegun]
      rcases life_dequeue hw hidle r with hsame | hpop
      · rw [← hsame] at hheld
        omega
      · exact ht.stage.claim ho hsound hpop hheld
  · exact (dequeue_frame cfg s i).2.2.1.trans hup

/-- What begins an execution ends none. -/
theorem ends_begunOf (r : RunId) (s' : Sched π) (a : SchedAction π) : ends (begunOf r s' a) = 0 := by
  rw [ends, List.countP_eq_zero]
  intro ev hev
  obtain ⟨job, -, rfl⟩ := List.mem_map.mp hev
  simp [RunEvent.begins]

/-- A step begins at most one execution of the run. -/
theorem starts_begunOf_le (r : RunId) (s' : Sched π) (a : SchedAction π) :
    starts (begunOf r s' a) ≤ 1 := by
  refine List.countP_le_length.trans ?_
  rw [begunOf, List.length_map]
  exact (List.length_filter_le _ _).trans (begun_length s' a)

/-- What begins an execution ends nothing wrongly. -/
theorem endsRight_begunOf {before : List RunEvent} {a : SchedAction π} {ev : RunEvent}
    (hev : ev ∈ begunOf r s' a) : EndsRight o N before ev := by
  obtain ⟨job, -, rfl⟩ := List.mem_map.mp hev
  trivial

/-- What a step with these events of the run must establish. -/
def Advances (cfg : SchedConfig π) (r : RunId) (o : Nat → Outcome) (N : Nat) (h : List RunEvent)
    (s' : Sched π) (es : List RunEvent) : Prop :=
  Tells cfg r o N s' (starts (h ++ es)) (ends (h ++ es)) ∧
    ∀ pre ev post, es = pre ++ ev :: post → EndsRight o N (h ++ pre) ev

/-- A step that neither begins nor ends an execution of the run. -/
theorem Tells.quiet {h : List RunEvent} (ht : Tells cfg r o N s' (starts h) (ends h)) :
    Advances cfg r o N h s' [] := by
  refine ⟨by rwa [List.append_nil], fun pre ev post heq => ?_⟩
  simp at heq

/-- A worker that looks for work, after it may have ended an execution of the run. -/
theorem Tells.work (ho : ∀ j, (o j).Listed) {w : Worker π} {h : List RunEvent}
    (es : List RunEvent) (ht : Tells cfg r o N s (starts (h ++ es)) (ends (h ++ es)))
    (hes : ∀ pre ev post, es = pre ++ ev :: post → EndsRight o N (h ++ pre) ev)
    (hw : s.workers[i]? = some w) (hidle : w.idle = true) (hsound : (s.life r).Sound)
    (hup : s.up = true) (hcon : 0 < cfg.concurrency) :
    Advances cfg r o N h (s.dequeue cfg i) (es ++ begunOf r (s.dequeue cfg i) (.wake i)) := by
  constructor
  · have hnext := ht.dequeue ho hw hidle hsound hup hcon
    rwa [← List.append_assoc, starts_append, ends_append, ends_begunOf, Nat.add_zero]
  · intro pre ev post heq
    rcases List.append_eq_append_iff.mp heq with ⟨mid, hpre, hrest⟩ | ⟨mid, hpre, hrest⟩
    · -- the event is an execution that begins
      exact endsRight_begunOf (hrest ▸ List.mem_append_right _ List.mem_cons_self)
    · cases mid with
      | nil =>
        rw [List.nil_append] at hrest
        exact endsRight_begunOf (hrest ▸ List.mem_cons_self)
      | cons x mid =>
        obtain ⟨rfl, -⟩ := List.cons.inj hrest
        exact hes pre ev mid hpre

/-! ## One step -/

/-- The run is stored. -/
theorem Tells.enqueue_self (ht : Tells cfg r o N s b e) (hblank : s.life r = Life.blank)
    (d : Decision) (cause : Cause)
    (hrows : ∀ row ∈ (s.enqueue r d cause).1.table.rows, row.runId = r → row.attempts = 0) :
    Tells cfg r o N (s.enqueue r d cause).1 b e := by
  obtain rfl : b = 0 := ht.stage.of_status_none (congrArg Life.status hblank)
  obtain ⟨-, rfl⟩ := ht.stage.unstarted
  refine ⟨.fresh ?_, ht.copies.enqueue fun job _ hatt _ => hatt, hrows, fun hpos => ?_⟩
  · rcases life_enqueue_self hblank d cause with hlife | hlife <;> rw [hlife] <;> rfl
  · omega

/-- Another run is stored. -/
theorem Tells.enqueue_other {r' : RunId} {d : Decision} {cause : Cause}
    (ht : Tells cfg r o N s b e) (hne : r ≠ r')
    (hkeep : cause = .comment → ∀ row ∈ s.table.rows, row.runId = r → names d row = false)
    (hrows : ∀ row ∈ (s.enqueue r' d cause).1.table.rows, row.runId = r → row.attempts = 0) :
    Tells cfg r o N (s.enqueue r' d cause).1 b e := by
  refine ⟨?_, ht.copies.enqueue fun job hid _ hjr => ?_, hrows, fun hpos => ?_⟩
  · rw [life_enqueue_kept hne hkeep]
    exact ht.stage
  · exact absurd (hjr.symm.trans hid) hne
  · rw [(enqueue_frame s r' d cause).2.2.1]
    exact ht.live hpos

/-- A watcher moves: it watches another run, or this one before its first execution. -/
theorem Tells.watch {w : Watcher} {es : List SchedEvent} (ht : Tells cfg r o N s b e)
    (hw : s.watchers[i]? = some w) (hm : WatchMove s i w s' es) (hsound : (s.life r).Sound)
    (hrows : ∀ row ∈ s'.table.rows, row.runId = r → row.attempts = 0) :
    Tells cfg r o N s' b e := by
  obtain ⟨-, -, -, hup, -, hworkers⟩ := hm.frame
  refine ⟨?_, ht.copies.watch hm (List.mem_of_getElem? hw), hrows, fun hpos => ?_⟩
  · rcases Nat.eq_zero_or_pos b with rfl | hpos
    · obtain ⟨hheld, rfl⟩ := ht.stage.unstarted
      refine .fresh (Eq.trans ?_ hheld)
      rcases hworkers with hworkers | hworkers
      · exact congrArg (List.countP (Worker.holds r)) hworkers
      · show s'.workers.countP _ = _
        rw [hworkers]
        exact countP_holds_wake r s.workers
    · rw [life_watch_other hw hm (ht.stage.unwatched hsound hpos)]
      exact ht.stage
  · rw [hup]
    exact ht.live hpos

/-- A wait that times out leaves where the run stands. -/
theorem Tells.timeout {w : Worker π} (ht : Tells cfg r o N s b e) (hw : s.workers[i]? = some w)
    (hidle : w.idle = true) :
    Tells cfg r o N { s with workers := s.workers.set i .resting } b e := by
  exact ⟨ht.stage.same (life_timeout hw hidle r), ht.copies.timeout, ht.rows, ht.live⟩

/-- The pipeline advances, and keeps the run and the attempts of its job. -/
theorem Tells.advance {sha : Option (Option String)} {pc' : π} (ht : Tells cfg r o N s b e)
    (hw : s.workers[i]? = some (.busy job pc')) :
    Tells cfg r o N { s with workers := s.workers.set i (.busy (job.fill sha) pc) } b e := by
  refine ⟨ht.stage.same (life_advance sha pc hw r), ht.copies.advance hw ?_, ht.rows, ht.live⟩
  intro hcounted hid
  rw [ReviewJob.fill_runId] at hid
  rw [ReviewJob.fill_attempts]
  exact hcounted hid

/-- The end of a run leaves the service up or down as it is. -/
theorem up_release (cfg : SchedConfig π) (s : Sched π) (i : Nat) (job : ReviewJob) (out : Outcome) :
    ((s.settle cfg job out).release i).up = s.up :=
  (settle_frame cfg s job out).2.2.2.1

/-- An execution of the run ends. -/
theorem Tells.finish_self (hN : cfg.maxAttempts = (N : Int)) (ho : ∀ j, (o j).Listed)
    (ht : Tells cfg r o N s b e) (hw : s.workers[i]? = some (.busy job pc)) (hr : job.runId = r)
    (hsound : (s.life r).Sound) :
    Tells cfg r o N ((s.settle cfg job (o e)).release i) b (e + 1) := by
  have hcounted := ht.copies.busy job pc (List.mem_of_getElem? hw) hr
  refine ⟨(ht.stage.settle hN ho hw hr hsound hcounted).1,
    copies_release ht.copies hw hr hsound (o e),
    rows_restamped (restamped_release cfg s i job (o e)) ht.rows, fun hpos => ?_⟩
  rw [up_release]
  exact ht.live hpos

/-- An execution of another run ends. -/
theorem Tells.finish_other (ht : Tells cfg r o N s b e) (hw : s.workers[i]? = some (.busy job pc))
    (hne : job.runId ≠ r) (out : Outcome) :
    Tells cfg r o N ((s.settle cfg job out).release i) b e := by
  refine ⟨?_, ht.copies.release cfg out fun hid => absurd hid hne,
    rows_restamped (restamped_release cfg s i job out) ht.rows, fun hpos => ?_⟩
  · rw [life_release_other cfg out hw hne]
    exact ht.stage
  · rw [up_release]
    exact ht.live hpos

/-- The process dies before the run was executed. -/
theorem Tells.crash (ht : Tells cfg r o N s 0 e) : Tells cfg r o N s.crash 0 e := by
  obtain ⟨-, rfl⟩ := ht.stage.unstarted
  refine ⟨.fresh rfl, ⟨fun _ hj => absurd hj List.not_mem_nil, fun _ hx => absurd hx List.not_mem_nil,
    fun _ _ hb => absurd hb List.not_mem_nil⟩, ht.rows, fun hpos => ?_⟩
  omega

/-- The process comes up, as it does only while the run was not executed. -/
theorem Tells.boot (ht : Tells cfg r o N s b e) (hdown : s.up = false)
    (hstamped : ∀ row ∈ s.table.rows, row.updatedAt ≤ s.now)
    (hrows : ∀ row ∈ (s.boot cfg).table.rows, row.runId = r → row.attempts = 0) :
    Tells cfg r o N (s.boot cfg) b e := by
  obtain rfl : b = 0 := by
    by_contra hne
    have hup := (ht.live (Nat.pos_of_ne_zero hne)).1
    rw [hdown] at hup
    cases hup
  obtain ⟨-, rfl⟩ := ht.stage.unstarted
  refine ⟨.fresh ?_, Copies.boot ht.rows fun _ _ _ hcounted => hcounted, hrows, fun hpos => ?_⟩
  · rw [life_boot hstamped r]
    cases s.table.statusOf r with
    | none => rfl
    | some st => cases st <;> rfl
  · omega

/-- What is seen of the end of an execution of the run. -/
theorem endedBy_self {out : Outcome} (hw : s.workers[i]? = some (.busy job pc))
    (hr : job.runId = r) :
    endedBy cfg r s (.finish i out) =
      [.ended out (((s.settle cfg job out).release i).life r).status
        (((s.settle cfg job out).release i).life r).inQueue] := by
  simp only [endedBy, hw, hr, if_true]
  rfl

/-- A worker that ends an execution looks for work at once. -/
theorem Tells.finish (hN : cfg.maxAttempts = (N : Int)) (ho : ∀ j, (o j).Listed)
    {h : List RunEvent} {out : Outcome} (ht : Tells cfg r o N s (starts h) (ends h))
    (hw : s.workers[i]? = some (.busy job pc)) (hsound : (s.life r).Sound)
    (hd : scripted r o s h (.finish i out)) (hup : s.up = true) (hcon : 0 < cfg.concurrency) :
    Advances cfg r o N h (((s.settle cfg job out).release i).dequeue cfg i)
      (endedBy cfg r s (.finish i out) ++
        begunOf r (((s.settle cfg job out).release i).dequeue cfg i) (.finish i out)) := by
  have hready := ready_of_release cfg out hw
  have hup' := (up_release cfg s i job out).trans hup
  have hleft : (((s.settle cfg job out).release i).life r).Sound :=
    (life_settle anyEnd_failed hw (Outcome.endsIn_any out) r).elim (fun heq => heq ▸ hsound)
      hsound.settle
  by_cases hr : job.runId = r
  · obtain rfl : out = o (ends h) := by
      have hperm : permits r o s h (.finish i out) = true := hd
      simpa [permits, hw, hr] using hperm
    rw [endedBy_self hw hr]
    refine Tells.work ho _ ?_ ?_ hready rfl hleft hup' hcon
    · rw [starts_append, ends_append]
      exact ht.finish_self hN ho hw hr hsound
    · intro pre ev post heq
      obtain rfl : pre = [] := eq_nil_of_alone heq
      obtain ⟨rfl, -⟩ := List.cons.inj heq
      rw [List.append_nil]
      have hcounted := ht.copies.busy job pc (List.mem_of_getElem? hw) hr
      exact ⟨rfl, (ht.stage.settle hN ho hw hr hsound hcounted).2⟩
  · have hended : endedBy cfg r s (.finish i out) = [] := by
      simp [endedBy, hw, hr]
    rw [hended]
    refine Tells.work ho [] ?_ (Tells.quiet ht).2 hready rfl hleft hup' hcon
    rw [List.append_nil]
    exact ht.finish_other hw hr out

/-- **One step.** Whatever the process does, the run stands where its executions say, and what
the end of an execution leaves behind is right. -/
theorem Tells.step (hN : cfg.maxAttempts = (N : Int)) (ho : ∀ j, (o j).Listed) {h : List RunEvent}
    {a : SchedAction π} {es : List SchedEvent} (ht : Tells cfg r o N s (starts h) (ends h))
    (hg : Grounded cfg s) (hsound : (s.life r).Sound) (hd : scripted r o s h a)
    (hstep : Sched.step cfg s a = some (s', es)) :
    Advances cfg r o N h s' (endedBy cfg r s a ++ begunOf r s' a) := by
  have hrows := rows_step ht.rows hstep
  have hworker : ∀ {j : Nat} {w : Worker π}, s.workers[j]? = some w →
      s.up = true ∧ 0 < cfg.concurrency := by
    intro j w hw
    have hup := hg.up_of_worker (List.mem_of_getElem? hw)
    have hlength := (List.getElem?_eq_some_iff.mp hw).1
    rw [hg.slots hup] at hlength
    exact ⟨hup, by omega⟩
  cases step_cases hstep with
  | tick d =>
    exact Tells.quiet ⟨ht.stage, ⟨ht.copies.queued, ht.copies.watched, ht.copies.busy⟩, hrows, ht.live⟩
  | @enqueue r' d cause _ hfresh =>
    apply Tells.quiet
    by_cases hr : r = r'
    · subst hr
      exact ht.enqueue_self (hg.fresh r hfresh) d cause hrows
    · refine ht.enqueue_other hr ?_ hrows
      rintro rfl row hrow hid
      have hall := List.all_eq_true.mp (show (s.table.rows.all fun row =>
        row.runId != r || !names d row) = true from hd) row hrow
      simpa [hid] using hall
  | @watch i inp _ _ hw =>
    obtain ⟨w, hwi, hm⟩ := watchStep_move hw
    exact Tells.quiet (ht.watch hwi hm hsound hrows)
  | @wake i w hw hidle =>
    obtain ⟨hup, hcon⟩ := hworker hw
    refine Tells.work ho [] ?_ ?_ hw hidle hsound hup hcon
    · rwa [List.append_nil]
    · exact (Tells.quiet ht).2
  | timeout hw hidle => exact Tells.quiet (ht.timeout hw hidle)
  | advance hw => exact Tells.quiet (ht.advance hw)
  | finish hw =>
    obtain ⟨hup, hcon⟩ := hworker hw
    exact ht.finish hN ho hw hsound hd hup hcon
  | crash _ =>
    have hzero : starts h = 0 := by
      have hperm : permits r o s h .crash = true := hd
      simpa [permits] using hperm
    apply Tells.quiet
    rw [hzero] at ht ⊢
    exact ht.crash
  | boot hdown => exact Tells.quiet (ht.boot hdown hg.stamped hrows)

/-! ## Whole runs -/

/-- **Every state of a scripted run** stands where its executions say, and every end of an
execution left behind what it must. -/
theorem observed_tells (hN : cfg.maxAttempts = (N : Int)) (ho : ∀ j, (o j).Listed)
    {h : List RunEvent} (hr : (observed cfg r).Reaches (scripted r o) s h) :
    Tells cfg r o N s (starts h) (ends h) ∧ Each (EndsRight o N) h := by
  refine hr.invariant (I := fun s h => Tells cfg r o N s (starts h) (ends h) ∧
    Each (EndsRight o N) h) ?_ ?_
  · rintro s ⟨hcold, hrows⟩
    have hmem := hcold.memory
    refine ⟨⟨.fresh ?_, ?_, hrows, fun hpos => absurd hpos (Nat.lt_irrefl 0)⟩, each_nil⟩
    · rw [life_of_down hmem]
      rfl
    · rw [← hmem]
      exact ⟨fun _ hj => absurd hj List.not_mem_nil, fun _ hx => absurd hx List.not_mem_nil,
        fun _ _ hb => absurd hb List.not_mem_nil⟩
  · rintro s h a s' es hreach ⟨ht, heach⟩ hd hstep
    obtain ⟨es', hbase, rfl⟩ := observed_step hstep
    obtain ⟨h₀, hr₀⟩ := reachable_of_observed hreach
    obtain ⟨hnext, hright⟩ :=
      ht.step hN ho (reaches_grounded hr₀) (reaches_sound hr₀ r) hd hbase
    exact ⟨hnext, heach.append hright⟩

/-- A worker executes the run. -/
def Executes (s : Sched π) (r : RunId) : Prop :=
  ∃ job pc, Worker.busy job pc ∈ s.workers ∧ job.runId = r

/-- The entries of the run in the queue. -/
def entries (s : Sched π) (r : RunId) : Nat :=
  s.queue.countP fun job => job.runId == r

/-- A run is executed exactly when a worker holds it. -/
theorem executes_iff : s.Executes r ↔ 0 < (s.life r).held := by
  rw [show (s.life r).held = s.workers.countP (Worker.holds r) from rfl, List.countP_pos_iff]
  constructor
  · rintro ⟨job, pc, hmem, hid⟩
    exact ⟨_, hmem, by simp [Worker.holds, hid]⟩
  · rintro ⟨w, hmem, hholds⟩
    cases w with
    | busy job pc => exact ⟨job, pc, hmem, by simpa [Worker.holds] using hholds⟩
    | ready => cases hholds
    | waiting => cases hholds
    | woken => cases hholds
    | resting => cases hholds

/-! ## Completion -/

/-- A worker that looks for work while a queued run waits behind `before` takes the run, or a job
before it. -/
theorem dequeue_position (cfg : SchedConfig π) {before after : List ReviewJob}
    (hq : s.queue = before ++ job :: after) (hst : s.table.statusOf job.runId = some .queued)
    (hi : i < s.workers.length) :
    (∃ x, (s.dequeue cfg i).workers[i]? = some (.busy x cfg.start) ∧ x.runId = job.runId) ∨
      ∃ before', (s.dequeue cfg i).queue = before' ++ job :: after ∧
        before'.length < before.length := by
  obtain ⟨lost, hlost, ⟨x, rest, hqueue, hx, heq⟩ | ⟨hqueue, heq⟩⟩ :=
    claimNext_spec s.now s.table s.queue s.queued
  · have hdeq : (s.dequeue cfg i).queue = rest ∧
        (s.dequeue cfg i).workers[i]? = some (.busy x cfg.start) := by
      unfold Sched.dequeue
      rw [heq]
      exact ⟨rfl, List.getElem?_set_self hi⟩
    rw [hq] at hqueue
    -- the job is not among the lost ones, whose claims failed
    rcases List.append_eq_append_iff.mp hqueue with ⟨mid, hpre, hrest⟩ | ⟨mid, hpre, hrest⟩
    · cases mid with
      | nil =>
        obtain ⟨rfl, rfl⟩ := List.cons.inj hrest
        exact Or.inl ⟨_, hdeq.2, rfl⟩
      | cons y mid =>
        obtain ⟨rfl, -⟩ := List.cons.inj hrest
        exact absurd hst (hlost job (hpre ▸ List.mem_append_right _ List.mem_cons_self))
    · cases mid with
      | nil =>
        obtain ⟨rfl, rfl⟩ := List.cons.inj hrest
        exact Or.inl ⟨_, hdeq.2, rfl⟩
      | cons y mid =>
        obtain ⟨rfl, rfl⟩ := List.cons.inj hrest
        refine Or.inr ⟨mid, hdeq.1, ?_⟩
        rw [hpre, List.length_append, List.length_cons]
        omega
  · refine absurd hst (hlost job ?_)
    rw [← hqueue, hq]
    exact List.mem_append_right _ List.mem_cons_self

/-- Some continuation of the run ends as `Q` says. -/
def Leads (cfg : SchedConfig π) (r : RunId) (o : Nat → Outcome) (h : List RunEvent)
    (Q : Sched π → List RunEvent → Prop) : Prop :=
  ∃ s' es, (observed cfg r).Reaches (scripted r o) s' (h ++ es) ∧ Q s' (h ++ es)

/-- What continues a continuation continues the run. -/
theorem Leads.trans {h es : List RunEvent} {Q : Sched π → List RunEvent → Prop}
    (h' : Leads cfg r o (h ++ es) Q) : Leads cfg r o h Q := by
  obtain ⟨t, es', hr, hq⟩ := h'
  rw [List.append_assoc] at hr hq
  exact ⟨t, es ++ es', hr, hq⟩

/-- A scheduler's step that the script permits continues the observed run. -/
theorem observed_of_step {h : List RunEvent} {a : SchedAction π} {es : List SchedEvent}
    (hr : (observed cfg r).Reaches (scripted r o) s h) (hd : permits r o s h a = true)
    (hstep : Sched.step cfg s a = some (s', es)) :
    (observed cfg r).Reaches (scripted r o) s' (h ++ (endedBy cfg r s a ++ begunOf r s' a)) := by
  refine .step hr hd ?_
  simp only [observed, hstep, Option.map_some]

/-- A run that waits for an execution and has an entry is queued. -/
theorem Tells.queued (ht : Tells cfg r o N s b b) (hb : 0 < b) (hq : 0 < (s.life r).inQueue) :
    s.table.statusOf r = some .queued := by
  have hstage := ht.stage
  generalize hl : s.life r = l at hstage hq
  have hst : s.table.statusOf r = l.status := by rw [← hl]; rfl
  generalize hc : b = c at hstage
  rw [hst]
  cases hstage with
  | fresh _ => omega
  | waiting _ hst' _ _ _ _ => exact hst'
  | spent _ _ hzero _ _ _ _ => omega

/-- A worker that gets to look for work on the queue `before ++ job :: after` begins the next
execution of the run, or brings it forward. -/
theorem forward {h : List RunEvent}
    {before after : List ReviewJob} {a : SchedAction π} {t : Sched π}
    (hr : (observed cfg r).Reaches (scripted r o) s h) (hd : permits r o s h a = true)
    (hstep : Sched.step cfg s a = some (t.dequeue cfg i, [])) (hended : endedBy cfg r s a = [])
    (hbegun : begunOf r (t.dequeue cfg i) a = begunOf r (t.dequeue cfg i) (.wake i))
    (hq : t.queue = before ++ job :: after) (hid : job.runId = r)
    (hst : t.table.statusOf r = some .queued) (hi : i < t.workers.length) :
    ∃ s' es, (observed cfg r).Reaches (scripted r o) s' (h ++ es) ∧ ends (h ++ es) = ends h ∧
      (starts (h ++ es) = starts h + 1 ∨ starts (h ++ es) = starts h ∧
        ∃ before', s'.queue = before' ++ job :: after ∧ before'.length < before.length) := by
  have hnext := observed_of_step hr hd hstep
  rw [hended, List.nil_append, hbegun] at hnext
  refine ⟨_, _, hnext, by rw [ends_append, ends_begunOf, Nat.add_zero], ?_⟩
  rw [starts_append]
  rcases dequeue_position cfg hq (by rw [hid]; exact hst) hi with
    ⟨x, hslot, hx⟩ | hshort
  · left
    have hone : begunOf r (t.dequeue cfg i) (.wake i) = [.began x] := by
      simp [begunOf, begun, hslot, hx, hid]
    rw [hone]
    rfl
  · cases hstarts : starts (begunOf r (t.dequeue cfg i) (.wake i)) with
    | zero => exact Or.inr ⟨rfl, hshort⟩
    | succ n =>
      left
      have hle := starts_begunOf_le r (t.dequeue cfg i) (.wake i)
      omega

/-- A process that is up can bring the run forward. -/
theorem forward_any (hN : cfg.maxAttempts = (N : Int)) (ho : ∀ j, (o j).Listed) {h : List RunEvent}
    {before after : List ReviewJob} (hr : (observed cfg r).Reaches (scripted r o) s h)
    (hb : 0 < starts h) (heven : starts h = ends h) (hq : s.queue = before ++ job :: after)
    (hid : job.runId = r) :
    ∃ s' es, (observed cfg r).Reaches (scripted r o) s' (h ++ es) ∧ ends (h ++ es) = ends h ∧
      (starts (h ++ es) = starts h + 1 ∨ starts (h ++ es) = starts h ∧
        ∃ before', s'.queue = before' ++ job :: after ∧ before'.length < before.length) := by
  obtain ⟨ht, -⟩ := observed_tells hN ho hr
  obtain ⟨h₀, hr₀⟩ := reachable_of_observed hr
  have hg := reaches_grounded hr₀
  obtain ⟨hup, hcon⟩ := ht.live hb
  have hin : 0 < (s.life r).inQueue := by
    show 0 < s.queue.countP fun job => job.runId == r
    rw [hq]
    exact List.countP_pos_iff.mpr ⟨job, List.mem_append_right _ List.mem_cons_self, by simp [hid]⟩
  have heven' := ht
  rw [heven] at heven' hb
  have hst := heven'.queued hb hin
  rw [← heven] at hb
  have hlength : 0 < s.workers.length := by
    rw [hg.slots hup]
    exact hcon
  obtain ⟨w, hw⟩ : ∃ w, s.workers[0]? = some w := ⟨_, List.getElem?_eq_getElem hlength⟩
  cases w with
  | ready =>
    exact forward hr (a := .wake 0) rfl (by simp [Sched.step, hw]) rfl rfl hq hid hst hlength
  | woken =>
    exact forward hr (a := .wake 0) rfl (by simp [Sched.step, hw]) rfl rfl hq hid hst hlength
  | resting =>
    exact forward hr (a := .wake 0) rfl (by simp [Sched.step, hw]) rfl rfl hq hid hst hlength
  | waiting =>
    -- its wait times out first
    have hstep : Sched.step cfg s (.timeout 0) =
        some ({ s with workers := s.workers.set 0 .resting }, []) := by simp [Sched.step, hw]
    have htimeout : (observed cfg r).Reaches (scripted r o) _ (h ++ []) :=
      observed_of_step hr rfl hstep
    rw [List.append_nil] at htimeout
    exact forward htimeout (a := .wake 0) (t := { s with workers := s.workers.set 0 .resting }) rfl
      (by simp [Sched.step, List.getElem?_set_self hlength]) rfl rfl hq hid hst
      (by rw [List.length_set]; exact hlength)
  | busy other pc =>
    have hne : other.runId ≠ r := by
      intro hor
      have hheld : 0 < (s.life r).held := countP_pos_of_getElem? hw (by simp [Worker.holds, hor])
      have hsound := (reaches_sound hr₀ r).heldOrQueued
      omega
    have hqueue : ((s.settle cfg other .raised).release 0).queue = s.queue := rfl
    have hstatus : ((s.settle cfg other .raised).release 0).table.statusOf r = some .queued := by
      have hlife := congrArg Life.status (life_release_other cfg .raised hw hne)
      exact hlife.trans hst
    refine forward hr (a := .finish 0 .raised) ?_ ?_ ?_ rfl (hqueue.trans hq) hid hstatus ?_
    · simp [permits, hw, hne]
    · simp [Sched.step, hw, finish]
    · simp [endedBy, hw, hne]
    · show 0 < ((s.settle cfg other .raised).workers.set 0 .ready).length
      rw [settle_workers, List.length_set]
      exact hlength

/-- **The next execution comes.** A run that waits between two executions is begun again, however
many jobs stand before it. -/
theorem leads_to_start (hN : cfg.maxAttempts = (N : Int)) (ho : ∀ j, (o j).Listed) (n : Nat)
    {s : Sched π} {h : List RunEvent} {before after : List ReviewJob} {job : ReviewJob}
    (hr : (observed cfg r).Reaches (scripted r o) s h) (hb : 0 < starts h)
    (heven : starts h = ends h) (hq : s.queue = before ++ job :: after) (hid : job.runId = r)
    (hn : before.length < n) :
    Leads cfg r o h fun _ h' => starts h' = starts h + 1 ∧ ends h' = ends h := by
  induction n generalizing s h before with
  | zero => omega
  | succ n ih =>
    obtain ⟨s', es, hr', hends, hstart | ⟨hsame, before', hq', hshort⟩⟩ :=
      forward_any hN ho hr hb heven hq hid
    · exact ⟨s', es, hr', hstart, hends⟩
    · have hnext := ih hr' (by omega) (by omega) hq' (by omega)
      rw [hsame, hends] at hnext
      exact hnext.trans

/-- An execution that ends. -/
theorem leads_to_end {h : List RunEvent} (hr : (observed cfg r).Reaches (scripted r o) s h)
    (hexec : s.Executes r) : Leads cfg r o h fun _ h' => ends h' = ends h + 1 := by
  obtain ⟨job, pc, hmem, hid⟩ := hexec
  obtain ⟨i, hw⟩ := List.mem_iff_getElem?.mp hmem
  have hstep : Sched.step cfg s (.finish i (o (ends h))) =
      some (s.finish cfg i job (o (ends h)), []) := by simp [Sched.step, hw]
  refine ⟨_, _, observed_of_step hr (by simp [permits, hw, hid]) hstep, ?_⟩
  show ends (h ++ (_ ++ _)) = ends h + 1
  rw [ends_append, ends_append, ends_begunOf, Nat.add_zero]
  simp [endedBy, hw, hid, ends, RunEvent.begins]

/-- What the stage of a run that has been executed says of the state. -/
theorem Tells.cases (ht : Tells cfg r o N s b e) (hb : 0 < b) :
    (s.Executes r ∧ s.table.statusOf r = some .running ∧ b = e + 1 ∧ e ≤ N ∧
        (b : ℕ∞) ≤ min (firstFinal o) ((N + 1 : Nat) : ℕ∞)) ∨
      (¬ s.Executes r ∧ s.table.statusOf r = some .queued ∧ s.entries r = 1 ∧ b = e ∧ e ≤ N ∧
        ((b + 1 : Nat) : ℕ∞) ≤ min (firstFinal o) ((N + 1 : Nat) : ℕ∞)) ∨
      (¬ s.Executes r ∧ s.table.statusOf r = some (o (b - 1)).endStatus ∧ s.entries r = 0 ∧ b = e ∧
        (b : ℕ∞) = min (firstFinal o) ((N + 1 : Nat) : ℕ∞)) := by
  have hstage := ht.stage
  rw [executes_iff, show s.table.statusOf r = (s.life r).status from rfl,
    show s.entries r = (s.life r).inQueue from rfl]
  generalize s.life r = l at hstage ⊢
  cases hstage with
  | fresh _ => omega
  | executing hheld hst hretries hk =>
    exact Or.inl ⟨by omega, hst, rfl, hk, le_limit hretries hk⟩
  | waiting hheld hst hq _ hretries hk =>
    exact Or.inr (Or.inl ⟨by omega, hst, hq, rfl, hk, le_limit hretries hk⟩)
  | spent hheld hst hq _ hretries hk hlast =>
    exact Or.inr (Or.inr ⟨by omega, hst, hq, rfl, (limit_eq hretries hk hlast).symm⟩)

/-- **Every run can be completed**: from every state in which it has been executed, the process can
go on until nobody executes it and nothing queues it. -/
theorem leads_to_completion (hN : cfg.maxAttempts = (N : Int)) (ho : ∀ j, (o j).Listed) (m : Nat)
    {s : Sched π} {h : List RunEvent} (hr : (observed cfg r).Reaches (scripted r o) s h)
    (hb : 0 < starts h) (hm : N + 1 ≤ ends h + m) :
    Leads cfg r o h fun s' h' => 0 < starts h' ∧ ¬ s'.Executes r ∧ s'.entries r = 0 := by
  -- the induction is on the executions that may still end
  induction m generalizing s h with
  | zero =>
    obtain ⟨ht, -⟩ := observed_tells hN ho hr
    rcases ht.cases hb with ⟨-, -, -, hle, -⟩ | ⟨-, -, -, -, hle, -⟩ | ⟨hidle, -, hnone, -⟩
    · omega
    · omega
    · exact ⟨s, [], by rwa [List.append_nil], by rwa [List.append_nil], hidle, hnone⟩
  | succ m ih =>
    have hfinish : ∀ {t : Sched π} {h₁ : List RunEvent},
        (observed cfg r).Reaches (scripted r o) t h₁ → 0 < starts h₁ → t.Executes r →
        N + 1 ≤ ends h₁ + (m + 1) →
        Leads cfg r o h₁ fun s' h' => 0 < starts h' ∧ ¬ s'.Executes r ∧ s'.entries r = 0 := by
      intro t h₁ hr₁ hb₁ hexec hm₁
      obtain ⟨u, es, hu, hends⟩ := leads_to_end hr₁ hexec
      refine (ih hu ?_ ?_).trans
      · rw [starts_append]
        omega
      · rw [hends]
        omega
    obtain ⟨ht, -⟩ := observed_tells hN ho hr
    rcases ht.cases hb with ⟨hexec, -⟩ | ⟨-, -, hentry, heven, -, -⟩ | ⟨hidle, -, hnone, -⟩
    · exact hfinish hr hb hexec hm
    · have hpos : 0 < s.queue.countP fun job => job.runId == r := by
        rw [show s.queue.countP (fun job => job.runId == r) = 1 from hentry]
        exact Nat.one_pos
      obtain ⟨job, hjob, hid⟩ := List.countP_pos_iff.mp hpos
      obtain ⟨before, after, hq⟩ := List.append_of_mem hjob
      obtain ⟨u, es, hu, hstarts, hends⟩ := leads_to_start hN ho (before.length + 1) hr hb heven hq
        (by simpa using hid) (Nat.lt_succ_self _)
      obtain ⟨ht', -⟩ := observed_tells hN ho hu
      have hb' : 0 < starts (h ++ es) := by omega
      refine (hfinish hu hb' ?_ (by omega)).trans
      rcases ht'.cases hb' with ⟨hexec, -⟩ | ⟨-, -, -, heven', -⟩ | ⟨-, -, -, heven', -⟩
      · exact hexec
      · omega
      · omega
    · exact ⟨s, [], by rwa [List.append_nil], by rwa [List.append_nil], hidle, hnone⟩

end Run

/-- **Exact retry semantics.** Along every run of a process in which the executions of a run end
as a script of listed outcomes says, the run is not superseded and the process does not die of
it:

* the run is executed `min k (N + 1)` times at most, with `k` the position of the first outcome
  that does not ask for a retry;
* every end of an execution leaves the row queued with one queue entry, or with the status of its
  outcome and none;
* whenever nobody executes the run, it has been executed that many times and has the status of
  its last outcome, or it is queued once and is executed again;
* a running row is executed;
* and the process can go on until the run has been executed that many times. -/
theorem retries_exact (cfg : SchedConfig π) (r : RunId) (o : Nat → Outcome) (N : Nat)
    (hN : cfg.maxAttempts = (N : Int)) (ho : ∀ j, (o j).Listed) {s : Sched π} {h : List RunEvent}
    (hr : (observed cfg r).Reaches (scripted r o) s h) :
    (starts h : ℕ∞) ≤ min (firstFinal o) ((N + 1 : Nat) : ℕ∞) ∧
      Each (EndsRight o N) h ∧
      (0 < starts h → ¬ s.Executes r →
        (starts h : ℕ∞) = min (firstFinal o) ((N + 1 : Nat) : ℕ∞) ∧
            s.table.statusOf r = some (o (starts h - 1)).endStatus ∧ s.entries r = 0 ∨
          (starts h : ℕ∞) < min (firstFinal o) ((N + 1 : Nat) : ℕ∞) ∧
            s.table.statusOf r = some .queued ∧ s.entries r = 1) ∧
      (0 < starts h → s.table.statusOf r = some .running → s.Executes r) ∧
      (0 < starts h → ∃ s' es, (observed cfg r).Reaches (scripted r o) s' (h ++ es) ∧
        ¬ s'.Executes r ∧
        (starts (h ++ es) : ℕ∞) = min (firstFinal o) ((N + 1 : Nat) : ℕ∞) ∧
        s'.table.statusOf r = some (o (starts (h ++ es) - 1)).endStatus) := by
  obtain ⟨ht, heach⟩ := observed_tells hN ho hr
  refine ⟨?_, heach, ?_, ?_, ?_⟩
  · rcases Nat.eq_zero_or_pos (starts h) with hzero | hb
    · rw [hzero, Nat.cast_zero]
      exact zero_le
    · rcases ht.cases hb with ⟨-, -, -, -, hle⟩ | ⟨-, -, -, -, -, hle⟩ | ⟨-, -, -, -, heq⟩
      · exact hle
      · refine le_trans ?_ hle
        rw [Nat.cast_le]
        omega
      · exact heq.le
  · intro hb hidle
    rcases ht.cases hb with ⟨hexec, -⟩ | ⟨-, hst, hentry, -, -, hle⟩ | ⟨-, hst, hnone, -, heq⟩
    · exact absurd hexec hidle
    · refine Or.inr ⟨lt_of_lt_of_le ?_ hle, hst, hentry⟩
      rw [Nat.cast_lt]
      omega
    · exact Or.inl ⟨heq, hst, hnone⟩
  · intro hb hrunning
    rcases ht.cases hb with ⟨hexec, -⟩ | ⟨-, hst, -⟩ | ⟨-, hst, -⟩
    · exact hexec
    · rw [hst] at hrunning
      cases hrunning
    · have hfinal := endStatus_final (ho (starts h - 1))
      rw [hst] at hrunning
      rw [Option.some.inj hrunning] at hfinal
      cases hfinal
  · intro hb
    obtain ⟨s', es, hr', hb', hidle, hnone⟩ := leads_to_completion hN ho (N + 1) hr hb (by omega)
    obtain ⟨ht', -⟩ := observed_tells hN ho hr'
    refine ⟨s', es, hr', hidle, ?_⟩
    rcases ht'.cases hb' with ⟨hexec, -⟩ | ⟨-, -, hentry, -⟩ | ⟨-, hst, -, -, heq⟩
    · exact absurd hexec hidle
    · omega
    · exact ⟨heq, hst⟩

/-- One retry, then a published review. -/
def retriedOnce (j : Nat) : Outcome :=
  if j = 0 then .result "" true else .result "posted" false

/-- A run that is retried once is executed twice. -/
theorem retries_exact_once :
    ∃ (s : Sched Unit) (h : List RunEvent), starts h = 2 ∧
      ((0 < starts h → s.table.statusOf "r1" = some .running → s.Executes "r1") ∧
        (starts h : ℕ∞) ≤ min (firstFinal retriedOnce) ((3 + 1 : Nat) : ℕ∞)) ∧
      (observed twoWorkers "r1").Reaches (scripted "r1" retriedOnce) s h := by
  have hlisted : ∀ j, (retriedOnce j).Listed := by
    intro j
    unfold retriedOnce
    split
    · exact Or.inl rfl
    · exact Or.inr (by decide)
  obtain ⟨s, h, hr, hstarts⟩ := Machine.exists_reaches_decide (M := observed twoWorkers "r1")
    (D := scripted "r1" retriedOnce)
    (firstExecution ++ [.finish 0 (.result "" true), .finish 0 (.result "posted" false)])
    (fun _ h => decide (starts h = 2)) ⟨new_cold, fun _ hrow => absurd hrow List.not_mem_nil⟩
    (by decide)
  have hexact := retries_exact twoWorkers "r1" retriedOnce 3 rfl hlisted hr
  exact ⟨s, h, of_decide_eq_true hstarts, ⟨hexact.2.2.2.1, hexact.1⟩, hr⟩

end Sched

end PrReviewer.Model
