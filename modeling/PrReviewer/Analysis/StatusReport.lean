import PrReviewer.Analysis.DirectPublish
import PrReviewer.Analysis.RetryRuns
import Mathlib.Data.List.Perm.Basic

/-!
# What `/status` reports

The answer of `/status` is put together from a counter of the process and from the table. The two
agree: a worker is counted for each running row, and for each run that is still executed although a
command has deleted its row. The open jobs are those that wait, each in the hands of its watcher or
of the queue. Their attempts are always reported as 0: a retry counts in the job, not in the row.
-/

set_option autoImplicit false

namespace PrReviewer.Model

open PrReviewer.Library

variable {π : Type}

/-! ## The workers and the running rows -/

/-- The run the worker executes. -/
def Worker.run? : Worker π → Option RunId
  | .busy job _ => some job.runId
  | _ => none

/-- A worker's run is the one it holds. -/
theorem Worker.run?_eq_some {w : Worker π} {r : RunId} : w.run? = some r ↔ w.holds r = true := by
  cases w <;> simp [Worker.run?, Worker.holds]

namespace Sched

variable {cfg : SchedConfig π} {s : Sched π} {h : List SchedEvent}
  {D : Machine.Discipline (Sched π) (SchedAction π) SchedEvent}

/-- The worker executes a run whose row has been deleted. -/
def lacksRow (s : Sched π) (w : Worker π) : Bool :=
  w.run?.any fun r => (s.table.statusOf r).isNone

/-- The runs that are executed and have a row. -/
def executed (s : Sched π) : List RunId :=
  (s.workers.filterMap Worker.run?).filter fun r => (s.table.statusOf r).isSome

/-- The runs whose rows are running. -/
def runningRuns (s : Sched π) : List RunId :=
  (s.table.rows.filter fun row => row.status = .running).map Row.runId

/-- The workers with a run are counted in its life. -/
theorem count_run? (s : Sched π) (r : RunId) :
    (s.workers.filterMap Worker.run?).count r = (s.life r).held := by
  rw [List.count_filterMap]
  apply List.countP_congr
  intro w _
  rw [beq_iff_eq, Worker.run?_eq_some]

/-- A run is reported as executed when a worker holds it and it has a row. -/
theorem mem_executed {r : RunId} :
    r ∈ s.executed ↔ 0 < (s.life r).held ∧ s.table.statusOf r ≠ none := by
  rw [executed, List.mem_filter, ← List.count_pos_iff, count_run?, Option.isSome_iff_ne_none]

/-- The running runs are those whose row says so. -/
theorem mem_runningRuns {r : RunId} : r ∈ s.runningRuns ↔ s.table.statusOf r = some .running := by
  rw [RunTable.statusOf_eq_some, runningRuns, List.mem_map]
  constructor
  · rintro ⟨row, hrow, hid⟩
    obtain ⟨hmem, hst⟩ := List.mem_filter.mp hrow
    exact ⟨row, hmem, hid, of_decide_eq_true hst⟩
  · rintro ⟨row, hmem, hid, hst⟩
    exact ⟨row, List.mem_filter.mpr ⟨hmem, decide_eq_true hst⟩, hid⟩

/-- **The runs that are executed and have a row are the running ones.** -/
theorem executed_perm (hr : (machine cfg).Reaches (endsIn Completes) s h) (hup : s.up = true) :
    s.executed.Perm s.runningRuns := by
  rw [List.perm_ext_iff_of_nodup]
  · intro r
    rw [mem_executed, mem_runningRuns]
    have hsound := reaches_sound hr r
    have htracked := reaches_tracked hr hup r
    constructor
    · rintro ⟨hheld, hrow⟩
      exact (hsound.heldRunning hheld).resolve_left hrow
    · intro hst
      refine ⟨htracked.running hst, ?_⟩
      rw [hst]
      exact Option.some_ne_none _
  · apply List.Nodup.filter
    rw [List.nodup_iff_count_le_one]
    intro r
    have hone := (reaches_sound hr r).heldOrQueued
    rw [count_run?]
    omega
  · exact s.table.primaryKey.sublist (List.filter_sublist.map _)

/-- A busy worker executes a run with a row or one without. -/
theorem busyCount_eq (s : Sched π) :
    busyCount s.workers = s.executed.length + s.workers.countP s.lacksRow := by
  have hsplit : ∀ l : List (Worker π), busyCount l =
      ((l.filterMap Worker.run?).filter fun r => (s.table.statusOf r).isSome).length +
        l.countP s.lacksRow := by
    intro l
    induction l with
    | nil => rfl
    | cons w l ih =>
      unfold busyCount at ih ⊢
      rw [List.countP_cons, List.countP_cons, ih]
      cases w with
      | busy job pc =>
        cases hst : s.table.statusOf job.runId with
        | none =>
          simp [Worker.idle, Worker.run?, lacksRow, hst]
          omega
        | some st =>
          simp [Worker.idle, Worker.run?, lacksRow, hst]
          omega
      | _ => simp [List.filterMap_cons, Worker.idle, Worker.run?, lacksRow]
  exact hsplit s.workers

/-- **The counter agrees with the table.** -/
theorem active_eq (hr : (machine cfg).Reaches (endsIn Completes) s h) (hup : s.up = true) :
    s.active = (s.runningRuns.length + s.workers.countP s.lacksRow : Nat) := by
  rw [(reaches_grounded hr).counted, busyCount_eq, (executed_perm hr hup).length_eq]

/-- No row of a new installation has been attempted, as far as it says. -/
theorem reaches_unattempted (hr : (newMachine cfg).Reaches D s h) :
    ∀ row ∈ s.table.rows, row.attempts = 0 := by
  refine hr.invariant (I := fun s _ => ∀ row ∈ s.table.rows, row.attempts = 0) ?_ ?_
  · rintro s (rfl : s = Sched.new) row hrow
    exact absurd hrow List.not_mem_nil
  · intro s h a s' es _ hrows _ hstep row hrow
    exact rows_step (fun row hrow _ => hrows row hrow) hstep row hrow rfl

end Sched

/-! ## The report -/

/-- The report tells the truth about the process and its table. -/
structure StatusReport.Accounts (report : StatusReport) (s : Sched ExecPc) : Prop where
  /-- a worker for each running row, and for each run that is executed without one -/
  active : report.activeWorkers = (s.runningRuns.length + s.workers.countP s.lacksRow : Nat)
  /-- the open jobs are the rows that wait, with no attempts -/
  entries : ∀ e, e ∈ report.openJobs ↔
    ∃ row ∈ s.table.rows, (row.status = .pendingCi ∨ row.status = .queued) ∧
      e = ⟨row.runId, row.owner ++ "/" ++ row.repo, some row.pr, row.status.text, 0⟩
  distinct : (report.openJobs.map OpenJob.runId).Nodup
  /-- every row is open, running or over -/
  count : report.openJobsCount + s.runningRuns.length +
    s.table.rows.countP (fun row => row.status.final) = s.table.rows.length
  /-- no open job is executed -/
  idle : ∀ e ∈ report.openJobs, ∀ w ∈ s.workers, w.run? ≠ some e.runId
  /-- an open job has one watcher, or one entry of the queue -/
  awaited : ∀ e ∈ report.openJobs,
    (e.status = "pending_ci" ∧ s.watchers.countP (Watcher.watches e.runId) = 1) ∨
      (e.status = "queued" ∧ s.queue.countP (fun job => job.runId == e.runId) = 1)

/-- Every row is open, running or over. -/
theorem countP_open_add (rows : List Row) :
    (rows.filter fun row => row.status == .pendingCi || row.status == .queued).length +
        (rows.filter fun row => row.status = .running).length +
        rows.countP (fun row => row.status.final) = rows.length := by
  have hfinal : ∀ st : RunStatus,
      st.final = !(st == .pendingCi || st == .queued || st == .running) := by
    intro st
    cases st <;> rfl
  simp only [hfinal]
  induction rows with
  | nil => rfl
  | cons row rows ih =>
    rw [List.countP_cons, List.length_cons]
    cases hst : row.status <;> simp [hst] at ih ⊢ <;> omega

namespace App

variable {cfg : AppConfig} {s : App} {h : List AppEvent}
  {D : Machine.Discipline App AppAction AppEvent}

/-- The open jobs are those of the open rows. -/
theorem mem_openJobs {e : OpenJob} : e ∈ (s.getStatus cfg).openJobs ↔
    ∃ row ∈ s.core.table.rows, (row.status = .pendingCi ∨ row.status = .queued) ∧
      row.job.openJob = e := by
  show e ∈ s.core.table.reconcileOpenJobs.map ReviewJob.openJob ↔ _
  rw [List.mem_map]
  constructor
  · rintro ⟨job, hjob, rfl⟩
    obtain ⟨row, hrow, hst, rfl⟩ := RunTable.mem_reconcileOpenJobs.mp hjob
    exact ⟨row, hrow, hst, rfl⟩
  · rintro ⟨row, hrow, hst, rfl⟩
    exact ⟨_, RunTable.mem_reconcileOpenJobs.mpr ⟨row, hrow, hst, rfl⟩, rfl⟩

/-- **What `/status` reports is true** in every state a service reaches. -/
theorem status_accounts (cfg : AppConfig) (hr : (machine cfg).Reaches D s h)
    (hup : s.core.up = true) : (s.getStatus cfg).Accounts s.core := by
  have hcore := completes_core hr
  have hzero := Sched.reaches_unattempted (reaches_core hr)
  have hstatus : ∀ row ∈ s.core.table.rows, (s.core.life row.runId).status = some row.status :=
    fun row hrow => RunTable.statusOf_eq_some.mpr ⟨row, hrow, rfl, rfl⟩
  constructor
  · exact Sched.active_eq hcore hup
  · intro e
    rw [mem_openJobs]
    constructor
    · rintro ⟨row, hrow, hst, rfl⟩
      refine ⟨row, hrow, hst, ?_⟩
      rw [← hzero row hrow]
      rfl
    · rintro ⟨row, hrow, hst, rfl⟩
      refine ⟨row, hrow, hst, ?_⟩
      rw [← hzero row hrow]
      rfl
  · show ((s.core.table.reconcileOpenJobs.map ReviewJob.openJob).map OpenJob.runId).Nodup
    rw [List.map_map]
    exact s.core.table.reconcileOpenJobs_nodup
  · have hcount := countP_open_add s.core.table.rows
    show s.core.table.reconcileOpenJobs.length + _ + _ = _
    rw [RunTable.reconcileOpenJobs, Sched.runningRuns, List.length_map, List.length_map]
    exact hcount
  · intro e he w hw hrun
    obtain ⟨row, hrow, hst, rfl⟩ := mem_openJobs.mp he
    have hheld : 0 < (s.core.life row.runId).held :=
      List.countP_pos_iff.mpr ⟨w, hw, Worker.run?_eq_some.mp hrun⟩
    have hrunning := (Sched.reaches_sound hcore row.runId).heldRunning hheld
    rw [hstatus row hrow] at hrunning
    rcases hst with hst | hst <;> rw [hst] at hrunning <;> simp at hrunning
  · intro e he
    obtain ⟨row, hrow, hst, rfl⟩ := mem_openJobs.mp he
    have hsound := Sched.reaches_sound hcore row.runId
    have htracked := Sched.reaches_tracked hcore hup row.runId
    rcases hst with hst | hst
    · left
      have hpos := htracked.pending ((hstatus row hrow).trans (congrArg some hst))
      have hone := hsound.heldOrWatched
      refine ⟨congrArg RunStatus.text hst, ?_⟩
      show (s.core.life row.runId).watched = 1
      omega
    · right
      have hpos := htracked.queued ((hstatus row hrow).trans (congrArg some hst))
      have hone := hsound.heldOrQueued
      refine ⟨congrArg RunStatus.text hst, ?_⟩
      show (s.core.life row.runId).inQueue = 1
      omega

/-- A command has replaced the run that is executed: one worker, one job that waits. -/
theorem status_accounts_superseded : ∃ (s : App) (h : List AppEvent),
    (machine (smallConfig true 1)).Reachable s h ∧
      s.getStatus (smallConfig true 1) = ⟨"healthy", 1, ["me/app"], 1,
        [⟨"r2", "me/app", some 7, "pending_ci", 0⟩]⟩ ∧
      (s.getStatus (smallConfig true 1)).Accounts s.core := by
  obtain ⟨s, h, hr, hcheck⟩ := Machine.exists_reachable_run (M := machine (smallConfig true 1))
    (openedRun ++ [.webhook (reviewComment 7), .dispatch 0 "r2"])
    (fun s _ => s.core.up && decide (s.getStatus (smallConfig true 1) =
      ⟨"healthy", 1, ["me/app"], 1, [⟨"r2", "me/app", some 7, "pending_ci", 0⟩]⟩))
    small_new (by decide +kernel)
  rw [Bool.and_eq_true, decide_eq_true_eq] at hcheck
  exact ⟨s, h, hr, hcheck.2, status_accounts _ hr hcheck.1⟩

end App

end PrReviewer.Model
