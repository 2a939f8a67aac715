import PrReviewer.Analysis.SchedulerSteps

/-!
# The boot sweep

`QueueManager.reconcile` with lease TTL 0 on a database of any content, in a process that has
just started: the running rows are queued, the open rows are in the queue and the pending ones
are watched, each once. A process that dies right after it leaves a database on which the sweep
does the same again.
-/

set_option autoImplicit false

namespace PrReviewer.Model

namespace Sched

variable {π : Type}

/-- A row after the sweep at this time. -/
def swept (now : Nat) (row : Row) : Row :=
  if row.status = .running then row.stamp .queued now else row

/-- A row that waits for CI or for a worker. -/
def opened (row : Row) : Bool :=
  row.status == .pendingCi || row.status == .queued

/-- What the sweep makes of a process that has just started on this database. -/
structure Recovered (s s' : Sched π) (count : Nat) : Prop where
  /-- every running row is queued, and no other row has changed -/
  rows : s'.table.rows = s.table.rows.map (swept s.now)
  count : count = s.table.rows.countP fun row => row.status == .running
  /-- the queue holds the open runs, each once -/
  queue : s'.queue.map ReviewJob.runId = (s'.table.rows.filter opened).map Row.runId
  queueOnce : (s'.queue.map ReviewJob.runId).Nodup
  /-- the pending runs have a new watcher each, and no other run has one -/
  watchers : s'.watchers.map (fun w => w.job.runId) =
    (s'.table.rows.filter fun row => row.status == .pendingCi).map Row.runId
  watchersNew : ∀ w ∈ s'.watchers, w.pc = .created

/-! ## One sweep -/

/-- With lease TTL 0 and no row stamped in the future, exactly the running rows are taken up. -/
theorem recoverOrphans_rows {t : RunTable} {now : Nat}
    (hstamp : ∀ row ∈ t.rows, row.updatedAt ≤ now) :
    (t.recoverOrphans 0 now).1.rows = t.rows.map (swept now) := by
  simp only [RunTable.recoverOrphans, RunTable.stampWhere, RunTable.update]
  apply List.map_congr_left
  intro row hrow
  have hle := hstamp row hrow
  by_cases hrun : row.status = .running <;> simp [swept, hrun, hle]

/-- With a lease of nothing every running row is recovered. -/
theorem recoverOrphans_count {t : RunTable} {now : Nat}
    (hstamp : ∀ row ∈ t.rows, row.updatedAt ≤ now) :
    (t.recoverOrphans 0 now).2 = t.rows.countP fun row => row.status == .running := by
  simp only [RunTable.recoverOrphans]
  apply List.countP_congr
  intro row hrow
  have hle := hstamp row hrow
  simp [hle]

/-- The memory after the sweep of a process that has just started. -/
theorem reconcile_memory (s : Sched π) (leaseTtl : Int) (hqueue : s.queue = [])
    (hwatchers : s.watchers = []) :
    (s.reconcile leaseTtl).1.table = (s.table.recoverOrphans leaseTtl s.now).1 ∧
      (s.reconcile leaseTtl).1.queue = (s.reconcile leaseTtl).1.table.reconcileOpenJobs ∧
      (s.reconcile leaseTtl).1.watchers = ((s.reconcile leaseTtl).1.table.reconcileOpenJobs.filter
        (·.status = .pendingCi)).map fun job => { job := job } := by
  obtain ⟨heq, -⟩ := foldl_resume
    ({ s with table := (s.table.recoverOrphans leaseTtl s.now).1 } : Sched π)
    (s.table.recoverOrphans leaseTtl s.now).1.reconcileOpenJobs
  unfold reconcile
  simp only at heq ⊢
  rw [heq]
  simp [hqueue, hwatchers]

/-- The watched runs are the pending ones. -/
theorem watched_reconcileOpenJobs (t : RunTable) :
    ((t.reconcileOpenJobs.filter (·.status = .pendingCi)).map
      fun job => ({ job := job } : Watcher)).map (fun w => w.job.runId) =
        (t.rows.filter fun row => row.status == .pendingCi).map Row.runId := by
  rw [RunTable.reconcileOpenJobs, List.filter_map, List.filter_filter, List.map_map, List.map_map]
  have hcongr : t.rows.filter (fun row => ((fun job : ReviewJob => decide (job.status = .pendingCi)) ∘
        Row.job) row && (row.status == .pendingCi || row.status == .queued)) =
      t.rows.filter fun row => row.status == .pendingCi := by
    apply List.filter_congr
    intro row _
    by_cases hp : row.status = .pendingCi <;> simp [Row.job, hp]
  rw [hcongr]
  rfl

/-- A boot with empty queue and no watchers recovers the table. -/
theorem recovered_reconcile {s : Sched π} (hqueue : s.queue = []) (hwatchers : s.watchers = [])
    (hstamp : ∀ row ∈ s.table.rows, row.updatedAt ≤ s.now) :
    Recovered s (s.reconcile 0).1 (s.reconcile 0).2 := by
  obtain ⟨htable, hq, hw⟩ := reconcile_memory s 0 hqueue hwatchers
  refine ⟨?_, ?_, ?_, ?_, ?_, ?_⟩
  · rw [htable]
    exact recoverOrphans_rows hstamp
  · exact recoverOrphans_count hstamp
  · rw [hq, RunTable.reconcileOpenJobs, List.map_map]
    rfl
  · rw [hq]
    exact RunTable.reconcileOpenJobs_nodup _
  · rw [hw]
    exact watched_reconcileOpenJobs _
  · intro w hmem
    rw [hw] at hmem
    obtain ⟨job, -, rfl⟩ := List.mem_map.mp hmem
    rfl

/-! ## Two sweeps -/

/-- Where nothing is running there is nothing to recover. -/
theorem recoverOrphans_of_no_running {t : RunTable} (leaseTtl : Int) (now : Nat)
    (h : ∀ row ∈ t.rows, row.status ≠ .running) : (t.recoverOrphans leaseTtl now).1 = t := by
  apply RunTable.ext
  simp only [RunTable.recoverOrphans, RunTable.stampWhere, RunTable.update]
  conv_rhs => rw [← List.map_id t.rows]
  apply List.map_congr_left
  intro row hrow
  simp [h row hrow]

/-- No row runs after the sweep. -/
theorem Recovered.no_running {s s' : Sched π} {count : Nat} (h : Recovered s s' count) :
    ∀ row ∈ s'.table.rows, row.status ≠ .running := by
  intro row hrow
  rw [h.rows] at hrow
  obtain ⟨old, -, rfl⟩ := List.mem_map.mp hrow
  unfold swept
  split
  · simp
  · assumption

/-- **Boot recovery is complete, and idempotent across a crash.** The second sweep comes any time
`d` after the crash. -/
theorem boot_recovery (s : Sched π) (hqueue : s.queue = []) (hwatchers : s.watchers = [])
    (hstamp : ∀ row ∈ s.table.rows, row.updatedAt ≤ s.now) :
    Recovered s (s.reconcile 0).1 (s.reconcile 0).2 ∧
      ∀ d, let first := (s.reconcile 0).1
        let second := ({ first.crash with now := first.now + d }.reconcile 0).1
        second.table = first.table ∧ second.queue = first.queue ∧
          second.watchers = first.watchers := by
  have hfirst := recovered_reconcile hqueue hwatchers hstamp
  refine ⟨hfirst, ?_⟩
  intro d first second
  obtain ⟨-, hq₁, hw₁⟩ := reconcile_memory s 0 hqueue hwatchers
  obtain ⟨ht₂, hq₂, hw₂⟩ := reconcile_memory { first.crash with now := first.now + d } 0 rfl rfl
  have htable : second.table = first.table :=
    ht₂.trans (recoverOrphans_of_no_running 0 _ hfirst.no_running)
  refine ⟨htable, ?_, ?_⟩
  · rw [show second.queue = _ from hq₂, show first.queue = _ from hq₁]
    exact congrArg RunTable.reconcileOpenJobs htable
  · have hsecond : second.watchers = (second.table.reconcileOpenJobs.filter
        (·.status = .pendingCi)).map fun job => { job := job } := hw₂
    rw [hsecond, htable]
    exact hw₁.symm

/-- A row of the example below. -/
def crashedRow (r : RunId) (status : RunStatus) : Row where
  runId := r
  owner := "me"
  repo := "app"
  pr := 7
  head := r
  model := none
  status := status
  attempts := 0
  cause := .webhook
  createdAt := 0
  updatedAt := 5

/-- A database that a process left with a running run, a pending one and a posted one. -/
def crashedTable : RunTable where
  rows := [crashedRow "r1" .running, crashedRow "r2" .pendingCi, crashedRow "r3" .posted]
  primaryKey := by decide
  dedupKey := by decide

/-- Two runs cut off by a crash are recovered and queued in order. -/
theorem boot_recovery_crashed :
    ∃ s : Sched Unit, s.table = crashedTable ∧ (s.reconcile 0).2 = 1 ∧
      Recovered s (s.reconcile 0).1 1 ∧ (s.reconcile 0).1.queue.map ReviewJob.runId = ["r1", "r2"] := by
  have hrec := boot_recovery ({ Sched.new with table := crashedTable, now := 5 } : Sched Unit)
    rfl rfl (by decide)
  exact ⟨_, rfl, rfl, hrec.1, by decide⟩

end Sched

end PrReviewer.Model
