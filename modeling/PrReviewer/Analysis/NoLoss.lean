import PrReviewer.Analysis.Ownership

/-!
# No run is lost

While a process is up, every open run is in somebody's hands: a queued one in the queue, one
that waits for CI with a watcher, a running one with a worker. The only assumption is that
every pipeline call ends: with a retry, with a final status, or with an exception.
-/

set_option autoImplicit false

namespace PrReviewer.Model

open PrReviewer.Library
open PrReviewer.Interface (Life)
open PrReviewer.Interface.Life

variable {π : Type}

namespace Sched

/-- A status after which the run is over. -/
def Completes (st : Option RunStatus) : Prop :=
  ∃ f, st = some f ∧ f.final = true

/-- In a process that is up every run is tracked. -/
theorem reaches_tracked {cfg : SchedConfig π} {s : Sched π} {h : List SchedEvent}
    (hr : (machine cfg).Reaches (endsIn Completes) s h) (hup : s.up = true) (r : RunId) :
    (s.life r).Tracked := by
  refine hr.invariant (I := fun s _ => s.up = true → (s.life r).Tracked) ?_ ?_ hup
  · intro s hs hup
    rw [Cold.down hs] at hup
    exact absurd hup Bool.false_ne_true
  · intro s h a s' es hr htracked hd hstep hup'
    have hg := reaches_grounded hr
    by_cases hup : s'.up = s.up
    · have hlife := (step_life ⟨.failed, rfl, rfl⟩ hg hd hstep hup r).1
      exact (htracked (hup ▸ hup')).step (fun _ hst => hst) (reaches_sound hr r) hlife
    · rcases restart_life hg hstep hup r with ⟨hdown, -⟩ | ⟨-, hlife⟩
      · rw [hdown] at hup'
        exact absurd hup' Bool.false_ne_true
      · rw [hlife]
        exact tracked_booted _

/-- **No run is ever lost.** In every state of a booted process that an execution reaches,
whatever the interleaving and wherever processes crashed: a queued row has its run in the
queue, a row that waits for CI has a live watcher, a running row has a worker, and every run
of the set `_queued` is really in the queue. -/
theorem no_run_lost (cfg : SchedConfig π) {s : Sched π} {h : List SchedEvent}
    (hr : (machine cfg).Reaches (endsIn Completes) s h) (hup : s.up = true) :
    (∀ row ∈ s.table.rows, row.status = .queued → ∃ job ∈ s.queue, job.runId = row.runId) ∧
      (∀ row ∈ s.table.rows, row.status = .pendingCi →
        ∃ w ∈ s.watchers, w.job.runId = row.runId ∧ w.pc.undecided = true) ∧
      (∀ row ∈ s.table.rows, row.status = .running →
        ∃ job pc, Worker.busy job pc ∈ s.workers ∧ job.runId = row.runId) ∧
      ∀ r ∈ s.queued, ∃ job ∈ s.queue, job.runId = r := by
  have hin : ∀ r, 0 < (s.life r).inQueue → ∃ job ∈ s.queue, job.runId = r := by
    intro r hpos
    obtain ⟨job, hjob, hr⟩ := List.countP_pos_iff.mp hpos
    exact ⟨job, hjob, by simpa using hr⟩
  have hstatus : ∀ row ∈ s.table.rows, (s.life row.runId).status = some row.status := by
    intro row hrow
    exact RunTable.statusOf_eq_some.mpr ⟨row, hrow, rfl, rfl⟩
  refine ⟨?_, ?_, ?_, ?_⟩
  · intro row hrow hst
    have htracked := reaches_tracked hr hup row.runId
    exact hin row.runId (htracked.queued (hst ▸ hstatus row hrow))
  · intro row hrow hst
    have htracked := reaches_tracked hr hup row.runId
    obtain ⟨w, hw, hwatch⟩ := List.countP_pos_iff.mp (htracked.pending (hst ▸ hstatus row hrow))
    simp only [Watcher.watches, Bool.and_eq_true, beq_iff_eq] at hwatch
    exact ⟨w, hw, hwatch.2, hwatch.1⟩
  · intro row hrow hst
    have htracked := reaches_tracked hr hup row.runId
    obtain ⟨w, hw, hholds⟩ := List.countP_pos_iff.mp (htracked.running (hst ▸ hstatus row hrow))
    cases w with
    | busy job pc => exact ⟨job, pc, hw, by simpa [Worker.holds] using hholds⟩
    | ready => simp [Worker.holds] at hholds
    | waiting => simp [Worker.holds] at hholds
    | woken => simp [Worker.holds] at hholds
    | resting => simp [Worker.holds] at hholds
  · intro r hmem
    exact hin r ((reaches_sound hr r).markedQueued (by simpa [life] using hmem))

/-- The run of a crashed process is taken up again: a worker claimed it, the process died and
was booted, and the run is queued. -/
def recoveredRun : List (SchedAction Unit) :=
  claimedRun ++ [.tick 5, .crash, .boot]

/-- A run queued again by a boot is in the queue. -/
theorem no_run_lost_recovered :
    ∃ s h, (∃ row ∈ s.table.rows, row.status = .queued) ∧
      ((∀ row ∈ s.table.rows, row.status = .queued → ∃ job ∈ s.queue, job.runId = row.runId) ∧
        (∀ row ∈ s.table.rows, row.status = .pendingCi →
          ∃ w ∈ s.watchers, w.job.runId = row.runId ∧ w.pc.undecided = true) ∧
        (∀ row ∈ s.table.rows, row.status = .running →
          ∃ job pc, Worker.busy job pc ∈ s.workers ∧ job.runId = row.runId) ∧
        ∀ r ∈ s.queued, ∃ job ∈ s.queue, job.runId = r) ∧
      (machine twoWorkers).Reaches (endsIn Completes) s h := by
  -- no pipeline call ends in this run
  have hok : ∀ (s : Sched Unit) (h : List SchedEvent) (a : SchedAction Unit),
      (!(a matches .finish _ _)) = true → endsIn Completes s h a := by
    intro s h a ha i out heq
    rw [heq] at ha
    exact absurd ha Bool.false_ne_true
  have hx : ((machine twoWorkers).run (fun _ _ a => !(a matches .finish _ _)) Sched.new []
      recoveredRun).isSome = true := by
    decide
  have hr := Machine.reaches_run hok new_cold hx
  exact ⟨_, _, ⟨_, List.mem_singleton.mpr rfl, rfl⟩, no_run_lost twoWorkers hr rfl, hr⟩

end Sched

end PrReviewer.Model
