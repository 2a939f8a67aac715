import PrReviewer.Analysis.PipelineSteps

/-!
# The run state machine on the table

`set_status` writes whatever it is told, so the status machine of a run is not enforced by
the store. It holds because a row is written only by the task that owns its run: an undecided
watcher while the row waits for CI, a worker while it is running.
-/

set_option autoImplicit false

namespace PrReviewer.Model

open PrReviewer.Library
open PrReviewer.Interface (Life)
open PrReviewer.Interface.Life

variable {π : Type}

namespace Sched

variable {cfg : SchedConfig π} {s s' : Sched π} {h : List SchedEvent} {a : SchedAction π}
  {es : List SchedEvent}

/-- **The status of a row stays or follows one edge of the run state machine** at every step
of a scheduler whose pipeline ends as the real one does. -/
theorem status_follows (hr : (machine cfg).Reaches (endsIn RealEnd) s h)
    (hd : endsIn RealEnd s h a) (hstep : Sched.step cfg s a = some (s', es)) {row row' : Row}
    (hrow : row ∈ s.table.rows) (hrow' : row' ∈ s'.table.rows) (hid : row'.runId = row.runId) :
    Follows row.status row'.status := by
  have hst : (s.life row.runId).status = some row.status :=
    RunTable.statusOf_eq_some.mpr ⟨row, hrow, rfl, rfl⟩
  have hst' : (s'.life row.runId).status = some row'.status :=
    RunTable.statusOf_eq_some.mpr ⟨row', hrow', hid, rfl⟩
  have hg := reaches_grounded hr
  have hsound := reaches_sound hr row.runId
  by_cases hup : s'.up = s.up
  · have hfail : RealEnd (some .failed) := Or.inr (Or.inr (Or.inr rfl))
    exact ((step_life hfail hg hd hstep hup row.runId).1).follows hsound hst hst'
  · have hst₀ : s.table.statusOf row.runId = some row.status := hst
    rcases restart_life hg hstep hup row.runId with ⟨-, hlife⟩ | ⟨-, hlife⟩
    · rw [hlife, hst₀] at hst'
      exact Or.inl (Option.some.inj hst').symm
    · rw [hlife, hst₀] at hst'
      exact booted_follows hst'

/-- A status write keeps every run's row. -/
theorem exists_row_stampWhere {t : RunTable} {row : Row} (hrow : row ∈ t.rows) (p : Row → Bool)
    (st : RunStatus) (now : Nat) : ∃ row' ∈ (t.stampWhere p st now).rows, row'.runId = row.runId := by
  have hmem : row.runId ∈ (t.stampWhere p st now).rows.map Row.runId := by
    rw [RunTable.stampWhere_runIds]
    exact List.mem_map_of_mem hrow
  obtain ⟨row', hrow', hid⟩ := List.mem_map.mp hmem
  exact ⟨row', hrow', hid⟩

/-- Taking a run from the queue keeps every run's row. -/
theorem exists_row_dequeue (cfg : SchedConfig π) (s : Sched π) (i : Nat) {row : Row}
    (hrow : row ∈ s.table.rows) : ∃ row' ∈ (s.dequeue cfg i).table.rows, row'.runId = row.runId := by
  obtain ⟨-, -, -, -, ⟨job, -, -, htable, -, -⟩ | ⟨htable, -, -⟩, -⟩ := dequeue_frame cfg s i
  · rw [htable]
    exact exists_row_stampWhere hrow _ _ _
  · rw [htable]
    exact ⟨row, hrow, rfl⟩

/-- What is enqueued for a webhook keeps the rows there are. -/
theorem mem_rows_enqueue {r : RunId} (d : Decision) {cause : Cause} (hcause : cause ≠ .comment)
    {row : Row} (hrow : row ∈ s.table.rows) : row ∈ (s.enqueue r d cause).1.table.rows := by
  have hwebhook : cause = .webhook := by
    cases cause with
    | webhook => rfl
    | comment => exact absurd rfl hcause
  rcases (enqueue_frame s r d cause).2.2.2.2.2 with htable | ⟨job, -, hjob, htable⟩
  · rw [htable]
    exact hrow
  · rw [htable]
    exact (RunTable.insertRun_spec s.table job s.now).2.1 (hjob.trans hwebhook) row hrow

/-- Only a comment command deletes a row. -/
theorem row_kept (hstep : Sched.step cfg s a = some (s', es))
    (hcomment : ∀ r d, a ≠ .enqueue r d .comment) {row : Row} (hrow : row ∈ s.table.rows) :
    ∃ row' ∈ s'.table.rows, row'.runId = row.runId := by
  have hsame : ∀ {t : RunTable}, t = s.table → ∃ row' ∈ t.rows, row'.runId = row.runId := by
    rintro t rfl
    exact ⟨row, hrow, rfl⟩
  cases step_cases hstep with
  | tick d => exact hsame rfl
  | @enqueue r d cause hup hr =>
    exact ⟨row, mem_rows_enqueue d (fun h => hcomment r d (by rw [h])) hrow, rfl⟩
  | watch hw =>
    obtain ⟨w, -, hm⟩ := watchStep_move hw
    rcases hm.frame.1 with htable | ⟨-, st, htable⟩
    · exact hsame htable
    · rw [htable]
      exact exists_row_stampWhere hrow _ _ _
  | wake _ _ => exact exists_row_dequeue cfg s _ hrow
  | timeout _ _ => exact hsame rfl
  | advance _ => exact hsame rfl
  | @finish i out pc job _ =>
    rcases (settle_frame cfg s job out).1 with htable | ⟨st, htable⟩
    · have hrow₁ : row ∈ ((s.settle cfg job out).release i).table.rows := by
        show row ∈ (s.settle cfg job out).table.rows
        rw [htable]
        exact hrow
      exact exists_row_dequeue cfg _ i hrow₁
    · obtain ⟨row₁, hrow₁, hid₁⟩ :=
        exists_row_stampWhere hrow (fun row => row.runId == job.runId) st s.now
      have hrow₂ : row₁ ∈ ((s.settle cfg job out).release i).table.rows := by
        show row₁ ∈ (s.settle cfg job out).table.rows
        rw [htable]
        exact hrow₁
      obtain ⟨row₃, hrow₃, hid₃⟩ := exists_row_dequeue cfg _ i hrow₂
      exact ⟨row₃, hrow₃, hid₃.trans hid₁⟩
  | crash _ => exact hsame rfl
  | boot _ =>
    obtain ⟨table, queued, htable, -, hboot⟩ := boot_eq cfg s
    rw [hboot, htable]
    exact exists_row_stampWhere hrow _ _ _

/-- Taking a run from the queue leaves the rows that are over. -/
theorem final_row_dequeue (cfg : SchedConfig π) (s : Sched π) (i : Nat) {row : Row}
    (hrow : row ∈ s.table.rows) (hfinal : row.status.final = true) :
    row ∈ (s.dequeue cfg i).table.rows := by
  obtain ⟨-, -, -, -, ⟨job, -, -, htable, -, -⟩ | ⟨htable, -, -⟩, -⟩ := dequeue_frame cfg s i
  · rw [htable, RunTable.mem_claimRun]
    right
    refine ⟨hrow, ?_⟩
    rintro ⟨-, hq⟩
    rw [hq] at hfinal
    exact absurd hfinal Bool.false_ne_true
  · rw [htable]
    exact hrow

/-- **No step of a watcher or worker touches the row of a run that is over**, nor does
anything else but a comment command. -/
theorem final_row_kept {D : Machine.Discipline (Sched π) (SchedAction π) SchedEvent}
    (hr : (machine cfg).Reaches D s h)
    (hstep : Sched.step cfg s a = some (s', es)) (hcomment : ∀ r d, a ≠ .enqueue r d .comment)
    {row : Row} (hrow : row ∈ s.table.rows) (hfinal : row.status.final = true) :
    row ∈ s'.table.rows := by
  have hst : (s.life row.runId).status = some row.status :=
    RunTable.statusOf_eq_some.mpr ⟨row, hrow, rfl, rfl⟩
  have hsound := reaches_sound hr row.runId
  cases step_cases hstep with
  | tick d => exact hrow
  | @enqueue r d cause hup hr =>
    exact mem_rows_enqueue d (fun h => hcomment r d (by rw [h])) hrow
  | watch hw =>
    obtain ⟨w, hwatch, hm⟩ := watchStep_move hw
    rcases hm.frame.1 with htable | ⟨hu, st, htable⟩
    · rw [htable]
      exact hrow
    · -- an undecided watcher of this run would find it waiting for CI
      rw [htable, RunTable.mem_setStatus]
      right
      refine ⟨hrow, fun hid => ?_⟩
      have hpos : 0 < (s.life row.runId).watched :=
        countP_pos_of_getElem? hwatch (by simp [Watcher.watches, hu, hid])
      rcases hsound.watchedPending hpos with hc | hc <;> rw [hst] at hc
      · simp at hc
      · rw [Option.some.inj hc] at hfinal
        exact absurd hfinal Bool.false_ne_true
  | wake _ _ => exact final_row_dequeue cfg s _ hrow hfinal
  | timeout _ _ => exact hrow
  | advance _ => exact hrow
  | @finish i out pc job hw =>
    refine final_row_dequeue cfg _ i ?_ hfinal
    show row ∈ (s.settle cfg job out).table.rows
    rcases (settle_frame cfg s job out).1 with htable | ⟨st, htable⟩
    · rw [htable]
      exact hrow
    · -- a worker that executes this run would find it running
      rw [htable, RunTable.mem_setStatus]
      right
      refine ⟨hrow, fun hid => ?_⟩
      have hpos : 0 < (s.life row.runId).held :=
        countP_pos_of_getElem? hw (by simp [Worker.holds, hid])
      rcases hsound.heldRunning hpos with hc | hc <;> rw [hst] at hc
      · simp at hc
      · rw [Option.some.inj hc] at hfinal
        exact absurd hfinal Bool.false_ne_true
  | crash _ => exact hrow
  | boot _ =>
    obtain ⟨table, queued, htable, -, hboot⟩ := boot_eq cfg s
    rw [hboot, htable, RunTable.mem_recoverOrphans]
    right
    refine ⟨hrow, ?_⟩
    rintro ⟨hrun, -⟩
    rw [hrun] at hfinal
    exact absurd hfinal Bool.false_ne_true

end Sched

/-! ## In the application -/

namespace App

/-- **Runs follow the run state machine.** At every step of the application, whatever is
delivered to it and wherever it crashes, the status of a row stays or follows one edge; and
unless the step deals with a comment command, every row stays and the row of a run that is over
is left as it is. -/
theorem run_status_machine (cfg : AppConfig) {s s' : App} {h : List AppEvent} {a : AppAction}
    {es : List AppEvent} (hr : (machine cfg).Reachable s h)
    (hstep : step cfg s a = some (s', es)) :
    (∀ row ∈ s.core.table.rows, ∀ row' ∈ s'.core.table.rows, row'.runId = row.runId →
        Follows row.status row'.status) ∧
      (¬ s.runsCommand cfg a → ∀ row ∈ s.core.table.rows,
        (∃ row' ∈ s'.core.table.rows, row'.runId = row.runId) ∧
          (row.status.final = true → row ∈ s'.core.table.rows)) := by
  have hcore := Sched.reaches_of_new (reaches_core hr)
  have hcase := step_cases hstep
  rcases hcase.core_step with ⟨hsame, -⟩ | ⟨ca, hca, hout, henqueue⟩
  · rw [hsame]
    refine ⟨fun row hrow row' hrow' hid => Or.inl ?_, fun _ row hrow => ⟨⟨row, hrow, rfl⟩, fun _ => hrow⟩⟩
    rw [RunTable.eq_of_runId_eq hrow' hrow hid]
  · refine ⟨fun row hrow row' hrow' hid => Sched.status_follows hcore hout hca hrow hrow' hid, ?_⟩
    intro hnot row hrow
    have hcomment : ∀ r d, ca ≠ .enqueue r d .comment := by
      intro r d h
      obtain ⟨-, event, henq, -⟩ := henqueue r d .comment h
      exact hnot henq.runsCommand
    exact ⟨Sched.row_kept hca hcomment hrow, Sched.final_row_kept hcore hca hcomment hrow⟩

/-- The gate of a run that has just been enqueued finds no check runs. -/
theorem run_status_machine_gate_passed :
    ∃ s s' h es, step (smallConfig true 1) s (.watch 0 (.polled (.runs []))) = some (s', es) ∧
      (∃ row ∈ s.core.table.rows, row.status = .pendingCi) ∧
      ((∀ row ∈ s.core.table.rows, ∀ row' ∈ s'.core.table.rows, row'.runId = row.runId →
          Follows row.status row'.status) ∧
        (¬ s.runsCommand (smallConfig true 1) (.watch 0 (.polled (.runs []))) →
          ∀ row ∈ s.core.table.rows,
            (∃ row' ∈ s'.core.table.rows, row'.runId = row.runId) ∧
              (row.status.final = true → row ∈ s'.core.table.rows))) ∧
      (machine (smallConfig true 1)).Reachable s h := by
  have hx : ((machine (smallConfig true 1)).run (fun _ _ _ => true) small []
      (.boot :: openPr 7 "a" "r1" ++ [.watch 0 .go])).isSome = true := by
    decide
  have hr := Machine.reaches_run (D := fun _ _ _ => True) (fun _ _ _ _ => trivial) small_new hx
  exact ⟨_, _, _, _, rfl, ⟨_, List.mem_singleton.mpr rfl, rfl⟩, run_status_machine _ hr rfl, hr⟩

end App

end PrReviewer.Model
