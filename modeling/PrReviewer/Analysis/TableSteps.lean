import PrReviewer.Analysis.Ownership
import PrReviewer.Analysis.RunTable

/-!
# The run table along a run of the scheduler

A step of the scheduler gives rows a new status or it is an `enqueue`. So the dedup columns of
the rows change by insertions only, and `enqueue` on a reached state does exactly what its
decision asks for.
-/

set_option autoImplicit false

namespace PrReviewer.Model

open PrReviewer.Library (Machine)

namespace RunTable

variable {t t' t'' : RunTable}

/-- The dedup columns of the rows. -/
def keys (t : RunTable) : List DedupKey :=
  t.rows.map Row.columns

/-- Some rows have a new status, and nothing else has changed. -/
def Restamped (t t' : RunTable) : Prop :=
  ∃ f : Row → Row, t'.rows = t.rows.map f ∧ ∀ row, f row = row ∨ ∃ st now, f row = row.stamp st now

/-- A table restamps itself. -/
theorem Restamped.refl (t : RunTable) : t.Restamped t :=
  ⟨id, (List.map_id _).symm, fun _ => Or.inl rfl⟩

/-- A table restamped twice is restamped. -/
theorem Restamped.trans (h : t.Restamped t') (h' : t'.Restamped t'') : t.Restamped t'' := by
  obtain ⟨f, hrows, hf⟩ := h
  obtain ⟨g, hrows', hg⟩ := h'
  refine ⟨g ∘ f, by rw [hrows', hrows, List.map_map], ?_⟩
  intro row
  rcases hg (f row) with h | ⟨st, now, h⟩
  · rcases hf row with h' | ⟨st, now, h'⟩
    · exact Or.inl (h.trans h')
    · exact Or.inr ⟨st, now, h.trans h'⟩
  · rcases hf row with h' | ⟨st', now', h'⟩
    · exact Or.inr ⟨st, now, h.trans (by rw [h'])⟩
    · exact Or.inr ⟨st, now, h.trans (by rw [h']; rfl)⟩

/-- A status write restamps the table. -/
theorem restamped_stampWhere (t : RunTable) (p : Row → Bool) (st : RunStatus) (now : Nat) :
    t.Restamped (t.stampWhere p st now) := by
  refine ⟨_, rfl, ?_⟩
  intro row
  by_cases hp : p row = true
  · exact Or.inr ⟨st, now, by simp [hp]⟩
  · exact Or.inl (by simp [hp])

/-- A row of a restamped table is an old one, stamped or not. -/
theorem Restamped.mem (h : t.Restamped t') {row : Row} (hrow : row ∈ t'.rows) :
    ∃ old ∈ t.rows, row = old ∨ ∃ st now, row = old.stamp st now := by
  obtain ⟨f, hrows, hf⟩ := h
  rw [hrows] at hrow
  obtain ⟨old, hold, rfl⟩ := List.mem_map.mp hrow
  exact ⟨old, hold, hf old⟩

/-- Restamping leaves the keys. -/
theorem Restamped.keys (h : t.Restamped t') : t'.keys = t.keys := by
  obtain ⟨f, hrows, hf⟩ := h
  rw [RunTable.keys, hrows, List.map_map]
  apply List.map_congr_left
  intro row _
  rcases hf row with h | ⟨st, now, h⟩ <;> rw [Function.comp, h]
  rfl

/-- Restamping leaves which runs have no row. -/
theorem Restamped.statusOf_none (h : t.Restamped t') {r : RunId} :
    t'.statusOf r = none ↔ t.statusOf r = none := by
  obtain ⟨f, hrows, hf⟩ := h
  have hid : ∀ row, (f row).runId = row.runId := by
    intro row
    rcases hf row with h | ⟨st, now, h⟩ <;> rw [h]
    rfl
  simp [statusOf_eq_none, hrows, hid]

/-- Restamping leaves a model in each row. -/
theorem Restamped.modelled (h : t.Restamped t') (ht : t.Modelled) : t'.Modelled := by
  intro row hrow
  obtain ⟨old, hold, rfl | ⟨st, now, rfl⟩⟩ := h.mem hrow
  · exact ht _ hold
  · exact ht old hold

end RunTable

/-- The dedup columns of the run a decision asks for, if `enqueue` can store one. -/
def Decision.columns (d : Decision) : Option DedupKey :=
  match d.owner, d.repo, d.pr with
  | some owner, some repo, some pr => some (owner, repo, pr, orEmpty d.head, orEmpty d.model)
  | _, _, _ => none

namespace Sched

variable {π : Type} {cfg : SchedConfig π} {s s' : Sched π} {a : SchedAction π}
  {es : List SchedEvent} {r : RunId} {d : Decision} {cause : Cause}

/-! ## One step -/

/-- Taking a run from the queue restamps the table. -/
theorem restamped_dequeue (cfg : SchedConfig π) (s : Sched π) (i : Nat) :
    s.table.Restamped (s.dequeue cfg i).table := by
  rcases (dequeue_frame cfg s i).2.2.2.2.1 with ⟨job, -, -, htable, -⟩ | ⟨htable, -⟩ <;> rw [htable]
  · exact RunTable.restamped_stampWhere _ _ _ _
  · exact .refl _

/-- The end of a run restamps the table. -/
theorem restamped_release (cfg : SchedConfig π) (s : Sched π) (i : Nat) (job : ReviewJob)
    (out : Outcome) : s.table.Restamped ((s.settle cfg job out).release i).table := by
  show s.table.Restamped (s.settle cfg job out).table
  rcases (settle_frame cfg s job out).1 with htable | ⟨st, htable⟩ <;> rw [htable]
  · exact .refl _
  · exact RunTable.restamped_stampWhere _ _ _ _

/-- **A step gives rows a new status and inserts nothing, or it is an `enqueue`.** -/
theorem step_table (h : Sched.step cfg s a = some (s', es)) :
    (s.table.Restamped s'.table ∧ ∀ job, .inserted job ∉ es) ∨
      ∃ r d cause, a = .enqueue r d cause ∧ s.up = true ∧ r ∉ s.issued ∧
        s.enqueue r d cause = (s', es) := by
  cases step_cases h with
  | tick d => exact Or.inl ⟨.refl _, by simp⟩
  | @enqueue r d cause hup hr => exact Or.inr ⟨r, d, cause, rfl, hup, hr, rfl⟩
  | watch hstep =>
    obtain ⟨w, hw, hm⟩ := watchStep_move hstep
    refine Or.inl ⟨?_, ?_⟩
    · rcases hm.frame.1 with htable | ⟨-, st, htable⟩ <;> rw [htable]
      · exact .refl _
      · exact RunTable.restamped_stampWhere _ _ _ _
    · intro job he
      rcases watchStep_events hw hstep _ he with ⟨o, he, -⟩ | ⟨body, he⟩ <;> cases he
  | wake _ _ => exact Or.inl ⟨restamped_dequeue cfg s _, by simp⟩
  | timeout _ _ => exact Or.inl ⟨.refl _, by simp⟩
  | advance _ => exact Or.inl ⟨.refl _, by simp⟩
  | @finish i out pc job _ =>
    refine Or.inl ⟨?_, by simp⟩
    exact (restamped_release cfg s i job out).trans (restamped_dequeue cfg _ i)
  | crash _ => exact Or.inl ⟨.refl _, by simp⟩
  | boot _ =>
    obtain ⟨table, queued, rfl, -, hboot⟩ := boot_eq cfg s
    rw [hboot]
    exact Or.inl ⟨RunTable.restamped_stampWhere _ _ _ _, by simp⟩

/-- A fresh id names no row of the table. -/
theorem Grounded.fresh_row (hg : Grounded cfg s) (hr : r ∉ s.issued) :
    ∀ row ∈ s.table.rows, row.runId ≠ r :=
  RunTable.statusOf_eq_none.mp (congrArg Interface.Life.status (hg.fresh r hr))

/-- Every step leaves a model in each row. -/
theorem modelled_step (hs : s.table.Modelled) (h : Sched.step cfg s a = some (s', es)) :
    s'.table.Modelled := by
  rcases step_table h with ⟨hstamp, -⟩ | ⟨r, d, cause, -, -, -, heq⟩
  · exact hstamp.modelled hs
  · rw [show s' = (s.enqueue r d cause).1 by rw [heq]]
    rcases (enqueue_frame s r d cause).2.2.2.2.2 with htable | ⟨job, -, -, htable⟩ <;> rw [htable]
    · exact hs
    · exact hs.insertRun job s.now

/-- In every run each row has a model. -/
theorem reaches_modelled {D : Machine.Discipline (Sched π) (SchedAction π) SchedEvent}
    {h : List SchedEvent} (hr : (newMachine cfg).Reaches D s h) : s.table.Modelled := by
  refine hr.invariant (I := fun s _ => s.table.Modelled) ?_ ?_
  · rintro s (rfl : s = Sched.new) row hrow
    exact absurd hrow List.not_mem_nil
  · exact fun _ _ _ _ _ _ hs _ hstep => modelled_step hs hstep

/-- A run without a row gets one only from its insertion. -/
theorem statusOf_none_step (h : Sched.step cfg s a = some (s', es))
    (hst : s.table.statusOf r = none) :
    s'.table.statusOf r = none ∨ r ∉ s.issued ∧ s'.table.statusOf r = some .pendingCi := by
  rcases step_table h with ⟨hstamp, -⟩ | ⟨r', d, cause, -, -, hfresh, heq⟩
  · left
    rw [RunTable.statusOf_eq_none] at hst ⊢
    intro row hrow hid
    obtain ⟨old, hold, rfl | ⟨st, now, rfl⟩⟩ := hstamp.mem hrow
    · exact hst _ hold hid
    · exact hst old hold hid
  · rw [show s' = (s.enqueue r' d cause).1 by rw [heq]]
    rcases enqueue_cases s r' d cause with
      ⟨job, table, hid, hstatus, -, -, hins, heq⟩ | ⟨table, htable, heq⟩ <;> rw [heq]
    · have hspec := RunTable.statusOf_insertRun s.table job s.now
      rw [hins] at hspec
      by_cases hr : r = job.runId
      · right
        subst hr
        exact ⟨hid ▸ hfresh, (hspec.1 rfl).trans (congrArg some hstatus)⟩
      · rcases hspec.2 r (Or.inr hr) with h | h
        · exact Or.inl (h.trans hst)
        · exact Or.inl h
    · left
      rcases htable with rfl | ⟨job, -, -, hins⟩
      · exact hst
      · rcases (RunTable.statusOf_insertRun s.table job s.now).2 r (Or.inl (by rw [hins])) with h | h <;>
          rw [hins] at h
        · exact h.trans hst
        · exact h

/-- A run whose row is gone stays without one. -/
theorem statusOf_none_kept (h : Sched.step cfg s a = some (s', es)) (hr : r ∈ s.issued)
    (hst : s.table.statusOf r = none) : s'.table.statusOf r = none :=
  (statusOf_none_step h hst).resolve_right fun hnew => hnew.1 hr

/-- The end of a run gives no row to a run that has none. -/
theorem statusOf_none_settle {job : ReviewJob} {out : Outcome} (hst : s.table.statusOf r = none) :
    (s.settle cfg job out).table.statusOf r = none := by
  rcases (settle_frame cfg s job out).1 with htable | ⟨st, htable⟩ <;> rw [htable]
  · exact hst
  · rw [RunTable.statusOf_setStatus, hst]
    split <;> rfl

/-- A worker that looks for work changes the status of a run only from queued to running. -/
theorem statusOf_dequeue (cfg : SchedConfig π) (s : Sched π) (i : Nat) (r : RunId) :
    (s.dequeue cfg i).table.statusOf r = s.table.statusOf r ∨
      s.table.statusOf r = some .queued ∧ (s.dequeue cfg i).table.statusOf r = some .running := by
  rcases (dequeue_frame cfg s i).2.2.2.2.1 with ⟨job, -, -, htable, -⟩ | ⟨htable, -⟩ <;> rw [htable]
  · rw [RunTable.statusOf_claimRun]
    split
    · rename_i h
      exact Or.inr ⟨h.2, rfl⟩
    · exact Or.inl rfl
  · exact Or.inl rfl

/-! ## One `enqueue` -/

/-- The state after `enqueue` has stored the row of this job. -/
def started (s : Sched π) (table : RunTable) (job : ReviewJob) : Sched π :=
  ((({ s with issued := job.runId :: s.issued, table := table }.watch job).addQueued job.runId).put
    job).setWaker

/-- The state after `enqueue` has stored nothing. -/
def refused (s : Sched π) (r : RunId) : Sched π :=
  { s with issued := r :: s.issued }

/-- `enqueue` on a decision stores `job`, with this pull request number. -/
structure Stores (d : Decision) (r : RunId) (cause : Cause) (job : ReviewJob) (pr : Int) : Prop where
  asked : ∃ owner repo, d.owner = some owner ∧ d.repo = some repo ∧
    job = jobOf r d owner repo cause
  number : job.pr = some pr
  columns : d.columns = some (job.columns pr)

/-- The stored job is of its run. -/
theorem Stores.runId {job : ReviewJob} {pr : Int} (hj : Stores d r cause job pr) : job.runId = r := by
  obtain ⟨⟨owner, repo, -, -, rfl⟩, -, -⟩ := hj
  rfl

/-- The stored job has its cause. -/
theorem Stores.job_cause {job : ReviewJob} {pr : Int} (hj : Stores d r cause job pr) :
    job.cause = cause := by
  obtain ⟨⟨owner, repo, -, -, rfl⟩, -, -⟩ := hj
  rfl

/-- A decision with all columns asks for one job, a decision without asks for none. -/
theorem stores_or_none (d : Decision) (r : RunId) (cause : Cause) :
    (∃ job pr, Stores d r cause job pr) ∨ d.columns = none := by
  unfold Decision.columns
  cases ho : d.owner with
  | none => exact Or.inr rfl
  | some owner =>
    cases hr : d.repo with
    | none => exact Or.inr rfl
    | some repo =>
      cases hp : d.pr with
      | none => exact Or.inr rfl
      | some pr =>
        refine Or.inl ⟨jobOf r d owner repo cause, pr, ⟨owner, repo, ho, hr, rfl⟩, hp, ?_⟩
        simp [Decision.columns, ho, hr, hp, jobOf, ReviewJob.columns]

/-- `enqueue` by the result of the insertion. -/
theorem enqueue_of_insertRun {job : ReviewJob} {pr : Int} (hj : Stores d r cause job pr) :
    s.enqueue r d cause =
      if (s.table.insertRun job s.now).2 then
        (s.started (s.table.insertRun job s.now).1 job, [.inserted job])
      else ({ s with issued := r :: s.issued, table := (s.table.insertRun job s.now).1 }, []) := by
  obtain ⟨⟨owner, repo, ho, hr, rfl⟩, -, -⟩ := hj
  unfold enqueue
  rw [ho, hr]
  cases hins : s.table.insertRun (jobOf r d owner repo cause) s.now with
  | mk table inserted =>
    simp only [hins]
    cases inserted <;> rfl

/-- `enqueue` on a decision without all columns stores nothing. -/
theorem enqueue_of_columns_none (h : d.columns = none) :
    s.enqueue r d cause = (s.refused r, []) := by
  unfold enqueue
  cases ho : d.owner with
  | none => rfl
  | some owner =>
    cases hr : d.repo with
    | none => rfl
    | some repo =>
      have hpr : d.pr = none := by
        cases hp : d.pr with
        | none => rfl
        | some pr => simp [Decision.columns, ho, hr, hp] at h
      simp only [RunTable.insertRun, jobOf, hpr]
      rfl

/-- What `enqueue` inserts is the job the decision asks for. -/
theorem stores_of_inserted {job : ReviewJob} (hj : .inserted job ∈ (s.enqueue r d cause).2) :
    ∃ pr, Stores d r cause job pr := by
  rcases stores_or_none d r cause with ⟨job', pr, hstores⟩ | hnone
  · rw [enqueue_of_insertRun hstores] at hj
    split at hj
    · cases List.mem_singleton.mp hj
      exact ⟨pr, hstores⟩
    · cases hj
  · rw [enqueue_of_columns_none hnone] at hj
    cases hj

/-- **`enqueue` for a webhook** stores its run exactly if its dedup columns are new. -/
theorem enqueue_webhook (ht : s.table.Modelled) (hfresh : ∀ row ∈ s.table.rows, row.runId ≠ r) :
    (∃ job pr, Stores d r .webhook job pr ∧ job.columns pr ∉ s.table.keys ∧
        ∃ table : RunTable, table.rows = s.table.rows ++ [RunTable.rowOf job pr s.now] ∧
          s.enqueue r d .webhook = (s.started table job, [.inserted job])) ∨
      (∀ k, d.columns = some k → k ∈ s.table.keys) ∧
        s.enqueue r d .webhook = (s.refused r, []) := by
  rcases stores_or_none d r .webhook with ⟨job, pr, hj⟩ | hnone
  · obtain ⟨hiff, hrows, hsame⟩ :=
      ht.insertRun_webhook s.now hj.job_cause (by rwa [hj.runId])
    rw [enqueue_of_insertRun hj]
    by_cases hins : (s.table.insertRun job s.now).2 = true
    · left
      obtain ⟨pr', hpr', hnew⟩ := hiff.mp hins
      have hpr : pr' = pr := Option.some.inj (hpr'.symm.trans hj.number)
      subst hpr
      refine ⟨job, pr', hj, ?_, _, hrows pr' hpr' hins, if_pos hins⟩
      intro hmem
      obtain ⟨row, hrow, heq⟩ := List.mem_map.mp hmem
      exact hnew row hrow heq
    · right
      rw [if_neg hins, hsame (Bool.eq_false_iff.mpr hins)]
      refine ⟨?_, rfl⟩
      intro k hk
      rw [hj.columns] at hk
      cases hk
      by_contra hmem
      refine hins (hiff.mpr ⟨pr, hj.number, ?_⟩)
      intro row hrow heq
      exact hmem (List.mem_map.mpr ⟨row, hrow, heq⟩)
  · refine Or.inr ⟨?_, enqueue_of_columns_none hnone⟩
    intro k hk
    rw [hnone] at hk
    cases hk

/-- **`enqueue` for a comment** stores its run in place of those of its pull request, unless it
names none. -/
theorem enqueue_comment (hfresh : ∀ row ∈ s.table.rows, row.runId ≠ r) :
    (∃ job pr, Stores d r .comment job pr ∧
        ∃ table : RunTable, table.rows =
            (s.table.rows.filter fun row => !row.isOf job.owner job.repo pr) ++
              [RunTable.rowOf job pr s.now] ∧
          s.enqueue r d .comment = (s.started table job, [.inserted job])) ∨
      d.columns = none ∧ s.enqueue r d .comment = (s.refused r, []) := by
  rcases stores_or_none d r .comment with ⟨job, pr, hj⟩ | hnone
  · obtain ⟨hins, hrows⟩ :=
      RunTable.insertRun_comment s.now hj.job_cause hj.number (by rwa [hj.runId])
    refine Or.inl ⟨job, pr, hj, _, hrows, ?_⟩
    rw [enqueue_of_insertRun hj, if_pos hins]
  · exact Or.inr ⟨hnone, enqueue_of_columns_none hnone⟩

/-- What `enqueue` returns says whether it stored a run. -/
theorem enqueueResult_duplicate (s : Sched π) (r : RunId) (d : Decision) (cause : Cause) :
    (s.enqueueResult r d cause).duplicate = (s.enqueue r d cause).2.isEmpty := by
  unfold enqueueResult enqueue
  cases d.owner with
  | none => rfl
  | some owner =>
    cases d.repo with
    | none => rfl
    | some repo =>
      cases hins : s.table.insertRun (jobOf r d owner repo cause) s.now with
      | mk table inserted => cases inserted <;> simp [hins]

/-- A stored run is reported with its id. -/
theorem enqueueResult_of_stored (h : (s.enqueueResult r d cause).duplicate = false) :
    s.enqueueResult r d cause = { runId := r } := by
  unfold enqueueResult at h ⊢
  split at h
  · split at h
    · rw [if_pos ‹_›]
    · cases h
  · cases h

end Sched

end PrReviewer.Model
