import PrReviewer.Analysis.StagedStatus
import PrReviewer.Analysis.Supersession

/-!
# A pull request at rest

The runs of one pull request share the table, the queue, the workers and the memory of the
process with those of all others. A pull request is at rest when its runs are over and no task
is left that works on it. Whatever happens to the others, restarts included, it then stays at
rest with its rows and its staged reviews as they are, until a run of it is started or a
publication for it is asked for.
-/

set_option autoImplicit false

namespace PrReviewer.Model

open PrReviewer.Library

/-! ## The rows of a pull request -/

namespace RunTable

variable {t t' : RunTable} {ref : PrRef} {now : Nat}

/-- The rows of the runs of a pull request. -/
def rowsOf (t : RunTable) (ref : PrRef) : List Row :=
  t.rows.filter fun row => row.job.ref = ref

/-- The rows of a pull request are the table's rows whose job names it. -/
@[simp] theorem mem_rowsOf {row : Row} : row ∈ t.rowsOf ref ↔ row ∈ t.rows ∧ row.job.ref = ref := by
  simp [rowsOf]

/-- An update of rows of other pull requests. -/
theorem rowsOf_stampWhere {p : Row → Bool} {st : RunStatus}
    (hp : ∀ row ∈ t.rows, p row = true → row.job.ref ≠ ref) :
    (t.stampWhere p st now).rowsOf ref = t.rowsOf ref := by
  -- a stamp keeps the pull request of its row
  have hsame : (fun row : Row => decide (row.job.ref = ref)) ∘
      (fun row => if p row then row.stamp st now else row) =
      fun row => decide (row.job.ref = ref) := by
    funext row
    simp only [Function.comp]
    split <;> rfl
  unfold rowsOf stampWhere update
  rw [List.filter_map, hsame]
  conv_rhs => rw [← List.map_id (t.rows.filter _)]
  apply List.map_congr_left
  intro row hrow
  obtain ⟨hmem, href⟩ := List.mem_filter.mp hrow
  have hother : p row ≠ true := fun h => hp row hmem h (of_decide_eq_true href)
  rw [if_neg hother, id]

/-- A status write to another pull request's run leaves the rows alone. -/
theorem rowsOf_setStatus {r : RunId} {st : RunStatus}
    (hr : ∀ row ∈ t.rows, row.runId = r → row.job.ref ≠ ref) :
    (t.setStatus r st now).rowsOf ref = t.rowsOf ref := by
  apply rowsOf_stampWhere
  intro row hrow hp
  exact hr row hrow (beq_iff_eq.mp hp)

/-- A claim touches a queued row. -/
theorem rowsOf_claimRun {r : RunId} (ht : ∀ row ∈ t.rowsOf ref, row.status.final = true) :
    (t.claimRun r now).1.rowsOf ref = t.rowsOf ref := by
  apply rowsOf_stampWhere
  intro row hrow hp href
  have hqueued : row.status = .queued := beq_iff_eq.mp (Bool.and_eq_true_iff.mp hp).2
  have hfinal := ht row (mem_rowsOf.mpr ⟨hrow, href⟩)
  rw [hqueued] at hfinal
  cases hfinal

/-- The boot sweep touches running rows. -/
theorem rowsOf_recoverOrphans {leaseTtl : Int}
    (ht : ∀ row ∈ t.rowsOf ref, row.status.final = true) :
    (t.recoverOrphans leaseTtl now).1.rowsOf ref = t.rowsOf ref := by
  apply rowsOf_stampWhere
  intro row hrow hp href
  have hrunning : row.status = .running := beq_iff_eq.mp (Bool.and_eq_true_iff.mp hp).1
  have hfinal := ht row (mem_rowsOf.mpr ⟨hrow, href⟩)
  rw [hrunning] at hfinal
  cases hfinal

/-- Inserting another pull request's run leaves the rows alone. -/
theorem rowsOf_insertRow {row : Row} (hne : row.job.ref ≠ ref) :
    (t.insertRow row).1.rowsOf ref = t.rowsOf ref := by
  rcases insertRow_cases t row with ⟨-, hrows, -⟩ | ⟨-, hsame, -⟩
  · unfold rowsOf
    rw [hrows, List.filter_append, List.filter_singleton]
    simp [hne]
  · rw [hsame]

/-- Deleting another pull request's rows leaves these alone. -/
theorem rowsOf_deletePr {owner repo : String} {pr : Int} (hne : ⟨owner, repo, some pr⟩ ≠ ref) :
    (t.deletePr owner repo pr).rowsOf ref = t.rowsOf ref := by
  unfold rowsOf deletePr
  rw [List.filter_filter]
  apply List.filter_congr
  intro row _
  by_cases href : row.job.ref = ref
  · have hother : (row.owner == owner && row.repo == repo && row.pr == pr) = false := by
      rw [Bool.eq_false_iff]
      intro h
      simp only [Bool.and_eq_true, beq_iff_eq] at h
      obtain ⟨⟨rfl, rfl⟩, rfl⟩ := h
      exact hne href
    simp [href, hother]
  · simp [href]

/-- The insertion of a run of another pull request, comment or not. -/
theorem rowsOf_insertRun {job : ReviewJob} (hne : job.ref ≠ ref) :
    (t.insertRun job now).1.rowsOf ref = t.rowsOf ref := by
  unfold insertRun
  cases hpr : job.pr with
  | none => rfl
  | some pr =>
    have hjob : (⟨job.owner, job.repo, some pr⟩ : PrRef) ≠ ref := by
      rw [← hpr]
      exact hne
    have hrow : (rowOf job pr now).job.ref ≠ ref := hjob
    cases job.cause with
    | webhook => exact rowsOf_insertRow hrow
    | comment => exact (rowsOf_insertRow hrow).trans (rowsOf_deletePr hjob)

/-- An insertion that is ignored, of a run id that no row has, changes nothing. -/
theorem insertRun_ignored {job : ReviewJob} (hfresh : ∀ row ∈ t.rows, row.runId ≠ job.runId)
    (h : t.insertRun job now = (t', false)) : t' = t := by
  have hfst := congrArg Prod.fst h
  have hsnd := congrArg Prod.snd h
  cases hcause : job.cause with
  | comment =>
    cases hpr : job.pr with
    | none =>
      simp only [insertRun, hpr] at hfst
      exact hfst.symm
    | some pr =>
      rw [(insertRun_comment now hcause hpr hfresh).1] at hsnd
      cases hsnd
  | webhook =>
    unfold insertRun at hfst hsnd
    cases hpr : job.pr with
    | none =>
      simp only [hpr] at hfst
      exact hfst.symm
    | some pr =>
      simp only [hpr, hcause] at hfst hsnd
      rw [← hfst]
      exact (insertRow_fresh (rowOf job pr now) hfresh).2.2 hsnd

end RunTable

/-! ## The scheduler -/

variable {π : Type}

/-- The job an event of the scheduler is about. -/
def SchedEvent.job : SchedEvent → ReviewJob
  | .inserted job | .polled job _ | .gateComment job _ => job

/-- The worker executes a run of the pull request. -/
def Worker.worksFor (ref : PrRef) : Worker π → Bool
  | .busy job _ => job.ref = ref
  | _ => false

namespace Sched

variable {cfg : SchedConfig π} {s s' : Sched π} {a : SchedAction π} {es h : List SchedEvent}
  {ref : PrRef} {job : ReviewJob}

/-- The runs of the pull request are over, and neither a watcher nor a worker works on it. The
queue may still hold jobs of runs that are over. -/
structure AtRest (s : Sched π) (ref : PrRef) : Prop where
  finished : ∀ row ∈ s.table.rowsOf ref, row.status.final = true
  watchers : ∀ w ∈ s.watchers, w.job.ref = ref → w.pc = .ended
  workers : ∀ w ∈ s.workers, w.worksFor ref = false

/-- Whether the scheduler is at rest for a pull request can be decided. -/
instance (s : Sched π) (ref : PrRef) : Decidable (s.AtRest ref) :=
  decidable_of_iff
    ((∀ row ∈ s.table.rowsOf ref, row.status.final = true) ∧
      (∀ w ∈ s.watchers, w.job.ref = ref → w.pc = .ended) ∧
      ∀ w ∈ s.workers, w.worksFor ref = false)
    ⟨fun h => ⟨h.1, h.2.1, h.2.2⟩, fun h => ⟨h.finished, h.watchers, h.workers⟩⟩

/-- A job is for the pull request of the row of its run. -/
theorem Lineage.ref_eq (hl : Lineage s h) {row : Row} (hrow : row ∈ s.table.rows)
    (hj : s.OnRecord job ∨ s.InHand job) (hid : row.runId = job.runId) : row.job.ref = job.ref := by
  obtain ⟨a, ha, hsame⟩ := hl.onRecord row.job (Or.inl ⟨row, hrow, rfl⟩)
  have hjob : ∃ b, .inserted b ∈ h ∧ SameRun b job := by
    rcases hj with hj | hj
    · obtain ⟨b, hb, hsame⟩ := hl.onRecord job hj
      exact ⟨b, hb, hsame.sameRun⟩
    · exact hl.inHand job hj
  obtain ⟨b, hb, hsame'⟩ := hjob
  have hrun : a.runId = b.runId := by rw [← hsame.runId, ← hsame'.runId, Row.job_runId, hid]
  have hab := hl.unique a b ha hb hrun
  rw [hsame.ref, hsame'.ref, hab]

/-- A fresh id names no row of the table. -/
theorem Lineage.fresh_row (hl : Lineage s h) {r : RunId} (hr : r ∉ s.issued) :
    ∀ row ∈ s.table.rows, row.runId ≠ r := by
  rintro row hrow rfl
  exact hr (hl.issued_of_status (RunTable.statusOf_eq_some.mpr ⟨row, hrow, rfl, rfl⟩))

/-- The jobs of others write the rows of others. -/
theorem Lineage.rowsOf_setStatus (hl : Lineage s h) (hj : s.OnRecord job ∨ s.InHand job)
    (hne : job.ref ≠ ref) (st : RunStatus) (now : Nat) :
    (s.table.setStatus job.runId st now).rowsOf ref = s.table.rowsOf ref := by
  apply RunTable.rowsOf_setStatus
  intro row hrow hid href
  exact hne ((hl.ref_eq hrow hj hid).symm.trans href)

/-- The end of a call on another pull request. -/
theorem Lineage.rowsOf_settle (hl : Lineage s h) {pc : π} (hw : Worker.busy job pc ∈ s.workers)
    (hne : job.ref ≠ ref) (out : Outcome) :
    (s.settle cfg job out).table.rowsOf ref = s.table.rowsOf ref := by
  rcases (settle_frame cfg s job out).1 with htable | ⟨st, htable⟩
  · rw [htable]
  · rw [htable]
    exact hl.rowsOf_setStatus (Or.inr (Or.inr ⟨pc, hw⟩)) hne st s.now

/-- Starting a run leaves the rows of a pull request whose runs are over. -/
theorem rowsOf_dequeue (cfg : SchedConfig π) (i : Nat)
    (hover : ∀ row ∈ s.table.rowsOf ref, row.status.final = true) :
    (s.dequeue cfg i).table.rowsOf ref = s.table.rowsOf ref := by
  rcases (dequeue_frame cfg s i).2.2.2.2.1 with ⟨job, -, -, htable, -⟩ | ⟨htable, -⟩
  · rw [htable]
    exact RunTable.rowsOf_claimRun hover
  · rw [htable]

/-- No worker is busy with a pull request at rest. -/
theorem AtRest.not_busy (hs : s.AtRest ref) {pc : π} (hw : Worker.busy job pc ∈ s.workers) :
    job.ref ≠ ref :=
  of_decide_eq_false (hs.workers _ hw)

/-- The watcher of a step works on another pull request. -/
theorem AtRest.not_watched (hs : s.AtRest ref) {i : Nat} {inp : WatchInput} {w : Watcher}
    (hw : s.watchers[i]? = some w) (hstep : s.watchStep cfg i inp = some (s', es)) :
    w.job.ref ≠ ref := by
  intro href
  have hended := hs.watchers w (List.mem_of_getElem? hw) href
  unfold watchStep at hstep
  simp only [hw, hended, reduceCtorEq] at hstep

/-- A worker does not claim a job of the pull request. -/
theorem AtRest.not_claimed (hl : Lineage s h) (hs : s.AtRest ref) {t : Sched π}
    (ht : t = s ∨ ∃ out job' pc', Worker.busy job' pc' ∈ s.workers ∧ ∃ i,
      t = (s.settle cfg job' out).release i)
    (hq : job ∈ t.queue) (hst : t.table.statusOf job.runId = some .queued) : job.ref ≠ ref := by
  obtain ⟨row, hrow, hid, hqueued⟩ := RunTable.statusOf_eq_some.mp hst
  intro href
  -- the row of the run is one of the pull request, and such rows are over
  rcases ht with rfl | ⟨out, job', pc', hw, i, rfl⟩
  · have hrowref := hl.ref_eq hrow (Or.inr (Or.inl hq)) hid
    have hfinal := hs.finished row (RunTable.mem_rowsOf.mpr ⟨hrow, hrowref.trans href⟩)
    rw [hqueued] at hfinal
    cases hfinal
  · have hrow' : row ∈ (s.settle cfg job' out).table.rows := hrow
    have hrestamped : s.table.Restamped (s.settle cfg job' out).table := by
      rcases (settle_frame cfg s job' out).1 with htable | ⟨st, htable⟩ <;> rw [htable]
      · exact .refl _
      · exact RunTable.restamped_stampWhere _ _ _ _
    obtain ⟨old, hold, hsame⟩ := sameJob_of_restamped hrestamped hrow'
    have hid' : old.runId = job.runId := hsame.target.runId.symm.trans hid
    have hrowref : old.job.ref = job.ref := by
      rcases mem_queue_settle hq with hq | hjob
      · exact hl.ref_eq hold (Or.inr (Or.inl hq)) hid'
      · rw [hjob.target.ref]
        exact hl.ref_eq hold (Or.inr (Or.inr ⟨pc', hw⟩)) (hid'.trans hjob.target.runId)
    have hmem : row ∈ (s.settle cfg job' out).table.rowsOf ref :=
      RunTable.mem_rowsOf.mpr ⟨hrow', hsame.target.ref.trans (hrowref.trans href)⟩
    rw [hl.rowsOf_settle hw (hs.not_busy hw) out] at hmem
    have hfinal := hs.finished row hmem
    rw [hqueued] at hfinal
    cases hfinal

/-- **A step keeps the rows** of a pull request at rest, unless it inserts a run of it. -/
theorem AtRest.rowsOf_step (hl : Lineage s h) (hs : s.AtRest ref)
    (hstep : Sched.step cfg s a = some (s', es))
    (hquiet : ∀ job, .inserted job ∈ es → job.ref ≠ ref) :
    s'.table.rowsOf ref = s.table.rowsOf ref := by
  cases step_cases hstep with
  | @enqueue r d cause _ hr =>
    rcases enqueue_cases s r d cause with
      ⟨job, table, -, -, -, -, hins, heq⟩ | ⟨table, htable, heq⟩ <;> rw [heq]
    · have hne : job.ref ≠ ref := hquiet job (by rw [heq]; exact List.mem_singleton_self _)
      have hrows : (s.table.insertRun job s.now).1.rowsOf ref = s.table.rowsOf ref :=
        RunTable.rowsOf_insertRun hne
      rw [hins] at hrows
      exact hrows
    · rcases htable with rfl | ⟨job, rfl, -, hins⟩
      · rfl
      · rw [RunTable.insertRun_ignored (hl.fresh_row hr) hins]
  | @watch i inp s' es hwatch =>
    obtain ⟨w, hw, hm⟩ := watchStep_move hwatch
    rcases hm.frame.1 with htable | ⟨-, st, htable⟩ <;> rw [htable]
    exact hl.rowsOf_setStatus (Or.inl (Or.inr ⟨w, List.mem_of_getElem? hw, rfl⟩))
      (hs.not_watched hw hwatch) st s.now
  | wake _ _ => exact rowsOf_dequeue cfg _ hs.finished
  | @finish i out pc job hw =>
    have hmem := List.mem_of_getElem? hw
    have hsettle : ((s.settle cfg job out).release i).table.rowsOf ref = s.table.rowsOf ref :=
      hl.rowsOf_settle hmem (hs.not_busy hmem) out
    refine (rowsOf_dequeue cfg i ?_).trans hsettle
    rw [hsettle]
    exact hs.finished
  | boot _ =>
    obtain ⟨table, queued, rfl, -, hboot⟩ := boot_eq cfg s
    rw [hboot]
    exact RunTable.rowsOf_recoverOrphans hs.finished
  | tick d => rfl
  | timeout _ _ => rfl
  | advance _ => rfl
  | crash _ => rfl

/-- No watcher is left or made that works on a pull request at rest. -/
theorem AtRest.watchers_step (hl : Lineage s h) (hs : s.AtRest ref)
    (hstep : Sched.step cfg s a = some (s', es))
    (hquiet : ∀ job, .inserted job ∈ es → job.ref ≠ ref) :
    ∀ w ∈ s'.watchers, w.job.ref = ref → w.pc = .ended := by
  have hrows := hs.rowsOf_step hl hstep hquiet
  cases step_cases hstep with
  | @enqueue r d cause _ hr =>
    rcases enqueue_cases s r d cause with
      ⟨job, table, -, -, -, -, -, heq⟩ | ⟨table, -, heq⟩ <;> rw [heq]
    · have hne : job.ref ≠ ref := hquiet job (by rw [heq]; exact List.mem_singleton_self _)
      intro w hw href
      rcases List.mem_append.mp hw with hw | hw
      · exact hs.watchers w hw href
      · rw [List.mem_singleton.mp hw] at href
        exact absurd href hne
    · exact hs.watchers
  | @watch i inp s' es hwatch =>
    obtain ⟨x, hx, hm⟩ := watchStep_move hwatch
    obtain ⟨x', hwatchers, hjob⟩ := hm.watchers
    rw [hwatchers]
    intro w hw href
    rcases List.mem_or_eq_of_mem_set hw with hw | rfl
    · exact hs.watchers w hw href
    · rw [hjob] at href
      exact absurd href (hs.not_watched hx hwatch)
  | wake _ _ =>
    rw [(dequeue_frame cfg s _).2.2.2.1]
    exact hs.watchers
  | @finish i out pc job hw =>
    have hwatchers : (s.finish cfg i job out).watchers = s.watchers :=
      (dequeue_frame cfg _ i).2.2.2.1.trans (settle_frame cfg s job out).2.2.2.2.2.1
    rw [hwatchers]
    exact hs.watchers
  | crash _ => exact fun w hw => absurd hw List.not_mem_nil
  | boot _ =>
    -- the watchers of a boot are those of open rows
    obtain ⟨table, queued, rfl, -, hboot⟩ := boot_eq cfg s
    rw [hboot] at hrows ⊢
    intro w hw href
    obtain ⟨job, hjob, rfl⟩ := List.mem_map.mp hw
    obtain ⟨hopen, hpending⟩ := List.mem_filter.mp hjob
    obtain ⟨row, hrow, -, rfl⟩ := RunTable.mem_reconcileOpenJobs.mp hopen
    have hmem := RunTable.mem_rowsOf.mpr ⟨hrow, href⟩
    have hrows' : (s.table.recoverOrphans 0 s.now).1.rowsOf ref = s.table.rowsOf ref := hrows
    rw [hrows'] at hmem
    have hfinal := hs.finished row hmem
    have hst : row.status = .pendingCi := of_decide_eq_true hpending
    rw [hst] at hfinal
    cases hfinal
  | tick d => exact hs.watchers
  | timeout _ _ => exact hs.watchers
  | advance _ => exact hs.watchers

/-- No worker takes up a run of a pull request at rest. -/
theorem AtRest.workers_step (hl : Lineage s h) (hs : s.AtRest ref)
    (hstep : Sched.step cfg s a = some (s', es)) :
    ∀ w ∈ s'.workers, w.worksFor ref = false := by
  intro w hw
  cases w with
  | busy job pc =>
    obtain ⟨j, hj⟩ := List.mem_iff_getElem?.mp hw
    apply decide_eq_false
    rcases step_busy hstep hj with
      ⟨hbusy, -⟩ | ⟨sha, job', pc', -, hbusy, rfl⟩ | ⟨t, ht, hq, hst, -⟩
    · exact hs.not_busy (List.mem_of_getElem? hbusy)
    · rw [(sameRun_fill job' sha).ref]
      exact hs.not_busy (List.mem_of_getElem? hbusy)
    · have hfrom : t = s ∨ ∃ out job' pc', Worker.busy job' pc' ∈ s.workers ∧ ∃ i,
          t = (s.settle cfg job' out).release i := by
        rcases ht with rfl | ⟨out, job', pc', -, hbusy, rfl⟩
        · exact Or.inl rfl
        · exact Or.inr ⟨out, job', pc', List.mem_of_getElem? hbusy, j, rfl⟩
      exact hs.not_claimed hl hfrom hq hst
  | _ => rfl

/-- **The step lemma of the scheduler.** -/
theorem AtRest.step (hl : Lineage s h) (hs : s.AtRest ref)
    (hstep : Sched.step cfg s a = some (s', es))
    (hquiet : ∀ job, .inserted job ∈ es → job.ref ≠ ref) :
    s'.AtRest ref ∧ s'.table.rowsOf ref = s.table.rowsOf ref ∧ ∀ e ∈ es, e.job.ref ≠ ref := by
  have hrows := hs.rowsOf_step hl hstep hquiet
  refine ⟨⟨?_, hs.watchers_step hl hstep hquiet, hs.workers_step hl hstep⟩, hrows, ?_⟩
  · rw [hrows]
    exact hs.finished
  · intro e he
    rcases watchers_of_step hstep with ⟨i, inp, rfl, hwatch⟩ | ⟨-, hinserted⟩
    · obtain ⟨w, hw, -⟩ := watchStep_move hwatch
      have hne := hs.not_watched hw hwatch
      rcases watchStep_events hw hwatch e he with ⟨o, rfl, -⟩ | ⟨body, rfl⟩
      · exact hne
      · exact hne
    · obtain ⟨job, rfl⟩ := hinserted e he
      exact hquiet job he

end Sched

/-! ## The application -/

/-- The pull request a write is about, if it is about one. -/
def GitHubWrite.ref? : GitHubWrite → Option PrRef
  | .submitReview review => some review.ref
  | .markReady ref _ | .mergePr ref _ _ => some ref
  | .postComment (some owner) (some repo) pr _ => some ⟨owner, repo, pr⟩
  | _ => none

/-- A comment names the pull request it is made on. -/
@[simp] theorem ref?_commentOn (ref : PrRef) (body : String) :
    (commentOn ref body).ref? = some ref := rfl

namespace AppEvent

/-- A run of the pull request is started, or a publication for it is asked for. -/
def starts (ref : PrRef) : AppEvent → Bool
  | .core (.inserted job) => job.ref = ref
  | .asked _ _ _ (some job) => job.ref = ref
  | _ => false

/-- The gate, a worker or a publication works on the pull request. -/
def WorksOn (ref : PrRef) : AppEvent → Prop
  | .core e => e.job.ref = ref
  | .fetched job _ | .ran job _ _ _ | .staged job _ | .publishing _ job _ _ => job.ref = ref
  | .write (.worker _) w | .write (.approval _) w => w.ref? = some ref
  | _ => False

end AppEvent

/-- What a worker about to publish submits is a review of its job. -/
def Worker.FitsJob : Worker ExecPc → Prop
  | .busy job (.publishing review _) => review.ref = job.ref ∧ review.run = job.runId
  | _ => True

/-- A publication that is over does not move. -/
theorem ApprovalCase.not_ended {cfg : PipelineConfig} {staged : StagedReviews} {head : String}
    {p : Approval} {inp : ApprovalInput} {m : ApprovalMove}
    (hm : ApprovalCase cfg staged head p inp m) : p.pc ≠ .ended := by
  cases hm with
  | merge _ hpc =>
    rcases hpc with ⟨review, pc, hpc⟩ | hpc <;> simp [hpc]
  | finish _ hpc _ => exact hpc
  | _ => simp [*]

/-- A publication writes to the pull request of its job. -/
theorem ApprovalCase.ref?_eq {cfg : PipelineConfig} {staged : StagedReviews} {head : String}
    {p : Approval} {inp : ApprovalInput} {m : ApprovalMove}
    (hm : ApprovalCase cfg staged head p inp m)
    (hreview : ∀ review pc, p.pc = .submitting review pc → review.ref = p.job.ref) {w : GitHubWrite}
    (hw : p.writes w ∈ m.events) : w.ref? = some p.job.ref := by
  cases hm with
  | blocked _ _ => cases List.mem_singleton.mp hw
  | started _ _ hr =>
    rcases List.mem_cons.mp hw with heq | hw
    · cases heq
    · cases List.mem_singleton.mp hw
      rw [hr]
      rfl
  | submitting hpc hs =>
    obtain ⟨w', hw', heq⟩ := List.mem_map.mp hw
    cases heq
    rw [submitStep_writes hs w hw', ref?_commentOn, hreview _ _ hpc]
  | promote _ _ =>
    cases List.mem_singleton.mp hw
    rfl
  | merge _ _ =>
    cases List.mem_singleton.mp hw
    rfl
  | submitFailed _ _ => exact absurd hw List.not_mem_nil
  | finish _ _ _ => exact absurd hw List.not_mem_nil

/-- What a publication submits is a review of its job. -/
theorem Handled.fitsJob {cfg : AppConfig} {h : List AppEvent} {p : Approval} (hp : Handled cfg h p)
    {review : Review} {pc : SubmitPc} (hpc : p.pc = .submitting review pc) :
    review.ref = p.job.ref ∧ review.run = p.job.runId := by
  obtain ⟨taken, -, hreview⟩ := hp.started (by simp [hpc])
  rw [hreview review pc hpc]
  exact ⟨rfl, rfl⟩

/-- A publication with an unanswered review is under way and is its own job's. -/
theorem Handled.run_of_unaccepted {cfg : AppConfig} {h : List AppEvent} {p : Approval}
    (hp : Handled cfg h p) {run : RunId} (hrun : p.unaccepted = some run) :
    p.pc ≠ .ended ∧ run = p.job.runId := by
  unfold Approval.unaccepted at hrun
  split at hrun
  · rename_i review pc hpc
    split at hrun
    · cases hrun
      exact ⟨by simp [hpc], (hp.fitsJob hpc).2⟩
    · cases hrun
  · cases hrun

/-- A worker with an unanswered review is busy with that review's run. -/
theorem Worker.FitsJob.run_of_unaccepted {w : Worker ExecPc} (hw : w.FitsJob) {run : RunId}
    (hrun : w.unaccepted = some run) : ∃ job pc, w = .busy job pc ∧ run = job.runId := by
  unfold Worker.unaccepted at hrun
  split at hrun
  · rename_i job review pc
    split at hrun
    · cases hrun
      exact ⟨job, _, rfl, hw.2⟩
    · cases hrun
  · cases hrun

namespace App

variable {cfg : AppConfig} {s s' t : App} {a : AppAction} {h es : List AppEvent} {ref : PrRef}
  {D : Machine.Discipline App AppAction AppEvent}

/-! ### The reviews of workers -/

/-- Every step keeps each worker's pipeline state fitted to its job. -/
theorem fitsJob_step (hs : ∀ w ∈ s.core.workers, w.FitsJob) (hstep : step cfg s a = some (s', es)) :
    ∀ w ∈ s'.core.workers, w.FitsJob := by
  intro w hw
  cases w with
  | busy job pc =>
    obtain ⟨j, hj⟩ := List.mem_iff_getElem?.mp hw
    cases busy_of_step hstep hj with
    | same hw₀ => exact hs _ (List.mem_of_getElem? hw₀)
    | moved _ hw₀ hm hnext _ =>
      have hbefore := hs _ (List.mem_of_getElem? hw₀)
      cases hm with
      | publish _ hreview =>
        cases hnext
        rw [hreview]
        exact ⟨rfl, rfl⟩
      | submitting _ =>
        cases hnext
        exact hbefore
      | looked _ | lookFailed | noLook =>
        rcases cfg.pipeline.afterPr_cases with heq | heq <;> rw [heq] at hnext <;> cases hnext <;>
          trivial
      | _ => cases hnext <;> trivial
    | accepted _ hw₀ _ => exact (hs _ (List.mem_of_getElem? hw₀) :)
    | claimed _ _ _ => trivial
  | _ => trivial

/-- In every run each worker's pipeline state fits its job. -/
theorem reaches_fitsJob (hr : (machine cfg).Reaches D s h) : ∀ w ∈ s.core.workers, w.FitsJob := by
  refine hr.invariant (I := fun s _ => ∀ w ∈ s.core.workers, w.FitsJob) ?_ ?_
  · intro s hs w hw
    rw [New.core hs] at hw
    exact absurd hw List.not_mem_nil
  · intro s h a s' es _ hs _ hstep
    exact fitsJob_step hs hstep

/-! ### A pull request at rest -/

/-- The pull request is at rest: no publication for it or for one of its runs is under way, and
no review of its runs is left that GitHub may still accept. -/
structure AtRest (s : App) (ref : PrRef) : Prop where
  core : s.core.AtRest ref
  approvals : ∀ p ∈ s.approvals, p.pc = .ended ∨
    p.job.ref ≠ ref ∧ ∀ row ∈ s.core.table.rowsOf ref, row.runId ≠ p.job.runId
  orphans : ∀ row ∈ s.core.table.rowsOf ref, row.runId ∉ s.orphans

/-- Whether the application is at rest for a pull request can be decided. -/
instance (s : App) (ref : PrRef) : Decidable (s.AtRest ref) :=
  decidable_of_iff
    (s.core.AtRest ref ∧
      (∀ p ∈ s.approvals, p.pc = .ended ∨
        p.job.ref ≠ ref ∧ ∀ row ∈ s.core.table.rowsOf ref, row.runId ≠ p.job.runId) ∧
      ∀ row ∈ s.core.table.rowsOf ref, row.runId ∉ s.orphans)
    ⟨fun h => ⟨h.1, h.2.1, h.2.2⟩, fun h => ⟨h.core, h.approvals, h.orphans⟩⟩

/-- In every run the scheduler's part of the history is a lineage. -/
theorem reaches_lineage (hr : (machine cfg).Reaches D s h) :
    Sched.Lineage s.core (h.filterMap AppEvent.core?) :=
  Sched.reaches_lineage (reaches_core hr)

/-- No worker executes a run of the pull request. -/
theorem AtRest.runId_ne (hs : s.AtRest ref) (hr : (machine cfg).Reaches D s h) {job : ReviewJob}
    {pc : ExecPc} (hw : Worker.busy job pc ∈ s.core.workers) :
    ∀ row ∈ s.core.table.rowsOf ref, row.runId ≠ job.runId := by
  intro row hrow hid
  obtain ⟨hmem, href⟩ := RunTable.mem_rowsOf.mp hrow
  have hjob := (reaches_lineage hr).ref_eq hmem (Or.inr (Or.inr ⟨pc, hw⟩)) hid
  exact hs.core.not_busy hw (hjob.symm.trans href)

/-- A publication that goes on is for another pull request. -/
theorem AtRest.approval_ne (hs : s.AtRest ref) {k : Nat} {p : Approval}
    (hp : s.approvals[k]? = some p) (hpc : p.pc ≠ .ended) :
    p.job.ref ≠ ref ∧ ∀ row ∈ s.core.table.rowsOf ref, row.runId ≠ p.job.runId :=
  (hs.approvals p (List.mem_of_getElem? hp)).resolve_left hpc

/-- A step that starts nothing for a pull request at rest leaves its scheduler state alone. -/
theorem AtRest.core_step (hs : s.AtRest ref) (hr : (machine cfg).Reaches D s h)
    (hstep : App.step cfg s a = some (s', es)) (hquiet : ∀ e ∈ es, e.starts ref = false) :
    s'.core.AtRest ref ∧ s'.core.table.rowsOf ref = s.core.table.rowsOf ref ∧
      ∀ e, .core e ∈ es → e.job.ref ≠ ref := by
  rcases (step_cases hstep).core_step with ⟨hsame, hes⟩ | ⟨ca, hca, -⟩
  · rw [hsame]
    refine ⟨hs.core, rfl, fun e he => ?_⟩
    have hmem := mem_core_history.mpr he
    rw [hes] at hmem
    exact absurd hmem List.not_mem_nil
  · obtain ⟨hrest, hrows, hevents⟩ := hs.core.step (reaches_lineage hr) hca
      fun job hj => of_decide_eq_false (hquiet _ (mem_core_history.mp hj))
    exact ⟨hrest, hrows, fun e he => hevents e (mem_core_history.mpr he)⟩

/-- No publication for the pull request or for one of its runs is started. -/
theorem AtRest.approvals_step (hs : s.AtRest ref) (hr : (machine cfg).Reaches D s h)
    (hstep : App.step cfg s a = some (s', es)) (hquiet : ∀ e ∈ es, e.starts ref = false) :
    ∀ p ∈ s'.approvals, p.pc = .ended ∨
      p.job.ref ≠ ref ∧ ∀ row ∈ s.core.table.rowsOf ref, row.runId ≠ p.job.runId := by
  cases step_cases hstep with
  | @ask _ request run otherwise summary _ htarget =>
    rcases ask_cases (s := s) request run otherwise summary with ⟨job, hjob, heq⟩ | ⟨-, heq⟩ <;>
      rw [heq] at hquiet ⊢
    · have hne : job.ref ≠ ref := of_decide_eq_false (hquiet _ (List.mem_singleton_self _))
      obtain ⟨rfl, hfrom⟩ := job_of_ask (reaches_lineage hr) htarget hjob
      intro p hp
      rcases List.mem_append.mp hp with hp | hp
      · exact hs.approvals p hp
      · rw [List.mem_singleton.mp hp]
        refine Or.inr ⟨hne, fun row hrow hid => hne ?_⟩
        -- a run with a row is published for the pull request of its row
        obtain ⟨hmem, href⟩ := RunTable.mem_rowsOf.mp hrow
        have hstored : s.core.table.getJob job.runId = some row.job := by
          unfold RunTable.getJob
          rw [RunTable.row?_eq_some.mpr ⟨hmem, hid⟩, Option.map_some]
        rcases hfrom with ⟨hrow', -⟩ | ⟨hnone, -⟩
        · rw [hstored] at hrow'
          cases hrow'
          exact href
        · rw [hstored] at hnone
          cases hnone
    · exact hs.approvals
  | publish hp hm =>
    intro q hq
    rcases List.mem_or_eq_of_mem_set hq with hq | rfl
    · exact hs.approvals q hq
    · have hne := hs.approval_ne hp hm.not_ended
      exact Or.inr hne
  | acceptApproval hp hpc _ =>
    intro q hq
    rcases List.mem_or_eq_of_mem_set hq with hq | rfl
    · exact hs.approvals q hq
    · have hne := hs.approval_ne hp (by simp [hpc])
      exact Or.inr hne
  | crash _ => exact fun p hp => absurd hp List.not_mem_nil
  | _ => exact hs.approvals

/-- No review of its runs becomes one that nobody waits for. -/
theorem AtRest.orphans_step (hs : s.AtRest ref) (hr : (machine cfg).Reaches D s h)
    (hstep : App.step cfg s a = some (s', es)) :
    ∀ row ∈ s.core.table.rowsOf ref, row.runId ∉ s'.orphans := by
  intro row hrow
  have hworker : ∀ w ∈ s.core.workers, w.unaccepted ≠ some row.runId := by
    intro w hw hrun
    obtain ⟨job, pc, rfl, hid⟩ := (reaches_fitsJob hr w hw).run_of_unaccepted hrun
    exact hs.runId_ne hr hw row hrow hid
  have happroval : ∀ p ∈ s.approvals, p.unaccepted ≠ some row.runId := by
    intro p hp hrun
    obtain ⟨hpc, hid⟩ := ((reaches_booked hr).handled p hp).run_of_unaccepted hrun
    exact ((hs.approvals p hp).resolve_left hpc).2 row hrow hid
  cases step_cases hstep with
  | @ask _ request run otherwise summary _ _ =>
    rcases ask_cases (s := s) request run otherwise summary with ⟨job, -, heq⟩ | ⟨-, heq⟩ <;>
      rw [heq] <;> exact hs.orphans row hrow
  | exec hw _ _ =>
    intro hmem
    rcases List.mem_append.mp hmem with hmem | hmem
    · exact hs.orphans row hrow hmem
    · exact hworker _ (List.mem_of_getElem? hw) (Option.mem_toList.mp hmem)
  | publish hp _ =>
    intro hmem
    rcases List.mem_append.mp hmem with hmem | hmem
    · exact hs.orphans row hrow hmem
    · exact happroval _ (List.mem_of_getElem? hp) (Option.mem_toList.mp hmem)
  | crash _ =>
    intro hmem
    rcases List.mem_append.mp hmem with hmem | hmem
    · rcases List.mem_append.mp hmem with hmem | hmem
      · exact hs.orphans row hrow hmem
      · obtain ⟨w, hw, hrun⟩ := List.mem_filterMap.mp hmem
        exact hworker w hw hrun
    · obtain ⟨p, hp, hrun⟩ := List.mem_filterMap.mp hmem
      exact happroval p hp hrun
  | acceptOrphan _ => exact fun hmem => hs.orphans row hrow (List.mem_of_mem_eraseIdx hmem)
  | _ => exact hs.orphans row hrow

/-- The reviews staged for its runs stay as long as the process does. -/
theorem AtRest.staged_step (hs : s.AtRest ref) (hr : (machine cfg).Reaches D s h)
    (hstep : App.step cfg s a = some (s', es)) (hup : .crashed ∉ es) :
    ∀ row ∈ s.core.table.rowsOf ref, s'.staged.find row.runId = s.staged.find row.runId := by
  intro row hrow
  cases step_cases hstep with
  | @ask _ request run otherwise summary _ _ =>
    rcases ask_cases (s := s) request run otherwise summary with ⟨job, -, heq⟩ | ⟨-, heq⟩ <;>
      rw [heq]
  | @exec _ _ job pc m _ hw hm _ =>
    show m.staged.find row.runId = _
    rcases hm.stages_cases with ⟨hkeep, -⟩ | ⟨x, hstage, -⟩
    · rw [hkeep]
    · rw [hstage, StagedReviews.find_stage,
        if_neg (hs.runId_ne hr (List.mem_of_getElem? hw) row hrow)]
  | @publish _ _ p m hp hm =>
    show m.staged.find row.runId = _
    rcases hm.taken_cases with ⟨-, -, hdrop, -⟩ | ⟨hkeep, -⟩
    · rw [hdrop, StagedReviews.find_drop, if_neg ((hs.approval_ne hp hm.not_ended).2 row hrow)]
    · rw [hkeep]
  | crash _ => exact absurd (List.mem_singleton_self _) hup
  | _ => rfl

/-- A worker writes to the pull request of its job. -/
theorem ref?_of_worker (hr : (machine cfg).Reaches D s h) (hstep : step cfg s a = some (s', es))
    {run : RunId} {w : GitHubWrite} (he : .write (.worker run) w ∈ es) :
    ∃ job pc, Worker.busy job pc ∈ s.core.workers ∧ w.ref? = some job.ref := by
  cases step_cases hstep with
  | exec hw hm _ =>
    have hmem := List.mem_of_getElem? hw
    refine ⟨_, _, hmem, ?_⟩
    cases hm with
    | publish _ hreview =>
      cases List.mem_singleton.mp he
      rw [hreview]
      rfl
    | submitting hs =>
      obtain ⟨w', hw', heq⟩ := List.mem_map.mp he
      cases heq
      rw [submitStep_writes hs w hw', ref?_commentOn, (reaches_fitsJob hr _ hmem).1]
    | _ => simp at he
  | core _ _ | enqueue _ _ =>
    obtain ⟨_, -, heq⟩ := List.mem_map.mp he
    cases heq
  | chatter _ hes =>
    obtain ⟨origin, w', heq, horigin, -⟩ := hes _ he
    cases heq
    rcases horigin with heq | heq <;> cases heq
  | @ask _ request run otherwise summary _ _ =>
    rcases ask_cases (s := s) request run otherwise summary with ⟨job, -, heq⟩ | ⟨-, heq⟩ <;>
      rw [heq] at he <;> cases List.mem_singleton.mp he
  | publish _ hm => rcases hm.start_or_write he with heq | ⟨w', heq⟩ <;> cases heq
  | _ => simp at he

/-- Nothing works on the pull request, and GitHub accepts no review of its runs. -/
theorem AtRest.events_step (hs : s.AtRest ref) (hr : (machine cfg).Reaches D s h)
    (hstep : App.step cfg s a = some (s', es)) (hquiet : ∀ e ∈ es, e.starts ref = false) :
    ∀ e ∈ es, ¬ e.WorksOn ref ∧ ∀ row ∈ s.core.table.rowsOf ref, e ≠ .accepted row.runId := by
  intro e he
  have hbusy : ∀ {i : Nat} {job : ReviewJob} {pc : ExecPc},
      s.core.workers[i]? = some (.busy job pc) → job.ref ≠ ref :=
    fun hw => hs.core.not_busy (List.mem_of_getElem? hw)
  cases event_of_step hstep he with
  | core _ _ _ => exact ⟨(hs.core_step hr hstep hquiet).2.2 _ he, by simp⟩
  | chatter horigin _ => rcases horigin with rfl | rfl <;> exact ⟨id, by simp⟩
  | asked => exact ⟨id, by simp⟩
  | fetched _ hw _ => exact ⟨hbusy hw, by simp⟩
  | ran hw _ => exact ⟨hbusy hw, by simp⟩
  | staged hw _ => exact ⟨hbusy hw, by simp⟩
  | worker _ _ =>
    obtain ⟨job, pc, hw, href⟩ := ref?_of_worker hr hstep he
    refine ⟨fun hworks => hs.core.not_busy hw ?_, by simp⟩
    exact Option.some.inj (href.symm.trans hworks)
  | publishing hp hm _ => exact ⟨(hs.approval_ne hp hm.not_ended).1, by simp⟩
  | approval hp hm hes hmem =>
    have hbooked := (reaches_booked hr).handled _ (List.mem_of_getElem? hp)
    have href := hm.ref?_eq (fun review pc hpc => (hbooked.fitsJob hpc).1) (hes ▸ hmem)
    refine ⟨fun hworks => (hs.approval_ne hp hm.not_ended).1 ?_, by simp⟩
    exact Option.some.inj (href.symm.trans hworks)
  | crashed => exact ⟨id, by simp⟩
  | pushed => exact ⟨id, by simp⟩
  | acceptedWorker hw _ _ _ =>
    have hmem := List.mem_of_getElem? hw
    refine ⟨id, fun row hrow heq => hs.runId_ne hr hmem row hrow ?_⟩
    exact (AppEvent.accepted.inj heq).symm.trans (reaches_fitsJob hr _ hmem).2
  | acceptedApproval hp hpc =>
    have hbooked := (reaches_booked hr).handled _ (List.mem_of_getElem? hp)
    refine ⟨id, fun row hrow heq => (hs.approval_ne hp (by simp [hpc])).2 row hrow ?_⟩
    exact (AppEvent.accepted.inj heq).symm.trans (hbooked.fitsJob hpc).2
  | acceptedOrphan _ hk =>
    refine ⟨id, fun row hrow heq => hs.orphans row hrow ?_⟩
    cases heq
    exact List.mem_of_getElem? hk

/-- What a history `h` from the state `s` to the state `t` does to a pull request that is left
alone: nothing but that a review staged for it is lost when the process dies. -/
structure LeftAlone (s t : App) (h : List AppEvent) (ref : PrRef) : Prop where
  atRest : t.AtRest ref
  rows : t.core.table.rowsOf ref = s.core.table.rowsOf ref
  staged : .crashed ∉ h → ∀ row ∈ s.core.table.rowsOf ref,
    t.staged.find row.runId = s.staged.find row.runId
  idle : ∀ e ∈ h, ¬ e.WorksOn ref
  unaccepted : ∀ row ∈ s.core.table.rowsOf ref, .accepted row.runId ∉ h

/-- **The step lemma.** -/
theorem LeftAlone.step {t' : App} {h' : List AppEvent} (ha : LeftAlone s t h' ref)
    (hr : (machine cfg).Reaches D t h) (hstep : App.step cfg t a = some (t', es))
    (hquiet : ∀ e ∈ es, e.starts ref = false) : LeftAlone s t' (h' ++ es) ref := by
  have hs := ha.atRest
  obtain ⟨hcore, hrows, -⟩ := hs.core_step hr hstep hquiet
  have hevents := hs.events_step hr hstep hquiet
  refine ⟨⟨hcore, ?_, ?_⟩, hrows.trans ha.rows, ?_, ?_, ?_⟩
  · rw [hrows]
    exact hs.approvals_step hr hstep hquiet
  · rw [hrows]
    exact hs.orphans_step hr hstep
  · intro hup row hrow
    rw [List.mem_append, not_or] at hup
    have hkept := hs.staged_step hr hstep hup.2 row (by rw [ha.rows]; exact hrow)
    exact hkept.trans (ha.staged hup.1 row hrow)
  · intro e he
    rcases List.mem_append.mp he with he | he
    · exact ha.idle e he
    · exact (hevents e he).1
  · intro row hrow he
    rcases List.mem_append.mp he with he | he
    · exact ha.unaccepted row hrow he
    · exact (hevents _ he).2 row (by rw [ha.rows]; exact hrow) rfl

/-- **A pull request at rest is left alone.** Whatever the service does for other pull requests,
and however often it is restarted, a pull request at rest stays so as long as no run of it is
started and no publication for it asked for: its rows stay as they are, its staged reviews stay
until the process dies, and nothing works on it. -/
theorem at_rest_left_alone (cfg : AppConfig) {s t : App} {h h' : List AppEvent} {ref : PrRef}
    (hr : (machine cfg).Reachable s h) (hrest : s.AtRest ref)
    (hr' : ((machine cfg).startingAt s).Reachable t h') (hquiet : ∀ e ∈ h', e.starts ref = false) :
    LeftAlone s t h' ref := by
  revert hquiet
  refine hr'.invariant
    (I := fun t h' => (∀ e ∈ h', e.starts ref = false) → LeftAlone s t h' ref) ?_ ?_
  · rintro t rfl -
    exact ⟨hrest, rfl, fun _ _ _ => rfl, by simp, by simp⟩
  · intro t h' a t' es hreach ih _ hstep hquiet
    have hbefore := ih fun e he => hquiet e (List.mem_append_left _ he)
    exact hbefore.step (hr.append hreach) hstep fun e he => hquiet e (List.mem_append_right _ he)

/-- The job of the second pull request. -/
def secondJob : ReviewJob where
  owner := "me"
  repo := "app"
  pr := some 8
  head := some "b"
  runId := "r2"

/-- The second pull request is opened, and its review is staged. -/
def secondRun : List AppAction :=
  openPr 8 "b" "r2" ++ [.watch 1 .go, .watch 1 (.polled (.runs []))] ++ runJob 0 "b" ++
    [.exec 0 (.reviewed (some {}) []), .exec 0 .slack]

/-- The first pull request waits for its approval while the second one is reviewed. -/
theorem at_rest_left_alone_second : ∃ s t : App, ∃ h h' : List AppEvent,
    (machine (smallConfig true 1)).Reachable s h ∧ .staged firstJob ⟨"", []⟩ ∈ h ∧
      ((machine (smallConfig true 1)).startingAt s).Reachable t h' ∧
      .staged secondJob ⟨"", []⟩ ∈ h' ∧ LeftAlone s t h' firstJob.ref := by
  obtain ⟨s, h, hr, hcheck⟩ := Machine.exists_reachable_run (M := machine (smallConfig true 1))
    stagedRun
    (fun s h => h.contains (.staged firstJob ⟨"", []⟩) && decide (s.AtRest firstJob.ref) &&
      (((machine (smallConfig true 1)).startingAt s).run (fun _ _ _ => true) s [] secondRun).any
        fun r => r.2.contains (.staged secondJob ⟨"", []⟩) &&
          r.2.all fun e => !e.starts firstJob.ref)
    small_new (by decide +kernel)
  simp only [Bool.and_eq_true, List.contains_iff_mem, decide_eq_true_eq,
    Option.any_eq_true] at hcheck
  obtain ⟨⟨hfirst, hrest⟩, ⟨t, h'⟩, hrun, hsecond, hquiet⟩ := hcheck
  have hr' : ((machine (smallConfig true 1)).startingAt s).Reachable t h' :=
    Machine.Reaches.run (fun _ _ _ _ => trivial) (.start rfl) hrun
  have hquiet' : ∀ e ∈ h', e.starts firstJob.ref = false := by
    intro e he
    simpa using List.all_eq_true.mp hquiet e he
  exact ⟨s, t, h, h', hr, hfirst, hr', hsecond, at_rest_left_alone _ hr hrest hr' hquiet'⟩

end App

end PrReviewer.Model
