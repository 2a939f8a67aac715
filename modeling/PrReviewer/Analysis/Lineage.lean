import PrReviewer.Analysis.TableSteps
import PrReviewer.Model.GitHubClient

/-!
# Where jobs come from

In a new installation every job of the scheduler, in a row, a watcher, the queue or a worker,
stems from one insertion of its run: same repository and pull request, and the same head,
unless the run was enqueued without one and the pipeline filled it in.
-/

set_option autoImplicit false

namespace PrReviewer.Model

open PrReviewer.Library

variable {π : Type}

/-! ## Jobs of one run -/

/-- `b` is a later job of the run of `a`: a head that was there has stayed. -/
structure SameRun (a b : ReviewJob) : Prop where
  runId : b.runId = a.runId
  ref : b.ref = a.ref
  head : truthy a.head = true → b.head = a.head

/-- `b` is a job of the run of `a` with the same head, up to `None` and `""`. -/
structure SameTarget (a b : ReviewJob) : Prop where
  runId : b.runId = a.runId
  ref : b.ref = a.ref
  head : orEmpty b.head = orEmpty a.head

/-- `b` is a job of the run of `a` for the same review: the head and the model are the same, up to
`None` and `""`. -/
structure SameJob (a b : ReviewJob) : Prop where
  target : SameTarget a b
  model : orEmpty b.model = orEmpty a.model

/-- A job is of its own run. -/
theorem SameRun.refl (a : ReviewJob) : SameRun a a :=
  ⟨rfl, rfl, fun _ => rfl⟩

/-- Being of one run is transitive. -/
theorem SameRun.trans {a b c : ReviewJob} (hab : SameRun a b) (hbc : SameRun b c) :
    SameRun a c := by
  refine ⟨hbc.runId.trans hab.runId, hbc.ref.trans hab.ref, fun ha => ?_⟩
  have hb := hab.head ha
  rw [hbc.head (by rw [hb]; exact ha), hb]

/-- A job has its own target. -/
theorem SameTarget.refl (a : ReviewJob) : SameTarget a a :=
  ⟨rfl, rfl, rfl⟩

/-- Having one target is transitive. -/
theorem SameTarget.trans {a b c : ReviewJob} (hab : SameTarget a b) (hbc : SameTarget b c) :
    SameTarget a c :=
  ⟨hbc.runId.trans hab.runId, hbc.ref.trans hab.ref, hbc.head.trans hab.head⟩

/-- A job is the same as itself. -/
theorem SameJob.refl (a : ReviewJob) : SameJob a a :=
  ⟨.refl a, rfl⟩

/-- Being the same job is transitive. -/
theorem SameJob.trans {a b c : ReviewJob} (hab : SameJob a b) (hbc : SameJob b c) : SameJob a c :=
  ⟨hab.target.trans hbc.target, hbc.model.trans hab.model⟩

/-- The two empty heads apart, a job for the same target has the same head. -/
theorem SameTarget.sameRun {a b : ReviewJob} (h : SameTarget a b) : SameRun a b := by
  refine ⟨h.runId, h.ref, fun ha => ?_⟩
  obtain ⟨t, hat, hne⟩ := truthy_iff.mp ha
  have hb : truthy b.head = true := by
    rw [truthy_iff_orEmpty, h.head, hat]
    exact hne
  obtain ⟨u, hbu, -⟩ := truthy_iff.mp hb
  have hhead := h.head
  rw [hat, hbu] at hhead
  rw [hat, hbu]
  exact congrArg some hhead

/-- Jobs with one target both have a head or both have none. -/
theorem SameTarget.truthy_iff {a b : ReviewJob} (h : SameTarget a b) :
    truthy b.head = true ↔ truthy a.head = true := by
  rw [truthy_iff_orEmpty, truthy_iff_orEmpty, h.head]

/-- A job stays of its run when its head is filled in. -/
theorem sameRun_fill (job : ReviewJob) (sha : Option (Option String)) :
    SameRun job (job.fill sha) := by
  cases sha with
  | none => exact .refl job
  | some sha =>
    refine ⟨job.fillHead_runId sha, job.fillHead_ref sha, fun h => ?_⟩
    show (job.fillHead sha).head = job.head
    rw [ReviewJob.fillHead_of_truthy sha h]

/-- The row of a job holds the same job. -/
theorem sameJob_rowOf {job : ReviewJob} {pr : Int} (hpr : job.pr = some pr) (now : Nat) :
    SameJob job (RunTable.rowOf job pr now).job := by
  refine ⟨⟨rfl, ?_, rfl⟩, rfl⟩
  simp [ReviewJob.ref, Row.job, RunTable.rowOf, hpr]

/-- A restamped row holds the job of an old one. -/
theorem sameJob_of_restamped {t t' : RunTable} (h : t.Restamped t') {row : Row}
    (hrow : row ∈ t'.rows) : ∃ old ∈ t.rows, SameJob old.job row.job := by
  obtain ⟨old, hold, rfl | ⟨st, now, rfl⟩⟩ := h.mem hrow
  · exact ⟨_, hold, .refl _⟩
  · exact ⟨old, hold, ⟨rfl, rfl, rfl⟩, rfl⟩

namespace Sched

/-! ## The jobs of a state -/

/-- A row or a watcher has the job. -/
def OnRecord (s : Sched π) (job : ReviewJob) : Prop :=
  (∃ row ∈ s.table.rows, row.job = job) ∨ ∃ w ∈ s.watchers, w.job = job

/-- The queue or a worker has the job. -/
def InHand (s : Sched π) (job : ReviewJob) : Prop :=
  job ∈ s.queue ∨ ∃ pc, Worker.busy job pc ∈ s.workers

variable {cfg : SchedConfig π} {s s' : Sched π} {a : SchedAction π} {es : List SchedEvent}
  {job : ReviewJob}

/-- The jobs of the watchers after a watcher's move, and what it queues. -/
theorem WatchMove.jobs {i : Nat} {w : Watcher} (hw : s.watchers[i]? = some w)
    (h : WatchMove s i w s' es) :
    (∀ w' ∈ s'.watchers, ∃ w₀ ∈ s.watchers, w'.job = w₀.job) ∧
      ∀ job ∈ s'.queue, job ∈ s.queue ∨ job = w.job := by
  have hset : ∀ {w' : Watcher}, w'.job = w.job →
      ∀ x ∈ s.watchers.set i w', ∃ w₀ ∈ s.watchers, x.job = w₀.job := by
    intro w' hj x hx
    rcases List.mem_or_eq_of_mem_set hx with hx | rfl
    · exact ⟨x, hx, rfl⟩
    · exact ⟨w, List.mem_of_getElem? hw, hj⟩
  cases h with
  | goOn hj _ _ => exact ⟨hset hj, fun job hjob => Or.inl hjob⟩
  | leave hj _ _ => exact ⟨hset hj, fun job hjob => Or.inl hjob⟩
  | @pass w' _ hj _ _ =>
    constructor
    · intro x hx
      have hx' : x ∈ ((s.writeStatus w'.job.runId .queued).putBack w'.job).watchers.set i
          { w' with pc := .ended } := hx
      rw [putBack_watchers] at hx'
      have hj' : ({ w' with pc := .ended } : Watcher).job = w.job := hj
      exact hset hj' x hx'
    · intro job hjob
      have hjob' : job ∈ ((s.writeStatus w'.job.runId .queued).putBack w'.job).queue := hjob
      exact (mem_queue_putBack hjob').imp_right fun heq => heq.trans hj
  | close hj _ _ _ => exact ⟨hset hj, fun job hjob => Or.inl hjob⟩

/-- The rows after a step stem from rows of before, or from the run it inserts. -/
theorem step_rows (h : Sched.step cfg s a = some (s', es)) {row : Row}
    (hrow : row ∈ s'.table.rows) :
    (∃ old ∈ s.table.rows, SameJob old.job row.job) ∨
      ∃ job₀, .inserted job₀ ∈ es ∧ SameJob job₀ row.job := by
  rcases step_table h with ⟨hstamp, -⟩ | ⟨r, d, cause, -, -, -, henqueue⟩
  · exact Or.inl (sameJob_of_restamped hstamp hrow)
  rcases enqueue_cases s r d cause with ⟨j, table, -, -, -, -, hins, heq⟩ | ⟨table, htab, heq⟩
  · obtain ⟨rfl, rfl⟩ := Prod.mk.inj (henqueue.symm.trans heq)
    have hspec := (RunTable.insertRun_spec s.table j s.now).1
    rw [hins] at hspec
    rcases hspec row hrow with hrow | ⟨-, pr, hpr, rfl⟩
    · exact Or.inl ⟨row, hrow, .refl _⟩
    · exact Or.inr ⟨j, List.mem_singleton.mpr rfl, sameJob_rowOf hpr _⟩
  · obtain ⟨rfl, rfl⟩ := Prod.mk.inj (henqueue.symm.trans heq)
    left
    rcases htab with rfl | ⟨j, -, -, hins⟩
    · exact ⟨row, hrow, .refl _⟩
    · have hspec := (RunTable.insertRun_spec s.table j s.now).1
      rw [hins] at hspec
      rcases hspec row hrow with hrow | ⟨hb, -⟩
      · exact ⟨row, hrow, .refl _⟩
      · cases hb

/-- The jobs of the watchers after a step were on record, or stem from the run it inserts. -/
theorem step_watchers (h : Sched.step cfg s a = some (s', es)) {w : Watcher}
    (hw : w ∈ s'.watchers) :
    (∃ job₀, s.OnRecord job₀ ∧ SameJob job₀ w.job) ∨
      ∃ job₀, .inserted job₀ ∈ es ∧ SameJob job₀ w.job := by
  have hkept : ∀ {w : Watcher}, w ∈ s.watchers → ∃ job₀, s.OnRecord job₀ ∧ SameJob job₀ w.job :=
    fun hw => ⟨_, Or.inr ⟨_, hw, rfl⟩, .refl _⟩
  cases step_cases h with
  | tick d => exact Or.inl (hkept hw)
  | @enqueue r d cause _ _ =>
    rcases enqueue_cases s r d cause with ⟨j, table, -, -, -, -, -, heq⟩ | ⟨table, -, heq⟩
    · rw [heq] at hw ⊢
      rcases List.mem_append.mp hw with hw | hw
      · exact Or.inl (hkept hw)
      · rw [List.mem_singleton.mp hw]
        exact Or.inr ⟨j, List.mem_singleton.mpr rfl, .refl _⟩
    · rw [heq] at hw
      exact Or.inl (hkept hw)
  | watch hstep =>
    obtain ⟨x, hx, hm⟩ := watchStep_move hstep
    obtain ⟨w₀, hw₀, hjob⟩ := (hm.jobs hx).1 w hw
    rw [hjob]
    exact Or.inl (hkept hw₀)
  | wake _ _ =>
    rw [(dequeue_frame cfg s _).2.2.2.1] at hw
    exact Or.inl (hkept hw)
  | timeout _ _ => exact Or.inl (hkept hw)
  | advance _ => exact Or.inl (hkept hw)
  | @finish i out pc job' _ =>
    have hwatchers : (s.finish cfg i job' out).watchers = s.watchers :=
      (dequeue_frame cfg _ i).2.2.2.1.trans (settle_frame cfg s job' out).2.2.2.2.2.1
    rw [hwatchers] at hw
    exact Or.inl (hkept hw)
  | crash _ => exact absurd hw List.not_mem_nil
  | boot _ =>
    -- the watchers of a boot are those of the open rows
    obtain ⟨table, queued, rfl, -, hboot⟩ := boot_eq cfg s
    rw [hboot] at hw
    obtain ⟨j, hj, rfl⟩ := List.mem_map.mp hw
    obtain ⟨row, hrow, -, rfl⟩ := RunTable.mem_reconcileOpenJobs.mp (List.mem_filter.mp hj).1
    obtain ⟨old, hold, hsame⟩ :=
      sameJob_of_restamped (RunTable.restamped_stampWhere s.table _ .queued s.now) hrow
    exact Or.inl ⟨_, Or.inl ⟨old, hold, rfl⟩, hsame⟩

/-- **The jobs on record after a step** are those of before, or that of the run it inserts. -/
theorem step_onRecord (h : Sched.step cfg s a = some (s', es)) (hj : s'.OnRecord job) :
    (∃ job₀, s.OnRecord job₀ ∧ SameJob job₀ job) ∨
      ∃ job₀, .inserted job₀ ∈ es ∧ SameJob job₀ job := by
  rcases hj with ⟨row, hrow, rfl⟩ | ⟨w, hw, rfl⟩
  · rcases step_rows h hrow with ⟨old, hold, hsame⟩ | hinserted
    · exact Or.inl ⟨_, Or.inl ⟨old, hold, rfl⟩, hsame⟩
    · exact Or.inr hinserted
  · exact step_watchers h hw

/-- Waking the workers up changes no busy one. -/
theorem busy_wake {l l' : List (Worker π)} {i : Nat} {pc : π}
    (hl : l' = l ∨ l' = l.map Worker.wake) :
    l'[i]? = some (.busy job pc) ↔ l[i]? = some (.busy job pc) := by
  rcases hl with rfl | rfl
  · exact Iff.rfl
  · rw [List.getElem?_map, Option.map_eq_some_iff]
    constructor
    · rintro ⟨w, hw, hbusy⟩
      cases w <;> simp only [Worker.wake, reduceCtorEq] at hbusy
      rw [hw, hbusy]
    · intro hw
      exact ⟨_, hw, rfl⟩

/-- Starting a run on one worker leaves the other workers. -/
theorem dequeue_other {i j : Nat} (hij : j ≠ i) :
    (s.dequeue cfg i).workers[j]? = s.workers[j]? := by
  rcases (dequeue_frame cfg s i).2.2.2.2.1 with ⟨job', -, -, -, hworkers, -⟩ | ⟨-, hworkers, -⟩ <;>
    rw [hworkers, List.getElem?_set_ne (Ne.symm hij)]

/-- The worker of a step is busy afterwards with a job it claimed, the others are as before. -/
theorem busy_dequeue {i j : Nat} {pc : π} (hw : (s.dequeue cfg i).workers[j]? = some (.busy job pc)) :
    (j ≠ i ∧ s.workers[j]? = some (.busy job pc)) ∨
      (j = i ∧ job ∈ s.queue ∧ s.table.statusOf job.runId = some .queued ∧ pc = cfg.start) := by
  by_cases hij : j = i
  · right
    subst hij
    rcases (dequeue_frame cfg s j).2.2.2.2.1 with
        ⟨job', hq, hst, -, hworkers, -⟩ | ⟨-, hworkers, -⟩ <;>
      rw [hworkers, List.getElem?_set_self'] at hw <;>
      obtain ⟨w, -, hw⟩ := Option.map_eq_some_iff.mp hw <;>
      cases hw
    exact ⟨rfl, hq, hst, rfl⟩
  · rw [dequeue_other hij] at hw
    exact Or.inl ⟨hij, hw⟩

/-- **The busy workers after a step** were busy with the same, or their pipeline went on, or
they have just claimed their job from the queue. -/
theorem step_busy (h : Sched.step cfg s a = some (s', es)) {j : Nat} {pc : π}
    (hw : s'.workers[j]? = some (.busy job pc)) :
    (s.workers[j]? = some (.busy job pc) ∧ (∀ sha pc', a ≠ .advance j sha pc') ∧
        ∀ out, a ≠ .finish j out) ∨
      (∃ sha job' pc', a = .advance j sha pc ∧ s.workers[j]? = some (.busy job' pc') ∧
        job = job'.fill sha) ∨
      ∃ t : Sched π, (t = s ∨ ∃ out job' pc', a = .finish j out ∧
          s.workers[j]? = some (.busy job' pc') ∧ t = (s.settle cfg job' out).release j) ∧
        job ∈ t.queue ∧ t.table.statusOf job.runId = some .queued ∧ pc = cfg.start := by
  cases step_cases h with
  | tick d => exact Or.inl ⟨hw, by simp, by simp⟩
  | @enqueue r d cause _ _ =>
    exact Or.inl ⟨(busy_wake (enqueue_frame s r d cause).2.2.2.2.1).mp hw, by simp, by simp⟩
  | watch hstep =>
    obtain ⟨w, -, hm⟩ := watchStep_move hstep
    exact Or.inl ⟨(busy_wake hm.frame.2.2.2.2.2).mp hw, by simp, by simp⟩
  | wake hidle _ =>
    rcases busy_dequeue hw with ⟨-, hw⟩ | ⟨-, hq, hst, hpc⟩
    · exact Or.inl ⟨hw, by simp, by simp⟩
    · exact Or.inr (Or.inr ⟨s, Or.inl rfl, hq, hst, hpc⟩)
  | @timeout i w hwait _ =>
    left
    by_cases hij : j = i
    · subst hij
      have hw' : (s.workers.set j .resting)[j]? = some (.busy job pc) := hw
      rw [List.getElem?_set_self'] at hw'
      obtain ⟨w, -, hw'⟩ := Option.map_eq_some_iff.mp hw'
      cases hw'
    · have hw' : (s.workers.set i .resting)[j]? = some (.busy job pc) := hw
      rw [List.getElem?_set_ne (Ne.symm hij)] at hw'
      exact ⟨hw', by simp, by simp⟩
  | @advance i sha pc₁ pc₀ job₀ hbusy =>
    by_cases hij : j = i
    · right
      left
      subst hij
      have hw' : (s.workers.set j (.busy (job₀.fill sha) pc₁))[j]? = some (.busy job pc) := hw
      rw [List.getElem?_set_self'] at hw'
      obtain ⟨w, -, hw'⟩ := Option.map_eq_some_iff.mp hw'
      cases hw'
      exact ⟨sha, job₀, pc₀, rfl, hbusy, rfl⟩
    · left
      have hw' : (s.workers.set i (.busy (job₀.fill sha) pc₁))[j]? = some (.busy job pc) := hw
      rw [List.getElem?_set_ne (Ne.symm hij)] at hw'
      refine ⟨hw', fun sha' pc' heq => ?_, by simp⟩
      cases heq
      exact hij rfl
  | @finish i out pc₀ job₀ hbusy =>
    rcases busy_dequeue hw with ⟨hij, hw'⟩ | ⟨hij, hq, hst, hpc⟩
    · left
      have hw₁ : ((s.settle cfg job₀ out).workers.set i .ready)[j]? = some (.busy job pc) := hw'
      rw [List.getElem?_set_ne (Ne.symm hij), settle_workers] at hw₁
      refine ⟨hw₁, by simp, fun out' heq => ?_⟩
      cases heq
      exact hij rfl
    · subst hij
      exact Or.inr (Or.inr ⟨_, Or.inr ⟨out, job₀, pc₀, rfl, hbusy, rfl⟩, hq, hst, hpc⟩)
  | crash hup => exact absurd hw (by simp [crash])
  | boot hup =>
    obtain ⟨table, queued, -, -, hboot⟩ := boot_eq cfg s
    rw [hboot] at hw
    have hmem := List.mem_of_getElem? hw
    exact absurd (List.eq_of_mem_replicate hmem) (by simp)

/-- **A busy worker stays busy with its job** until its pipeline moves or the process dies. -/
theorem busy_kept (hg : Grounded cfg s) (h : Sched.step cfg s a = some (s', es)) {j : Nat} {pc : π}
    (hw : s.workers[j]? = some (.busy job pc)) :
    s'.workers[j]? = some (.busy job pc) ∨ (∃ sha pc', a = .advance j sha pc') ∨
      (∃ out, a = .finish j out) ∨ a = .crash := by
  -- the worker of a step is not this one
  have hother : ∀ {i : Nat} {w : Worker π}, s.workers[i]? = some w → w.idle = true → j ≠ i := by
    rintro i w hi hidle rfl
    rw [hw] at hi
    cases hi
    cases hidle
  cases step_cases h with
  | tick d => exact Or.inl hw
  | @enqueue r d cause _ _ => exact Or.inl ((busy_wake (enqueue_frame s r d cause).2.2.2.2.1).mpr hw)
  | watch hstep =>
    obtain ⟨w, -, hm⟩ := watchStep_move hstep
    exact Or.inl ((busy_wake hm.frame.2.2.2.2.2).mpr hw)
  | wake hi hidle => exact Or.inl ((dequeue_other (hother hi hidle)).trans hw)
  | @timeout i w hi hidle =>
    left
    show (s.workers.set i .resting)[j]? = _
    rw [List.getElem?_set_ne (Ne.symm (hother hi hidle)), hw]
  | @advance i sha pc₁ pc₀ job₀ _ =>
    by_cases hij : j = i
    · subst hij
      exact Or.inr (Or.inl ⟨sha, pc₁, rfl⟩)
    · left
      show (s.workers.set i (.busy (job₀.fill sha) pc₁))[j]? = _
      rw [List.getElem?_set_ne (Ne.symm hij), hw]
  | @finish i out pc₀ job₀ _ =>
    by_cases hij : j = i
    · subst hij
      exact Or.inr (Or.inr (Or.inl ⟨out, rfl⟩))
    · left
      refine (dequeue_other hij).trans ?_
      show ((s.settle cfg job₀ out).workers.set i .ready)[j]? = _
      rw [List.getElem?_set_ne (Ne.symm hij), settle_workers, hw]
  | crash _ => exact Or.inr (Or.inr (Or.inr rfl))
  | boot hdown =>
    rw [← hg.down hdown] at hw
    exact absurd hw (by simp [crash])

/-- The jobs a worker may claim after its call has ended. -/
theorem mem_queue_settle {job' : ReviewJob} {out : Outcome} {i : Nat}
    (hq : job ∈ ((s.settle cfg job' out).release i).queue) :
    job ∈ s.queue ∨ SameJob job' job := by
  rcases (settle_frame cfg s job' out).2.2.2.2.2.2.2 job hq with hq | rfl
  · exact Or.inl hq
  · exact Or.inr ⟨⟨rfl, rfl, rfl⟩, rfl⟩

/-- **The jobs in hand after a step** are those of before, or on record then, or that of a worker
whose pipeline has filled in its head, or that of the run it inserts. -/
theorem step_inHand (h : Sched.step cfg s a = some (s', es)) (hj : s'.InHand job) :
    (∃ job₀, (s.OnRecord job₀ ∨ s.InHand job₀) ∧ SameJob job₀ job) ∨
      (∃ i sha pc job₀ pc₀, a = .advance i sha pc ∧ s.workers[i]? = some (Worker.busy job₀ pc₀) ∧
        job = job₀.fill sha) ∨
      ∃ job₀, .inserted job₀ ∈ es ∧ SameJob job₀ job := by
  have hqueue : ∀ {job : ReviewJob}, job ∈ s.queue →
      ∃ job₀, (s.OnRecord job₀ ∨ s.InHand job₀) ∧ SameJob job₀ job :=
    fun hq => ⟨_, Or.inr (Or.inl hq), .refl _⟩
  have hbusy : ∀ {job' : ReviewJob} {i : Nat} {pc : π}, s.workers[i]? = some (.busy job' pc) →
      SameJob job' job → ∃ job₀, (s.OnRecord job₀ ∨ s.InHand job₀) ∧ SameJob job₀ job :=
    fun hw hsame => ⟨_, Or.inr (Or.inr ⟨_, List.mem_of_getElem? hw⟩), hsame⟩
  have hsettle : ∀ {job' : ReviewJob} {out : Outcome} {i : Nat} {pc : π},
      s.workers[i]? = some (.busy job' pc) → job ∈ ((s.settle cfg job' out).release i).queue →
      ∃ job₀, (s.OnRecord job₀ ∨ s.InHand job₀) ∧ SameJob job₀ job := by
    intro job' out i pc hw hq
    rcases mem_queue_settle hq with hq | hsame
    · exact hqueue hq
    · exact hbusy hw hsame
  rcases hj with hq | ⟨pc, hmem⟩
  · cases step_cases h with
    | tick d => exact Or.inl (hqueue hq)
    | @enqueue r d cause _ _ =>
      rcases enqueue_cases s r d cause with
        ⟨j, table, -, -, -, -, -, heq⟩ | ⟨table, -, heq⟩
      · rw [heq] at hq ⊢
        rcases List.mem_append.mp hq with hq | hq
        · exact Or.inl (hqueue hq)
        · rw [List.mem_singleton.mp hq]
          exact Or.inr (Or.inr ⟨j, List.mem_singleton.mpr rfl, .refl _⟩)
      · rw [heq] at hq
        exact Or.inl (hqueue hq)
    | watch hstep =>
      obtain ⟨w, hw, hm⟩ := watchStep_move hstep
      rcases (hm.jobs hw).2 job hq with hq | rfl
      · exact Or.inl (hqueue hq)
      · exact Or.inl ⟨_, Or.inl (Or.inr ⟨w, List.mem_of_getElem? hw, rfl⟩), .refl _⟩
    | wake _ _ => exact Or.inl (hqueue ((dequeue_frame cfg s _).2.2.2.2.2 job hq))
    | timeout _ _ => exact Or.inl (hqueue hq)
    | advance _ => exact Or.inl (hqueue hq)
    | finish hw => exact Or.inl (hsettle hw ((dequeue_frame cfg _ _).2.2.2.2.2 job hq))
    | crash _ => exact absurd hq List.not_mem_nil
    | boot _ =>
      obtain ⟨table, queued, rfl, -, hboot⟩ := boot_eq cfg s
      rw [hboot] at hq
      obtain ⟨row, hrow, -, rfl⟩ := RunTable.mem_reconcileOpenJobs.mp hq
      obtain ⟨old, hold, hsame⟩ :=
        sameJob_of_restamped (RunTable.restamped_stampWhere s.table _ .queued s.now) hrow
      exact Or.inl ⟨_, Or.inl (Or.inl ⟨old, hold, rfl⟩), hsame⟩
  · obtain ⟨j, hw⟩ := List.mem_iff_getElem?.mp hmem
    rcases step_busy h hw with
      ⟨hw₀, -⟩ | ⟨sha, job', pc', ha, hw₀, hfill⟩ |
        ⟨t, rfl | ⟨out, job', pc', -, hw₀, rfl⟩, hq, -⟩
    · exact Or.inl (hbusy hw₀ (.refl _))
    · exact Or.inr (Or.inl ⟨j, sha, pc, job', pc', ha, hw₀, hfill⟩)
    · exact Or.inl (hqueue hq)
    · exact Or.inl (hsettle hw₀ hq)

/-- **The jobs after a step** were there before, or one comes from a worker whose pipeline has
filled in its head, or from the run the step inserts. -/
theorem step_jobs (h : Sched.step cfg s a = some (s', es)) (hj : s'.OnRecord job ∨ s'.InHand job) :
    (∃ job₀, (s.OnRecord job₀ ∨ s.InHand job₀) ∧ SameJob job₀ job) ∨
      (∃ i sha pc job₀ pc₀, a = .advance i sha pc ∧ s.workers[i]? = some (Worker.busy job₀ pc₀) ∧
        job = job₀.fill sha) ∨
      ∃ job₀, .inserted job₀ ∈ es ∧ SameJob job₀ job := by
  rcases hj with hj | hj
  · rcases step_onRecord h hj with ⟨job₀, hj₀, hsame⟩ | hinserted
    · exact Or.inl ⟨job₀, Or.inl hj₀, hsame⟩
    · exact Or.inr (Or.inr hinserted)
  · exact step_inHand h hj

/-! ## The lineage of a job -/

/-- Only `enqueue` inserts a run, under an id that was never used. -/
theorem inserted_of_step (h : Sched.step cfg s a = some (s', es)) (hj : .inserted job ∈ es) :
    job.runId ∉ s.issued ∧ job.runId ∈ s'.issued ∧ es = [.inserted job] := by
  cases step_cases h with
  | @enqueue r d cause hup hr =>
    rcases enqueue_cases s r d cause with
      ⟨j, table, hid, -, -, -, -, heq⟩ | ⟨table, -, heq⟩
    · rw [heq] at hj ⊢
      cases List.mem_singleton.mp hj
      rw [hid]
      exact ⟨hr, List.mem_cons_self, rfl⟩
    · rw [heq] at hj
      exact absurd hj List.not_mem_nil
  | watch hstep =>
    obtain ⟨w, hw, -⟩ := watchStep_move hstep
    rcases watchStep_events hw hstep _ hj with ⟨o, he, -⟩ | ⟨body, he⟩ <;> cases he
  | _ => exact absurd hj List.not_mem_nil

/-- Every job of the scheduler stems from the insertion of its run, and a run is inserted
once. -/
structure Lineage (s : Sched π) (h : List SchedEvent) : Prop where
  issued : ∀ job, .inserted job ∈ h → job.runId ∈ s.issued
  unique : ∀ a b, .inserted a ∈ h → .inserted b ∈ h → a.runId = b.runId → a = b
  onRecord : ∀ job, s.OnRecord job → ∃ job₀, .inserted job₀ ∈ h ∧ SameTarget job₀ job
  inHand : ∀ job, s.InHand job → ∃ job₀, .inserted job₀ ∈ h ∧ SameRun job₀ job

/-- A run with a status was issued. -/
theorem Lineage.issued_of_status {h : List SchedEvent} {r : RunId} (hl : Lineage s h) {st : RunStatus}
    (hst : s.table.statusOf r = some st) : r ∈ s.issued := by
  obtain ⟨row, hrow, hid, -⟩ := RunTable.statusOf_eq_some.mp hst
  obtain ⟨job₀, hj, hsame⟩ := hl.onRecord row.job (Or.inl ⟨row, hrow, rfl⟩)
  have hrun : r = job₀.runId := hid.symm.trans hsame.runId
  rw [hrun]
  exact hl.issued job₀ hj

/-- A run that a worker is busy with was issued. -/
theorem Lineage.issued_of_busy {h : List SchedEvent} (hl : Lineage s h) {pc : π}
    (hw : Worker.busy job pc ∈ s.workers) : job.runId ∈ s.issued := by
  obtain ⟨job₀, hj, hsame⟩ := hl.inHand job (Or.inr ⟨pc, hw⟩)
  rw [hsame.runId]
  exact hl.issued job₀ hj

/-- Every step keeps the lineage. -/
theorem Lineage.step {h : List SchedEvent} (hl : Lineage s h)
    (hstep : Sched.step cfg s a = some (s', es)) : Lineage s' (h ++ es) := by
  constructor
  · intro job hj
    rcases List.mem_append.mp hj with hj | hj
    · exact issued_mono hstep (hl.issued job hj)
    · exact (inserted_of_step hstep hj).2.1
  · intro a b ha hb hab
    rcases List.mem_append.mp ha with ha | ha <;> rcases List.mem_append.mp hb with hb | hb
    · exact hl.unique a b ha hb hab
    · exact absurd (hab ▸ hl.issued a ha) (inserted_of_step hstep hb).1
    · exact absurd (hab ▸ hl.issued b hb) (inserted_of_step hstep ha).1
    · rw [(inserted_of_step hstep ha).2.2] at hb
      cases List.mem_singleton.mp hb
      rfl
  · intro job hj
    rcases step_onRecord hstep hj with ⟨job₀, hj₀, hsame⟩ | ⟨job₀, hj₀, hsame⟩
    · obtain ⟨job₁, hj₁, hsame₁⟩ := hl.onRecord job₀ hj₀
      exact ⟨job₁, List.mem_append_left _ hj₁, hsame₁.trans hsame.target⟩
    · exact ⟨job₀, List.mem_append_right _ hj₀, hsame.target⟩
  · intro job hj
    rcases step_inHand hstep hj with
      ⟨job₀, hj₀ | hj₀, hsame⟩ | ⟨i, sha, pc, job₀, pc₀, -, hw, rfl⟩ | ⟨job₀, hj₀, hsame⟩
    · obtain ⟨job₁, hj₁, hsame₁⟩ := hl.onRecord job₀ hj₀
      exact ⟨job₁, List.mem_append_left _ hj₁, (hsame₁.trans hsame.target).sameRun⟩
    · obtain ⟨job₁, hj₁, hsame₁⟩ := hl.inHand job₀ hj₀
      exact ⟨job₁, List.mem_append_left _ hj₁, hsame₁.trans hsame.target.sameRun⟩
    · obtain ⟨job₁, hj₁, hsame₁⟩ := hl.inHand job₀ (Or.inr ⟨pc₀, List.mem_of_getElem? hw⟩)
      exact ⟨job₁, List.mem_append_left _ hj₁, hsame₁.trans (sameRun_fill job₀ sha)⟩
    · exact ⟨job₀, List.mem_append_right _ hj₀, hsame.target.sameRun⟩

/-- In every run the history is a lineage of the state. -/
theorem reaches_lineage {D : Machine.Discipline (Sched π) (SchedAction π) SchedEvent}
    {h : List SchedEvent} (hr : (newMachine cfg).Reaches D s h) : Lineage s h := by
  refine hr.invariant (I := Lineage) ?_ ?_
  · rintro s (rfl : s = Sched.new)
    constructor
    · exact fun job hj => absurd hj List.not_mem_nil
    · exact fun a b ha => absurd ha List.not_mem_nil
    · rintro job (⟨row, hrow, -⟩ | ⟨w, hw, -⟩)
      · exact absurd hrow List.not_mem_nil
      · exact absurd hw List.not_mem_nil
    · rintro job (hq | ⟨pc, hw⟩)
      · exact absurd hq List.not_mem_nil
      · exact absurd hw List.not_mem_nil
  · intro s h a s' es _ hl _ hstep
    exact hl.step hstep

end Sched

end PrReviewer.Model
