import PrReviewer.Analysis.ReviewCompletions
import PrReviewer.Analysis.StatusMachine
import PrReviewer.Analysis.TableSteps

/-!
# Reviews per commit and model

The table keeps runs with different columns apart, and the columns are written when a run is
enqueued. The pipeline then reviews the head GitHub has if the run was enqueued without one, and
the default model if none was named; neither gets into the row. So the columns of two runs may
differ while what they review is the same. `reviews_bounded` says that this and a run that is
executed again after it has completed its review are the only ways to more reviews of a commit than
the commands on its pull request account for.
-/

set_option autoImplicit false

namespace PrReviewer.Model

open PrReviewer.Library
open PrReviewer.Interface.Life (RealEnd)

/-- The model that a column `model` stands for. -/
def Config.resolve (c : Config) (model : String) : String :=
  if model = "" then c.defaultModel else model

/-- The alias of a job is resolved by the configuration. -/
theorem modelAlias_eq (c : Config) (job : ReviewJob) :
    modelAlias c job = c.resolve (orEmpty job.model) := by
  unfold modelAlias Config.resolve
  by_cases ht : truthy job.model = true
  · rw [if_pos ht, if_neg (truthy_iff_orEmpty.mp ht)]
  · rw [if_neg ht, if_pos]
    by_contra hne
    exact ht (truthy_iff_orEmpty.mpr hne)

/-! ## What the history says -/

namespace AppEvent

/-- The review of the run, of this commit of this pull request, is staged or submitted. -/
def reviews (r : RunId) (ref : PrRef) (sha : String) : AppEvent → Bool
  | .staged job _ => job.runId == r && job.ref == ref && job.head == some sha
  | .write (.worker run) (.submitReview review) =>
    run == r && review.ref == ref && review.head == some sha
  | _ => false

/-- The runner is called for the run, with this model. -/
def runsWith (r : RunId) (model : String) : AppEvent → Bool
  | .ran job _ _ used => job.runId == r && used == model
  | _ => false

/-- The event is one of a worker's pipeline. -/
def ofPipeline : AppEvent → Bool
  | .staged _ _ | .ran _ _ _ _ | .write (.worker _) _ => true
  | _ => false

/-- A comment command on the pull request is accepted. -/
def commands (ref : PrRef) : AppEvent → Bool
  | .core (.inserted job) => job.cause == .comment && job.ref == ref
  | _ => false

end AppEvent

/-- The run has reviewed this commit of this pull request with this model. -/
def completed (h : List AppEvent) (ref : PrRef) (sha model : String) (r : RunId) : Bool :=
  h.any (AppEvent.reviews r ref sha) && h.any (AppEvent.runsWith r model)

/-- The completed reviews of this commit of this pull request with this model, each by its run. -/
def completedReviews (h : List AppEvent) (ref : PrRef) (sha model : String) : List RunId :=
  (completions ref sha h).filter fun r => h.any (AppEvent.runsWith r model)

/-- The run of a completed review has reviewed the commit. -/
theorem any_reviews_of_mem {h : List AppEvent} {ref : PrRef} {sha : String} {r : RunId}
    (hr : r ∈ completions ref sha h) : h.any (AppEvent.reviews r ref sha) = true := by
  induction h with
  | nil => cases hr
  | cons e later ih =>
    rw [List.any_cons, Bool.or_eq_true]
    rcases List.mem_append.mp hr with hr | hr
    · left
      unfold AppEvent.completes at hr
      split at hr
      · split at hr
        · simp_all [AppEvent.reviews]
        · cases hr
      · split at hr
        · obtain ⟨-, rfl⟩ := List.mem_replicate.mp hr
          simp_all [AppEvent.reviews]
        · cases hr
      · cases hr
    · exact Or.inr (ih hr)

/-- A run that has completed a review has reviewed the commit with the model. -/
theorem completed_of_mem {h : List AppEvent} {ref : PrRef} {sha model : String} {r : RunId}
    (hr : r ∈ completedReviews h ref sha model) : completed h ref sha model r = true := by
  obtain ⟨hr, hruns⟩ := List.mem_filter.mp hr
  unfold completed
  rw [any_reviews_of_mem hr, hruns]
  rfl

/-- Of every commit at most one review more is completed with every model than there were commands
on its pull request. -/
def ReviewsBounded (h : List AppEvent) : Prop :=
  ∀ (ref : PrRef) (sha model : String), sha ≠ "" →
    (completedReviews h ref sha model).length ≤ 1 + h.countP (AppEvent.commands ref)

/-- A commit that a run has reviewed is one that `has_run_for_head` knows. -/
def HeadsRemembered (t : RunTable) (h : List AppEvent) : Prop :=
  ∀ (r : RunId) (owner repo : String) (pr : Int) (sha : String),
    h.any (AppEvent.reviews r ⟨owner, repo, some pr⟩ sha) = true →
    t.hasRunForHead owner repo pr sha = true

/-- The run of the row has reviewed the commit, or may still do so: a run that was enqueued without
a head reviews the head that the pull request has then. -/
def Row.MayReview (h : List AppEvent) (ref : PrRef) (sha : String) (row : Row) : Prop :=
  (row.status.final = false ∧ (row.head = "" ∨ row.head = sha)) ∨
    h.any (AppEvent.reviews row.runId ref sha) = true

namespace Sched

variable {π : Type} {cfg : SchedConfig π} {s s' : Sched π} {h : List SchedEvent}

/-- Filling in the head leaves the model. -/
@[simp] theorem fill_model (job : ReviewJob) (sha : Option (Option String)) :
    (job.fill sha).model = job.model := by
  cases sha with
  | none => rfl
  | some sha =>
    show (job.fillHead sha).model = job.model
    unfold ReviewJob.fillHead
    split <;> rfl

/-- The model of every job is that of the insertion of its run. -/
def ModelsKept (s : Sched π) (h : List SchedEvent) : Prop :=
  ∀ job, s.OnRecord job ∨ s.InHand job → ∃ job₀, .inserted job₀ ∈ h ∧ job₀.runId = job.runId ∧
    orEmpty job.model = orEmpty job₀.model

/-- In every run the jobs keep the models they were inserted with. -/
theorem reaches_modelsKept {D : Machine.Discipline (Sched π) (SchedAction π) SchedEvent}
    (hr : (newMachine cfg).Reaches D s h) : s.ModelsKept h := by
  refine hr.invariant (I := ModelsKept) ?_ ?_
  · rintro s (rfl : s = Sched.new) job ((⟨row, hrow, -⟩ | ⟨w, hw, -⟩) | hq | ⟨pc, hw⟩)
    · exact absurd hrow List.not_mem_nil
    · exact absurd hw List.not_mem_nil
    · exact absurd hq List.not_mem_nil
    · exact absurd hw List.not_mem_nil
  · intro s h a s' es _ hm _ hstep job hj
    have hold : ∀ {job₀ : ReviewJob}, s.OnRecord job₀ ∨ s.InHand job₀ → SameJob job₀ job →
        ∃ job₁, .inserted job₁ ∈ h ++ es ∧ job₁.runId = job.runId ∧
          orEmpty job.model = orEmpty job₁.model := by
      intro job₀ hj₀ hsame
      obtain ⟨job₁, hj₁, hid, hmodel⟩ := hm job₀ hj₀
      exact ⟨job₁, List.mem_append_left _ hj₁, hid.trans hsame.target.runId.symm,
        hsame.model.trans hmodel⟩
    rcases step_jobs hstep hj with
      ⟨job₀, hj₀, hsame⟩ | ⟨i, sha, pc, job₀, pc₀, -, hw, rfl⟩ | ⟨job₀, hj₀, hsame⟩
    · exact hold hj₀ hsame
    · obtain ⟨job₁, hj₁, hid, hmodel⟩ := hm job₀ (Or.inr (Or.inr ⟨pc₀, List.mem_of_getElem? hw⟩))
      refine ⟨job₁, List.mem_append_left _ hj₁, hid.trans (job₀.fill_runId sha).symm, ?_⟩
      rw [fill_model, hmodel]
    · exact ⟨job₀, List.mem_append_right _ hj₀, hsame.target.runId.symm, hsame.model⟩

end Sched

namespace App

variable {cfg : AppConfig} {s s' : App} {a : AppAction} {h es : List AppEvent} {r : RunId}
  {ref : PrRef} {sha model : String} {D : Machine.Discipline App AppAction AppEvent}

/-- A review or a call of the runner is a step of the pipeline of some worker. -/
theorem exec_of_event (hstep : step cfg s a = some (s', es)) {e : AppEvent} (he : e ∈ es)
    (hpipeline : e.ofPipeline = true) : ∃ (j : Nat) (job : ReviewJob) (pc : ExecPc) (inp : ExecInput)
      (m : ExecMove), s.core.workers[j]? = some (.busy job pc) ∧
        ExecCase cfg.pipeline s.core.now s.cache s.staged job pc inp m ∧ es = m.events := by
  have hcore : ∀ {ces : List SchedEvent}, e ∉ ces.map AppEvent.core := by
    intro ces hmem
    obtain ⟨ce, -, rfl⟩ := List.mem_map.mp hmem
    cases hpipeline
  cases step_cases hstep with
  | core _ _ => exact absurd he hcore
  | enqueue _ _ => exact absurd he hcore
  | chatter _ hes =>
    obtain ⟨origin, w, rfl, horigin, -⟩ := hes e he
    rcases horigin with rfl | rfl <;> cases hpipeline
  | @ask _ request run otherwise summary _ _ =>
    rcases ask_cases (s := s) request run otherwise summary with ⟨job, -, heq⟩ | ⟨-, heq⟩ <;>
      rw [heq] at he <;> cases List.mem_singleton.mp he <;> cases hpipeline
  | exec hw hm _ => exact ⟨_, _, _, _, _, hw, hm, rfl⟩
  | publish _ hm => rcases hm.start_or_write he with rfl | ⟨w, rfl⟩ <;> cases hpipeline
  | _ =>
    cases List.mem_singleton.mp he
    cases hpipeline

/-- A review is that of a job whose worker is executing it. -/
theorem reviews_of_step (hstep : step cfg s a = some (s', es)) {e : AppEvent} (he : e ∈ es)
    (hreviews : e.reviews r ref sha = true) : ∃ (j : Nat) (job : ReviewJob) (pc : ExecPc),
      s.core.workers[j]? = some (.busy job pc) ∧ job.runId = r ∧ job.ref = ref ∧
        job.head = some sha := by
  have hpipeline : e.ofPipeline = true := by
    unfold AppEvent.reviews at hreviews
    split at hreviews
    · rfl
    · rfl
    · cases hreviews
  obtain ⟨j, job, pc, inp, m, hw, hm, rfl⟩ := exec_of_event hstep he hpipeline
  refine ⟨j, job, pc, hw, ?_⟩
  cases hm with
  | staged _ =>
    cases List.mem_singleton.mp he
    simpa [AppEvent.reviews, and_assoc] using hreviews
  | publish _ hreview =>
    cases List.mem_singleton.mp he
    simpa [AppEvent.reviews, hreview, reviewOf, and_assoc] using hreviews
  | submitting hs =>
    obtain ⟨w, hw', rfl⟩ := List.mem_map.mp he
    rw [submitStep_writes hs w hw'] at hreviews
    cases hreviews
  | prOver _ | looked _ | ran =>
    cases List.mem_singleton.mp he
    cases hreviews
  | _ => cases he

/-- The runner is called for a job whose worker is executing it, with the model of the job. -/
theorem runs_of_step (hstep : step cfg s a = some (s', es)) {e : AppEvent} (he : e ∈ es)
    (hruns : e.runsWith r model = true) : ∃ (j : Nat) (job : ReviewJob) (pc : ExecPc),
      s.core.workers[j]? = some (.busy job pc) ∧ job.runId = r ∧
        modelAlias cfg.config job = model := by
  have hpipeline : e.ofPipeline = true := by
    unfold AppEvent.runsWith at hruns
    split at hruns
    · rfl
    · cases hruns
  obtain ⟨j, job, pc, inp, m, hw, hm, rfl⟩ := exec_of_event hstep he hpipeline
  refine ⟨j, job, pc, hw, ?_⟩
  cases hm with
  | ran =>
    cases List.mem_singleton.mp he
    simpa [AppEvent.runsWith, AppConfig.pipeline] using hruns
  | submitting _ =>
    obtain ⟨w, -, rfl⟩ := List.mem_map.mp he
    cases hruns
  | prOver _ | looked _ | staged _ | publish _ _ =>
    cases List.mem_singleton.mp he
    cases hruns
  | _ => cases he

/-- The run was inserted for this pull request, and is reviewed with this model. -/
def Targets (cfg : AppConfig) (h : List AppEvent) (ref : PrRef) (model : String) (r : RunId) : Prop :=
  ∃ job₀, .core (.inserted job₀) ∈ h ∧ job₀.runId = r ∧ job₀.ref = ref ∧
    modelAlias cfg.config job₀ = model

/-- The run that an event is about was inserted for that. -/
structure Rooted (cfg : AppConfig) (h : List AppEvent) : Prop where
  reviews : ∀ e ∈ h, ∀ r ref sha, e.reviews r ref sha = true →
    ∃ job₀, .core (.inserted job₀) ∈ h ∧ job₀.runId = r ∧ job₀.ref = ref ∧
      (truthy job₀.head = true → job₀.head = some sha)
  runs : ∀ e ∈ h, ∀ r model, e.runsWith r model = true →
    ∃ job₀, .core (.inserted job₀) ∈ h ∧ job₀.runId = r ∧ modelAlias cfg.config job₀ = model

/-- In every run each event is about an inserted run. -/
theorem reaches_rooted (hr : (machine cfg).Reaches D s h) : Rooted cfg h := by
  refine hr.invariant (I := fun _ h => Rooted cfg h) ?_ ?_
  · intro s _
    exact ⟨fun e he => absurd he List.not_mem_nil, fun e he => absurd he List.not_mem_nil⟩
  intro s h a s' es hr hh _ hstep
  have hcore := reaches_core hr
  constructor
  · intro e he r ref sha hreviews
    rcases List.mem_append.mp he with he | he
    · obtain ⟨job₀, hj₀, hroot⟩ := hh.reviews e he r ref sha hreviews
      exact ⟨job₀, List.mem_append_left _ hj₀, hroot⟩
    · obtain ⟨j, job, pc, hw, hid, href, hhead⟩ := reviews_of_step hstep he hreviews
      obtain ⟨job₀, hj₀, hsame⟩ :=
        (Sched.reaches_lineage hcore).inHand job (Or.inr ⟨pc, List.mem_of_getElem? hw⟩)
      exact ⟨job₀, List.mem_append_left _ (mem_core_history.mp hj₀), hsame.runId.symm.trans hid,
        hsame.ref.symm.trans href, fun ht => (hsame.head ht).symm.trans hhead⟩
  · intro e he r model hruns
    rcases List.mem_append.mp he with he | he
    · obtain ⟨job₀, hj₀, hroot⟩ := hh.runs e he r model hruns
      exact ⟨job₀, List.mem_append_left _ hj₀, hroot⟩
    · obtain ⟨j, job, pc, hw, hid, halias⟩ := runs_of_step hstep he hruns
      obtain ⟨job₀, hj₀, hid₀, hmodel⟩ := Sched.reaches_modelsKept hcore job
        (Or.inr (Or.inr ⟨pc, List.mem_of_getElem? hw⟩))
      refine ⟨job₀, List.mem_append_left _ (mem_core_history.mp hj₀), hid₀.trans hid, ?_⟩
      rw [← halias, modelAlias_eq, modelAlias_eq, hmodel]

/-! ## Candidates -/

/-- Some worker executes the run on this commit, or on whatever head the pull request has. -/
def Working (s : App) (sha : String) (r : RunId) : Prop :=
  ∃ (j : Nat) (job : ReviewJob) (pc : ExecPc), s.core.workers[j]? = some (.busy job pc) ∧
    job.runId = r ∧ (truthy job.head = true → job.head = some sha)

/-- The row is that of a run for this review, which it has made or may still make. -/
def Candidate (cfg : AppConfig) (h : List AppEvent) (ref : PrRef) (sha model : String) (row : Row) :
    Prop :=
  Targets cfg h ref model row.runId ∧ row.MayReview h ref sha

/-- The runs for one review without a row are no more than the commands, and the rows have one
candidate for it at most. -/
structure Accounted (cfg : AppConfig) (ref : PrRef) (sha model : String) (s : App)
    (h : List AppEvent) : Prop where
  rowless : ∃ gone : List RunId, gone.length ≤ h.countP (AppEvent.commands ref) ∧
    ∀ r, Targets cfg h ref model r →
      h.any (AppEvent.reviews r ref sha) = true ∨ s.Working sha r →
      s.core.table.statusOf r = none → r ∈ gone
  unique : ∀ row ∈ s.core.table.rows, ∀ row' ∈ s.core.table.rows,
    Candidate cfg h ref sha model row → Candidate cfg h ref sha model row' → row.runId = row'.runId

/-- A row is for the pull request, the head and the model that its run was inserted for. -/
theorem row_of_targets (hr : (machine cfg).Reaches D s h) {row : Row}
    (hrow : row ∈ s.core.table.rows) (ht : Targets cfg h ref model row.runId) :
    row.job.ref = ref ∧ cfg.config.resolve (orEmpty row.model) = model := by
  have hcore := reaches_core hr
  have hlineage := Sched.reaches_lineage hcore
  obtain ⟨job₀, hj₀, hid₀, href, hmodel⟩ := ht
  have hj₀' := mem_core_history.mpr hj₀
  obtain ⟨job₁, hj₁, hsame⟩ := hlineage.onRecord row.job (Or.inl ⟨row, hrow, rfl⟩)
  obtain ⟨job₂, hj₂, hid₂, hmodel₂⟩ :=
    Sched.reaches_modelsKept hcore row.job (Or.inl (Or.inl ⟨row, hrow, rfl⟩))
  have h₁ : job₁ = job₀ := hlineage.unique job₁ job₀ hj₁ hj₀' (hsame.runId.symm.trans hid₀.symm)
  have h₂ : job₂ = job₀ := hlineage.unique job₂ job₀ hj₂ hj₀' (hid₂.trans hid₀.symm)
  subst h₁
  subst h₂
  refine ⟨hsame.ref.trans href, ?_⟩
  rw [← hmodel, modelAlias_eq, ← hmodel₂]
  rfl

/-- A worker executes its run on the head of the row, if the row has one. -/
theorem head_of_working (hr : (machine cfg).Reaches D s h) {row : Row}
    (hrow : row ∈ s.core.table.rows) (hw : s.Working sha row.runId) :
    row.head = "" ∨ row.head = sha := by
  have hlineage := Sched.reaches_lineage (reaches_core hr)
  obtain ⟨j, job, pc, hw, hid, hhead⟩ := hw
  obtain ⟨job₁, hj₁, hsame⟩ := hlineage.onRecord row.job (Or.inl ⟨row, hrow, rfl⟩)
  obtain ⟨job₂, hj₂, hrun⟩ := hlineage.inHand job (Or.inr ⟨pc, List.mem_of_getElem? hw⟩)
  have h₁₂ : job₁ = job₂ := hlineage.unique job₁ job₂ hj₁ hj₂
    (hsame.runId.symm.trans (hid.symm.trans hrun.runId))
  subst h₁₂
  by_cases hempty : row.head = ""
  · exact Or.inl hempty
  · right
    have hrowhead : orEmpty job₁.head = row.head := hsame.head.symm
    have htruthy : truthy job₁.head = true := by
      rw [truthy_iff_orEmpty, hrowhead]
      exact hempty
    have hjob : job.head = job₁.head := hrun.head htruthy
    have hsha := hhead (by rw [hjob]; exact htruthy)
    rw [← hrowhead, ← hjob, hsha]
    rfl

/-- The row of a run that a worker executes is running. -/
theorem running_of_working (hr : (machine cfg).Reaches D s h) {row : Row}
    (hrow : row ∈ s.core.table.rows) (hw : s.Working sha row.runId) : row.status = .running := by
  obtain ⟨j, job, pc, hw, hid, -⟩ := hw
  have hst : (s.core.life row.runId).status = some row.status :=
    RunTable.statusOf_eq_some.mpr ⟨row, hrow, rfl, rfl⟩
  have hpos : 0 < (s.core.life row.runId).held :=
    countP_pos_of_getElem? hw (by simp [Worker.holds, hid])
  have hsound := Sched.reaches_sound (Sched.reaches_of_new (reaches_core hr)) row.runId
  rcases hsound.heldRunning hpos with hnone | hrun
  · rw [hst] at hnone
    cases hnone
  · rw [hst] at hrun
    exact Option.some.inj hrun

/-- A run at work on the commit may review it. -/
theorem mayReview_of_working (hr : (machine cfg).Reaches D s h) {row : Row}
    (hrow : row ∈ s.core.table.rows) (hw : s.Working sha row.runId) : row.MayReview h ref sha := by
  left
  rw [running_of_working hr hrow hw]
  exact ⟨rfl, head_of_working hr hrow hw⟩

/-! ## Steps that insert nothing -/

/-- Without an insertion the targets stay. -/
theorem targets_append (hno : ∀ job, .core (.inserted job) ∉ es) :
    Targets cfg (h ++ es) ref model r ↔ Targets cfg h ref model r := by
  constructor
  · rintro ⟨job₀, hj₀, hroot⟩
    exact ⟨job₀, (List.mem_append.mp hj₀).resolve_right (hno job₀), hroot⟩
  · rintro ⟨job₀, hj₀, hroot⟩
    exact ⟨job₀, List.mem_append_left _ hj₀, hroot⟩

/-- A run that has reviewed a commit after a step did so before, or its worker was on it. -/
theorem reviewed_of_step (hstep : step cfg s a = some (s', es))
    (hdone : (h ++ es).any (AppEvent.reviews r ref sha) = true) :
    h.any (AppEvent.reviews r ref sha) = true ∨ s.Working sha r := by
  rw [List.any_append, Bool.or_eq_true] at hdone
  refine hdone.imp_right fun hnew => ?_
  obtain ⟨e, he, hreviews⟩ := List.any_eq_true.mp hnew
  obtain ⟨j, job, pc, hw, hid, -, hhead⟩ := reviews_of_step hstep he hreviews
  exact ⟨j, job, pc, hw, hid, fun _ => hhead⟩

/-- A worker that is on a run after a step was so before, or has claimed it from its row. -/
theorem working_of_step (hstep : step cfg s a = some (s', es)) (hw : s'.Working sha r) :
    s.Working sha r ∨ s.core.table.statusOf r ≠ none := by
  obtain ⟨j, job, pc, hw, hid, hhead⟩ := hw
  cases busy_of_step hstep hw with
  | same hw => exact Or.inl ⟨j, job, pc, hw, hid, hhead⟩
  | @moved _ job₀ pc₀ _ fill _ _ hw₀ _ _ _ =>
    refine Or.inl ⟨j, job₀, pc₀, hw₀, (job₀.fill_runId fill).symm.trans hid, fun ht => ?_⟩
    have hsame := (sameRun_fill job₀ fill).head ht
    rw [← hsame]
    exact hhead (by rw [hsame]; exact ht)
  | accepted _ hw₀ _ => exact Or.inl ⟨j, job, _, hw₀, hid, hhead⟩
  | @claimed _ t ht _ hst =>
    right
    intro hnone
    rw [hid] at hst
    rcases ht with rfl | ⟨_, job', _, _, out, _, _, _, _, rfl⟩
    · rw [hnone] at hst
      cases hst
    · have hsettle : (s.core.settle cfg.sched job' out).table.statusOf r = some .queued := hst
      rw [Sched.statusOf_none_settle hnone] at hsettle
      cases hsettle

/-- A run is not over before a step if it is not over after it. -/
theorem open_of_step (hr : (machine cfg).Reaches D s h) (hstep : step cfg s a = some (s', es))
    {row row' : Row} (hrow : row ∈ s.core.table.rows) (hrow' : row' ∈ s'.core.table.rows)
    (hid : row'.runId = row.runId) (hopen : row'.status.final = false) :
    row.status.final = false := by
  rcases (step_cases hstep).core_step with ⟨hsame, -⟩ | ⟨ca, hca, hout, -⟩
  · rw [hsame] at hrow'
    rw [← RunTable.eq_of_runId_eq hrow' hrow hid]
    exact hopen
  · rcases Sched.status_follows (Sched.reaches_of_new (reaches_core hr)) hout hca hrow hrow' hid with
      hst | hedge
    · rw [← hst]
      exact hopen
    · exact hedge.not_final

/-- The accounts are kept by a step that inserts no run. -/
theorem Accounted.restamped (hacc : Accounted cfg ref sha model s h)
    (hr : (machine cfg).Reaches D s h) (hstep : step cfg s a = some (s', es))
    (hstamp : s.core.table.Restamped s'.core.table) (hno : ∀ job, .core (.inserted job) ∉ es) :
    Accounted cfg ref sha model s' (h ++ es) := by
  obtain ⟨⟨gone, hlen, hgone⟩, hunique⟩ := hacc
  constructor
  · refine ⟨gone, ?_, ?_⟩
    · rw [List.countP_append]
      omega
    · intro r ht hcase hst
      have hst₀ : s.core.table.statusOf r = none := hstamp.statusOf_none.mp hst
      refine hgone r ((targets_append hno).mp ht) ?_ hst₀
      rcases hcase with hdone | hw
      · exact reviewed_of_step hstep hdone
      · exact Or.inr ((working_of_step hstep hw).resolve_right fun hne => hne hst₀)
  · -- a candidate was one before
    have hold : ∀ row' ∈ s'.core.table.rows, Candidate cfg (h ++ es) ref sha model row' →
        ∃ row ∈ s.core.table.rows, row'.runId = row.runId ∧ Candidate cfg h ref sha model row := by
      rintro row' hrow' ⟨ht, hmay⟩
      obtain ⟨row, hrow, hcase⟩ := hstamp.mem hrow'
      have hid : row'.runId = row.runId := by
        rcases hcase with rfl | ⟨st, now, rfl⟩ <;> rfl
      have hhead : row'.head = row.head := by
        rcases hcase with rfl | ⟨st, now, rfl⟩ <;> rfl
      refine ⟨row, hrow, hid, hid ▸ (targets_append hno).mp ht, ?_⟩
      rcases hmay with ⟨hopen, hsha⟩ | hdone
      · exact Or.inl ⟨open_of_step hr hstep hrow hrow' hid hopen, hhead ▸ hsha⟩
      · rw [hid] at hdone
        rcases reviewed_of_step hstep hdone with hdone | hw
        · exact Or.inr hdone
        · exact mayReview_of_working hr hrow hw
    intro row₁ hrow₁ row₂ hrow₂ hc₁ hc₂
    obtain ⟨old₁, hold₁, hid₁, hcand₁⟩ := hold row₁ hrow₁ hc₁
    obtain ⟨old₂, hold₂, hid₂, hcand₂⟩ := hold row₂ hrow₂ hc₂
    rw [hid₁, hid₂]
    exact hunique old₁ hold₁ old₂ hold₂ hcand₁ hcand₂

/-! ## Steps that insert a run -/

/-- An insertion adds its own target. -/
theorem targets_inserted {job : ReviewJob} :
    Targets cfg (h ++ [.core (.inserted job)]) ref model r ↔ Targets cfg h ref model r ∨
      (job.runId = r ∧ job.ref = ref ∧ modelAlias cfg.config job = model) := by
  constructor
  · rintro ⟨job₀, hj₀, hroot⟩
    rcases List.mem_append.mp hj₀ with hj₀ | hj₀
    · exact Or.inl ⟨job₀, hj₀, hroot⟩
    · cases List.mem_singleton.mp hj₀
      exact Or.inr hroot
  · rintro (⟨job₀, hj₀, hroot⟩ | hroot)
    · exact ⟨job₀, List.mem_append_left _ hj₀, hroot⟩
    · exact ⟨job, by simp, hroot⟩

/-- An insertion is no review. -/
@[simp] theorem any_reviews_inserted {job : ReviewJob} :
    (h ++ [AppEvent.core (.inserted job)]).any (AppEvent.reviews r ref sha) =
      h.any (AppEvent.reviews r ref sha) := by
  simp [AppEvent.reviews]

/-- A run id that has not been issued has neither reviewed anything nor a worker. -/
theorem quiet_of_fresh (hr : (machine cfg).Reaches D s h) (hfresh : r ∉ s.core.issued) :
    h.any (AppEvent.reviews r ref sha) = false ∧ ¬ s.Working sha r := by
  have hlineage := Sched.reaches_lineage (reaches_core hr)
  constructor
  · rw [← Bool.not_eq_true]
    intro hdone
    obtain ⟨e, he, hreviews⟩ := List.any_eq_true.mp hdone
    obtain ⟨job₀, hj₀, rfl, -⟩ := (reaches_rooted hr).reviews e he r ref sha hreviews
    exact hfresh (hlineage.issued job₀ (mem_core_history.mpr hj₀))
  · rintro ⟨j, job, pc, hw, rfl, -⟩
    exact hfresh (hlineage.issued_of_busy (List.mem_of_getElem? hw))

/-- `enqueue` has stored a run: its row is the last one, and nothing has happened to the others but
that some of their rows are gone. -/
structure Inserted (s s' : App) (job : ReviewJob) (pr : Int) (kept : List Row) : Prop where
  fresh : job.runId ∉ s.core.issued
  number : job.pr = some pr
  rows : s'.core.table.rows = kept ++ [RunTable.rowOf job pr s.core.now]
  kept : ∀ row ∈ kept, row ∈ s.core.table.rows
  workers : s'.core.workers = s.core.workers.map Worker.wake

variable {job : ReviewJob} {pr : Int} {kept : List Row}

/-- A run at work after an insertion was at work before. -/
theorem Inserted.working (hst : Inserted s s' job pr kept) (hw : s'.Working sha r) : s.Working sha r := by
  obtain ⟨j, job', pc, hw, hid, hhead⟩ := hw
  exact ⟨j, job', pc, (Sched.busy_wake (Or.inr hst.workers)).mp hw, hid, hhead⟩

/-- The inserted run is none of the table's. -/
theorem Inserted.ne_of_mem (hst : Inserted s s' job pr kept) (hr : (machine cfg).Reaches D s h)
    {row : Row} (hrow : row ∈ s.core.table.rows) : row.runId ≠ job.runId :=
  (Sched.reaches_grounded (Sched.reaches_of_new (reaches_core hr))).fresh_row hst.fresh row hrow

/-- The candidates among the old rows were candidates before. -/
theorem Inserted.candidate (hst : Inserted s s' job pr kept) (hr : (machine cfg).Reaches D s h)
    {row : Row} (hrow : row ∈ kept)
    (hc : Candidate cfg (h ++ [.core (.inserted job)]) ref sha model row) :
    Candidate cfg h ref sha model row := by
  obtain ⟨ht, hmay⟩ := hc
  refine ⟨(targets_inserted.mp ht).resolve_right fun hnew => ?_, ?_⟩
  · exact hst.ne_of_mem hr (hst.kept row hrow) hnew.1.symm
  · unfold Row.MayReview at hmay
    rwa [any_reviews_inserted] at hmay

/-- The row of the new run is a candidate only because of what its job asks for. -/
theorem Inserted.candidate_new (hst : Inserted s s' job pr kept) (hr : (machine cfg).Reaches D s h)
    (hc : Candidate cfg (h ++ [.core (.inserted job)]) ref sha model
      (RunTable.rowOf job pr s.core.now)) :
    job.ref = ref ∧ modelAlias cfg.config job = model ∧
      (orEmpty job.head = "" ∨ orEmpty job.head = sha) := by
  obtain ⟨ht, hmay⟩ := hc
  rcases targets_inserted.mp ht with ⟨job₀, hj₀, hid, -⟩ | ⟨-, href, hmodel⟩
  · -- the run id would have been issued before
    have hissued := (Sched.reaches_lineage (reaches_core hr)).issued job₀ (mem_core_history.mpr hj₀)
    have hid' : job₀.runId = job.runId := hid
    rw [hid'] at hissued
    exact absurd hissued hst.fresh
  · refine ⟨href, hmodel, ?_⟩
    rcases hmay with ⟨-, hhead⟩ | hdone
    · exact hhead
    · rw [any_reviews_inserted, RunTable.rowOf_runId, (quiet_of_fresh hr hst.fresh).1] at hdone
      cases hdone

/-- A run whose row is gone after the insertion has no row before, or a row that is not kept. -/
theorem Inserted.statusOf_none (hst : Inserted s s' job pr kept)
    (hnone : s'.core.table.statusOf r = none) :
    r ≠ job.runId ∧ ∀ row ∈ kept, row.runId ≠ r := by
  rw [RunTable.statusOf_eq_none, hst.rows] at hnone
  constructor
  · rintro rfl
    exact hnone (RunTable.rowOf job pr s.core.now) (by simp) rfl
  · exact fun row hrow => hnone row (List.mem_append_left _ hrow)

/-- The accounts are kept by an insertion that deletes no row of the pull request, if the new run
has no rival. -/
theorem Accounted.webhook (hacc : Accounted cfg ref sha model s h)
    (hr : (machine cfg).Reaches D s h) (hst : Inserted s s' job pr kept)
    (hkept : ∀ row ∈ s.core.table.rows, row.job.ref = ref → row ∈ kept)
    (hrival : job.ref = ref → modelAlias cfg.config job = model →
      orEmpty job.head = "" ∨ orEmpty job.head = sha →
      ∀ row ∈ kept, ¬ Candidate cfg h ref sha model row) :
    Accounted cfg ref sha model s' (h ++ [.core (.inserted job)]) := by
  obtain ⟨⟨gone, hlen, hgone⟩, hunique⟩ := hacc
  constructor
  · refine ⟨gone, ?_, ?_⟩
    · rw [List.countP_append]
      omega
    · intro r ht hcase hnone
      obtain ⟨hne, hrows⟩ := hst.statusOf_none hnone
      have ht₀ : Targets cfg h ref model r :=
        (targets_inserted.mp ht).resolve_right fun hnew => hne hnew.1.symm
      refine hgone r ht₀ ?_ ?_
      · rw [any_reviews_inserted] at hcase
        exact hcase.imp_right hst.working
      · rw [RunTable.statusOf_eq_none]
        rintro row hrow rfl
        exact hrows row (hkept row hrow (row_of_targets hr hrow ht₀).1) rfl
  · intro row₁ hrow₁ row₂ hrow₂ hc₁ hc₂
    rw [hst.rows] at hrow₁ hrow₂
    rcases List.mem_append.mp hrow₁ with hrow₁ | hrow₁ <;>
      rcases List.mem_append.mp hrow₂ with hrow₂ | hrow₂
    · exact hunique row₁ (hst.kept row₁ hrow₁) row₂ (hst.kept row₂ hrow₂)
        (hst.candidate hr hrow₁ hc₁) (hst.candidate hr hrow₂ hc₂)
    · cases List.mem_singleton.mp hrow₂
      obtain ⟨href, hmodel, hhead⟩ := hst.candidate_new hr hc₂
      exact absurd (hst.candidate hr hrow₁ hc₁) (hrival href hmodel hhead row₁ hrow₁)
    · cases List.mem_singleton.mp hrow₁
      obtain ⟨href, hmodel, hhead⟩ := hst.candidate_new hr hc₁
      exact absurd (hst.candidate hr hrow₂ hc₂) (hrival href hmodel hhead row₂ hrow₂)
    · cases List.mem_singleton.mp hrow₁
      cases List.mem_singleton.mp hrow₂
      rfl

/-- The accounts are kept by a command on the pull request: the one candidate whose row it deletes
is paid for by the command. -/
theorem Accounted.command (hacc : Accounted cfg ref sha model s h)
    (hr : (machine cfg).Reaches D s h) (hst : Inserted s s' job pr kept)
    (hcause : job.cause = .comment) (href : job.ref = ref)
    (hkept : ∀ row ∈ kept, row.job.ref ≠ ref) :
    Accounted cfg ref sha model s' (h ++ [.core (.inserted job)]) := by
  obtain ⟨⟨gone, hlen, hgone⟩, hunique⟩ := hacc
  have hcount : (h ++ [AppEvent.core (.inserted job)]).countP (AppEvent.commands ref) =
      h.countP (AppEvent.commands ref) + 1 := by
    rw [List.countP_append]
    simp [AppEvent.commands, hcause, href]
  have hcand : ∀ row ∈ kept, ¬ Candidate cfg (h ++ [.core (.inserted job)]) ref sha model row := by
    intro row hrow hc
    have hc₀ := hst.candidate hr hrow hc
    exact hkept row hrow (row_of_targets hr (hst.kept row hrow) hc₀.1).1
  constructor
  · rw [hcount]
    -- the runs that lose their row were candidates, and there was one candidate at most
    have hlost : ∀ r, Targets cfg (h ++ [.core (.inserted job)]) ref model r →
        (h ++ [AppEvent.core (.inserted job)]).any (AppEvent.reviews r ref sha) = true ∨ s'.Working sha r →
        s'.core.table.statusOf r = none →
        r ∈ gone ∨ ∃ row ∈ s.core.table.rows, row.runId = r ∧ Candidate cfg h ref sha model row := by
      intro r ht hcase hnone
      have hne := (hst.statusOf_none hnone).1
      have ht₀ : Targets cfg h ref model r :=
        (targets_inserted.mp ht).resolve_right fun hnew => hne hnew.1.symm
      rw [any_reviews_inserted] at hcase
      have hcase₀ := hcase.imp_right hst.working
      cases hold : s.core.table.statusOf r with
      | none => exact Or.inl (hgone r ht₀ hcase₀ hold)
      | some st =>
        obtain ⟨row, hrow, rfl, -⟩ := RunTable.statusOf_eq_some.mp hold
        refine Or.inr ⟨row, hrow, rfl, ht₀, ?_⟩
        exact hcase₀.elim Or.inr fun hw => mayReview_of_working hr hrow hw
    by_cases hex : ∃ row ∈ s.core.table.rows, Candidate cfg h ref sha model row
    · obtain ⟨row, hrow, hc⟩ := hex
      refine ⟨row.runId :: gone, by simpa using hlen, fun r ht hcase hnone => ?_⟩
      rcases hlost r ht hcase hnone with hmem | ⟨row', hrow', rfl, hc'⟩
      · exact List.mem_cons_of_mem _ hmem
      · rw [hunique row' hrow' row hrow hc' hc]
        exact List.mem_cons_self
    · refine ⟨gone, by omega, fun r ht hcase hnone => ?_⟩
      rcases hlost r ht hcase hnone with hmem | ⟨row', hrow', -, hc'⟩
      · exact hmem
      · exact absurd ⟨row', hrow', hc'⟩ hex
  · intro row₁ hrow₁ row₂ hrow₂ hc₁ hc₂
    rw [hst.rows] at hrow₁ hrow₂
    have hnew : ∀ row ∈ kept ++ [RunTable.rowOf job pr s.core.now],
        Candidate cfg (h ++ [.core (.inserted job)]) ref sha model row → row.runId = job.runId := by
      intro row hrow hc
      rcases List.mem_append.mp hrow with hrow | hrow
      · exact absurd hc (hcand row hrow)
      · cases List.mem_singleton.mp hrow
        rfl
    rw [hnew row₁ hrow₁ hc₁, hnew row₂ hrow₂ hc₂]

/-! ## All runs -/

/-- A row is of the job's pull request exactly when it names it. -/
theorem isOf_iff (hnumber : job.pr = some pr) {row : Row} :
    row.isOf job.owner job.repo pr = true ↔ row.job.ref = job.ref := by
  simp [Row.isOf, Row.job, ReviewJob.ref, hnumber, and_assoc]

/-- A step inserts nothing, or `enqueue` stores the run of the event that the step dispatches. -/
theorem insertion_of_step (hr : (machine cfg).Reaches D s h)
    (hstep : step cfg s a = some (s', es)) :
    (s.core.table.Restamped s'.core.table ∧ ∀ job, .core (.inserted job) ∉ es) ∨
      ∃ event job pr, (cfg.trigger.decide event).columns = some (job.columns pr) ∧
        es = [.core (.inserted job)] ∧
        (s.Enqueues cfg a event .webhook ∧ job.columns pr ∉ s.core.table.keys ∧
            Inserted s s' job pr s.core.table.rows ∨
          s.Enqueues cfg a event .comment ∧ job.cause = .comment ∧ Inserted s s' job pr
            (s.core.table.rows.filter fun row => !row.isOf job.owner job.repo pr)) := by
  have hcore := reaches_core hr
  have hnew := Sched.reaches_of_new hcore
  have hno : ∀ {ces : List SchedEvent}, es.filterMap AppEvent.core? = ces →
      (∀ job, .inserted job ∉ ces) → ∀ job, .core (.inserted job) ∉ es := by
    rintro _ rfl h job hmem
    exact h job (mem_core_history.mpr hmem)
  rcases (step_cases hstep).core_step with ⟨hsame, hes⟩ | ⟨ca, hca, -, henqueue⟩
  · rw [hsame]
    exact Or.inl ⟨.refl _, hno hes fun _ => List.not_mem_nil⟩
  rcases Sched.step_table hca with ⟨hstamp, hins⟩ | ⟨r, d, cause, rfl, -, hfresh, heq⟩
  · exact Or.inl ⟨hstamp, hno rfl hins⟩
  obtain ⟨hes, event, henq, rfl, -⟩ := henqueue r d cause rfl
  have hrows := (Sched.reaches_grounded hnew).fresh_row hfresh
  -- the state after a job is stored, and after none is
  have hstored : ∀ {job : ReviewJob} {pr : Int} {table : RunTable} {kept : List Row},
      Sched.Stores (cfg.trigger.decide event) r cause job pr →
      table.rows = kept ++ [RunTable.rowOf job pr s.core.now] →
      (∀ row ∈ kept, row ∈ s.core.table.rows) →
      s.core.enqueue r (cfg.trigger.decide event) cause = (s.core.started table job, [.inserted job]) →
      es = [.core (.inserted job)] ∧ Inserted s s' job pr kept := by
    intro job pr table kept hj htable hkept hq
    obtain ⟨hc, hces⟩ := Prod.mk.inj (heq.symm.trans hq)
    rw [hces] at hes
    refine ⟨hes, hj.runId ▸ hfresh, hj.number, ?_, hkept, ?_⟩
    · rw [hc]
      exact htable
    · rw [hc]
      rfl
  have hrefused : s.core.enqueue r (cfg.trigger.decide event) cause = (s.core.refused r, []) →
      s.core.table.Restamped s'.core.table ∧ ∀ job, .core (.inserted job) ∉ es := by
    intro hq
    obtain ⟨hc, hces⟩ := Prod.mk.inj (heq.symm.trans hq)
    rw [hc]
    exact ⟨.refl _, hno hces fun _ => List.not_mem_nil⟩
  cases cause with
  | webhook =>
    rcases Sched.enqueue_webhook (Sched.reaches_modelled hcore) hrows with
      ⟨job, pr, hj, hkey, table, htable, hq⟩ | ⟨-, hq⟩
    · obtain ⟨hes, hins⟩ := hstored hj htable (fun _ h => h) hq
      exact Or.inr ⟨event, job, pr, hj.columns, hes, Or.inl ⟨henq, hkey, hins⟩⟩
    · exact Or.inl (hrefused hq)
  | comment =>
    rcases Sched.enqueue_comment hrows with ⟨job, pr, hj, table, htable, hq⟩ | ⟨-, hq⟩
    · obtain ⟨hes, hins⟩ := hstored hj htable (fun _ h => (List.mem_filter.mp h).1) hq
      exact Or.inr ⟨event, job, pr, hj.columns, hes, Or.inr ⟨henq, hj.job_cause, hins⟩⟩
    · exact Or.inl (hrefused hq)

/-- Whenever a run is enqueued for a webhook or by the backfill, no row of its pull request with
other columns is that of a run that has reviewed, or may still review, a commit with its model that
the new run may review. -/
def NoRivals (cfg : AppConfig) : Machine.Discipline App AppAction AppEvent := fun s h a =>
  ∀ event owner repo pr head model, s.Enqueues cfg a event .webhook →
    (cfg.trigger.decide event).columns = some (owner, repo, pr, head, model) →
    ∀ row ∈ s.core.table.rows, row.isOf owner repo pr = true →
      row.columns ≠ (owner, repo, pr, head, model) →
      cfg.config.resolve (orEmpty row.model) = cfg.config.resolve model →
      ∀ sha, sha ≠ "" → head = "" ∨ head = sha → ¬ row.MayReview h ⟨owner, repo, some pr⟩ sha

/-- **The step lemma.** -/
theorem Accounted.step (hacc : Accounted cfg ref sha model s h) (hr : (machine cfg).Reaches D s h)
    (hsha : sha ≠ "") (hd : NoRivals cfg s h a) (hstep : App.step cfg s a = some (s', es)) :
    Accounted cfg ref sha model s' (h ++ es) := by
  rcases insertion_of_step hr hstep with
    ⟨hstamp, hno⟩ | ⟨event, job, pr, hcol, rfl, ⟨henq, hkey, hins⟩ | ⟨-, hcause, hins⟩⟩
  · exact hacc.restamped hr hstep hstamp hno
  · refine hacc.webhook hr hins (fun row hrow _ => hrow) ?_
    rintro href hmodel hhead row hrow ⟨ht, hmay⟩
    obtain ⟨hrowref, hrowmodel⟩ := row_of_targets hr hrow ht
    have hjob : job.ref = ⟨job.owner, job.repo, some pr⟩ := by rw [← hins.number]; rfl
    refine hd event _ _ _ _ _ henq hcol row hrow ?_ ?_ ?_ sha hsha hhead ?_
    · exact (isOf_iff hins.number).mpr (hrowref.trans href.symm)
    · intro heq
      exact hkey (List.mem_map.mpr ⟨row, hrow, heq⟩)
    · rw [hrowmodel, ← hmodel, modelAlias_eq]
    · rwa [← hjob, href]
  · by_cases href : job.ref = ref
    · refine hacc.command hr hins hcause href fun row hrow heq => ?_
      have hother := (List.mem_filter.mp hrow).2
      rw [(isOf_iff hins.number).mpr (heq.trans href.symm)] at hother
      cases hother
    · refine hacc.webhook hr hins (fun row hrow heq => ?_) fun h => absurd h href
      refine List.mem_filter.mpr ⟨hrow, ?_⟩
      rw [Bool.not_eq_true', ← Bool.not_eq_true, isOf_iff hins.number]
      exact fun h => href (h.symm.trans heq)

/-- In every run without rivals the reviews are accounted for. -/
theorem reaches_accounted (hsha : sha ≠ "") (hr : (machine cfg).Reaches (NoRivals cfg) s h) :
    Accounted cfg ref sha model s h := by
  refine hr.invariant (I := fun s h => Accounted cfg ref sha model s h) ?_ ?_
  · intro s hs
    constructor
    · refine ⟨[], Nat.zero_le _, ?_⟩
      rintro r ⟨job₀, hj₀, -⟩
      cases hj₀
    · intro row hrow
      rw [hs.core] at hrow
      cases hrow
  · intro s h a s' es hr hacc hd hstep
    exact hacc.step hr hsha hd hstep

/-- A completed review is one of a run that was inserted for it. -/
theorem targets_of_completed (hr : (machine cfg).Reaches D s h)
    (hc : completed h ref sha model r = true) :
    Targets cfg h ref model r ∧ h.any (AppEvent.reviews r ref sha) = true := by
  unfold completed at hc
  obtain ⟨hreviews, hruns⟩ := Bool.and_eq_true_iff.mp hc
  refine ⟨?_, hreviews⟩
  obtain ⟨e, he, hreviews⟩ := List.any_eq_true.mp hreviews
  obtain ⟨e', he', hruns⟩ := List.any_eq_true.mp hruns
  have hrooted := reaches_rooted hr
  obtain ⟨job₀, hj₀, hid₀, href, -⟩ := hrooted.reviews e he r ref sha hreviews
  obtain ⟨job₁, hj₁, hid₁, hmodel⟩ := hrooted.runs e' he' r model hruns
  have hsame : job₁ = job₀ := (Sched.reaches_lineage (reaches_core hr)).unique job₁ job₀
    (mem_core_history.mpr hj₁) (mem_core_history.mpr hj₀) (hid₁.trans hid₀.symm)
  exact ⟨job₀, hj₀, hid₀, href, hsame ▸ hmodel⟩

/-- The bound on the runs that have reviewed a commit, from the accounts for it. -/
theorem Accounted.length_le (hacc : Accounted cfg ref sha model s h)
    (hr : (machine cfg).Reaches D s h) {runs : List RunId} (hnodup : runs.Nodup)
    (hruns : ∀ r ∈ runs, completed h ref sha model r = true) :
    runs.length ≤ 1 + h.countP (AppEvent.commands ref) := by
  obtain ⟨⟨gone, hlen, hgone⟩, hunique⟩ := hacc
  -- a run that completed its review has lost its row or has the one candidate
  have hcase : ∀ r ∈ runs, r ∈ gone ∨
      ∃ row ∈ s.core.table.rows, row.runId = r ∧ Candidate cfg h ref sha model row := by
    intro r hmem
    obtain ⟨ht, hdone⟩ := targets_of_completed hr (hruns r hmem)
    cases hst : s.core.table.statusOf r with
    | none => exact Or.inl (hgone r ht (Or.inl hdone) hst)
    | some st =>
      obtain ⟨row, hrow, rfl, -⟩ := RunTable.statusOf_eq_some.mp hst
      exact Or.inr ⟨row, hrow, rfl, ht, Or.inr hdone⟩
  by_cases hex : ∃ row ∈ s.core.table.rows, Candidate cfg h ref sha model row
  · obtain ⟨row, hrow, hc⟩ := hex
    have hsub : runs ⊆ row.runId :: gone := by
      intro r hmem
      rcases hcase r hmem with hg | ⟨row', hrow', rfl, hc'⟩
      · exact List.mem_cons_of_mem _ hg
      · rw [hunique row' hrow' row hrow hc' hc]
        exact List.mem_cons_self
    calc runs.length ≤ (row.runId :: gone).length := hnodup.length_le_of_subset hsub
      _ = 1 + gone.length := by rw [List.length_cons, Nat.add_comm]
      _ ≤ 1 + h.countP (AppEvent.commands ref) := Nat.add_le_add_left hlen 1
  · have hsub : runs ⊆ gone := by
      intro r hmem
      rcases hcase r hmem with hg | ⟨row', hrow', -, hc'⟩
      · exact hg
      · exact absurd ⟨row', hrow', hc'⟩ hex
    calc runs.length ≤ gone.length := hnodup.length_le_of_subset hsub
      _ ≤ 1 + h.countP (AppEvent.commands ref) := by omega

/-- No run is enqueued next to one that reviews the same, and nothing comes between a completed
review and its record. -/
def ReviewedOnce (cfg : AppConfig) : Machine.Discipline App AppAction AppEvent := fun s h a =>
  NoRivals cfg s h a ∧ ∀ r, Recorded cfg r s h a

/-- The completed reviews of a commit are of different runs, so the bound on these is one on
them. -/
theorem reviewsBounded_of_reviewedOnce (hr : (machine cfg).Reaches (ReviewedOnce cfg) s h)
    (hno : Unasked h) : ReviewsBounded h := by
  intro ref sha model hsha
  have hacc : Accounted cfg ref sha model s h :=
    reaches_accounted hsha (hr.mono fun _ _ _ hd => hd.1)
  have hnodup : (completions ref sha h).Nodup := by
    rw [List.nodup_iff_count_le_one]
    exact fun r => count_completions_le_one (hr.mono fun _ _ _ hd => hd.2 r) hno
  exact hacc.length_le hr (hnodup.filter _) fun r hmem => completed_of_mem hmem

/-! ## The heads the table knows -/

/-- Every run is enqueued with a head, and if it is for a command then the rows of its pull request
all have that head. -/
def HeadsGiven (cfg : AppConfig) : Machine.Discipline App AppAction AppEvent := fun s _ a =>
  ∀ event cause owner repo pr head model, s.Enqueues cfg a event cause →
    (cfg.trigger.decide event).columns = some (owner, repo, pr, head, model) →
    head ≠ "" ∧ (cause = .comment →
      ∀ row ∈ s.core.table.rows, row.isOf owner repo pr = true → row.head = head)

/-- The heads with which runs were inserted are those of rows. -/
def Remembered (s : App) (h : List AppEvent) : Prop :=
  ∀ job, .core (.inserted job) ∈ h → truthy job.head = true ∧
    ∃ row ∈ s.core.table.rows, row.job.ref = job.ref ∧ row.head = orEmpty job.head

/-- The run of an insertion is remembered, and those of a table that keeps their heads. -/
theorem Remembered.inserted (hrem : Remembered s h) (hst : Inserted s s' job pr kept)
    (hhead : orEmpty job.head ≠ "")
    (hkept : ∀ row ∈ s.core.table.rows,
      row ∈ kept ∨ row.job.ref = job.ref ∧ row.head = orEmpty job.head) :
    Remembered s' (h ++ [.core (.inserted job)]) := by
  have hnew : RunTable.rowOf job pr s.core.now ∈ s'.core.table.rows := by
    rw [hst.rows]
    exact List.mem_append_right _ (List.mem_singleton_self _)
  have hnewref : (RunTable.rowOf job pr s.core.now).job.ref = job.ref := by
    rw [ReviewJob.ref, ReviewJob.ref, hst.number]
    rfl
  intro job₁ hj₁
  rcases List.mem_append.mp hj₁ with hj₁ | hj₁
  · obtain ⟨ht, row, hrow, href, hrowhead⟩ := hrem job₁ hj₁
    refine ⟨ht, ?_⟩
    rcases hkept row hrow with hmem | ⟨href', hhead'⟩
    · refine ⟨row, ?_, href, hrowhead⟩
      rw [hst.rows]
      exact List.mem_append_left _ hmem
    · exact ⟨_, hnew, (hnewref.trans href'.symm).trans href, hhead'.symm.trans hrowhead⟩
  · cases List.mem_singleton.mp hj₁
    exact ⟨truthy_iff_orEmpty.mpr hhead, _, hnew, hnewref, rfl⟩

/-- In every run that inserts with heads the heads are remembered. -/
theorem reaches_remembered (hr : (machine cfg).Reaches (HeadsGiven cfg) s h) : Remembered s h := by
  refine hr.invariant (I := Remembered) ?_ ?_
  · intro s _ job hj
    cases hj
  intro s h a s' es hr hrem hd hstep
  rcases insertion_of_step hr hstep with
    ⟨hstamp, hno⟩ | ⟨event, job, pr, hcol, rfl, ⟨henq, -, hins⟩ | ⟨henq, -, hins⟩⟩
  · intro job hj
    obtain ⟨ht, row, hrow, href, hhead⟩ := hrem job ((List.mem_append.mp hj).resolve_right (hno job))
    obtain ⟨f, hrows, hf⟩ := hstamp
    refine ⟨ht, f row, hrows ▸ List.mem_map_of_mem hrow, ?_⟩
    rcases hf row with heq | ⟨st, now, heq⟩ <;> rw [heq] <;> exact ⟨href, hhead⟩
  · obtain ⟨hhead, -⟩ := hd event _ _ _ _ _ _ henq hcol
    exact hrem.inserted hins hhead fun row hrow => Or.inl hrow
  · obtain ⟨hhead, hsame⟩ := hd event _ _ _ _ _ _ henq hcol
    refine hrem.inserted hins hhead fun row hrow => ?_
    by_cases hof : row.isOf job.owner job.repo pr = true
    · exact Or.inr ⟨(isOf_iff hins.number).mp hof, hsame rfl row hrow hof⟩
    · exact Or.inl (List.mem_filter.mpr ⟨hrow, by simpa using hof⟩)

/-- A reviewed commit is the head its run was inserted with. -/
theorem headsRemembered_of_remembered (hr : (machine cfg).Reaches D s h) (hrem : Remembered s h) :
    HeadsRemembered s.core.table h := by
  intro r owner repo pr sha hdone
  obtain ⟨e, he, hreviews⟩ := List.any_eq_true.mp hdone
  obtain ⟨job₀, hj₀, -, href₀, hhead₀⟩ := (reaches_rooted hr).reviews e he _ _ _ hreviews
  obtain ⟨ht, row, hrow, href, hhead⟩ := hrem job₀ hj₀
  rw [hhead₀ ht] at hhead
  have hrowref := href.trans href₀
  simp only [ReviewJob.ref, Row.job, PrRef.mk.injEq, Option.some.injEq] at hrowref
  unfold RunTable.hasRunForHead
  refine List.any_eq_true.mpr ⟨row, hrow, ?_⟩
  simp [hrowref, hhead, orEmpty]

/-- **The completed reviews of a commit with a model are at most one more than the commands on its
pull request**, if no run is enqueued for a webhook or by the backfill next to one that reviews the
same under other columns, nothing comes between a completed review and its record, and no approval
request names a run that is published directly; **`has_run_for_head` knows the reviewed commits** if
every run is enqueued with a head and no command deletes a row with another. -/
theorem reviews_bounded :
    ((machine cfg).Reaches (ReviewedOnce cfg) s h → Unasked h → ReviewsBounded h) ∧
      ((machine cfg).Reaches (HeadsGiven cfg) s h → HeadsRemembered s.core.table h) := by
  constructor
  · intro hr hno
    exact reviewsBounded_of_reviewedOnce hr hno
  · intro hr
    exact headsRemembered_of_remembered hr (reaches_remembered hr)

/-- The review of the opened pull request is staged, and a command has it reviewed again. -/
def commandedRun : List AppAction :=
  stagedRun ++ [.webhook (reviewComment 7), .dispatch 0 "r2", .watch 1 .go] ++ runJob 0 "a" ++
    [.exec 0 (.reviewed (some {}) []), .exec 0 .slack]

/-- GitHub delivers the webhook again. -/
def redeliveredRun : List AppAction :=
  commandedRun ++ openPr 7 "a" "r3" ++ [.watch 2 .go, .watch 2 (.polled (.runs []))] ++
    runJob 0 "a" ++ [.exec 0 (.reviewed (some {}) []), .exec 0 .slack]

/-- The pull request that is opened. -/
def firstPr : PrRef :=
  ⟨"me", "app", some 7⟩

/-- These runs have completed the reviews of the head of the first pull request, with so many
commands. -/
def reviewedBy (runs : List RunId) (commands : Nat) (h : List AppEvent) : Bool :=
  completedReviews h firstPr "a" "free" == runs &&
    h.countP (AppEvent.commands firstPr) == commands

/-- The table is empty, or the step enqueues nothing for a webhook. -/
def unrivalled (cfg : AppConfig) (s : App) (a : AppAction) : Bool :=
  s.core.table.rows.isEmpty ||
    (a.dispatched cfg s).all fun event => (cfg.trigger.decide event).cause? != some .webhook

/-- The worker awaits the answer to a review. -/
def posting : Worker ExecPc → Bool
  | .busy _ (.publishing _ (.posting _ _ _)) => true
  | _ => false

/-- The process lives on, and GitHub's answers say what it has accepted. -/
def steady (s : App) : AppAction → Bool
  | .crash | .acceptOrphan _ => false
  | .exec i (.submit reply) => reply == .created || s.core.workers[i]?.all fun w => !posting w
  | _ => true

/-- A steady step without rivals reviews at most once. -/
theorem reviewedOnce_of_steady (cfg : AppConfig) (s : App) (h : List AppEvent) (a : AppAction)
    (hok : (unrivalled cfg s a && steady s a) = true) : ReviewedOnce cfg s h a := by
  obtain ⟨hrivals, hsteady⟩ := Bool.and_eq_true_iff.mp hok
  constructor
  · intro event owner repo pr head model ⟨hevent, hcause⟩ _ row hrow
    rcases Bool.or_eq_true_iff.mp hrivals with hempty | hall
    · rw [List.isEmpty_iff.mp hempty] at hrow
      cases hrow
    · rw [hevent, Option.all_some, hcause] at hall
      cases hall
  · intro r
    cases a with
    | crash => cases hsteady
    | acceptOrphan k => cases hsteady
    | exec i inp =>
      cases inp with
      | submit reply =>
        intro job review inline attempt hw _
        rcases Bool.or_eq_true_iff.mp hsteady with hcreated | hidle
        · exact Or.inl (eq_of_beq hcreated)
        · rw [hw] at hidle
          cases hidle
      | _ => trivial
    | _ => trivial

/-- The step enqueues nothing for a command, and no run without a head. -/
def headed (cfg : AppConfig) (s : App) (_ : List AppEvent) (a : AppAction) : Bool :=
  (a.dispatched cfg s).all fun event =>
    (cfg.trigger.decide event).cause? != some .comment && truthy (cfg.trigger.decide event).head

/-- A step that inserts with its head gives the heads. -/
theorem headsGiven_of_headed (cfg : AppConfig) (s : App) (h : List AppEvent) (a : AppAction)
    (hok : headed cfg s h a = true) : HeadsGiven cfg s h a := by
  intro event cause owner repo pr head model ⟨hevent, hcause⟩ hcol
  unfold headed at hok
  rw [hevent, Option.all_some, hcause] at hok
  obtain ⟨hwebhook, hhead⟩ := Bool.and_eq_true_iff.mp hok
  constructor
  · unfold Decision.columns at hcol
    split at hcol
    · cases hcol
      exact truthy_iff_orEmpty.mp hhead
    · cases hcol
  · rintro rfl
    cases hwebhook

/-- The bound is reached by two staged reviews and one command, and by one review that is published
directly. -/
theorem reviews_bounded_command :
    (∃ s h, (machine (smallConfig true 1)).Reaches (ReviewedOnce (smallConfig true 1)) s h ∧
        reviewedBy ["r1", "r2"] 1 h = true ∧ ReviewsBounded h) ∧
      (∃ s h, (machine (smallConfig false 1)).Reaches (ReviewedOnce (smallConfig false 1)) s h ∧
        reviewedBy ["r1"] 0 h = true ∧ ReviewsBounded h) ∧
      ∃ s h, (machine (smallConfig true 1)).Reaches (HeadsGiven (smallConfig true 1)) s h ∧
        completed h firstPr "a" "free" "r1" = true ∧ HeadsRemembered s.core.table h := by
  have hunasked : ∀ {h : List AppEvent}, (h.all fun e => !e.isAsked) = true → Unasked h := by
    intro h hall n request stored job hasked
    rw [List.all_eq_true] at hall
    exact absurd (hall _ hasked) Bool.false_ne_true
  refine ⟨?_, ?_, ?_⟩
  · obtain ⟨s, h, hr, hcheck⟩ := Machine.exists_reaches_run (M := machine (smallConfig true 1))
      (reviewedOnce_of_steady (smallConfig true 1)) commandedRun
      (fun _ h => reviewedBy ["r1", "r2"] 1 h && h.all fun e => !e.isAsked) small_new (by decide)
    obtain ⟨hreviewed, hasked⟩ := Bool.and_eq_true_iff.mp hcheck
    exact ⟨s, h, hr, hreviewed, reviews_bounded.1 hr (hunasked hasked)⟩
  · obtain ⟨s, h, hr, hcheck⟩ := Machine.exists_reaches_run (M := machine (smallConfig false 1))
      (reviewedOnce_of_steady (smallConfig false 1))
      (gatedRun ++ publishedRun ++ [.exec 0 (.submit .created), .exec 0 (.submit .go)])
      (fun _ h => reviewedBy ["r1"] 0 h && h.all fun e => !e.isAsked) small_new (by decide)
    obtain ⟨hreviewed, hasked⟩ := Bool.and_eq_true_iff.mp hcheck
    exact ⟨s, h, hr, hreviewed, reviews_bounded.1 hr (hunasked hasked)⟩
  · obtain ⟨s, h, hr, hcheck⟩ := Machine.exists_reaches_run (M := machine (smallConfig true 1))
      (headsGiven_of_headed (smallConfig true 1)) stagedRun
      (fun _ h => completed h firstPr "a" "free" "r1") small_new (by decide)
    exact ⟨s, h, hr, hcheck, reviews_bounded.2 hr⟩

/-- The row of a run for a command has no head, and it has replaced the row with the head: the
reviewed commit is forgotten, and the webhook starts a third review of it. A run whose process dies
before it has recorded its review is executed again, and completes a second one without a command. -/
theorem reviews_unbounded :
    (∃ s h, (machine (smallConfig true 1)).Reachable s h ∧ ¬ HeadsRemembered s.core.table h) ∧
      (∃ s h, (machine (smallConfig true 1)).Reachable s h ∧
        reviewedBy ["r1", "r2", "r3"] 1 h = true ∧ ¬ ReviewsBounded h) ∧
      ∃ s h, (machine (smallConfig false 1)).Reachable s h ∧
        reviewedBy ["r1", "r1"] 0 h = true ∧ ¬ ReviewsBounded h := by
  have hexceeds : ∀ {runs : List RunId} {commands : Nat} {h : List AppEvent},
      reviewedBy runs commands h = true → 1 + commands < runs.length → ¬ ReviewsBounded h := by
    intro runs commands h hreviewed hlt hbound
    simp only [reviewedBy, Bool.and_eq_true, beq_iff_eq] at hreviewed
    have hlen := hbound firstPr "a" "free" (by decide)
    rw [hreviewed.1, hreviewed.2] at hlen
    omega
  refine ⟨?_, ?_, ?_⟩
  · obtain ⟨s, h, hr, hcheck⟩ := Machine.exists_reachable_run (M := machine (smallConfig true 1))
      commandedRun
      (fun s h => h.any (AppEvent.reviews "r2" firstPr "a") &&
        !s.core.table.hasRunForHead "me" "app" 7 "a") small_new (by decide)
    rw [Bool.and_eq_true, Bool.not_eq_true'] at hcheck
    refine ⟨s, h, hr, fun hheads => ?_⟩
    rw [hheads "r2" "me" "app" 7 "a" hcheck.1] at hcheck
    cases hcheck.2
  · obtain ⟨s, h, hr, hcheck⟩ := Machine.exists_reachable_run (M := machine (smallConfig true 1))
      redeliveredRun (fun _ h => reviewedBy ["r1", "r2", "r3"] 1 h) small_new (by decide)
    exact ⟨s, h, hr, hcheck, hexceeds hcheck (by decide)⟩
  · obtain ⟨s, h, hr, hcheck⟩ := Machine.exists_reachable_run (M := machine (smallConfig false 1))
      (gatedRun ++ publishedRun ++ [.crash, .boot] ++ publishedRun)
      (fun _ h => reviewedBy ["r1", "r1"] 0 h) small_new (by decide)
    exact ⟨s, h, hr, hcheck, hexceeds hcheck (by decide)⟩

end App

end PrReviewer.Model
