import PrReviewer.Analysis.PipelineSteps
import PrReviewer.Analysis.TableSteps

/-!
# Superseded runs

A comment command deletes the rows of its pull request and enqueues a new run. Nothing tells
the watchers and the workers of the old runs. What stops them is the missing row: no worker
claims such a run and no watcher loops on. A worker that is executing one goes on to the end of
its call, and a watcher that does not look at the row before it comments still comments.
-/

set_option autoImplicit false

namespace PrReviewer.Model

open PrReviewer.Library

/-- The task may call `post_comment` before it looks at the row of its run again. -/
def WatchPc.mayComment : WatchPc → Bool
  | .polling | .sleeping _ | .fetchLogs | .postDiagnosis => true
  | _ => false

namespace Sched

variable {π : Type} {cfg : SchedConfig π} {s s' : Sched π} {a : SchedAction π}
  {es : List SchedEvent} {r : RunId} {job job₀ : ReviewJob}

/-! ## The command -/

/-- **An accepted command deletes the rows of the earlier runs** of its pull request. -/
theorem rowless_of_command {D : Machine.Discipline (Sched π) (SchedAction π) SchedEvent}
    {h : List SchedEvent} (hr : (newMachine cfg).Reaches D s h)
    (hstep : Sched.step cfg s a = some (s', es)) (hins : .inserted job ∈ es)
    (hcause : job.cause = .comment) (hold : .inserted job₀ ∈ h) (href : job₀.ref = job.ref) :
    job₀.runId ∈ s'.issued ∧ s'.table.statusOf job₀.runId = none := by
  have hlineage := reaches_lineage hr
  have hissued := hlineage.issued job₀ hold
  refine ⟨issued_mono hstep hissued, ?_⟩
  rcases step_table hstep with ⟨-, hno⟩ | ⟨r, d, cause, -, -, hfresh, heq⟩
  · exact absurd hins (hno job)
  · have hrow := (reaches_grounded (reaches_of_new hr)).fresh_row hfresh
    have hcomment : cause = .comment := by
      rcases enqueue_cases s r d cause with
        ⟨job', table, -, -, hcause', -, -, heq'⟩ | ⟨table, -, heq'⟩ <;> rw [heq] at heq' <;>
        cases heq'
      · cases List.mem_singleton.mp hins
        exact hcause'.symm.trans hcause
      · cases hins
    subst hcomment
    rcases enqueue_comment (d := d) hrow with ⟨job', pr, hstores, table, hrows, heq'⟩ | ⟨-, heq'⟩ <;>
      rw [heq] at heq' <;> cases heq'
    · cases List.mem_singleton.mp hins
      have hid : job.runId = r := by
        obtain ⟨⟨owner, repo, -, -, rfl⟩, -, -⟩ := hstores
        rfl
      rw [RunTable.statusOf_eq_none]
      intro row hmem hrun
      have hmem' : row ∈ table.rows := hmem
      rw [hrows] at hmem'
      rcases List.mem_append.mp hmem' with hmem' | hmem'
      · -- the row is one of the pull request
        obtain ⟨hmem', hother⟩ := List.mem_filter.mp hmem'
        obtain ⟨job₁, hjob₁, hsame⟩ := hlineage.onRecord row.job (Or.inl ⟨row, hmem', rfl⟩)
        have h₁ : job₁ = job₀ := hlineage.unique job₁ job₀ hjob₁ hold (hsame.runId.symm.trans hrun)
        have hrowref : row.job.ref = job.ref := by rw [hsame.ref, h₁, href]
        simp only [ReviewJob.ref, Row.job, hstores.number, PrRef.mk.injEq, Option.some.injEq] at hrowref
        simp [Row.isOf, hrowref.1, hrowref.2.1, hrowref.2.2] at hother
      · cases List.mem_singleton.mp hmem'
        rw [RunTable.rowOf_runId, hid] at hrun
        exact hfresh (hrun ▸ hissued)
    · cases hins

/-! ## Watchers -/

/-- A watcher that moves is replaced by one of the same job. -/
theorem WatchMove.watchers {i : Nat} {w : Watcher} (h : WatchMove s i w s' es) :
    ∃ w', s'.watchers = s.watchers.set i w' ∧ w'.job = w.job := by
  cases h with
  | goOn hj _ _ => exact ⟨_, rfl, hj⟩
  | leave hj _ _ => exact ⟨_, rfl, hj⟩
  | @pass w' _ hj _ _ =>
    refine ⟨{ w' with pc := .ended }, ?_, hj⟩
    show ((s.writeStatus w'.job.runId .queued).putBack w'.job).watchers.set i _ = _
    rw [putBack_watchers]
    rfl
  | @close w' st pc _ hj _ _ _ => exact ⟨{ w' with pc := pc }, rfl, hj⟩

/-- A watcher whose row is gone ends. -/
theorem loopTop_rowless (i : Nat) {w : Watcher} (hnone : s.table.statusOf w.job.runId = none) :
    s.loopTop i w = s.setWatcher i { w with pc := .ended } := by
  have hrow : s.table.row? w.job.runId = none := Option.map_eq_none_iff.mp hnone
  simp only [loopTop, hrow]

/-- **A watcher without a row** comments only if it was about to. -/
theorem watchStep_rowless {i : Nat} {inp : WatchInput} {w : Watcher}
    (hw : s.watchers[i]? = some w) (hnone : s.table.statusOf w.job.runId = none)
    (h : s.watchStep cfg i inp = some (s', es)) (hquiet : w.pc.mayComment = false) :
    (∃ w', s'.watchers = s.watchers.set i w' ∧ w'.pc.mayComment = false) ∧ es = [] := by
  have hset : ∀ {w' : Watcher}, w'.pc.mayComment = false →
      some (s.setWatcher i w', ([] : List SchedEvent)) = some (s', es) →
      (∃ w', s'.watchers = s.watchers.set i w' ∧ w'.pc.mayComment = false) ∧ es = [] := by
    intro w' hpc heq
    cases heq
    exact ⟨⟨w', rfl, hpc⟩, rfl⟩
  unfold watchStep at h
  simp only [hw] at h
  split at h
  case h_1 =>
    rw [loopTop_rowless i hnone] at h
    exact hset rfl h
  case h_4 =>
    rw [loopTop_rowless (w := { w with elapsed := w.elapsed + cfg.gate.pollIntervalSeconds }) i
      hnone] at h
    exact hset rfl h
  case h_10 =>
    refine hset ?_ h
    cases cfg.slack <;> rfl
  case h_11 => exact hset rfl h
  case h_12 => exact hset rfl h
  case h_13 => exact hset rfl h
  case h_14 => cases h
  -- the others may comment
  all_goals
    rename_i hpc
    rw [hpc] at hquiet
    cases hquiet

/-- Some watcher of the run may comment. -/
def Reports (s : Sched π) (r : RunId) : Prop :=
  ∃ w ∈ s.watchers, w.job.runId = r ∧ w.pc.mayComment = true

/-- A step of a watcher makes no watcher of a run without a row comment, unless one might. -/
theorem reports_of_watch {i : Nat} {inp : WatchInput}
    (hstep : s.watchStep cfg i inp = some (s', es)) (hnone : s.table.statusOf r = none) :
    (s'.Reports r → s.Reports r) ∧
      ∀ job body, .gateComment job body ∈ es → job.runId = r → s.Reports r := by
  obtain ⟨w, hw, hm⟩ := watchStep_move hstep
  by_cases hcase : w.job.runId = r ∧ w.pc.mayComment = false
  · -- the watcher is one of the run and goes on quietly
    obtain ⟨⟨w', hwatchers, hpc⟩, rfl⟩ := watchStep_rowless hw (hcase.1 ▸ hnone) hstep hcase.2
    refine ⟨?_, by simp⟩
    rintro ⟨x, hx, hid, hxpc⟩
    rw [hwatchers] at hx
    rcases List.mem_or_eq_of_mem_set hx with hx | rfl
    · exact ⟨x, hx, hid, hxpc⟩
    · rw [hpc] at hxpc
      cases hxpc
  · have hreports : w.job.runId = r → s.Reports r := by
      intro hid
      refine ⟨w, List.mem_of_getElem? hw, hid, ?_⟩
      by_contra hpc
      exact hcase ⟨hid, Bool.eq_false_iff.mpr hpc⟩
    obtain ⟨w', hwatchers, hjob⟩ := hm.watchers
    constructor
    · rintro ⟨x, hx, hid, hpc⟩
      rw [hwatchers] at hx
      rcases List.mem_or_eq_of_mem_set hx with hx | rfl
      · exact ⟨x, hx, hid, hpc⟩
      · exact hreports (hjob ▸ hid)
    · intro job body he hid
      rcases watchStep_events hw hstep _ he with ⟨o, heq, -⟩ | ⟨body', heq⟩ <;> cases heq
      exact hreports hid

/-- **No watcher of a run without a row comments** unless one might already. -/
theorem reports_of_step (h : Sched.step cfg s a = some (s', es))
    (hnone : s.table.statusOf r = none) :
    (s'.Reports r → s.Reports r ∧ a ≠ .crash) ∧
      ∀ job body, .gateComment job body ∈ es → job.runId = r → s.Reports r := by
  rcases watchers_of_step h with ⟨i, inp, rfl, hwatch⟩ | ⟨hwatchers, hinserted⟩
  · obtain ⟨hreports, hcomments⟩ := reports_of_watch hwatch hnone
    exact ⟨fun ht => ⟨hreports ht, by simp⟩, hcomments⟩
  · constructor
    · rintro ⟨w, hw, hid, hpc⟩
      rcases hwatchers w hw with ⟨hold, hup⟩ | ⟨job, rfl⟩
      · refine ⟨⟨w, hold, hid, hpc⟩, ?_⟩
        rintro rfl
        cases step_cases h with
        | crash hrunning =>
          rw [hrunning] at hup
          cases hup
      · -- a fresh watcher does not comment
        cases hpc
    · intro job body hmem
      obtain ⟨job', heq⟩ := hinserted _ hmem
      cases heq

end Sched

namespace AppEvent

/-- The worker of the run stages or submits its review, or comments in its place. -/
def WorkerEffect (r : RunId) : AppEvent → Prop
  | .staged job _ => job.runId = r
  | .write (.worker run) _ => run = r
  | _ => False

/-- A watcher of the run comments. -/
def GateEffect (r : RunId) : AppEvent → Prop
  | .core (.gateComment job _) => job.runId = r
  | _ => False

end AppEvent

namespace App

variable {cfg : AppConfig} {s s' t t' : App} {a : AppAction} {h es : List AppEvent} {r : RunId}

/-- Worker `j` executes the run. -/
def Executes (s : App) (j : Nat) (r : RunId) : Prop :=
  ∃ job pc, s.core.workers[j]? = some (Worker.busy job pc) ∧ job.runId = r

/-- What becomes of a run that is superseded in the state `s`, in the state `t` after the history
`h`: only the worker that executed it and the watcher that might comment have an effect, and a
restart ends that. -/
structure Superseded (s t : App) (h : List AppEvent) (r : RunId) : Prop where
  issued : r ∈ t.core.issued
  /-- the run has no row any more -/
  rowless : t.core.table.statusOf r = none
  /-- no worker has taken the run up -/
  executes : ∀ j, t.Executes j r → s.Executes j r ∧ .crashed ∉ h
  reports : t.core.Reports r → s.core.Reports r ∧ .crashed ∉ h
  workerEffects : Each (fun before e => e.WorkerEffect r →
    (∃ j, s.Executes j r) ∧ .crashed ∉ before) h
  gateEffects : Each (fun before e => e.GateEffect r → s.core.Reports r ∧ .crashed ∉ before) h

/-- A run whose row is gone stays without one. -/
theorem statusOf_none_kept (hstep : step cfg s a = some (s', es)) (hissued : r ∈ s.core.issued)
    (hst : s.core.table.statusOf r = none) :
    r ∈ s'.core.issued ∧ s'.core.table.statusOf r = none := by
  refine ⟨issued_of_step hstep hissued, ?_⟩
  rcases (step_cases hstep).core_step with ⟨hsame, -⟩ | ⟨ca, hca, -, -⟩
  · rwa [hsame]
  · exact Sched.statusOf_none_kept hca hissued hst

/-- The process dies in a step that does nothing else. -/
theorem crashed_of_step (hstep : step cfg s a = some (s', es)) (he : .crashed ∈ es) :
    es = [.crashed] ∧ s'.core = s.core.crash := by
  cases step_cases hstep with
  | crash _ => exact ⟨rfl, rfl⟩
  | chatter _ hes =>
    obtain ⟨origin, w, heq, -⟩ := hes _ he
    cases heq
  | @ask _ request run otherwise summary _ _ =>
    rcases ask_cases (s := s) request run otherwise summary with ⟨job, -, heq⟩ | ⟨-, heq⟩ <;>
      rw [heq] at he <;> cases List.mem_singleton.mp he
  | exec _ hm _ =>
    cases hm with
    | submitting _ =>
      obtain ⟨w, -, heq⟩ := List.mem_map.mp he
      cases heq
    | _ => simp at he
  | publish _ hm =>
    rcases hm.start_or_write he with heq | ⟨w, heq⟩ <;> cases heq
  | _ => simp at he

/-- A worker that executes a run without a row after a step did so before. -/
theorem executes_of_step (hstep : step cfg s a = some (s', es))
    (hnone : s.core.table.statusOf r = none) {j : Nat} (hw : s'.Executes j r) :
    s.Executes j r ∧ .crashed ∉ es := by
  obtain ⟨job, pc, hw, hid⟩ := hw
  constructor
  · cases busy_of_step hstep hw with
    | same hw => exact ⟨job, pc, hw, hid⟩
    | @moved _ job₀ pc₀ _ sha _ _ hw₀ _ _ _ => exact ⟨job₀, pc₀, hw₀, (job₀.fill_runId sha).symm.trans hid⟩
    | accepted _ hw₀ _ => exact ⟨job, _, hw₀, hid⟩
    | @claimed _ t ht _ hst =>
      rw [hid] at hst
      rcases ht with rfl | ⟨_, job', _, _, out, _, _, _, _, rfl⟩
      · rw [hnone] at hst
        cases hst
      · have hst' : (s.core.settle cfg.sched job' out).table.statusOf r = some .queued := hst
        rw [Sched.statusOf_none_settle hnone] at hst'
        cases hst'
  · intro he
    rw [(crashed_of_step hstep he).2] at hw
    cases hw

/-- Only a worker that executes the run has an effect for it. -/
theorem workerEffect_of_step (hstep : step cfg s a = some (s', es)) {e : AppEvent} (he : e ∈ es)
    (heffect : e.WorkerEffect r) : ∃ j, s.Executes j r := by
  cases event_of_step hstep he with
  | @staged i job checkout x hw _ => exact ⟨i, job, _, hw, heffect⟩
  | @worker i job pc w hw _ => exact ⟨i, job, pc, hw, heffect⟩
  | chatter horigin _ => rcases horigin with rfl | rfl <;> exact absurd heffect id
  | _ => exact absurd heffect id

/-- A comment of a run's watcher is one of a watcher that might comment. -/
theorem gateEffect_of_step (hstep : step cfg s a = some (s', es))
    (hnone : s.core.table.statusOf r = none) {e : AppEvent} (he : e ∈ es)
    (heffect : e.GateEffect r) : s.core.Reports r := by
  cases event_of_step hstep he with
  | @core ca ces ce hcore hce _ =>
    cases ce with
    | gateComment job body => exact (Sched.reports_of_step hcore hnone).2 job body hce heffect
    | _ => exact absurd heffect id
  | _ => exact absurd heffect id

/-- A watcher of a run without a row that may comment after a step might do so before. -/
theorem core_reports_of_step (hstep : step cfg s a = some (s', es))
    (hnone : s.core.table.statusOf r = none) (hw : s'.core.Reports r) :
    s.core.Reports r ∧ .crashed ∉ es := by
  constructor
  · rcases (step_cases hstep).core_step with ⟨hsame, -⟩ | ⟨ca, hca, -, -⟩
    · rwa [← hsame]
    · exact ((Sched.reports_of_step hca hnone).1 hw).1
  · intro he
    rw [(crashed_of_step hstep he).2] at hw
    obtain ⟨w, hw, -⟩ := hw
    cases hw

/-- **The step lemma.** -/
theorem Superseded.step (hs : Superseded s t h r) (hstep : App.step cfg t a = some (t', es)) :
    Superseded s t' (h ++ es) r := by
  -- an effect is one of what was there before the step
  have hbefore : ∀ {pre post : List AppEvent} {e : AppEvent}, es = pre ++ e :: post →
      e ≠ .crashed → .crashed ∉ h → .crashed ∉ h ++ pre := by
    intro pre post e hes he hh hmem
    rcases List.mem_append.mp hmem with hmem | hmem
    · exact hh hmem
    · have hone := (crashed_of_step hstep (by rw [hes]; exact List.mem_append_left _ hmem)).1
      have hin : e ∈ es := by simp [hes]
      rw [hone] at hin
      exact he (List.mem_singleton.mp hin)
  have hkept := statusOf_none_kept hstep hs.issued hs.rowless
  refine ⟨hkept.1, hkept.2, ?_, ?_, ?_, ?_⟩
  · intro j hw
    obtain ⟨hold, hes⟩ := executes_of_step hstep hs.rowless hw
    obtain ⟨hstart, hh⟩ := hs.executes j hold
    exact ⟨hstart, by simp [hh, hes]⟩
  · intro hw
    obtain ⟨hold, hes⟩ := core_reports_of_step hstep hs.rowless hw
    obtain ⟨hstart, hh⟩ := hs.reports hold
    exact ⟨hstart, by simp [hh, hes]⟩
  · refine hs.workerEffects.append fun pre e post hes heffect => ?_
    obtain ⟨j, hj⟩ := workerEffect_of_step hstep (by simp [hes]) heffect
    obtain ⟨hstart, hh⟩ := hs.executes j hj
    refine ⟨⟨j, hstart⟩, hbefore hes ?_ hh⟩
    rintro rfl
    exact heffect
  · refine hs.gateEffects.append fun pre e post hes heffect => ?_
    obtain ⟨hstart, hh⟩ := hs.reports (gateEffect_of_step hstep hs.rowless (by simp [hes]) heffect)
    refine ⟨hstart, hbefore hes ?_ hh⟩
    rintro rfl
    exact heffect

/-- **A superseded run is not taken up again.** Once a comment command is accepted, in every
continuation no worker takes up an earlier run of its pull request: what such a run still
stages, submits or comments comes from the worker that was executing it or the watcher that might
comment when the command was accepted, in the same process. -/
theorem superseded_runs (cfg : AppConfig) {s s' t : App} {h es h' : List AppEvent} {a : AppAction}
    {job job₀ : ReviewJob} (hr : (machine cfg).Reachable s h) (hstep : step cfg s a = some (s', es))
    (hins : .core (.inserted job) ∈ es) (hcause : job.cause = .comment)
    (hold : .core (.inserted job₀) ∈ h) (href : job₀.ref = job.ref)
    (hr' : ((machine cfg).startingAt s').Reachable t h') : Superseded s' t h' job₀.runId := by
  have hstart : job₀.runId ∈ s'.core.issued ∧ s'.core.table.statusOf job₀.runId = none := by
    cases event_of_step hstep hins with
    | core hcore hce _ =>
      exact Sched.rowless_of_command (reaches_core hr) hcore hce hcause (mem_core_history.mpr hold) href
  refine hr'.invariant (I := fun t h' => Superseded s' t h' job₀.runId) ?_ ?_
  · rintro t rfl
    exact ⟨hstart.1, hstart.2, fun j hj => ⟨hj, by simp⟩, fun hw => ⟨hw, by simp⟩, each_nil, each_nil⟩
  · intro t h' a t' es _ hs _ hstep
    exact hs.step hstep

/-- The job of a comment command on the first pull request. -/
def commandJob : ReviewJob where
  owner := "me"
  repo := "app"
  pr := some 7
  head := none
  runId := "r2"
  cause := .comment

/-- A command is accepted while the first run is being executed, whose review is staged then. -/
theorem command_during_review : ∃ s s' t : App, ∃ h es h' : List AppEvent,
    (machine (smallConfig true 1)).Reachable s h ∧
      step (smallConfig true 1) s (.dispatch 0 "r2") = some (s', es) ∧
      .core (.inserted commandJob) ∈ es ∧ .core (.inserted firstJob) ∈ h ∧
      ((machine (smallConfig true 1)).startingAt s').Reachable t h' ∧
      .staged firstJob ⟨"", []⟩ ∈ h' := by
  obtain ⟨s, h, hr, hcheck⟩ := Machine.exists_reachable_run (M := machine (smallConfig true 1))
    (openedRun ++ [.webhook (reviewComment 7)])
    (fun s h => h.contains (.core (.inserted firstJob)) &&
      (step (smallConfig true 1) s (.dispatch 0 "r2")).any fun r =>
        r.2.contains (.core (.inserted commandJob)) &&
        (step (smallConfig true 1) r.1 (.exec 0 (.reviewed (some {}) []))).any fun r' =>
          r'.2.contains (.staged firstJob ⟨"", []⟩))
    small_new (by decide)
  simp only [Bool.and_eq_true, List.contains_iff_mem, Option.any_eq_true] at hcheck
  obtain ⟨hfirst, ⟨s', es⟩, hstep, hins, ⟨t, h'⟩, hstep', hstaged⟩ := hcheck
  have hnext : ((machine (smallConfig true 1)).startingAt s').step s'
      (.exec 0 (.reviewed (some {}) [])) = some (t, h') := hstep'
  have hr' : ((machine (smallConfig true 1)).startingAt s').Reachable t ([] ++ h') :=
    .step (.start rfl) trivial hnext
  exact ⟨s, s', t, h, es, h', hr, hstep, hins, hfirst, hr', hstaged⟩

/-- A run whose row a command deleted goes on to stage its review. -/
theorem superseded_runs_command : ∃ s s' t : App, ∃ h es h' : List AppEvent,
    (machine (smallConfig true 1)).Reachable s h ∧
      step (smallConfig true 1) s (.dispatch 0 "r2") = some (s', es) ∧
      .staged firstJob ⟨"", []⟩ ∈ h' ∧ Superseded s' t h' "r1" := by
  obtain ⟨s, s', t, h, es, h', hr, hstep, hins, hfirst, hr', hstaged⟩ := command_during_review
  exact ⟨s, s', t, h, es, h', hr, hstep, hstaged,
    superseded_runs _ hr hstep hins rfl hfirst rfl hr'⟩

/-- A superseded run whose worker is executing it stages its review. -/
theorem superseded_stages :
    ¬ ∀ (cfg : AppConfig) (s s' t : App) (h es h' : List AppEvent) (a : AppAction)
        (job job₀ : ReviewJob), (machine cfg).Reachable s h → step cfg s a = some (s', es) →
        .core (.inserted job) ∈ es → job.cause = .comment → .core (.inserted job₀) ∈ h →
        job₀.ref = job.ref → ((machine cfg).startingAt s').Reachable t h' →
        ∀ e ∈ h', ¬ e.WorkerEffect job₀.runId ∧ ¬ e.GateEffect job₀.runId := by
  intro hall
  obtain ⟨s, s', t, h, es, h', hr, hstep, hins, hfirst, hr', hstaged⟩ := command_during_review
  exact (hall _ s s' t h es h' _ commandJob firstJob hr hstep hins rfl hfirst rfl hr' _ hstaged).1 rfl

end App

end PrReviewer.Model
