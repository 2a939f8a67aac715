import PrReviewer.Analysis.Approvals
import PrReviewer.Analysis.StatusMachine
import PrReviewer.Analysis.Supersession

/-!
# Staged reviews and the status `pending_approval`

That a run waits for its approval is known twice: `_staged_reviews` has its review, in the
memory of the process, and its row says so. A worker writes the two one after the other. A
publication takes the review and leaves the row alone, and when the process dies the row stays
and the review is gone. `staged_agrees` says that nothing else takes the two apart.
-/

set_option autoImplicit false

namespace PrReviewer.Model

open PrReviewer.Library
open PrReviewer.Interface.Life (RealEnd Step StatusEdge)

namespace Sched

variable {π : Type} {cfg : SchedConfig π} {s s' : Sched π} {a : SchedAction π}
  {es : List SchedEvent} {r : RunId}

/-- A row waits for approval only after a pipeline call that ends so. -/
theorem pendingApproval_of_step (hg : Grounded cfg s)
    (hd : ∀ i out, a = .finish i out → out.EndsIn (· ≠ some .pendingApproval))
    (hstep : Sched.step cfg s a = some (s', es))
    (hst : s'.table.statusOf r = some .pendingApproval) :
    s.table.statusOf r = some .pendingApproval := by
  by_cases hup : s'.up = s.up
  · have hlife := (step_life (by simp) hg hd hstep hup r).1
    exact hlife.pendingApproval (by simp) hst
  · rcases restart_life hg hstep hup r with ⟨-, hlife⟩ | ⟨-, hlife⟩
    · exact (congrArg Interface.Life.status hlife).symm.trans hst
    · have hbooted := (congrArg Interface.Life.status hlife).symm.trans hst
      cases hold : s.table.statusOf r with
      | none =>
        rw [hold] at hbooted
        cases hbooted
      | some st =>
        rw [hold] at hbooted
        cases st <;> first | rfl | cases hbooted

/-- The end of a pipeline call that waits for approval says so in the row of its run. -/
theorem statusOf_finish_pendingApproval (s : Sched π) (i : Nat) (job : ReviewJob) :
    (s.finish cfg i job (.result "pending_approval" false)).table.statusOf job.runId =
      (s.table.statusOf job.runId).map fun _ => .pendingApproval := by
  have hsettle : ((s.settle cfg job (.result "pending_approval" false)).release i).table.statusOf
      job.runId = (s.table.statusOf job.runId).map fun _ => .pendingApproval := by
    show (s.table.setStatus job.runId .pendingApproval s.now).statusOf job.runId = _
    rw [RunTable.statusOf_setStatus, if_pos rfl]
  refine (statusOf_dequeue cfg _ i job.runId).elim (fun h => h.trans hsettle) fun h => ?_
  rw [hsettle] at h
  obtain ⟨st, -, hst⟩ := Option.map_eq_some_iff.mp h.1
  cases hst

/-- The row of another run does not wait for approval because of it. -/
theorem statusOf_finish_other {i : Nat} {job : ReviewJob} (hr : r ≠ job.runId)
    (hst : (s.finish cfg i job (.result "pending_approval" false)).table.statusOf r =
      some .pendingApproval) : s.table.statusOf r = some .pendingApproval := by
  have hsettle : ((s.settle cfg job (.result "pending_approval" false)).release i).table.statusOf r =
      s.table.statusOf r := by
    show (s.table.setStatus job.runId .pendingApproval s.now).statusOf r = _
    rw [RunTable.statusOf_setStatus, if_neg hr]
  rcases statusOf_dequeue cfg ((s.settle cfg job (.result "pending_approval" false)).release i) i r with
    h | ⟨-, h⟩
  · rw [← hsettle, ← h]
    exact hst
  · rw [finish, h] at hst
    cases hst

end Sched

/-- Only a call that has sent its preview ends in the wait for an approval. -/
theorem ExecCase.ends_pendingApproval {cfg : PipelineConfig} {now : Nat} {cache : Cache}
    {staged : StagedReviews} {job : ReviewJob} {pc : ExecPc} {inp : ExecInput} {m : ExecMove}
    {out : Outcome} (h : ExecCase cfg now cache staged job pc inp m) (hm : m.next = .finish out) :
    (pc ≠ .notify ∧ out.EndsIn (· ≠ some .pendingApproval)) ∨
      pc = .notify ∧ out = .result "pending_approval" false := by
  cases h <;> cases hm
  case notified => exact Or.inr ⟨rfl, rfl⟩
  case prOver =>
    refine Or.inl ⟨by simp, fun st hst => ?_⟩
    cases hst
    simp
  case submitted =>
    refine Or.inl ⟨by simp, fun st hst => ?_⟩
    cases hst
    simp
  case runFailed ho =>
    refine Or.inl ⟨by simp, ?_⟩
    rcases ho with rfl | rfl <;> trivial
  all_goals exact Or.inl ⟨by simp, trivial⟩

/-- A publication that starts takes the review of its run, the others leave the reviews alone. -/
theorem ApprovalCase.taken_cases {pcfg : PipelineConfig} {staged : StagedReviews} {head : String}
    {p : Approval} {inp : ApprovalInput} {m : ApprovalMove}
    (hm : ApprovalCase pcfg staged head p inp m) :
    (inp = .go ∧ p.pc = .created ∧ m.staged = staged.drop p.job.runId ∧
        ∀ n job userApproved x, .publishing n job userApproved (some x) ∈ m.events →
          job = p.job ∧ staged.find p.job.runId ≠ none) ∨
      m.staged = staged ∧
        ∀ n job userApproved x, .publishing n job userApproved (some x) ∉ m.events := by
  have hstart : ∀ {n job userApproved x}, AppEvent.publishing n job userApproved (some x) ∈ m.events →
      job = p.job ∧ staged.find p.job.runId ≠ none := by
    intro n job userApproved x he
    rcases hm.start_or_write he with heq | ⟨w, heq⟩
    · cases hfind : staged.find p.job.runId <;> rw [hfind] at heq <;> cases heq
      simp
    · cases heq
  cases hm with
  | blocked hpc _ => exact Or.inl ⟨rfl, hpc, rfl, fun _ _ _ _ => hstart⟩
  | started hpc _ _ => exact Or.inl ⟨rfl, hpc, rfl, fun _ _ _ _ => hstart⟩
  | submitting _ _ =>
    refine Or.inr ⟨rfl, fun n job userApproved x he => ?_⟩
    obtain ⟨w, -, heq⟩ := List.mem_map.mp he
    cases heq
  | _ => exact Or.inr ⟨rfl, by simp [Approval.writes]⟩

/-- A call of the pipeline stages the review of its run and goes on to its preview, or leaves
the reviews alone. -/
theorem ExecCase.stages_cases {pcfg : PipelineConfig} {now : Nat} {cache : Cache}
    {staged : StagedReviews} {job : ReviewJob} {pc : ExecPc} {inp : ExecInput} {m : ExecMove}
    (hm : ExecCase pcfg now cache staged job pc inp m) :
    (m.staged = staged ∧ ∀ job x, .staged job x ∉ m.events) ∨
      ∃ x, m.staged = staged.stage job.runId x ∧ m.next = .goOn none .notify ∧
        m.events = [.staged job x] := by
  cases hm with
  | staged _ => exact Or.inr ⟨_, rfl, rfl, rfl⟩
  | submitting _ =>
    refine Or.inl ⟨rfl, fun job x he => ?_⟩
    obtain ⟨w, -, heq⟩ := List.mem_map.mp he
    cases heq
  | _ => exact Or.inl ⟨rfl, by simp⟩

namespace App

variable {cfg : AppConfig} {s s' : App} {a : AppAction} {h es : List AppEvent} {r : RunId}
  {D : Machine.Discipline App AppAction AppEvent}

/-! ## What a step does to the workers and the rows -/

/-- **A busy worker stays busy with its job** until its pipeline is resumed, GitHub accepts its
review, or the process dies. -/
theorem busy_kept (hr : (machine cfg).Reaches D s h) (hstep : step cfg s a = some (s', es)) {j : Nat}
    {job : ReviewJob} {pc : ExecPc} (hw : s.core.workers[j]? = some (.busy job pc)) :
    s'.core.workers[j]? = some (.busy job pc) ∨ (∃ inp, a = .exec j inp) ∨
      (∃ review spc, a = .acceptWorker j ∧ pc = .publishing review spc) ∨ a = .crash := by
  have hg := Sched.reaches_grounded (Sched.reaches_of_new (reaches_core hr))
  cases step_cases hstep with
  | @core _ ca _ _ hb hcore =>
    rcases Sched.busy_kept hg hcore hw with hw' | ⟨sha, pc', rfl⟩ | ⟨out, rfl⟩ | rfl
    · exact Or.inl hw'
    · exact absurd hb id
    · exact absurd hb id
    · exact absurd hb id
  | enqueue _ hcore =>
    rcases Sched.busy_kept hg hcore hw with hw' | ⟨sha, pc', heq⟩ | ⟨out, heq⟩ | heq
    · exact Or.inl hw'
    all_goals cases heq
  | chatter _ _ => exact Or.inl hw
  | @ask _ request run otherwise summary _ _ =>
    left
    rcases ask_cases (s := s) request run otherwise summary with ⟨job', -, heq⟩ | ⟨-, heq⟩ <;>
      rw [heq] <;> exact hw
  | @exec i inp job₀ pc₀ m c _ _ hcore =>
    by_cases hij : j = i
    · subst hij
      exact Or.inr (Or.inl ⟨inp, rfl⟩)
    · left
      rcases Sched.busy_kept hg hcore hw with hw' | ⟨sha, pc', heq⟩ | ⟨out, heq⟩ | heq
      · exact hw'
      all_goals cases hnext : m.next <;> rw [hnext] at heq <;> cases heq
      all_goals exact absurd rfl hij
  | publish _ _ => exact Or.inl hw
  | crash _ => exact Or.inr (Or.inr (Or.inr rfl))
  | push _ _ => exact Or.inl hw
  | @acceptWorker i job₀ review pc₀ pc₁ c hw₀ _ hcore =>
    by_cases hij : j = i
    · subst hij
      rw [hw₀] at hw
      cases hw
      exact Or.inr (Or.inr (Or.inl ⟨review, pc₀, rfl, rfl⟩))
    · left
      rcases Sched.busy_kept hg hcore hw with hw' | ⟨sha, pc', heq⟩ | ⟨out, heq⟩ | heq
      · exact hw'
      all_goals cases heq
      exact absurd rfl hij
  | acceptApproval _ _ _ => exact Or.inl hw
  | acceptOrphan _ => exact Or.inl hw

/-- A row waits for approval only after the worker of its run has sent the preview. -/
theorem pendingApproval_of_step (hr : (machine cfg).Reaches D s h)
    (hstep : step cfg s a = some (s', es))
    (hst : s'.core.table.statusOf r = some .pendingApproval) :
    s.core.table.statusOf r = some .pendingApproval ∨ ∃ i inp job, a = .exec i inp ∧
      s.core.workers[i]? = some (.busy job .notify) ∧ job.runId = r := by
  have hg := Sched.reaches_grounded (Sched.reaches_of_new (reaches_core hr))
  have hquiet : ∀ {ca : SchedAction ExecPc} {c : Sched ExecPc} {ces : List SchedEvent},
      Sched.step cfg.sched s.core ca = some (c, ces) → (∀ i out, ca ≠ .finish i out) →
      c.table.statusOf r = some .pendingApproval →
      s.core.table.statusOf r = some .pendingApproval := by
    intro ca c ces hcore hfinish
    exact Sched.pendingApproval_of_step hg (fun i out heq => absurd heq (hfinish i out)) hcore
  cases step_cases hstep with
  | core hb hcore =>
    refine Or.inl (hquiet hcore ?_ hst)
    rintro i out rfl
    exact hb
  | enqueue _ hcore => exact Or.inl (hquiet hcore (by simp) hst)
  | chatter _ _ => exact Or.inl hst
  | @ask _ request run otherwise summary _ _ =>
    left
    rcases ask_cases (s := s) request run otherwise summary with ⟨job', -, heq⟩ | ⟨-, heq⟩ <;>
      rw [heq] at hst <;> exact hst
  | @exec i inp job pc m c hw hm hcore =>
    cases hnext : m.next with
    | goOn sha pc' =>
      rw [hnext] at hcore
      exact Or.inl (hquiet hcore (by simp [ExecNext.action]) hst)
    | finish out =>
      rw [hnext] at hcore
      rcases hm.ends_pendingApproval hnext with ⟨-, hout⟩ | ⟨rfl, rfl⟩
      · left
        refine Sched.pendingApproval_of_step hg ?_ hcore hst
        intro i' out' heq
        cases heq
        exact hout
      · by_cases hid : job.runId = r
        · exact Or.inr ⟨i, inp, job, rfl, hw, hid⟩
        · left
          cases Sched.step_cases hcore with
          | finish hw' =>
            rw [hw] at hw'
            cases hw'
            exact Sched.statusOf_finish_other (Ne.symm hid) hst
  | publish _ _ => exact Or.inl hst
  | crash _ => exact Or.inl hst
  | push _ _ => exact Or.inl hst
  | acceptWorker _ _ hcore => exact Or.inl (hquiet hcore (by simp) hst)
  | acceptApproval _ _ _ => exact Or.inl hst
  | acceptOrphan _ => exact Or.inl hst

/-- A row that waits for approval goes on waiting unless it is deleted. -/
theorem pendingApproval_kept (hr : (machine cfg).Reaches D s h)
    (hstep : step cfg s a = some (s', es))
    (hst : s.core.table.statusOf r = some .pendingApproval) :
    s'.core.table.statusOf r = some .pendingApproval ∨ s'.core.table.statusOf r = none := by
  have hcore := Sched.reaches_of_new (reaches_core hr)
  rcases (step_cases hstep).core_step with ⟨hsame, -⟩ | ⟨ca, hca, hout, -⟩
  · rw [hsame]
    exact Or.inl hst
  · cases hst' : s'.core.table.statusOf r with
    | none => exact Or.inr rfl
    | some st =>
      left
      obtain ⟨row, hrow, hid, hstatus⟩ := RunTable.statusOf_eq_some.mp hst
      obtain ⟨row', hrow', hid', hstatus'⟩ := RunTable.statusOf_eq_some.mp hst'
      have hfollows := Sched.status_follows hcore hout hca hrow hrow' (hid'.trans hid.symm)
      rw [hstatus, hstatus'] at hfollows
      rcases hfollows with rfl | hedge
      · rfl
      · exact absurd hedge.not_final (by simp [RunStatus.final])

/-! ## The two stores -/

/-- The worker of the run has staged its review and not written its status yet. -/
def Previews (s : App) (r : RunId) : Prop :=
  ∃ (j : Nat) (job : ReviewJob), s.core.workers[j]? = some (.busy job .notify) ∧ job.runId = r

/-- The staged reviews and the rows say the same about which runs wait for approval. -/
structure StagedAgrees (s : App) (h : List AppEvent) : Prop where
  /-- the review staged for a row that waits for approval is there -/
  held : ∀ row ∈ s.core.table.rows, row.status = .pendingApproval →
    ∃ x, s.staged.find row.runId = some x ∧ LastStaged h row.runId x
  /-- a row whose review is there waits for approval, or its worker is about to say so -/
  waits : ∀ row ∈ s.core.table.rows, ∀ x, s.staged.find row.runId = some x →
    row.status = .pendingApproval ∨ s.Previews row.runId
  /-- a row whose approved review has been submitted does not wait for approval -/
  leaves : ∀ n job userApproved x review, .publishing n job userApproved (some x) ∈ h →
    .write (.approval n) (.submitReview review) ∈ h →
    ∀ row ∈ s.core.table.rows, row.runId = job.runId → row.status ≠ .pendingApproval

/-- The process does not die while a row waits for approval, and no publication starts on a run
that has both a staged review and a row. -/
def KeepsStaged : Machine.Discipline App AppAction AppEvent
  | s, _, .crash => ∀ r, s.core.table.statusOf r ≠ some .pendingApproval
  | s, _, .publish k .go => ∀ p, s.approvals[k]? = some p → p.pc = .created →
    s.staged.find p.job.runId = none ∨ s.core.table.statusOf p.job.runId = none
  | _, _, _ => True

/-- What a run of such steps knows of every run id. -/
structure InStep (s : App) (h : List AppEvent) : Prop where
  held : ∀ r, s.core.table.statusOf r = some .pendingApproval → s.staged.find r ≠ none
  waits : ∀ r, s.staged.find r ≠ none → r ∈ s.core.issued ∧
    (s.core.table.statusOf r = none ∨ s.core.table.statusOf r = some .pendingApproval ∨ s.Previews r)
  previews : ∀ r, s.Previews r → s.staged.find r ≠ none ∨ s.core.table.statusOf r = none
  /-- a publication has taken a staged review only from a run without a row -/
  taken : ∀ n job userApproved x, .publishing n job userApproved (some x) ∈ h →
    job.runId ∈ s.core.issued ∧ s.core.table.statusOf job.runId = none

/-- A run whose review was taken stays without a row when nothing else is taken. -/
theorem InStep.taken_kept (hi : InStep s h) (hstep : step cfg s a = some (s', es))
    (hes : ∀ n job userApproved x, .publishing n job userApproved (some x) ∉ es) :
    ∀ n job userApproved x, .publishing n job userApproved (some x) ∈ h ++ es →
      job.runId ∈ s'.core.issued ∧ s'.core.table.statusOf job.runId = none := by
  intro n job userApproved x he
  have hmem := (List.mem_append.mp he).resolve_right (hes n job userApproved x)
  obtain ⟨hissued, hst⟩ := hi.taken n job userApproved x hmem
  exact statusOf_none_kept hstep hissued hst

/-- The worker that goes on after its preview writes the status of its run. -/
theorem statusOf_of_previewed {i : Nat} {inp : ExecInput} {job : ReviewJob}
    (hstep : step cfg s (.exec i inp) = some (s', es))
    (hw : s.core.workers[i]? = some (.busy job .notify)) :
    s'.core.table.statusOf job.runId =
      (s.core.table.statusOf job.runId).map fun _ => .pendingApproval := by
  have hmove : s.execMove cfg i job .notify inp = some (s', es) := by
    simpa only [step, hw] using hstep
  unfold execMove at hmove
  cases hm : execStep cfg.pipeline s.core.now s.cache s.staged job .notify inp with
  | none => simp [hm] at hmove
  | some m =>
    cases execStep_cases hm with
    | notified =>
      simp only [hm] at hmove
      obtain ⟨c, ces, hcore, rfl, -⟩ := coreStep_map_eq hmove
      cases Sched.step_cases hcore with
      | finish hw' =>
        have heq := hw.symm.trans hw'
        cases heq
        exact Sched.statusOf_finish_pendingApproval s.core i job

/-- A run with a staged review still has one of the three reasons. -/
theorem InStep.waits_kept (hi : InStep s h) (hr : (machine cfg).Reaches D s h)
    (hstep : step cfg s a = some (s', es)) (hcrash : a ≠ .crash) (hfind : s.staged.find r ≠ none) :
    r ∈ s'.core.issued ∧ (s'.core.table.statusOf r = none ∨
      s'.core.table.statusOf r = some .pendingApproval ∨ s'.Previews r) := by
  obtain ⟨hissued, hcase⟩ := hi.waits r hfind
  refine ⟨?_, ?_⟩
  · exact issued_of_step hstep hissued
  · rcases hcase with hst | hst | ⟨j, job, hw, hid⟩
    · exact Or.inl (statusOf_none_kept hstep hissued hst).2
    · rcases pendingApproval_kept hr hstep hst with hst' | hst'
      · exact Or.inr (Or.inl hst')
      · exact Or.inl hst'
    · rcases busy_kept hr hstep hw with hw' | ⟨inp, rfl⟩ | ⟨review, spc, -, hpc⟩ | rfl
      · exact Or.inr (Or.inr ⟨j, job, hw', hid⟩)
      · have hst := statusOf_of_previewed hstep hw
        rw [hid] at hst
        cases hold : s.core.table.statusOf r with
        | none => exact Or.inl (hst.trans (by rw [hold]; rfl))
        | some st => exact Or.inr (Or.inl (hst.trans (by rw [hold]; rfl)))
      · cases hpc
      · exact absurd rfl hcrash

/-- The worker of a run begins to wait for Slack when it stages the review of the run. -/
theorem previews_of_step (hstep : step cfg s a = some (s', es)) (hp : s'.Previews r) :
    s.Previews r ∨ ∃ i inp job x, a = .exec i inp ∧ es = [.staged job x] ∧ job.runId = r := by
  have hafter : cfg.pipeline.afterPr ≠ .notify := by
    rcases cfg.pipeline.afterPr_cases with heq | heq <;> rw [heq] <;> simp
  obtain ⟨j, job, hw, hid⟩ := hp
  generalize hpc : ExecPc.notify = pc at hw
  cases busy_of_step hstep hw with
  | same hw => exact Or.inl ⟨j, job, hpc ▸ hw, hid⟩
  | @moved inp job₀ pc₀ _ sha m ha _ hm hnext hes =>
    subst hpc
    right
    cases hm <;> simp only [ExecNext.goOn.injEq, reduceCtorEq, and_false, and_true] at hnext
    case staged =>
      subst hnext
      exact ⟨j, _, job₀, _, ha, hes, hid⟩
    all_goals exact absurd hnext.2 hafter
  | accepted _ _ _ => cases hpc
  | claimed _ _ _ => cases hpc

/-- A step that takes no review away keeps the two stores in step. -/
theorem InStep.grow (hi : InStep s h) (hr : (machine cfg).Reaches D s h)
    (hstep : step cfg s a = some (s', es)) (hcrash : a ≠ .crash)
    (hes : ∀ n job userApproved x, .publishing n job userApproved (some x) ∉ es)
    (hkept : ∀ r, s.staged.find r ≠ none → s'.staged.find r ≠ none)
    (hnew : ∀ r, s'.staged.find r ≠ none →
      s.staged.find r ≠ none ∨ r ∈ s'.core.issued ∧ s'.Previews r)
    (hprev : ∀ r, s'.Previews r → s.Previews r ∨ s'.staged.find r ≠ none) :
    InStep s' (h ++ es) := by
  have hlineage := Sched.reaches_lineage (reaches_core hr)
  -- a run that waits for Slack with its row gone stays without one
  have hgone : ∀ r, s.Previews r → s.core.table.statusOf r = none →
      s'.core.table.statusOf r = none := by
    rintro r ⟨j, job, hw, rfl⟩ hst
    exact (statusOf_none_kept hstep (hlineage.issued_of_busy (List.mem_of_getElem? hw)) hst).2
  refine ⟨fun r hst => ?_, fun r hfind => ?_, fun r hp => ?_, hi.taken_kept hstep hes⟩
  · rcases pendingApproval_of_step hr hstep hst with hold | ⟨i, inp, job, -, hw, hid⟩
    · exact hkept r (hi.held r hold)
    · rcases hi.previews r ⟨i, job, hw, hid⟩ with hfind | hnone
      · exact hkept r hfind
      · rw [hgone r ⟨i, job, hw, hid⟩ hnone] at hst
        cases hst
  · rcases hnew r hfind with hold | ⟨hissued, hp⟩
    · exact hi.waits_kept hr hstep hcrash hold
    · exact ⟨hissued, Or.inr (Or.inr hp)⟩
  · rcases hprev r hp with hold | hfind
    · exact (hi.previews r hold).imp (hkept r) (hgone r hold)
    · exact Or.inl hfind

/-- A step outside the scheduler keeps the two stores in step if it takes reviews from runs without
a row only. -/
theorem InStep.take (hi : InStep s h) (hcore : s'.core = s.core)
    (hfind : ∀ r, s'.staged.find r = s.staged.find r ∨
      s'.staged.find r = none ∧ s.core.table.statusOf r = none)
    (hes : ∀ n job userApproved x, .publishing n job userApproved (some x) ∈ es →
      s.staged.find job.runId ≠ none ∧ s.core.table.statusOf job.runId = none) :
    InStep s' (h ++ es) := by
  have hpreviews : ∀ r, s'.Previews r ↔ s.Previews r := by
    intro r
    unfold Previews
    rw [hcore]
  refine ⟨?_, ?_, ?_, ?_⟩
  · intro r hst
    rw [hcore] at hst
    rcases hfind r with heq | ⟨-, hnone⟩
    · rw [heq]
      exact hi.held r hst
    · rw [hnone] at hst
      cases hst
  · intro r hstaged
    rw [hcore, hpreviews]
    rcases hfind r with heq | ⟨heq, -⟩ <;> rw [heq] at hstaged
    · exact hi.waits r hstaged
    · exact absurd rfl hstaged
  · intro r hp
    rw [hcore]
    rcases hfind r with heq | ⟨-, hnone⟩
    · rw [heq]
      exact hi.previews r ((hpreviews r).mp hp)
    · exact Or.inr hnone
  · intro n job userApproved x he
    rw [hcore]
    rcases List.mem_append.mp he with he | he
    · exact hi.taken n job userApproved x he
    · obtain ⟨hstaged, hnone⟩ := hes n job userApproved x he
      exact ⟨(hi.waits _ hstaged).1, hnone⟩

/-- A publication that keeps to this takes a review from a run without a row only. -/
theorem InStep.publish (hi : InStep s h) {k : Nat} {inp : ApprovalInput} {p : Approval}
    {m : ApprovalMove} (hd : KeepsStaged s h (.publish k inp)) (hp : s.approvals[k]? = some p)
    (hm : ApprovalCase cfg.pipeline s.staged (s.head p.job.ref) p inp m)
    (hcore : s'.core = s.core) (hstaged : s'.staged = m.staged) : InStep s' (h ++ m.events) := by
  rcases hm.taken_cases with ⟨rfl, hpc, hdrop, hes⟩ | ⟨hkeep, hes⟩
  · -- the run of the publication has no staged review or no row
    have hfree := hd p hp hpc
    apply hi.take hcore
    · intro r
      rw [hstaged, hdrop, StagedReviews.find_drop]
      by_cases hr : r = p.job.runId
      · subst hr
        rw [if_pos rfl]
        rcases hfree with hnone | hnone
        · exact Or.inl hnone.symm
        · exact Or.inr ⟨rfl, hnone⟩
      · exact Or.inl (if_neg hr)
    · intro n job userApproved x he
      obtain ⟨rfl, hfind⟩ := hes n job userApproved x he
      exact ⟨hfind, hfree.resolve_left hfind⟩
  · apply hi.take hcore
    · intro r
      rw [hstaged, hkeep]
      exact Or.inl rfl
    · intro n job userApproved x he
      exact absurd he (hes n job userApproved x)

/-- A worker that stages the review of its run goes on to its preview. -/
theorem InStep.stage (hi : InStep s h) (hr : (machine cfg).Reaches D s h) {i : Nat} {inp : ExecInput}
    {job : ReviewJob} {pc : ExecPc} {x : StagedReview} {c : Sched ExecPc}
    (hstep : App.step cfg s (.exec i inp) = some (s', [.staged job x]))
    (hw : s.core.workers[i]? = some (.busy job pc)) (hcore : s'.core = c)
    (hc : Sched.step cfg.sched s.core (.advance i none .notify) = some (c, []))
    (hstaged : s'.staged = s.staged.stage job.runId x) : InStep s' (h ++ [.staged job x]) := by
  have hissued := (Sched.reaches_lineage (reaches_core hr)).issued_of_busy (List.mem_of_getElem? hw)
  have hwork : s'.core.workers[i]? = some (.busy job .notify) ∧ job.runId ∈ s'.core.issued := by
    rw [hcore]
    cases Sched.step_cases hc with
    | advance hw' =>
      have heq := hw.symm.trans hw'
      cases heq
      exact ⟨List.getElem?_set_self (List.getElem?_eq_some_iff.mp hw).1, hissued⟩
  have hfind : ∀ r, s'.staged.find r = if r = job.runId then some x else s.staged.find r := by
    intro r
    rw [hstaged]
    exact StagedReviews.find_stage s.staged r job.runId x
  apply hi.grow hr hstep (by simp) (by simp)
  · intro r hold
    rw [hfind]
    split
    · simp
    · exact hold
  · intro r hnew
    by_cases hid : r = job.runId
    · exact Or.inr ⟨hid ▸ hwork.2, i, job, hwork.1, hid.symm⟩
    · left
      rwa [hfind, if_neg hid] at hnew
  · intro r hp
    rcases previews_of_step hstep hp with hold | ⟨_, _, job', y, -, hes, hid⟩
    · exact Or.inl hold
    · right
      cases hes
      rw [hfind, if_pos hid.symm]
      simp

/-- A process that dies while no row waits for approval leaves nothing that disagrees. -/
theorem InStep.crash (hi : InStep s h) (hd : KeepsStaged s h .crash)
    (hcore : s'.core = s.core.crash) (hstaged : s'.staged = []) : InStep s' (h ++ [.crashed]) := by
  have htable : s'.core.table = s.core.table := by rw [hcore]; rfl
  refine ⟨?_, ?_, ?_, ?_⟩
  · intro r hst
    rw [htable] at hst
    exact absurd hst (hd r)
  · intro r hfind
    rw [hstaged] at hfind
    exact absurd rfl hfind
  · rintro r ⟨j, job, hw, -⟩
    rw [hcore] at hw
    simp [Sched.crash] at hw
  · intro n job userApproved x he
    rw [hcore]
    exact hi.taken n job userApproved x (by simpa using he)

/-- **Such a step keeps the two stores in step.** -/
theorem InStep.step (hi : InStep s h) (hr : (machine cfg).Reaches D s h) (hd : KeepsStaged s h a)
    (hstep : App.step cfg s a = some (s', es)) : InStep s' (h ++ es) := by
  -- a step that leaves the staged reviews alone
  have hsame : a ≠ .crash → s'.staged = s.staged →
      (∀ n job userApproved x, .publishing n job userApproved (some x) ∉ es) →
      (∀ job x, .staged job x ∉ es) → InStep s' (h ++ es) := by
    intro hcrash hstaged hes hno
    refine hi.grow hr hstep hcrash hes (fun r => ?_) (fun r hfind => Or.inl ?_) fun r hp => Or.inl ?_
    · rw [hstaged]
      exact id
    · rwa [hstaged] at hfind
    · rcases previews_of_step hstep hp with hold | ⟨i, inp, job, x, -, rfl, -⟩
      · exact hold
      · exact absurd (List.mem_singleton.mpr rfl) (hno job x)
  by_cases hcrash : a = .crash
  · subst hcrash
    obtain ⟨c, ces, hcore, rfl, rfl⟩ := coreStep_map_eq (b := [.crashed]) hstep
    cases Sched.step_cases hcore with
    | crash _ => exact hi.crash hd rfl rfl
  have hcore : ∀ {ces : List SchedEvent}, es = ces.map .core → s'.staged = s.staged →
      InStep s' (h ++ es) := by
    rintro ces rfl hstaged
    refine hsame hcrash hstaged ?_ ?_
    · intro n job userApproved x he
      exact ((quiet_of_mem_core he).1 n).1 rfl
    · intro job x he
      exact (quiet_of_mem_core he).2 job.runId rfl
  cases step_cases hstep with
  | core _ _ => exact hcore rfl rfl
  | enqueue _ _ => exact hcore rfl rfl
  | chatter _ hes =>
    refine hsame hcrash rfl (fun n job userApproved x he => ?_) fun job x he => ?_
    · exact ((hes _ he).quiet n).1 rfl
    · obtain ⟨origin, w, heq, -⟩ := hes _ he
      cases heq
  | @ask _ request run otherwise summary _ _ =>
    rcases ask_cases (s := s) request run otherwise summary with ⟨job, -, heq⟩ | ⟨-, heq⟩ <;>
      rw [heq] at hsame ⊢ <;> exact hsame hcrash rfl (by simp) (by simp)
  | @exec i inp job pc m c hw hm hstep' =>
    have hquiet : ∀ n job userApproved x, .publishing n job userApproved (some x) ∉ m.events :=
      fun n job userApproved x he => (hm.quiet _ he n).1 rfl
    rcases hm.stages_cases with ⟨hstaged, hes⟩ | ⟨x, hstaged, hnext, hevents⟩
    · exact hsame hcrash hstaged hquiet hes
    · rw [hnext] at hstep'
      rw [hevents] at hstep ⊢
      exact hi.stage hr hstep hw rfl hstep' hstaged
  | publish hp hm => exact hi.publish hd hp hm rfl rfl
  | crash _ => exact absurd rfl hcrash
  | push _ _ => exact hsame hcrash rfl (by simp) (by simp)
  | acceptWorker _ _ _ => exact hsame hcrash rfl (by simp) (by simp)
  | acceptApproval _ _ _ => exact hsame hcrash rfl (by simp) (by simp)
  | acceptOrphan _ => exact hsame hcrash rfl (by simp) (by simp)

/-- In every run that keeps the staged reviews they are in step with the rows. -/
theorem reaches_inStep (hr : (machine cfg).Reaches KeepsStaged s h) : InStep s h := by
  refine hr.invariant (I := InStep) ?_ ?_
  · intro s hs
    refine ⟨?_, ?_, ?_, ?_⟩
    · intro r hst
      rw [hs.core] at hst
      cases hst
    · intro r hfind
      rw [hs.staged] at hfind
      exact absurd rfl hfind
    · rintro r ⟨j, job, hw, -⟩
      rw [hs.core] at hw
      cases hw
    · exact fun _ _ _ _ he => absurd he List.not_mem_nil
  · intro s h a s' es hr hi hd hstep
    exact hi.step hr hd hstep

/-- **The staged reviews and the rows agree** in every state of a run in which the process does
not die while a row waits for approval and no publication starts on a run that has both a staged
review and a row. -/
theorem staged_agrees (cfg : AppConfig) {s : App} {h : List AppEvent}
    (hr : (machine cfg).Reaches KeepsStaged s h) : s.StagedAgrees h := by
  have hi := reaches_inStep hr
  have hb := reaches_booked hr
  have hstatus : ∀ {row : Row}, row ∈ s.core.table.rows →
      s.core.table.statusOf row.runId = some row.status := fun hrow =>
    RunTable.statusOf_eq_some.mpr ⟨_, hrow, rfl, rfl⟩
  refine ⟨?_, ?_, ?_⟩
  · intro row hrow hst
    obtain ⟨x, hx⟩ := Option.ne_none_iff_exists'.mp (hi.held row.runId (hst ▸ hstatus hrow))
    exact ⟨x, hx, (hb.staged row.runId x).mp hx⟩
  · intro row hrow x hx
    rcases (hi.waits row.runId (by rw [hx]; simp)).2 with hst | hst | hp
    · rw [hstatus hrow] at hst
      cases hst
    · rw [hstatus hrow] at hst
      exact Or.inl (Option.some.inj hst)
    · exact Or.inr hp
  · intro n job userApproved x review hpub _ row hrow hid _
    have hnone := (hi.taken n job userApproved x hpub).2
    rw [← hid, hstatus hrow] at hnone
    cases hnone

/-- The decision procedure of the discipline on executed runs. -/
def keepsStaged (s : App) (_ : List AppEvent) : AppAction → Bool
  | .crash => s.core.table.rows.all fun row => row.status != .pendingApproval
  | .publish _ .go => s.staged.isEmpty
  | _ => true

/-- A step that passes the check keeps the staged reviews. -/
theorem keepsStaged_sound (s : App) (h : List AppEvent) (a : AppAction)
    (ha : keepsStaged s h a = true) : KeepsStaged s h a := by
  cases a with
  | crash =>
    intro r hst
    obtain ⟨row, hrow, -, hstatus⟩ := RunTable.statusOf_eq_some.mp hst
    have hne := List.all_eq_true.mp ha row hrow
    simp [hstatus] at hne
  | publish k inp =>
    cases inp with
    | go =>
      intro p _ _
      left
      rw [List.isEmpty_iff.mp ha]
      rfl
    | _ => trivial
  | _ => trivial

/-- The first review is staged and its row waits for approval. -/
theorem staged_agrees_staged :
    ∃ s h, (∃ row ∈ s.core.table.rows, row.status = .pendingApproval) ∧ s.StagedAgrees h ∧
      (machine (smallConfig true 1)).Reaches KeepsStaged s h := by
  obtain ⟨s, h, hr, hp⟩ := Machine.exists_reaches_run keepsStaged_sound stagedRun
    (fun s _ => s.core.table.rows.any fun row => row.status == .pendingApproval) small_new
    (by decide : ((machine (smallConfig true 1)).run keepsStaged small [] stagedRun).any _ = true)
  simp only [List.any_eq_true, beq_iff_eq] at hp
  exact ⟨s, h, hp, staged_agrees (smallConfig true 1) hr, hr⟩

/-- A pending row without a staged review disagrees. -/
theorem not_stagedAgrees {row : Row} (hrow : row ∈ s.core.table.rows)
    (hst : row.status = .pendingApproval) (hnone : s.staged.find row.runId = none) :
    ¬ s.StagedAgrees h := by
  intro hagrees
  obtain ⟨x, hx, -⟩ := hagrees.held row hrow hst
  rw [hnone] at hx
  cases hx

/-- **What the discipline excludes breaks the agreement**: the process dies, or a publication
starts on the run, while the row waits for approval. -/
theorem disturbed_disagrees {row : Row} (hrow : row ∈ s.core.table.rows)
    (hst : row.status = .pendingApproval) (hstep : step cfg s a = some (s', es))
    (ha : a = .crash ∨ ∃ k p, a = .publish k .go ∧ s.approvals[k]? = some p ∧
      p.job.runId = row.runId) : ¬ s'.StagedAgrees (h ++ es) := by
  rcases ha with rfl | ⟨k, p, rfl, hp, hid⟩
  · obtain ⟨c, ces, hcore, rfl, -⟩ := coreStep_map_eq (b := [.crashed]) hstep
    cases Sched.step_cases hcore with
    | crash _ => exact not_stagedAgrees hrow hst rfl
  · simp only [step, hp, publishMove] at hstep
    obtain ⟨m, hm, hres⟩ := Option.map_eq_some_iff.mp hstep
    cases hres
    refine not_stagedAgrees hrow hst ?_
    show m.staged.find row.runId = none
    have hdrop : (s.staged.drop p.job.runId).find row.runId = none := by
      rw [StagedReviews.find_drop, if_pos hid.symm]
    simp only [Approval.step] at hm
    split at hm
    · split at hm <;> cases hm <;> exact hdrop
    · cases hm

/-- Some row waits for approval and nothing is staged. -/
def lostReview (s : App) : Bool :=
  s.staged.isEmpty && s.core.table.rows.any fun row => row.status == .pendingApproval

/-- A lost review disagrees. -/
theorem not_stagedAgrees_of_lostReview (hlost : s.lostReview = true) : ¬ s.StagedAgrees h := by
  simp only [lostReview, Bool.and_eq_true, List.isEmpty_iff, List.any_eq_true, beq_iff_eq] at hlost
  obtain ⟨hempty, row, hrow, hst⟩ := hlost
  refine not_stagedAgrees hrow hst ?_
  rw [hempty]
  rfl

/-- A staged review is approved, submitted and merged, or the process is restarted: the review is
gone and its row goes on waiting for approval. -/
theorem staged_disagrees :
    (∃ s h, (machine (smallConfig true 1)).Reachable s h ∧
        .write (.approval 0) (.mergePr firstJob.ref "r1" "a") ∈ h ∧ .crashed ∉ h ∧
        ¬ s.StagedAgrees h) ∧
      ∃ s h, (machine (smallConfig true 1)).Reachable s h ∧ (∀ e ∈ h, e.isAsked = false) ∧
        ¬ s.StagedAgrees h := by
  constructor
  · obtain ⟨s, h, hr, hcheck⟩ := Machine.exists_reachable_run (M := machine (smallConfig true 1))
      (stagedRun ++ approveAndMerge)
      (fun s h => s.lostReview &&
        h.contains (.write (.approval 0) (.mergePr firstJob.ref "r1" "a")) && !h.contains .crashed)
      small_new (by decide)
    simp only [Bool.and_eq_true, Bool.not_eq_true', List.contains_eq_mem, decide_eq_true_eq,
      decide_eq_false_iff_not] at hcheck
    obtain ⟨⟨hlost, hmerge⟩, hcrash⟩ := hcheck
    exact ⟨s, h, hr, hmerge, hcrash, not_stagedAgrees_of_lostReview hlost⟩
  · obtain ⟨s, h, hr, hcheck⟩ := Machine.exists_reachable_run (M := machine (smallConfig true 1))
      (stagedRun ++ [.crash, .boot])
      (fun s h => s.lostReview && h.all fun e => !e.isAsked)
      small_new (by decide)
    simp only [Bool.and_eq_true, List.all_eq_true, Bool.not_eq_true'] at hcheck
    exact ⟨s, h, hr, hcheck.2, not_stagedAgrees_of_lostReview hcheck.1⟩

end App

end PrReviewer.Model
