import PrReviewer.Analysis.Approvals
import PrReviewer.Analysis.NoLoss

/-!
# How often GitHub accepts a review of a run

Nobody reads the marker that every review carries, so a review is not sent twice only as long
as its run is not executed twice, and `submit_review` does not send it again. An undisturbed
run is over, or its worker on the way there, once GitHub has accepted its review.
-/

set_option autoImplicit false

namespace PrReviewer.Model

open PrReviewer.Library
open PrReviewer.Interface.Life

/-! ## `submit_review` -/

/-- After this answer to the `attempt`-th try of a request `submit_review` sends the review
again. -/
def Review.resends (r : Review) (inline : Bool) (attempt : Nat) : SubmitReply → Bool
  | .limited => attempt < 5 || (inline && !r.inline.isEmpty)
  | .failed => inline && !r.inline.isEmpty
  | _ => false

/-- The call will not send the review any more, unless it is told that an accepted request has
failed. -/
def SubmitPc.closed : SubmitPc → Bool
  | .posting _ _ accepted => accepted
  | .backoff _ _ => false
  | .commenting | .done => true

/-- A submission is accepted once and closed by it. -/
theorem closed_of_accept {pc pc' : SubmitPc} (h : pc.accept = some pc') :
    pc.closed = false ∧ pc'.closed = true := by
  cases pc with
  | posting inline attempt accepted =>
    cases accepted <;> cases h
    exact ⟨rfl, rfl⟩
  | _ => cases h

/-- A closed call stays closed. -/
theorem submitStep_closed {r : Review} {pc pc' : SubmitPc} {reply : SubmitReply}
    {writes : List GitHubWrite} (h : submitStep r pc reply = some (.goOn pc' writes))
    (hclosed : pc.closed = true)
    (hreply : ∀ inline attempt, pc = .posting inline attempt true →
      r.resends inline attempt reply = false) : pc'.closed = true := by
  have hfall : ∀ {pc' : SubmitPc} {writes : List GitHubWrite}, r.fallBack = .goOn pc' writes →
      pc'.closed = true := by
    intro pc' writes h
    cases h
    rfl
  have hafter : ∀ {inline : Bool} {pc' : SubmitPc} {writes : List GitHubWrite},
      r.afterFailure inline = .goOn pc' writes → (inline && !r.inline.isEmpty) = false →
      pc'.closed = true := by
    intro inline pc' writes h hno
    unfold Review.afterFailure at h
    split at h
    · rename_i hyes
      simp [hyes.1, hyes.2] at hno
    · exact hfall h
  cases pc with
  | posting inline attempt accepted =>
    have haccepted : accepted = true := hclosed
    subst haccepted
    have hno := hreply inline attempt rfl
    cases reply with
    | created => cases h; rfl
    | noId =>
      cases inline with
      | true => cases h; rfl
      | false => exact hfall (Option.some.inj h)
    | limited =>
      simp only [Review.resends, Bool.or_eq_false_iff, decide_eq_false_iff_not] at hno
      simp only [submitStep, if_neg hno.1, Option.some.injEq] at h
      exact hafter h hno.2
    | failed => exact hafter (Option.some.inj h) hno
    | go => cases h
    | commented ok => cases h
  | backoff _ _ => exact absurd hclosed Bool.false_ne_true
  | commenting =>
    cases reply with
    | commented ok => cases ok <;> cases h; rfl
    | _ => cases h
  | done => cases reply <;> cases h

/-! ## A run that is not executed again -/

namespace Sched

variable {π : Type} {cfg : SchedConfig π} {s s' : Sched π} {a : SchedAction π}
  {es : List SchedEvent} {r : RunId}

/-- Only a crash stops a process. -/
theorem down_of_step (hstep : Sched.step cfg s a = some (s', es))
    (hdown : s'.up = false) : s.up = false ∨ a = .crash := by
  cases step_cases hstep with
  | tick d => exact Or.inl hdown
  | enqueue _ _ =>
    rw [(enqueue_frame s _ _ _).2.2.1] at hdown
    exact Or.inl hdown
  | watch hwatch =>
    obtain ⟨w, -, hm⟩ := watchStep_move hwatch
    rw [hm.frame.2.2.2.1] at hdown
    exact Or.inl hdown
  | wake _ _ =>
    rw [(dequeue_frame cfg s _).2.2.1] at hdown
    exact Or.inl hdown
  | timeout _ _ => exact Or.inl hdown
  | advance _ => exact Or.inl hdown
  | @finish i out pc job hw =>
    have hdown' : ((s.settle cfg job out).release i).up = false :=
      (dequeue_frame cfg _ i).2.2.1 ▸ hdown
    exact Or.inl ((settle_frame cfg s job out).2.2.2.1.symm.trans hdown')
  | crash _ => exact Or.inr rfl
  | boot _ =>
    obtain ⟨table, queued, -, -, hboot⟩ := boot_eq cfg s
    rw [hboot] at hdown
    cases hdown

/-- The end of a run leaves the status of every other run. -/
theorem statusOf_settle_ne {job : ReviewJob} {out : Outcome} (hne : r ≠ job.runId) :
    (s.settle cfg job out).table.statusOf r = s.table.statusOf r := by
  rcases (settle_frame cfg s job out).1 with htab | ⟨st, htab⟩
  · rw [htab]
  · rw [htab, RunTable.statusOf_setStatus, if_neg hne]

/-- **A run that neither waits nor is about to be recovered is not opened again**: what is open
after a step was so before, if the calls that end on the run finish it. -/
theorem unfinished_of_step (hsound : (s.life r).Sound)
    (hstamped : ∀ row ∈ s.table.rows, row.updatedAt ≤ s.now) (hr : r ∈ s.issued)
    (hstep : Sched.step cfg s a = some (s', es))
    (hpending : s.table.statusOf r ≠ some .pendingCi)
    (hqueued : s.table.statusOf r ≠ some .queued)
    (hdown : s.up = false → s.table.statusOf r ≠ some .running)
    (hfin : ∀ (i : Nat) (out : Outcome) (job : ReviewJob) (pc : π), a = .finish i out →
      s.workers[i]? = some (.busy job pc) → job.runId = r →
      ∀ st, (s.settle cfg job out).table.statusOf r = some st → st.final = true)
    {st : RunStatus} (hst : s'.table.statusOf r = some st) (hopen : st.final = false) :
    s.table.statusOf r = some st := by
  have hdequeue : ∀ {t : Sched π} {i : Nat}, t.table.statusOf r ≠ some .queued →
      (t.dequeue cfg i).table.statusOf r = some st → t.table.statusOf r = some st := by
    intro t i hq hst
    rcases statusOf_dequeue cfg t i r with heq | ⟨hq', -⟩
    · rw [heq] at hst
      exact hst
    · exact absurd hq' hq
  cases step_cases hstep with
  | tick d => exact hst
  | @enqueue r' d cause _ hr' =>
    have hne : r ≠ r' := by
      rintro rfl
      exact hr' hr
    rcases (enqueue_frame s r' d cause).2.2.2.2.2 with htab | ⟨job, hid, -, htab⟩
    · rw [htab] at hst
      exact hst
    · rw [htab] at hst
      rcases (RunTable.statusOf_insertRun s.table job s.now).2 r (Or.inr (hid ▸ hne)) with h | h
      · rwa [h] at hst
      · rw [h] at hst
        cases hst
  | @watch i inp s' es hwatch =>
    obtain ⟨w, hw, hm⟩ := watchStep_move hwatch
    rcases hm.frame.1 with htab | ⟨hu, st', htab⟩
    · rw [htab] at hst
      exact hst
    · rw [htab, RunTable.statusOf_setStatus] at hst
      by_cases hrw : r = w.job.runId
      · -- its watcher has decided, or its row is gone
        have hwatched : 0 < (s.life r).watched := by
          refine countP_pos_of_getElem? hw ?_
          simp [Watcher.watches, hu, hrw]
        rcases hsound.watchedPending hwatched with hnone | hpend
        · have hnone' : s.table.statusOf r = none := hnone
          rw [hnone'] at hst
          split at hst <;> cases hst
        · exact absurd hpend hpending
      · rw [if_neg hrw] at hst
        exact hst
  | wake _ _ => exact hdequeue hqueued hst
  | timeout _ _ => exact hst
  | advance _ => exact hst
  | @finish i out pc job hw =>
    by_cases hid : job.runId = r
    · have hfinal := hfin i out job pc rfl hw hid
      have hq : ((s.settle cfg job out).release i).table.statusOf r ≠ some .queued := fun h =>
        absurd (hfinal _ h) Bool.false_ne_true
      have hst' := hdequeue (t := (s.settle cfg job out).release i) hq hst
      rw [hfinal st hst'] at hopen
      cases hopen
    · have hsame : ((s.settle cfg job out).release i).table.statusOf r = s.table.statusOf r :=
        statusOf_settle_ne (Ne.symm hid)
      rw [← hsame] at hqueued ⊢
      exact hdequeue hqueued hst
  | crash _ => exact hst
  | boot hup =>
    obtain ⟨table, queued, htab, -, hboot⟩ := boot_eq cfg s
    rw [hboot] at hst
    have hst' : table.statusOf r = some st := hst
    rw [htab, RunTable.statusOf_recoverOrphans hstamped] at hst'
    have hrun := hdown hup
    cases hs : s.table.statusOf r with
    | none =>
      rw [hs] at hst'
      cases hst'
    | some st₀ =>
      rw [hs] at hst' hrun
      have hne : ¬ st₀ = .running := fun h => hrun (congrArg some h)
      rw [Option.map_some, if_neg hne] at hst'
      exact hst'

end Sched

/-- The run whose final status was just written is over. -/
theorem Sched.final_of_writeStatus {c : Sched ExecPc} {r : RunId} {st st' : RunStatus}
    (hfinal : st'.final = true) (hst : (c.writeStatus r st').table.statusOf r = some st) :
    st.final = true := by
  have hst' : (c.table.setStatus r st' c.now).statusOf r = some st := hst
  rw [RunTable.statusOf_setStatus, if_pos rfl, Option.map_eq_some_iff] at hst'
  obtain ⟨_, -, rfl⟩ := hst'
  exact hfinal

/-- A call that ends after GitHub has accepted its review finishes the run. -/
theorem ExecCase.final_of_closed {pcfg : PipelineConfig} {now : Nat} {cache : Cache}
    {staged : StagedReviews} {job : ReviewJob} {review : Review} {pc : SubmitPc} {inp : ExecInput}
    {m : ExecMove} {out : Outcome} {scfg : SchedConfig ExecPc} {c : Sched ExecPc} {st : RunStatus}
    (hm : ExecCase pcfg now cache staged job (.publishing review pc) inp m)
    (hnext : m.next = .finish out)
    (hst : (c.settle scfg job out).table.statusOf job.runId = some st) : st.final = true := by
  cases hm with
  | submitting _ => cases hnext
  | submitted _ =>
    cases hnext
    exact @Sched.final_of_writeStatus _ _ _ .posted rfl hst
  | submitFailed _ =>
    cases hnext
    exact @Sched.final_of_writeStatus _ _ _ .failed rfl hst

/-! ## The application -/

namespace App

variable {cfg : AppConfig} {s s' : App} {a : AppAction} {h es : List AppEvent} {r : RunId}
  {D : Machine.Discipline App AppAction AppEvent}

/-- A worker submits reviews of its own run. -/
def OwnReviews (s : App) : Prop :=
  ∀ (i : Nat) (job : ReviewJob) (review : Review) (pc : SubmitPc),
    s.core.workers[i]? = some (.busy job (.publishing review pc)) → review.run = job.runId

/-- Every step leaves each worker with its own run's review. -/
theorem OwnReviews.step (ho : s.OwnReviews) (hstep : App.step cfg s a = some (s', es)) :
    s'.OwnReviews := by
  intro i job review pc hbusy
  generalize hpc : ExecPc.publishing review pc = pc' at hbusy
  cases busy_of_step hstep hbusy with
  | same hw => exact ho i job review pc (hpc ▸ hw)
  | moved _ hw hm hnext _ =>
    subst hpc
    rw [ReviewJob.fill_runId]
    cases hm with
    | publish _ hreview =>
      cases hnext
      rw [hreview]
      rfl
    | submitting _ =>
      cases hnext
      exact ho i _ _ _ ‹_›
    | looked _ | lookFailed | noLook =>
      rcases cfg.pipeline.afterPr_cases with heq | heq <;> rw [heq] at hnext <;> cases hnext
    | _ => cases hnext
  | accepted _ hw _ =>
    cases hpc
    exact ho i job review _ hw
  | claimed _ _ _ => cases hpc

/-- In every run each worker submits the review of its own run. -/
theorem reaches_ownReviews (hr : (machine cfg).Reaches D s h) : s.OwnReviews := by
  refine hr.invariant (I := fun s _ => s.OwnReviews) ?_ ?_
  · intro s hs i job review pc hw
    rw [New.core hs] at hw
    exact absurd hw (by simp [Sched.new])
  · intro s h a s' es _ ho _ hstep
    exact ho.step hstep

/-- Nothing disturbs the review of the run: the process does not die between GitHub's acceptance
of it and the record of its worker, no accepted request is answered so that it is sent again,
and GitHub does not accept a request nobody waits for any more. -/
def Undisturbed (r : RunId) : Machine.Discipline App AppAction AppEvent
  | s, h, .crash =>
    ∀ job pc, Worker.busy job pc ∈ s.core.workers → job.runId = r → .accepted r ∉ h
  | s, _, .exec i (.submit reply) =>
    ∀ job review inline attempt, s.core.workers[i]? =
      some (.busy job (.publishing review (.posting inline attempt true))) → job.runId = r →
      review.resends inline attempt reply = false
  | s, _, .acceptOrphan k => s.orphans[k]? ≠ some r
  | _, _, _ => True

/-- The run is over, or its worker is on the way there: a call of its pipeline is at one of these
points, and its row does not wait for its gate, for a worker or, while the process is down, for the
next one. -/
structure RunSettled (r : RunId) (past : ExecPc → Prop) (s : App) : Prop where
  closed : ∀ job pc, Worker.busy job pc ∈ s.core.workers → job.runId = r → past pc
  issued : r ∈ s.core.issued
  pending : s.core.table.statusOf r ≠ some .pendingCi
  queued : s.core.table.statusOf r ≠ some .queued
  down : s.core.up = false → s.core.table.statusOf r ≠ some .running

/-- A call that ends at one of these points finishes its run. -/
def FinalFrom (cfg : AppConfig) (past : ExecPc → Prop) : Prop :=
  ∀ {now : Nat} {cache : Cache} {staged : StagedReviews} {job : ReviewJob} {pc : ExecPc}
    {inp : ExecInput} {m : ExecMove} {out : Outcome} {c : Sched ExecPc} {st : RunStatus},
    past pc → ExecCase cfg.pipeline now cache staged job pc inp m → m.next = .finish out →
    (c.settle cfg.sched job out).table.statusOf job.runId = some st → st.final = true

/-- Only a crash stops the process. -/
theorem down_of_step (hstep : step cfg s a = some (s', es)) (hdown : s'.core.up = false) :
    s.core.up = false ∨ a = .crash := by
  have hcore : ∀ {ca : SchedAction ExecPc} {c : Sched ExecPc} {ces : List SchedEvent},
      Sched.step cfg.sched s.core ca = some (c, ces) → ca ≠ .crash → c.up = false →
      s.core.up = false ∨ a = .crash :=
    fun hcstep hne hdown => Or.inl ((Sched.down_of_step hcstep hdown).resolve_right hne)
  cases step_cases hstep with
  | core hb hcstep =>
    refine hcore hcstep ?_ hdown
    rintro rfl
    exact hb
  | enqueue _ hcstep => exact hcore hcstep (by simp) hdown
  | chatter _ _ => exact Or.inl hdown
  | @ask _ request run otherwise summary _ _ =>
    rcases ask_cases (s := s) request run otherwise summary with ⟨j, -, heq⟩ | ⟨-, heq⟩ <;>
      rw [heq] at hdown <;> exact Or.inl hdown
  | @exec _ _ _ _ m _ _ _ hcstep =>
    refine hcore hcstep ?_ hdown
    cases m.next <;> simp [ExecNext.action]
  | publish _ _ => exact Or.inl hdown
  | crash _ => exact Or.inr rfl
  | push _ _ => exact Or.inl hdown
  | acceptWorker _ _ hcstep => exact hcore hcstep (by simp) hdown
  | acceptApproval _ _ _ => exact Or.inl hdown
  | acceptOrphan _ => exact Or.inl hdown

/-- A call of the real pipeline that does not make its run retried finishes it. -/
theorem completes_core (hr : (machine cfg).Reaches D s h) :
    (Sched.machine cfg.sched).Reaches (Sched.endsIn Sched.Completes) s.core
      (h.filterMap AppEvent.core?) := by
  refine (Sched.reaches_of_new (reaches_core hr)).mono fun s h a hd i out ha => ?_
  refine (hd i out ha).mono ?_
  rintro st (rfl | rfl | rfl | rfl) <;> exact ⟨_, rfl, rfl⟩

variable {past : ExecPc → Prop}

/-- **Nothing opens a settled run again.** -/
theorem RunSettled.open_before (hs : RunSettled r past s) (hr : (machine cfg).Reaches D s h)
    (hfinal : FinalFrom cfg past) (hstep : App.step cfg s a = some (s', es)) {st : RunStatus}
    (hst : s'.core.table.statusOf r = some st) (hopen : st.final = false) :
    s.core.table.statusOf r = some st := by
  have hcore := Sched.reaches_of_new (reaches_core hr)
  have hunfinished : ∀ {ca : SchedAction ExecPc} {c : Sched ExecPc} {ces : List SchedEvent},
      Sched.step cfg.sched s.core ca = some (c, ces) → c.table.statusOf r = some st →
      (∀ (i : Nat) (out : Outcome) (job : ReviewJob) (pc : ExecPc), ca = .finish i out →
        s.core.workers[i]? = some (.busy job pc) → job.runId = r →
        ∀ st, (s.core.settle cfg.sched job out).table.statusOf r = some st → st.final = true) →
      s.core.table.statusOf r = some st := by
    intro ca c ces hcstep hst hfin
    exact Sched.unfinished_of_step (Sched.reaches_sound hcore r)
      (Sched.reaches_grounded hcore).stamped hs.issued hcstep hs.pending hs.queued hs.down hfin hst
      hopen
  cases step_cases hstep with
  | core hb hcstep =>
    refine hunfinished hcstep hst ?_
    rintro i out job pc rfl
    exact absurd hb id
  | enqueue _ hcstep =>
    refine hunfinished hcstep hst ?_
    intro i out job pc heq
    cases heq
  | chatter _ _ => exact hst
  | @ask _ request run otherwise summary _ _ =>
    rcases ask_cases (s := s) request run otherwise summary with ⟨j, -, heq⟩ | ⟨-, heq⟩ <;>
      rw [heq] at hst <;> exact hst
  | @exec i inp job pc m c hw hm hcstep =>
    refine hunfinished hcstep hst ?_
    intro j out job' pc' hact hw' hid st' hst'
    cases hnext : m.next with
    | goOn sha pc'' =>
      rw [hnext] at hact
      cases hact
    | finish out' =>
      rw [hnext] at hact
      cases hact
      rw [hw] at hw'
      cases hw'
      exact hfinal (hs.closed job pc (List.mem_of_getElem? hw) hid) hm hnext (hid ▸ hst')
  | publish _ _ => exact hst
  | crash _ => exact hst
  | push _ _ => exact hst
  | acceptWorker _ _ hcstep =>
    refine hunfinished hcstep hst ?_
    intro i out job pc heq
    cases heq
  | acceptApproval _ _ _ => exact hst
  | acceptOrphan _ => exact hst

/-- A worker that reaches one of these points settles its run. -/
theorem settled_of_advance {i : Nat} {sha : Option (Option String)} {job : ReviewJob}
    {pc pc' : ExecPc} {ces : List SchedEvent} (hr : (machine cfg).Reaches D s h)
    (hw : s.core.workers[i]? = some (.busy job pc)) (hid : job.runId = r)
    (hcstep : Sched.step cfg.sched s.core (.advance i sha pc') = some (s'.core, ces))
    (hpast : past pc') : RunSettled r past s' := by
  have hcore := reaches_core hr
  have hgrounded := Sched.reaches_grounded (Sched.reaches_of_new hcore)
  have hsound := Sched.reaches_sound (Sched.reaches_of_new hcore) r
  have hmem := List.mem_of_getElem? hw
  have hholds : Worker.holds r (Worker.busy job pc) = true := by simp [Worker.holds, hid]
  have hone : s.core.workers.countP (Worker.holds r) ≤ 1 := by
    have hle := hsound.heldOrQueued
    have hheld : (s.core.life r).held = s.core.workers.countP (Worker.holds r) := rfl
    omega
  have hrunning := hsound.heldRunning (countP_pos_of_getElem? hw hholds)
  generalize hc : s'.core = c at hcstep
  cases Sched.step_cases hcstep with
  | advance hw' =>
    rw [hw] at hw'
    cases hw'
    have hstatus : ∀ st, st ≠ .running → s'.core.table.statusOf r ≠ some st := by
      intro st hne hst
      rw [hc] at hst
      rcases hrunning with hnone | hrunning
      · exact absurd (hst.symm.trans hnone) (by simp)
      · exact hne (Option.some.inj (hst.symm.trans hrunning))
    refine ⟨?_, ?_, hstatus _ (by simp), hstatus _ (by simp), fun hdown => ?_⟩
    · -- a second worker on the run would own it too
      intro job' pc'' hw' hid'
      obtain ⟨j, hj⟩ := List.mem_iff_getElem?.mp hw'
      rw [hc] at hj
      by_cases hij : i = j
      · subst hij
        rw [List.getElem?_set_self'] at hj
        obtain ⟨w, -, hw⟩ := Option.map_eq_some_iff.mp hj
        cases hw
        exact hpast
      · rw [List.getElem?_set_ne hij] at hj
        exact absurd (eq_of_countP_le_one hone hw hj hholds (by simp [Worker.holds, hid'])) hij
    · rw [hc, ← hid]
      exact (Sched.reaches_lineage hcore).issued_of_busy hmem
    · rw [hc] at hdown
      rw [hgrounded.up_of_worker hmem] at hdown
      cases hdown

/-- **Every step keeps a settled run settled**, if its worker stays on the way to its end and the
process does not die before. -/
theorem RunSettled.step (hs : RunSettled r past s) (hr : (machine cfg).Reaches D s h)
    (hfinal : FinalFrom cfg past) (hstep : App.step cfg s a = some (s', es))
    (hgo : ∀ i job pc inp m sha pc', a = .exec i inp → s.core.workers[i]? = some (.busy job pc) →
      job.runId = r → ExecCase cfg.pipeline s.core.now s.cache s.staged job pc inp m →
      m.next = .goOn sha pc' → past pc')
    (haccept : ∀ review pc pc', past (.publishing review pc) → pc.accept = some pc' →
      past (.publishing review pc'))
    (hcrash : a = .crash → ∀ job pc, Worker.busy job pc ∈ s.core.workers → job.runId ≠ r) :
    RunSettled r past s' := by
  refine ⟨?_, issued_of_step hstep hs.issued, fun hst => ?_, fun hst => ?_, fun hdown hst => ?_⟩
  · intro job pc hw hid
    obtain ⟨j, hj⟩ := List.mem_iff_getElem?.mp hw
    cases busy_of_step hstep hj with
    | same hw' => exact hs.closed job pc (List.mem_of_getElem? hw') hid
    | moved ha hw' hm hnext _ =>
      rw [ReviewJob.fill_runId] at hid
      exact hgo _ _ _ _ _ _ _ ha hw' hid hm hnext
    | accepted _ hw' hpc =>
      exact haccept _ _ _ (hs.closed _ _ (List.mem_of_getElem? hw') hid) hpc
    | claimed ht _ hst =>
      rw [hid] at hst
      rcases ht with rfl | ⟨inp, job', pc', m, out, -, hw', hm, hnext, rfl⟩
      · exact absurd hst hs.queued
      · have hst' : (s.core.settle cfg.sched job' out).table.statusOf r = some .queued := hst
        by_cases hid' : job'.runId = r
        · have hpast := hs.closed _ _ (List.mem_of_getElem? hw') hid'
          rw [← hid'] at hst'
          exact absurd (hfinal hpast hm hnext hst') Bool.false_ne_true
        · rw [Sched.statusOf_settle_ne (Ne.symm hid')] at hst'
          exact absurd hst' hs.queued
  · exact hs.pending (hs.open_before hr hfinal hstep hst rfl)
  · exact hs.queued (hs.open_before hr hfinal hstep hst rfl)
  · -- the process is down
    have hrunning := hs.open_before hr hfinal hstep hst rfl
    rcases down_of_step hstep hdown with hdown | ha
    · exact hs.down hdown hrunning
    · cases hup : s.core.up with
      | false => exact hs.down hup hrunning
      | true =>
        have htracked := Sched.reaches_tracked (completes_core hr) hup r
        obtain ⟨w, hw, hholds⟩ := List.countP_pos_iff.mp (htracked.running hrunning)
        cases w with
        | busy job pc => exact hcrash ha job pc hw (by simpa [Worker.holds] using hholds)
        | _ => cases hholds

/-! ## GitHub accepts one review -/

/-- The call of the pipeline is one of `submit_review` that will not send the review any more. -/
def ClosedCall (pc : ExecPc) : Prop :=
  ∃ review spc, pc = .publishing review spc ∧ spc.closed = true

/-- A closed call finishes its run. -/
theorem finalFrom_closedCall : FinalFrom cfg ClosedCall := by
  rintro now cache staged job _ inp m out c st ⟨review, spc, rfl, -⟩ hm hnext hst
  exact hm.final_of_closed hnext hst

/-- A worker at this point of the call is on the way to the end of its run. -/
theorem RunSettled.closed_of_worker {i : Nat} {job : ReviewJob} {review : Review} {pc : SubmitPc}
    (hs : RunSettled r ClosedCall s)
    (hw : s.core.workers[i]? = some (.busy job (.publishing review pc))) (hid : job.runId = r) :
    pc.closed = true := by
  obtain ⟨review', spc, heq, hclosed⟩ := hs.closed job _ (List.mem_of_getElem? hw) hid
  cases heq
  exact hclosed

/-- A call whose request GitHub may still accept has not settled its run. -/
theorem not_settled_of_accept {i : Nat} {job : ReviewJob} {review : Review} {pc pc' : SubmitPc}
    (hw : s.core.workers[i]? = some (.busy job (.publishing review pc))) (hid : job.runId = r)
    (hpc : pc.accept = some pc') : ¬ RunSettled r ClosedCall s := by
  intro hs
  have hclosed := hs.closed_of_worker hw hid
  rw [(closed_of_accept hpc).1] at hclosed
  cases hclosed

/-- **A closed call is kept by every step** that answers its request without having it sent again,
if the process does not die before the end of the run. -/
theorem RunSettled.step_closed (hs : RunSettled r ClosedCall s) (hr : (machine cfg).Reaches D s h)
    (hreply : ∀ i reply job review inline attempt, a = .exec i (.submit reply) →
      s.core.workers[i]? = some (.busy job (.publishing review (.posting inline attempt true))) →
      job.runId = r → review.resends inline attempt reply = false)
    (hcrash : a = .crash → ∀ job pc, Worker.busy job pc ∈ s.core.workers → job.runId ≠ r)
    (hstep : App.step cfg s a = some (s', es)) : RunSettled r ClosedCall s' := by
  refine hs.step hr finalFrom_closedCall hstep ?_ ?_ hcrash
  · intro i job pc inp m sha pc' ha hw hid hm hnext
    obtain ⟨review, spc, rfl, hclosed⟩ := hs.closed _ _ (List.mem_of_getElem? hw) hid
    cases hm with
    | submitting hsubmit =>
      cases hnext
      refine ⟨_, _, rfl, submitStep_closed hsubmit hclosed ?_⟩
      rintro inline attempt rfl
      exact hreply _ _ _ _ _ _ ha hw hid
    | submitted _ => cases hnext
    | submitFailed _ => cases hnext
  · rintro review pc pc' ⟨review', spc, heq, hclosed⟩ hpc
    cases heq
    rw [(closed_of_accept hpc).1] at hclosed
    cases hclosed

/-- The invariant of the events of a kind that settle the run: there has been one at most, and if
there has been one the run is settled. -/
structure Once (r : RunId) (kind : AppEvent → Bool) (past : ExecPc → Prop) (s : App)
    (h : List AppEvent) : Prop where
  count : h.countP kind ≤ 1
  settled : ∀ e ∈ h, kind e = true → RunSettled r past s

variable {kind : AppEvent → Bool}

/-- At the start there has been no event. -/
theorem Once.nil : Once r kind past s [] :=
  ⟨Nat.zero_le _, fun _ he => absurd he List.not_mem_nil⟩

/-- The invariant is kept by a step whose only event is the one that settles the run, and by a step
without such an event that leaves a settled run settled. -/
theorem Once.append (ho : Once r kind past s h)
    (hnew : ∀ e ∈ es, kind e = true → es = [e] ∧ ¬ RunSettled r past s ∧ RunSettled r past s')
    (hold : ∀ e ∈ h, kind e = true → (∀ e ∈ es, kind e = false) → RunSettled r past s →
      RunSettled r past s') : Once r kind past s' (h ++ es) := by
  by_cases hex : ∃ e ∈ es, kind e = true
  · obtain ⟨e, he, hkind⟩ := hex
    obtain ⟨rfl, hopen, hsettled⟩ := hnew e he hkind
    have hnone : h.countP kind = 0 := by
      rw [List.countP_eq_zero]
      exact fun e' he' hkind' => hopen (ho.settled e' he' hkind')
    refine ⟨?_, fun _ _ _ => hsettled⟩
    rw [List.countP_append, hnone, List.countP_singleton, if_pos hkind]
  · have hno : ∀ e ∈ es, kind e = false := fun e he =>
      Bool.eq_false_iff.mpr fun hkind => hex ⟨e, he, hkind⟩
    constructor
    · have hzero : es.countP kind = 0 := by
        rw [List.countP_eq_zero]
        intro e he
        simp [hno e he]
      rw [List.countP_append, hzero]
      exact ho.count
    · intro e he hkind
      have he : e ∈ h := (List.mem_append.mp he).resolve_right fun he => hex ⟨e, he, hkind⟩
      exact hold e he hkind hno (ho.settled e he hkind)

/-- GitHub has accepted one review of the run at most, and if it has accepted one the run is not
opened again. -/
def PostedOnce (r : RunId) (s : App) (h : List AppEvent) : Prop :=
  Once r (fun e => e == .accepted r) ClosedCall s h

/-- GitHub accepts a review of the run from a worker on it, from a publication that an approval
request for it has asked for, or from a sender that is gone. -/
theorem accepted_of_step (hr : (machine cfg).Reaches D s h)
    (hstep : App.step cfg s a = some (s', es)) (he : .accepted r ∈ es) :
    (∃ (i : Nat) (job : ReviewJob) (review : Review) (pc pc' : SubmitPc),
        s.core.workers[i]? = some (.busy job (.publishing review pc)) ∧ job.runId = r ∧
        pc.accept = some pc' ∧
        Sched.step cfg.sched s.core (.advance i none (.publishing review pc')) =
          some (s'.core, []) ∧ es = [.accepted r]) ∨
      (∃ n request stored job, .asked n request stored (some job) ∈ h ∧ job.runId = r) ∨
      ∃ k, a = .acceptOrphan k ∧ s.orphans[k]? = some r := by
  cases event_of_step hstep he with
  | @acceptedWorker i job review pc pc' hw hpc hcstep hes =>
    exact Or.inl ⟨i, job, review, pc, pc', hw, (reaches_ownReviews hr i job review pc hw).symm, hpc,
      hcstep, hes⟩
  | acceptedApproval hk hpc =>
    have hh := (reaches_booked hr).handled _ (List.mem_of_getElem? hk)
    obtain ⟨taken, -, hreview⟩ := hh.started (by simp [hpc])
    obtain ⟨request, stored, _, hasked, -⟩ := hh.requested
    refine Or.inr (Or.inl ⟨_, _, _, _, hasked, ?_⟩)
    rw [hreview _ _ hpc]
    rfl
  | acceptedOrphan ha hk => exact Or.inr (Or.inr ⟨_, ha, hk⟩)

/-- **Every step that does not disturb the run keeps it posted once**, if no approval request
names it. -/
theorem PostedOnce.step (hp : PostedOnce r s h) (hr : (machine cfg).Reaches D s h)
    (hd : Undisturbed r s h a)
    (hno : ∀ n request stored job, .asked n request stored (some job) ∈ h → job.runId ≠ r)
    (hstep : App.step cfg s a = some (s', es)) : PostedOnce r s' (h ++ es) := by
  refine Once.append hp ?_ ?_
  · rintro e he hkind
    obtain rfl : e = .accepted r := eq_of_beq hkind
    rcases accepted_of_step hr hstep he with
      ⟨i, job, review, pc, pc', hw, hid, hpc, hcstep, hes⟩ | ⟨n, request, stored, job, hasked, hid⟩ |
        ⟨k, rfl, hk⟩
    · -- GitHub's acceptance of a worker's review is the first of its run
      exact ⟨hes, not_settled_of_accept hw hid hpc,
        settled_of_advance hr hw hid hcstep ⟨review, pc', rfl, (closed_of_accept hpc).2⟩⟩
    · exact absurd hid (hno n request stored job hasked)
    · exact absurd hk hd
  · intro e he hkind _ hs
    have hacc : .accepted r ∈ h := eq_of_beq hkind ▸ he
    refine hs.step_closed hr ?_ ?_ hstep
    · rintro i reply job review inline attempt rfl hw hid
      exact hd job review inline attempt hw hid
    · rintro rfl job pc hw hid
      exact hd job pc hw hid hacc

/-- A run that nothing disturbs and no approval request names is posted once. -/
theorem reaches_postedOnce (hr : (machine cfg).Reaches (Undisturbed r) s h)
    (hno : ∀ n request stored job, .asked n request stored (some job) ∈ h → job.runId ≠ r) :
    PostedOnce r s h := by
  refine hr.invariant (I := fun s h =>
    (∀ n request stored job, .asked n request stored (some job) ∈ h → job.runId ≠ r) →
      PostedOnce r s h) ?_ ?_ hno
  · intro s hs _
    exact .nil
  · intro s h a s' es hr ih hd hstep hno
    have hno' : ∀ n request stored job, .asked n request stored (some job) ∈ h → job.runId ≠ r :=
      fun n request stored job hj => hno n request stored job (List.mem_append_left _ hj)
    exact (ih hno').step hr hd hno' hstep

/-- **GitHub accepts at most one review of a run** that nothing disturbs and no approval request
names. -/
theorem accepted_at_most_once (cfg : AppConfig) (r : RunId) {s : App} {h : List AppEvent}
    (hr : (machine cfg).Reaches (Undisturbed r) s h)
    (hno : ∀ n request stored job, .asked n request stored (some job) ∈ h → job.runId ≠ r) :
    h.count (.accepted r) ≤ 1 :=
  (reaches_postedOnce hr hno).count

/-- A run is executed and published directly, and GitHub accepts its review. -/
def publishedRun : List AppAction :=
  [.wake 0, .exec 0 .go, .exec 0 (.pr (some ⟨some "open", false, some "a"⟩)),
    .exec 0 (.clone .fine true), .exec 0 (.diff (some "")), .exec 0 (.reviewed (some {}) []),
    .acceptWorker 0]

/-- The pull request is opened and its gate opens. -/
def gatedRun : List AppAction :=
  .boot :: openPr 7 "a" "r1" ++ [.watch 0 .go, .watch 0 (.polled (.runs []))]

/-- A check that is strong enough for `Undisturbed`. -/
def quietStep : App → List AppEvent → AppAction → Bool
  | _, _, .crash | _, _, .acceptOrphan _ => false
  | _, _, .exec _ (.submit reply) => reply == .created || reply == .go
  | _, _, _ => true

/-- A quiet step leaves the run undisturbed. -/
theorem undisturbed_of_quietStep (h : quietStep s es a = true) : Undisturbed r s es a := by
  cases a with
  | crash => cases h
  | acceptOrphan k => cases h
  | exec i inp =>
    cases inp with
    | submit reply =>
      intro job review inline attempt _ _
      cases reply <;> first | rfl | cases h
    | _ => trivial
  | _ => trivial

/-- A run posted without disturbance was accepted once. -/
theorem accepted_at_most_once_posted :
    ∃ s h, .accepted "r1" ∈ h ∧ h.count (.accepted "r1") ≤ 1 ∧
      s.core.table.statusOf "r1" = some .posted ∧
      (machine (smallConfig false 1)).Reaches (Undisturbed "r1") s h := by
  obtain ⟨s, h, hr, hcheck⟩ := Machine.exists_reaches_run (M := machine (smallConfig false 1))
    (D := Undisturbed "r1") (fun _ _ _ => undisturbed_of_quietStep)
    (gatedRun ++ publishedRun ++ [.exec 0 (.submit .created), .exec 0 (.submit .go)])
    (fun s h => h.contains (.accepted "r1") && s.core.table.statusOf "r1" == some .posted &&
      h.all fun e => !e.isAsked) small_new (by decide)
  simp only [Bool.and_eq_true, beq_iff_eq, List.contains_iff_mem, List.all_eq_true] at hcheck
  obtain ⟨⟨hacc, hposted⟩, hasked⟩ := hcheck
  refine ⟨s, h, hacc, accepted_at_most_once _ "r1" hr ?_, hposted, hr⟩
  intro n request stored job hmem
  exact absurd (hasked _ hmem) Bool.false_ne_true

/-- The process dies after GitHub has accepted the review and before the status is written; the
next one executes the run again, and GitHub accepts a second review. -/
theorem accepted_twice :
    ¬ ∀ cfg s h r, cfg.slack = false → (machine cfg).Reachable s h → h.count (.accepted r) ≤ 1 := by
  intro hall
  obtain ⟨s, h, hr, hcheck⟩ := Machine.exists_reachable_run (M := machine (smallConfig false 1))
    (gatedRun ++ publishedRun ++ [.crash, .boot] ++ publishedRun)
    (fun _ h => h.count (.accepted "r1") == 2) small_new (by decide)
  have hle := hall _ s h "r1" rfl hr
  rw [beq_iff_eq.mp hcheck] at hle
  omega

end App

end PrReviewer.Model
