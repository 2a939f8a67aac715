import PrReviewer.Analysis.Lineage
import PrReviewer.Analysis.PipelineSteps

/-!
# CI before review

A commit is reviewed only after the gate has seen its check runs, if the run was enqueued with
that commit. A run that was enqueued without a head passes the gate unseen, and the pipeline
then fills in whatever head the pull request has.
-/

set_option autoImplicit false

namespace PrReviewer.Model

open PrReviewer.Library
open PrReviewer.Interface.Life

variable {π : Type}

namespace Sched

variable {cfg : SchedConfig π} {s s' : Sched π} {a : SchedAction π} {h es : List SchedEvent}
  {r : RunId}

/-- If the run was enqueued with a head, the gate has polled that head and seen no check runs,
or green ones. -/
def Passed (h : List SchedEvent) (r : RunId) : Prop :=
  ∀ job₀, .inserted job₀ ∈ h → job₀.runId = r → truthy job₀.head = true →
    ∃ job runs, .polled job (.runs runs) ∈ h ∧ SameTarget job₀ job ∧ greenOrAbsent runs = true

/-- A run that may be executed is queued or running. -/
def Open (s : Sched π) (r : RunId) : Prop :=
  s.table.statusOf r = some .queued ∨ s.table.statusOf r = some .running

/-- The gate has let every run through that is queued, running or executed. -/
structure Gating (s : Sched π) (h : List SchedEvent) : Prop where
  coherent : ∀ w ∈ s.watchers, w.Coherent
  polled : ∀ job o, .polled job o ∈ h →
    truthy job.head = true ∧ ∃ job₀, .inserted job₀ ∈ h ∧ SameTarget job₀ job
  opened : ∀ r, s.Open r → Passed h r
  busy : ∀ job pc, Worker.busy job pc ∈ s.workers → Passed h job.runId

/-- A run that has passed the gate has passed it after every step. -/
theorem Passed.mono (hp : Passed h r) (hr : r ∈ s.issued)
    (hstep : Sched.step cfg s a = some (s', es)) : Passed (h ++ es) r := by
  intro job₀ hj hid ht
  rcases List.mem_append.mp hj with hj | hj
  · obtain ⟨job, runs, hpoll, hsame, hgreen⟩ := hp job₀ hj hid ht
    exact ⟨job, runs, List.mem_append_left _ hpoll, hsame, hgreen⟩
  · exact absurd hr (hid ▸ (inserted_of_step hstep hj).1)

/-- **A watcher opens the gate only for a run it may open it for.** -/
theorem Gating.passed_of_mayPass (hg : Gating s h) (hl : Lineage s h) {i : Nat} {w : Watcher}
    (hw : s.watchers[i]? = some w) (hstep : Sched.step cfg s a = some (s', es))
    (hpass : w.MayPass es) : Passed (h ++ es) w.job.runId := by
  have hmem := List.mem_of_getElem? hw
  obtain ⟨job₁, hj₁, hsame⟩ := hl.onRecord w.job (Or.inr ⟨w, hmem, rfl⟩)
  intro job₀ hj hid ht
  have heq : job₁ = job₀ := by
    refine (hl.step hstep).unique job₁ job₀ (List.mem_append_left _ hj₁) hj ?_
    rw [hid, hsame.runId]
  subst heq
  rcases hpass with hhead | ⟨runs, hpoll, hgreen⟩ | ⟨runs, hpc, hall⟩
  · rw [← hsame.truthy_iff, hhead] at ht
    exact absurd ht Bool.false_ne_true
  · exact ⟨w.job, runs, List.mem_append_right _ hpoll, hsame, hgreen⟩
  · rw [(hg.coherent w hmem).sleeps runs hpc] at hall
    exact absurd hall Bool.false_ne_true

/-- A status that is written opens at most its run. -/
theorem open_of_setStatus {t : Sched π} {r' : RunId} {st : RunStatus}
    (htab : t.table = s.table.setStatus r' st s.now) (ho : t.Open r) :
    s.Open r ∨ r = r' ∧ (st = .queued ∨ st = .running) ∧ ∃ st₀, s.table.statusOf r = some st₀ := by
  unfold Open at ho
  rw [htab, RunTable.statusOf_setStatus] at ho
  by_cases hr : r = r'
  · rw [if_pos hr] at ho
    cases hst : s.table.statusOf r with
    | none =>
      rw [hst] at ho
      exact absurd ho (by simp)
    | some st₀ =>
      rw [hst] at ho
      exact Or.inr ⟨hr, ho.imp Option.some.inj Option.some.inj, st₀, rfl⟩
  · rw [if_neg hr] at ho
    exact Or.inl ho

/-- The end of a call opens at most the run it executed. -/
theorem Gating.open_settle (hg : Gating s h) {i : Nat} {job : ReviewJob} {pc : π} {out : Outcome}
    (hw : s.workers[i]? = some (.busy job pc)) (ho : (s.settle cfg job out).Open r) :
    Passed h r ∧ ∃ st, s.table.statusOf r = some st := by
  have hopen : s.Open r → Passed h r ∧ ∃ st, s.table.statusOf r = some st :=
    fun ho => ⟨hg.opened r ho, ho.elim (fun h => ⟨_, h⟩) fun h => ⟨_, h⟩⟩
  rcases (settle_frame cfg s job out).1 with htab | ⟨st, htab⟩
  · unfold Open at ho
    rw [htab] at ho
    exact hopen ho
  · rcases open_of_setStatus htab ho with ho | ⟨rfl, -, hst⟩
    · exact hopen ho
    · exact ⟨hg.busy job pc (List.mem_of_getElem? hw), hst⟩

/-- `dequeue` opens nothing. -/
theorem open_of_dequeue {i : Nat} (ho : (s.dequeue cfg i).Open r) : s.Open r := by
  unfold Open at ho
  rcases statusOf_dequeue cfg s i r with heq | ⟨hq, -⟩
  · rw [heq] at ho
    exact ho
  · exact Or.inl hq

/-- A new run waits for CI. -/
theorem open_of_enqueue {r' : RunId} {d : Decision} {cause : Cause}
    (ho : (s.enqueue r' d cause).1.Open r) : s.Open r := by
  have hnone : ¬ ((none : Option RunStatus) = some .queued ∨ (none : Option RunStatus) = some .running) := by
    simp
  unfold Open at ho
  rcases enqueue_cases s r' d cause with
    ⟨job, table, -, hst, -, -, hins, heq⟩ | ⟨table, rfl | ⟨job, -, -, hins⟩, heq⟩
  · obtain ⟨hnew, hold⟩ := RunTable.statusOf_insertRun s.table job s.now
    rw [hins] at hnew hold
    rw [heq] at ho
    have ho' : table.statusOf r = some .queued ∨ table.statusOf r = some .running := ho
    by_cases hr : r = job.runId
    · rw [hr, hnew rfl, hst] at ho'
      exact absurd ho' (by simp)
    · rcases hold r (Or.inr hr) with h | h
      · rwa [h] at ho'
      · rw [h] at ho'
        exact absurd ho' hnone
  · rw [heq] at ho
    exact ho
  · have hold := (RunTable.statusOf_insertRun s.table job s.now).2 r
    rw [hins] at hold
    rw [heq] at ho
    have ho' : table.statusOf r = some .queued ∨ table.statusOf r = some .running := ho
    rcases hold (Or.inl rfl) with h | h
    · rwa [h] at ho'
    · rw [h] at ho'
      exact absurd ho' hnone

/-- A move of a watcher opens at most the run that it may let pass. -/
theorem open_of_watch {i : Nat} {w : Watcher} (hm : WatchMove s i w s' es) (ho : s'.Open r) :
    s.Open r ∨ r = w.job.runId ∧ w.MayPass es := by
  cases hm with
  | goOn _ _ _ => exact Or.inl ho
  | leave _ _ _ => exact Or.inl ho
  | @pass w' _ hj _ hpass =>
    have htab : (s.passGate i w').table = s.table.setStatus w.job.runId .queued s.now := by
      rw [← hj]
      exact (putBack_frame (s.writeStatus w'.job.runId .queued) w'.job).1
    rcases open_of_setStatus htab ho with ho | ⟨hr, -⟩
    · exact Or.inl ho
    · exact Or.inr ⟨hr, hpass⟩
  | @close w' st pc _ hj _ hst _ =>
    have htab : (s.closeGate i w' st pc).table = s.table.setStatus w.job.runId st s.now := by
      rw [← hj]
      rfl
    rcases open_of_setStatus htab ho with ho | ⟨-, hopen, -⟩
    · exact Or.inl ho
    · rcases hst with rfl | rfl <;> exact absurd hopen (by simp)

/-- A boot opens only what was running. -/
theorem open_of_boot (hgr : Grounded cfg s) (ho : (s.boot cfg).Open r) : s.Open r := by
  obtain ⟨table, queued, htab, -, hboot⟩ := boot_eq cfg s
  rw [hboot] at ho
  have ho' : table.statusOf r = some .queued ∨ table.statusOf r = some .running := ho
  rw [htab, RunTable.statusOf_recoverOrphans hgr.stamped] at ho'
  unfold Open
  cases hs : s.table.statusOf r with
  | none =>
    rw [hs] at ho'
    exact absurd ho' (by simp)
  | some st =>
    rw [hs] at ho'
    cases st <;> simp at ho' ⊢

/-- Every step keeps the watchers coherent. -/
theorem Gating.coherent_step (hg : Gating s h) (hstep : Sched.step cfg s a = some (s', es)) :
    ∀ w ∈ s'.watchers, w.Coherent := by
  rcases watchers_of_step hstep with ⟨i, inp, rfl, hwatch⟩ | ⟨hwatchers, -⟩
  · obtain ⟨w, hw, hm⟩ := watchStep_move hwatch
    have hset : ∀ {i : Nat} {w' : Watcher}, w'.Coherent →
        ∀ x ∈ s.watchers.set i w', x.Coherent := by
      intro i w' hw' x hx
      rcases List.mem_or_eq_of_mem_set hx with hx | rfl
      · exact hg.coherent x hx
      · exact hw'
    cases hm with
    | goOn _ _ hc => exact hset hc
    | leave _ hu _ => exact hset (Watcher.coherent_of_decided hu)
    | @pass w' _ _ _ _ =>
      intro x hx
      have hx' : x ∈ ((s.writeStatus w'.job.runId .queued).putBack w'.job).watchers.set _
          { w' with pc := .ended } := hx
      rw [putBack_watchers] at hx'
      exact hset (Watcher.coherent_of_decided rfl) x hx'
    | close _ _ _ hpc => exact hset (Watcher.coherent_of_decided hpc)
  · intro w hw
    rcases hwatchers w hw with ⟨hold, -⟩ | ⟨job, rfl⟩
    · exact hg.coherent w hold
    · exact ⟨by simp, by simp⟩

/-- A poll is that of a watcher that waits for one. -/
theorem watcher_of_polled (hstep : Sched.step cfg s a = some (s', es)) {job : ReviewJob}
    {o : PollOutcome} (hpoll : .polled job o ∈ es) :
    ∃ w ∈ s.watchers, w.job = job ∧ w.pc = .polling := by
  rcases watchers_of_step hstep with ⟨i, inp, rfl, hwatch⟩ | ⟨-, hinserted⟩
  · obtain ⟨w, hw, -⟩ := watchStep_move hwatch
    rcases watchStep_events hw hwatch _ hpoll with ⟨o', he, hpc⟩ | ⟨body, he⟩
    · cases he
      exact ⟨w, List.mem_of_getElem? hw, rfl, hpc⟩
    · cases he
  · obtain ⟨job', he⟩ := hinserted _ hpoll
    cases he

/-- **Every step keeps the gate.** -/
theorem Gating.step (hg : Gating s h) (hl : Lineage s h) (hgr : Grounded cfg s)
    (hstep : Sched.step cfg s a = some (s', es)) : Gating s' (h ++ es) := by
  have hsame : ∀ r, s.Open r → Passed (h ++ es) r := by
    intro r ho
    have hissued : r ∈ s.issued := ho.elim hl.issued_of_status hl.issued_of_status
    exact (hg.opened r ho).mono hissued hstep
  have hsettled : ∀ {i : Nat} {job : ReviewJob} {pc : π} {out : Outcome} (r : RunId),
      s.workers[i]? = some (.busy job pc) → (s.settle cfg job out).Open r → Passed (h ++ es) r := by
    intro i job pc out r hw ho
    obtain ⟨hp, st, hst⟩ := hg.open_settle hw ho
    exact hp.mono (hl.issued_of_status hst) hstep
  have hbusy : ∀ {job : ReviewJob} {pc : π}, Worker.busy job pc ∈ s.workers →
      Passed (h ++ es) job.runId := by
    intro job pc hw
    exact (hg.busy job pc hw).mono (hl.issued_of_busy hw) hstep
  refine ⟨hg.coherent_step hstep, ?_, ?_, ?_⟩
  · -- the polls
    intro job o hpoll
    rcases List.mem_append.mp hpoll with hpoll | hpoll
    · obtain ⟨ht, job₀, hj₀, hsame₀⟩ := hg.polled job o hpoll
      exact ⟨ht, job₀, List.mem_append_left _ hj₀, hsame₀⟩
    · obtain ⟨w, hw, rfl, hpc⟩ := watcher_of_polled hstep hpoll
      obtain ⟨job₀, hj₀, hsame₀⟩ := hl.onRecord w.job (Or.inr ⟨w, hw, rfl⟩)
      exact ⟨(hg.coherent w hw).polls hpc, job₀, List.mem_append_left _ hj₀, hsame₀⟩
  · -- the rows
    intro r ho
    cases step_cases hstep with
    | enqueue _ _ => exact hsame r (open_of_enqueue ho)
    | watch hwatch =>
      obtain ⟨w, hw, hm⟩ := watchStep_move hwatch
      rcases open_of_watch hm ho with ho | ⟨rfl, hpass⟩
      · exact hsame r ho
      · exact hg.passed_of_mayPass hl hw hstep hpass
    | wake _ _ => exact hsame r (open_of_dequeue ho)
    | @finish i out pc job hw =>
      have ho' : ((s.settle cfg job out).release i).Open r := open_of_dequeue ho
      exact hsettled r hw ho'
    | boot _ => exact hsame r (open_of_boot hgr ho)
    | _ => exact hsame r ho
  · -- the workers
    intro job pc hmem
    obtain ⟨j, hw⟩ := List.mem_iff_getElem?.mp hmem
    rcases step_busy hstep hw with
      ⟨hw₀, -⟩ | ⟨sha, job', pc', -, hw₀, rfl⟩ |
        ⟨t, rfl | ⟨out, job', pc', -, hw₀, rfl⟩, -, hst, -⟩
    · exact hbusy (List.mem_of_getElem? hw₀)
    · rw [ReviewJob.fill_runId]
      exact hbusy (List.mem_of_getElem? hw₀)
    · exact hsame _ (Or.inl hst)
    · exact hsettled _ hw₀ (Or.inl hst)

/-- In every run what the gate let through is recorded. -/
theorem reaches_gating {D : Machine.Discipline (Sched π) (SchedAction π) SchedEvent}
    (hr : (newMachine cfg).Reaches D s h) : Gating s h := by
  refine hr.invariant (I := Gating) ?_ ?_
  · rintro s (rfl : s = Sched.new)
    constructor
    · exact fun w hw => absurd hw List.not_mem_nil
    · exact fun job o hpoll => absurd hpoll List.not_mem_nil
    · exact fun r ho => absurd ho (by simp [Open, new, RunTable.statusOf, RunTable.row?, RunTable.empty])
    · exact fun job pc hw => absurd hw List.not_mem_nil
  · intro s h a s' es hr hg _ hstep
    exact hg.step (reaches_lineage hr) (reaches_grounded (reaches_of_new hr)) hstep

end Sched

namespace App

/-- The gate has polled the check runs of the job's commit for the job's run, and seen none, or
green ones. -/
def Gated (h : List AppEvent) (job : ReviewJob) : Prop :=
  ∃ job' runs, .core (.polled job' (.runs runs)) ∈ h ∧ job'.runId = job.runId ∧
    job'.ref = job.ref ∧ orEmpty job'.head = orEmpty job.head ∧ greenOrAbsent runs = true

/-- The run was enqueued with a head. -/
def EnqueuedWithHead (h : List AppEvent) (r : RunId) : Prop :=
  ∃ job, .core (.inserted job) ∈ h ∧ job.runId = r ∧ truthy job.head = true

/-- Rule B: whatever commit the runner is called on, the gate has let it through before. -/
def RuleB (h : List AppEvent) : Prop :=
  Each (fun before e => ∀ job checkout diff model, e = .ran job checkout diff model →
    Gated before job) h

variable {cfg : AppConfig} {s s' : App} {h es : List AppEvent} {a : AppAction}
  {D : Machine.Discipline App AppAction AppEvent}

/-- A job in the hands of a worker is gated exactly if its run was enqueued with a head. -/
theorem gated_iff (hr : (machine cfg).Reaches D s h) {i : Nat} {job : ReviewJob} {pc : ExecPc}
    (hw : s.core.workers[i]? = some (.busy job pc)) :
    Gated h job ↔ EnqueuedWithHead h job.runId := by
  have hcore := reaches_core hr
  have hl := Sched.reaches_lineage hcore
  have hg := Sched.reaches_gating hcore
  have hmem := List.mem_of_getElem? hw
  constructor
  · rintro ⟨job', runs, hpoll, hid, -, -, -⟩
    obtain ⟨ht, job₀, hj₀, hsame⟩ := hg.polled job' _ (mem_core_history.mpr hpoll)
    exact ⟨job₀, mem_core_history.mp hj₀, hsame.runId.symm.trans hid, hsame.truthy_iff.mp ht⟩
  · rintro ⟨job₀, hj₀, hid, ht⟩
    obtain ⟨job', runs, hpoll, hsame, hgreen⟩ :=
      hg.busy job pc hmem job₀ (mem_core_history.mpr hj₀) hid ht
    obtain ⟨job₁, hj₁, hrun⟩ := hl.inHand job (Or.inr ⟨pc, hmem⟩)
    have heq : job₁ = job₀ :=
      hl.unique job₁ job₀ hj₁ (mem_core_history.mpr hj₀) (hrun.runId.symm.trans hid.symm)
    subst heq
    refine ⟨job', runs, mem_core_history.mp hpoll, hsame.runId.trans hrun.runId.symm,
      hsame.ref.trans hrun.ref.symm, ?_, hgreen⟩
    rw [hsame.head, hrun.head ht]

/-- The runner is called in a step of its own, for a worker's job. -/
theorem ran_of_step (hstep : step cfg s a = some (s', es)) {job : ReviewJob}
    {checkout diff model : String} (he : .ran job checkout diff model ∈ es) :
    es = [.ran job checkout diff model] ∧ ∃ (i : Nat) (pc : ExecPc),
      s.core.workers[i]? = some (.busy job pc) := by
  cases event_of_step hstep he with
  | ran hw hes => exact ⟨hes, _, _, hw⟩

/-- **CI before review.** Wherever the runner is called, the gate has let the commit through
before if and only if the run was enqueued with a head. -/
theorem gated_iff_enqueued_with_head (cfg : AppConfig) {s : App} {h : List AppEvent}
    (hr : (machine cfg).Reachable s h) :
    Each (fun before e => ∀ job checkout diff model, e = .ran job checkout diff model →
      (Gated before job ↔ EnqueuedWithHead before job.runId)) h := by
  refine hr.invariant (I := fun _ h => Each _ h) (fun _ _ => each_nil) ?_
  intro s h a s' es hr hh _ hstep
  refine hh.append ?_
  rintro before e post hes job checkout diff model rfl
  have he : .ran job checkout diff model ∈ es := by
    rw [hes]
    exact List.mem_append_right _ List.mem_cons_self
  obtain ⟨hone, i, pc, hw⟩ := ran_of_step hstep he
  rw [hone] at hes
  rw [eq_nil_of_alone hes, List.append_nil]
  exact gated_iff hr hw

/-- An opened pull request is enqueued with its head, and its run is gated. -/
theorem gated_iff_enqueued_with_head_opened :
    ∃ s h, (∃ job checkout diff model, .ran job checkout diff model ∈ h) ∧
      Each (fun before e => ∀ job checkout diff model, e = .ran job checkout diff model →
        (Gated before job ↔ EnqueuedWithHead before job.runId)) h ∧
      (machine (smallConfig true 1)).Reachable s h := by
  obtain ⟨s, h, hr, hran⟩ := Machine.exists_reachable_run (M := machine (smallConfig true 1))
    openedRun (fun _ h => h.contains (.ran firstJob "me/app" "" "free")) small_new (by decide)
  exact ⟨s, h, ⟨firstJob, _, _, _, List.contains_iff_mem.mp hran⟩,
    gated_iff_enqueued_with_head _ hr, hr⟩

/-- A comment starts a run, whose pipeline then finds the head `b`. -/
def commentedRun : List AppAction :=
  [.boot, .webhook (reviewComment 7), .dispatch 0 "r1", .watch 0 .go] ++ runJob 0 "b"

/-- The gate of a comment's run opens without a poll, and the runner is called on a commit the
gate has never seen. -/
theorem rule_b_fails : ¬ ∀ cfg s h, (machine cfg).Reachable s h → RuleB h := by
  intro hall
  let job : ReviewJob := ⟨"me", "app", some 7, some "b", none, "r1", 0, .pendingCi, .comment⟩
  obtain ⟨s, h, hr, hcheck⟩ := Machine.exists_reachable_run (M := machine (smallConfig true 1))
    commentedRun (fun _ h => h.contains (.ran job "me/app" "" "free") &&
      h.all fun e => !e.isPolled) small_new (by decide)
  rw [Bool.and_eq_true, List.all_eq_true] at hcheck
  obtain ⟨before, post, heq, hrule⟩ := (hall _ _ _ hr).of_mem (List.contains_iff_mem.mp hcheck.1)
  obtain ⟨job', runs, hpoll, -⟩ := hrule _ _ _ _ rfl
  have hno := hcheck.2 (.core (.polled job' (.runs runs))) (heq ▸ List.mem_append_left _ hpoll)
  exact absurd hno Bool.false_ne_true

end App

end PrReviewer.Model
