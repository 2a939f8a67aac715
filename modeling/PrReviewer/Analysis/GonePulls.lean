import PrReviewer.Analysis.Supersession

/-!
# Pull requests that are gone

`execute` asks GitHub about the pull request first. A closed or merged one ends the run: its status
is final, and nobody has the run in hand any more, which no later step changes. The 404 of a pull
request that does not exist raises, and the exception is logged like any other: the call goes on
to the clone.
-/

set_option autoImplicit false

namespace PrReviewer.Model

open PrReviewer.Library
open PrReviewer.Interface (Life)
open PrReviewer.Interface.Life

/-! ## Watchers that have shut the gate -/

/-- The task has shut the gate of its run and reports that. -/
def WatchPc.closing : WatchPc → Bool
  | .fetchLogs | .postDiagnosis | .postUnavailable | .notifySlack | .postTimeout => true
  | _ => false

namespace Sched

variable {π : Type} {cfg : SchedConfig π} {s s' : Sched π} {a : SchedAction π}
  {es : List SchedEvent} {r : RunId}

/-- The step shuts the gate of this run. -/
def ShutBy (s s' : Sched π) (r : RunId) : Prop :=
  s'.workers = s.workers ∧
    ∃ st, (st = .ciFailed ∨ st = .skipped) ∧ s'.table = s.table.setStatus r st s.now

/-- A watcher that starts a round keeps its job and is not closing. -/
theorem loopTop_watcher (s : Sched π) (i : Nat) (w : Watcher) :
    ∃ w', (s.loopTop i w).watchers = s.watchers.set i w' ∧ w'.job = w.job ∧
      w'.pc.closing = false := by
  unfold loopTop
  split
  · exact ⟨_, rfl, rfl, rfl⟩
  · split
    · split
      · exact ⟨_, rfl, rfl, rfl⟩
      · refine ⟨{ w with pc := .ended }, ?_, rfl, rfl⟩
        show ((s.writeStatus w.job.runId .queued).putBack w.job).watchers.set i _ = _
        rw [putBack_watchers]
        rfl
    · exact ⟨_, rfl, rfl, rfl⟩

/-- A watcher that is closing after a verdict has shut its own run. -/
theorem decideGate_watcher {i : Nat} {w : Watcher} {t : Sched π} (v : GateVerdict)
    (ht : ∃ w', t.watchers = s.watchers.set i w' ∧ w'.job = w.job ∧ w'.pc.closing = false) :
    ∃ w', (s.decideGate i w v t).1.watchers = s.watchers.set i w' ∧ w'.job = w.job ∧
      (w'.pc.closing = true → s.ShutBy (s.decideGate i w v t).1 w.job.runId) := by
  cases v with
  | pass =>
    refine ⟨{ w with pc := .ended }, ?_, rfl, by simp [WatchPc.closing]⟩
    show ((s.writeStatus w.job.runId .queued).putBack w.job).watchers.set i _ = _
    rw [putBack_watchers]
    rfl
  | fail => exact ⟨{ w with pc := .fetchLogs }, rfl, rfl, fun _ => ⟨rfl, .ciFailed, Or.inl rfl, rfl⟩⟩
  | timeout =>
    exact ⟨{ w with pc := .postTimeout }, rfl, rfl, fun _ => ⟨rfl, .skipped, Or.inr rfl, rfl⟩⟩
  | wait =>
    obtain ⟨w', hwatchers, hjob, hpc⟩ := ht
    refine ⟨w', hwatchers, hjob, fun hclosing => ?_⟩
    rw [hpc] at hclosing
    cases hclosing

/-- **A watcher that makes a step** has not decided yet or reports what it has decided, and it
shuts the gate only where it decides. -/
theorem watchStep_shuts {i : Nat} {inp : WatchInput} {w : Watcher}
    (hw : s.watchers[i]? = some w) (h : s.watchStep cfg i inp = some (s', es)) :
    (w.pc.undecided = true ∨ w.pc.closing = true) ∧
      ∃ w', s'.watchers = s.watchers.set i w' ∧ w'.job = w.job ∧
        (w'.pc.closing = true → w.pc.closing = true ∨
          w.pc.undecided = true ∧ s.ShutBy s' w.job.runId) := by
  have hquiet : ∀ {t : Sched π}, (∃ w', t.watchers = s.watchers.set i w' ∧ w'.job = w.job ∧
      w'.pc.closing = false) → w.pc.undecided = true →
      (w.pc.undecided = true ∨ w.pc.closing = true) ∧
        ∃ w', t.watchers = s.watchers.set i w' ∧ w'.job = w.job ∧
          (w'.pc.closing = true → w.pc.closing = true ∨
            w.pc.undecided = true ∧ s.ShutBy t w.job.runId) := by
    rintro t ⟨w', hwatchers, hjob, hpc⟩ hu
    refine ⟨Or.inl hu, w', hwatchers, hjob, fun hclosing => ?_⟩
    rw [hpc] at hclosing
    cases hclosing
  have hdecides : ∀ {w₁ : Watcher} {t : Sched π} (v : GateVerdict), w₁.job = w.job →
      w.pc.undecided = true →
      (∃ w', t.watchers = s.watchers.set i w' ∧ w'.job = w₁.job ∧ w'.pc.closing = false) →
      (w.pc.undecided = true ∨ w.pc.closing = true) ∧
        ∃ w', (s.decideGate i w₁ v t).1.watchers = s.watchers.set i w' ∧ w'.job = w.job ∧
          (w'.pc.closing = true → w.pc.closing = true ∨
            w.pc.undecided = true ∧ s.ShutBy (s.decideGate i w₁ v t).1 w.job.runId) := by
    intro w₁ t v hjob₁ hu ht
    obtain ⟨w', hwatchers, hjob, hshut⟩ := decideGate_watcher v ht
    rw [hjob₁] at hjob hshut
    exact ⟨Or.inl hu, w', hwatchers, hjob, fun hclosing => Or.inr ⟨hu, hshut hclosing⟩⟩
  unfold watchStep at h
  simp only [hw] at h
  split at h <;> simp only [Option.some.injEq, Prod.mk.injEq, reduceCtorEq] at h
  case h_1 hpc =>
    rw [← h.1]
    exact hquiet (loopTop_watcher s i w) (by rw [hpc]; rfl)
  case h_2 hpc =>
    rw [← h.1]
    exact hquiet ⟨_, rfl, rfl, rfl⟩ (by rw [hpc]; rfl)
  case h_3 hpc =>
    rw [← h.1]
    exact hdecides _ rfl (by rw [hpc]; rfl) ⟨_, rfl, rfl, rfl⟩
  case h_4 hpc =>
    rw [← h.1]
    exact hquiet (loopTop_watcher s i _) (by rw [hpc]; rfl)
  case h_5 hpc =>
    have hs' := congrArg Prod.fst h
    simp only at hs'
    rw [← hs']
    exact hdecides _ rfl (by rw [hpc]; rfl) (loopTop_watcher s i _)
  all_goals
    rename_i hpc
    have hclosing : w.pc.closing = true := by rw [hpc]; rfl
    rw [← h.1]
    exact ⟨Or.inr hclosing, _, rfl, rfl, fun _ => Or.inl hclosing⟩

/-- Some watcher has shut the gate of the run and reports that. -/
def Closes (s : Sched π) (r : RunId) : Prop :=
  ∃ w ∈ s.watchers, w.job.runId = r ∧ w.pc.closing = true

/-- The gate of a run is shut by a watcher of it that had not decided. -/
theorem closes_of_step (h : Sched.step cfg s a = some (s', es)) (hc : s'.Closes r) :
    s'.up = s.up ∧
      (s.Closes r ∨ 0 < (s.life r).watched ∧ s.ShutBy s' r) := by
  obtain ⟨x, hx, hid, hpc⟩ := hc
  rcases watchers_of_step h with ⟨i, inp, rfl, hwatch⟩ | ⟨hwatchers, -⟩
  · obtain ⟨w, hw, hm⟩ := watchStep_move hwatch
    refine ⟨hm.frame.2.2.2.1, ?_⟩
    obtain ⟨-, w', hset, hjob, hshut⟩ := watchStep_shuts hw hwatch
    rw [hset] at hx
    rcases List.mem_or_eq_of_mem_set hx with hx | rfl
    · exact Or.inl ⟨x, hx, hid, hpc⟩
    · rw [hjob] at hid
      rcases hshut hpc with hclosing | ⟨hu, hby⟩
      · exact Or.inl ⟨w, List.mem_of_getElem? hw, hid, hclosing⟩
      · rw [hid] at hby
        exact Or.inr ⟨countP_pos_of_getElem? hw (by simp [Watcher.watches, hu, hid]), hby⟩
  · rcases hwatchers x hx with ⟨hold, hup⟩ | ⟨job, rfl⟩
    · exact ⟨hup, Or.inl ⟨x, hold, hid, hpc⟩⟩
    · -- a fresh watcher has shut nothing
      cases hpc

/-- A gate that is shut found its run in the watcher's hands only. -/
theorem shut_of_shutBy (hs : Sound (s.life r)) (hw : 0 < (s.life r).watched)
    (hby : s.ShutBy s' r) : Shut (s'.life r) := by
  obtain ⟨hworkers, st, hst, htable⟩ := hby
  have hheld := hs.heldOrWatched
  constructor
  · show s'.workers.countP (Worker.holds r) = 0
    rw [hworkers]
    show (s.life r).held = 0
    omega
  · have hstatus : (s'.life r).status = (s.table.statusOf r).map fun _ => st := by
      show s'.table.statusOf r = _
      rw [htable, RunTable.statusOf_setStatus, if_pos rfl]
    rw [hstatus]
    cases s.table.statusOf r with
    | none => exact Or.inl rfl
    | some _ => rcases hst with rfl | rfl <;> simp

/-- A run id that has been issued does not start a second run. -/
theorem not_inserted_of_issued (h : Sched.step cfg s a = some (s', es)) (hissued : r ∈ s.issued)
    (hblank : s.life r = Life.blank) : s'.life r ≠ Life.inserted := by
  intro hnew
  have hnone := statusOf_none_kept h hissued (congrArg Life.status hblank)
  have hpending : s'.table.statusOf r = some .pendingCi := congrArg Life.status hnew
  rw [hnone] at hpending
  cases hpending

/-- **A run whose gate is shut is executed by nobody**, and its status says so. -/
theorem shut_of_closes {h : List SchedEvent} (hr : (machine cfg).Reaches (endsIn RealEnd) s h)
    (hc : s.Closes r) : r ∈ s.issued ∧ Shut (s.life r) := by
  revert hc
  refine hr.invariant (I := fun s _ => s.Closes r → r ∈ s.issued ∧ Shut (s.life r)) ?_ ?_
  · rintro s hcold ⟨w, hw, -⟩
    rw [← hcold.memory] at hw
    cases hw
  · intro s h a s' es hr ih hd hstep hc
    have hg := reaches_grounded hr
    have hsound := reaches_sound hr r
    obtain ⟨hup, hold | ⟨hwatched, hby⟩⟩ := closes_of_step hstep hc
    · obtain ⟨hissued, hshut⟩ := ih hold
      refine ⟨issued_mono hstep hissued, ?_⟩
      have hfail : RealEnd (some .failed) := Or.inr (Or.inr (Or.inr rfl))
      rcases hshut.step hsound (step_life hfail hg hd hstep hup r).1 with hkept | ⟨hblank, hnew⟩
      · exact hkept
      · exact absurd hnew (not_inserted_of_issued hstep hissued hblank)
    · refine ⟨issued_mono hstep ?_, shut_of_shutBy hsound hwatched hby⟩
      by_contra hfresh
      rw [hg.fresh r hfresh] at hwatched
      exact absurd hwatched (Nat.lt_irrefl 0)

/-- The run has ended with this status for good. -/
structure Rests (s : Sched π) (st : RunStatus) (r : RunId) : Prop where
  issued : r ∈ s.issued
  life : Concluded st (s.life r)
  /-- nothing about its gate is reported any more -/
  gate : ¬ s.Closes r

/-- A run that has ended stays as it is. -/
theorem Rests.step {h : List SchedEvent} {st : RunStatus} (hrest : s.Rests st r)
    (hfinal : st.final = true) (hr : (machine cfg).Reaches (endsIn RealEnd) s h)
    (hd : endsIn RealEnd s h a) (hstep : Sched.step cfg s a = some (s', es)) : s'.Rests st r := by
  have hg := reaches_grounded hr
  refine ⟨issued_mono hstep hrest.issued, ?_, ?_⟩
  · by_cases hup : s'.up = s.up
    · have hfail : RealEnd (some .failed) := Or.inr (Or.inr (Or.inr rfl))
      rcases hrest.life.step (step_life hfail hg hd hstep hup r).1 with hkept | ⟨hblank, hnew⟩
      · exact hkept
      · exact absurd hnew (not_inserted_of_issued hstep hrest.issued hblank)
    · rcases restart_life hg hstep hup r with ⟨-, hlife⟩ | ⟨-, hlife⟩ <;> rw [hlife]
      · exact concluded_down hrest.life.status
      · exact concluded_booted hfinal hrest.life.status
  · intro hc
    obtain ⟨-, hold | ⟨hpos, -⟩⟩ := closes_of_step hstep hc
    · exact hrest.gate hold
    · rw [hrest.life.watched] at hpos
      exact absurd hpos (Nat.lt_irrefl 0)

/-- The gate does not comment on a run that has ended. -/
theorem Rests.uncommented {st : RunStatus} (hrest : s.Rests st r)
    (hstep : Sched.step cfg s a = some (s', es)) {job : ReviewJob} {body : String}
    (hmem : .gateComment job body ∈ es) : job.runId ≠ r := by
  intro hid
  rcases watchers_of_step hstep with ⟨i, inp, rfl, hwatch⟩ | ⟨-, hinserted⟩
  · obtain ⟨w, hi, -⟩ := watchStep_move hwatch
    rcases watchStep_events hi hwatch _ hmem with ⟨o, heq, -⟩ | ⟨body', heq⟩ <;> cases heq
    rcases (watchStep_shuts hi hwatch).1 with hu | hclosing
    · have hpos : 0 < (s.life r).watched :=
        countP_pos_of_getElem? hi (by simp [Watcher.watches, hu, hid])
      rw [hrest.life.watched] at hpos
      exact absurd hpos (Nat.lt_irrefl 0)
    · exact hrest.gate ⟨w, List.mem_of_getElem? hi, hid, hclosing⟩
  · obtain ⟨job', heq⟩ := hinserted _ hmem
    cases heq

/-- A call whose end writes a status: its run gets it, and its worker lets go of the run. -/
theorem life_of_finish {i : Nat} {job : ReviewJob} {pc : π} {out : Outcome} {st : RunStatus}
    (hw : s.workers[i]? = some (.busy job pc))
    (hsettle : s.settle cfg job out = s.writeStatus job.runId st)
    (hqueue : (s.life job.runId).inQueue = 0) :
    (s.finish cfg i job out).life job.runId =
      { (s.life job.runId).stamp st with held := (s.life job.runId).held - 1 } := by
  have hw' : (s.writeStatus job.runId st).workers[i]? = some (.busy job pc) := hw
  have hlife : ((s.writeStatus job.runId st).release i).life job.runId =
      { (s.life job.runId).stamp st with held := (s.life job.runId).held - 1 } := by
    rw [life_release hw', life_writeStatus, if_pos rfl, if_pos rfl]
    rfl
  have hready := ready_of_release cfg out hw
  rw [hsettle] at hready
  have hempty : (((s.writeStatus job.runId st).release i).life job.runId).inQueue = 0 := by
    rw [hlife]
    exact hqueue
  unfold finish
  rw [hsettle, life_dequeue_unqueued hready rfl hempty, hlife]

/-- **A call that ends as `skipped`** ends its run for good. -/
theorem rests_of_finish {h : List SchedEvent} {i : Nat} {job : ReviewJob} {pc : π}
    (hr : (machine cfg).Reaches (endsIn RealEnd) s h)
    (hw : s.workers[i]? = some (.busy job pc))
    (hstep : Sched.step cfg s (.finish i (.result "skipped" false)) = some (s', es)) :
    s'.Rests .skipped job.runId ∧
      (s.table.statusOf job.runId ≠ none → s'.table.statusOf job.runId = some .skipped) := by
  have hs' : s' = s.finish cfg i job (.result "skipped" false) := by
    cases step_cases hstep with
    | finish hw' =>
      rw [hw] at hw'
      cases hw'
      rfl
  have hsound := reaches_sound hr job.runId
  have hheld : 0 < (s.life job.runId).held :=
    countP_pos_of_getElem? hw (by simp [Worker.holds])
  have hqueued := hsound.heldOrQueued
  have hwatched := hsound.heldOrWatched
  have hlife : s'.life job.runId =
      { (s.life job.runId).stamp .skipped with held := (s.life job.runId).held - 1 } := by
    rw [hs']
    exact life_of_finish hw rfl (by omega)
  refine ⟨⟨issued_mono hstep ?_, ?_, ?_⟩, ?_⟩
  · by_contra hfresh
    rw [(reaches_grounded hr).fresh _ hfresh] at hheld
    exact absurd hheld (Nat.lt_irrefl 0)
  · rw [hlife]
    exact hsound.concluded hheld .skipped
  · intro hc
    obtain ⟨-, hold | ⟨hpos, -⟩⟩ := closes_of_step hstep hc
    · have hnobody := (shut_of_closes hr hold).2.held
      omega
    · omega
  · intro hrow
    have hskipped : s'.table.statusOf job.runId =
        (s.table.statusOf job.runId).map fun _ => .skipped :=
      congrArg Life.status hlife
    rw [hskipped]
    cases hst : s.table.statusOf job.runId with
    | none => exact absurd hst hrow
    | some _ => rfl

end Sched

/-! ## What GitHub reports -/

/-- How `fetch_pr` ends. -/
inductive FetchAnswer
  | found (data : PrData)
  /-- it raises `NotFoundError`, GitHub has answered 404 -/
  | notFound
  /-- it raises another exception -/
  | raised
  deriving DecidableEq, Repr

namespace FetchAnswer

/-- What becomes of it in `execute`, which catches every exception. -/
def input : FetchAnswer → ExecInput
  | found data => .pr (some data)
  | notFound => .pr none
  | raised => .pr none

/-- GitHub reports the pull request as closed, as merged, or as not existing. -/
def gone : FetchAnswer → Bool
  | found data => data.over
  | notFound => true
  | raised => false

end FetchAnswer

/-- The agent is run, or a review or comment is made, for the run. A publication is made for the
request that asks for it. -/
def AppEvent.Serves (r : RunId) : AppEvent → Prop
  | .ran job _ _ _ => job.runId = r
  | .staged job _ => job.runId = r
  | .core (.gateComment job _) => job.runId = r
  | .write (.worker run) _ => run = r
  | _ => False

namespace App

variable {cfg : AppConfig} {s s' t t' : App} {a : AppAction} {h h' es : List AppEvent} {r : RunId}

/-- What a run that has ended as `skipped` is in the state `t`, after the history `h`. -/
structure Skipped (t : App) (h : List AppEvent) (r : RunId) : Prop where
  /-- a comment command may delete its row -/
  row : t.core.table.statusOf r = none ∨ t.core.table.statusOf r = some .skipped
  /-- it is not retried -/
  unqueued : ∀ job ∈ t.core.queue, job.runId ≠ r
  /-- it is not executed, so its head is not cloned either -/
  idle : ∀ j, ¬ t.Executes j r
  silent : ∀ e ∈ h, ¬ e.Serves r

/-- The step from `s` to `s'` ends the run as `skipped`, for good. -/
structure EndsSkipped (cfg : AppConfig) (s s' : App) (es : List AppEvent) (r : RunId) : Prop where
  row : s.core.table.statusOf r ≠ none → s'.core.table.statusOf r = some .skipped
  /-- nothing is cloned -/
  cache : s'.cache = s.cache
  silent : ∀ e ∈ es, ¬ e.Serves r
  after : ∀ t h, ((machine cfg).startingAt s').Reachable t h → Skipped t h r

/-- A run that nobody holds is executed by no worker. -/
theorem not_executes_of_held (hheld : (s.core.life r).held = 0) (j : Nat) : ¬ s.Executes j r := by
  rintro ⟨job, pc, hw, hid⟩
  have hpos : 0 < (s.core.life r).held :=
    countP_pos_of_getElem? hw (by simp [Worker.holds, hid])
  omega

/-- A run with no entry in the queue is not queued. -/
theorem unqueued_of_inQueue (hqueue : (s.core.life r).inQueue = 0) :
    ∀ job ∈ s.core.queue, job.runId ≠ r := by
  intro job hjob hid
  have hnone := List.countP_eq_zero.mp hqueue job hjob
  simp [hid] at hnone

/-- What serves a run comes from its worker or its gate. -/
theorem serves_of_step (hstep : step cfg s a = some (s', es)) {e : AppEvent} (he : e ∈ es)
    (hserves : e.Serves r) : (∃ j, s.Executes j r) ∨
      ∃ ca ces job body, Sched.step cfg.sched s.core ca = some (s'.core, ces) ∧
        .gateComment job body ∈ ces ∧ job.runId = r := by
  cases event_of_step hstep he with
  | @core ca ces ce hcore hce _ =>
    cases ce with
    | gateComment job body => exact Or.inr ⟨ca, ces, job, body, hcore, hce, hserves⟩
    | _ => exact absurd hserves id
  | @ran i job checkout diff model hw _ => exact Or.inl ⟨i, job, _, hw, hserves⟩
  | @staged i job checkout x hw _ => exact Or.inl ⟨i, job, _, hw, hserves⟩
  | @worker i job pc w hw _ => exact Or.inl ⟨i, job, pc, hw, hserves⟩
  | chatter horigin _ => rcases horigin with rfl | rfl <;> exact absurd hserves id
  | _ => exact absurd hserves id

/-- **The step lemma.** -/
theorem rests_of_step {st : RunStatus} (hfinal : st.final = true)
    (hr : (machine cfg).Reachable s h) (hrest : s.core.Rests st r)
    (hstep : step cfg s a = some (s', es)) :
    s'.core.Rests st r ∧ ∀ e ∈ es, ¬ e.Serves r := by
  have hcore := Sched.reaches_of_new (reaches_core hr)
  constructor
  · rcases (step_cases hstep).core_step with ⟨hsame, -⟩ | ⟨ca, hca, hd, -⟩
    · rwa [hsame]
    · exact hrest.step hfinal hcore hd hca
  · intro e he hserves
    rcases serves_of_step hstep he hserves with ⟨j, hj⟩ | ⟨ca, ces, job, body, hca, hmem, hid⟩
    · exact not_executes_of_held hrest.life.held j hj
    · exact hrest.uncommented hca hmem hid

/-- **A run that has ended stays as it is**, however the application goes on. -/
theorem skipped_of_rests (hr : (machine cfg).Reachable s h) (hrest : s.core.Rests .skipped r)
    (hr' : ((machine cfg).startingAt s).Reachable t h') : Skipped t h' r := by
  have hall : (∃ h, (machine cfg).Reachable t h) ∧ t.core.Rests .skipped r ∧
      ∀ e ∈ h', ¬ e.Serves r := by
    refine hr'.invariant (I := fun t h' => (∃ h, (machine cfg).Reachable t h) ∧
      t.core.Rests .skipped r ∧ ∀ e ∈ h', ¬ e.Serves r) ?_ ?_
    · rintro t rfl
      exact ⟨⟨h, hr⟩, hrest, by simp⟩
    · rintro t h' a t' es - ⟨⟨g, hg⟩, hrest, hsilent⟩ - hstep
      obtain ⟨hrest', hes⟩ := rests_of_step rfl hg hrest hstep
      refine ⟨⟨_, .step hg trivial hstep⟩, hrest', fun e he => ?_⟩
      rcases List.mem_append.mp he with he | he
      · exact hsilent e he
      · exact hes e he
  obtain ⟨-, hrest', hsilent⟩ := hall
  exact ⟨hrest'.life.status, unqueued_of_inQueue hrest'.life.inQueue,
    not_executes_of_held hrest'.life.held, hsilent⟩

/-- What the answer makes of the call. -/
theorem answered_cases {i : Nat} {job : ReviewJob} {answer : FetchAnswer}
    (hw : s.core.workers[i]? = some (.busy job .fetchPr)) (hgone : answer.gone = true)
    (hstep : step cfg s (.exec i answer.input) = some (s', es)) :
    (∃ data, answer = .found data ∧ es = [.fetched job data] ∧ s'.cache = s.cache ∧
      Sched.step cfg.sched s.core (.finish i (.result "skipped" false)) = some (s'.core, [])) ∨
    (answer = .notFound ∧ s'.Executes i job.runId) := by
  obtain ⟨hi, -⟩ := List.getElem?_eq_some_iff.mp hw
  simp only [step, hw, execMove] at hstep
  cases answer with
  | found data =>
    have hover : data.over = true := hgone
    simp only [FetchAnswer.input, execStep, hover, if_true] at hstep
    obtain ⟨c, ces, hcore, rfl, rfl⟩ := coreStep_map_eq hstep
    have hfinish : Sched.step cfg.sched s.core
        (ExecNext.action i (.finish (.result "skipped" false))) = some (c, ces) := hcore
    have hces : ces = [] := exec_silent hfinish
    subst hces
    exact Or.inl ⟨data, rfl, rfl, rfl, hcore⟩
  | notFound =>
    right
    simp only [FetchAnswer.input, execStep] at hstep
    obtain ⟨c, ces, hcore, rfl, rfl⟩ := coreStep_map_eq hstep
    refine ⟨rfl, job, cfg.pipeline.afterPr, ?_, rfl⟩
    cases Sched.step_cases hcore with
    | advance hw' =>
      have hsame : some (Worker.busy _ _) = some (Worker.busy job ExecPc.fetchPr) := hw'.symm.trans hw
      cases hsame
      exact List.getElem?_set_self hi
  | raised => cases hgone

/-- **A pull request that is gone ends its run** exactly if GitHub still knows it: a closed or
merged one, not one it answers 404 for. -/
theorem gone_pull_skipped_iff (cfg : AppConfig) {s s' : App} {h es : List AppEvent} {i : Nat}
    {job : ReviewJob} (answer : FetchAnswer) (hgone : answer.gone = true)
    (hr : (machine cfg).Reachable s h) (hw : s.core.workers[i]? = some (.busy job .fetchPr))
    (hstep : step cfg s (.exec i answer.input) = some (s', es)) :
    EndsSkipped cfg s s' es job.runId ↔ answer ≠ .notFound := by
  rcases answered_cases hw hgone hstep with
    ⟨data, rfl, rfl, hcache, hcore⟩ | ⟨rfl, hexecutes⟩
  · refine iff_of_true ?_ (by simp)
    obtain ⟨hrest, hrow⟩ := Sched.rests_of_finish (Sched.reaches_of_new (reaches_core hr)) hw hcore
    refine ⟨hrow, hcache, ?_, ?_⟩
    · intro e he hserves
      cases List.mem_singleton.mp he
      exact hserves
    · intro t h' hr'
      have hnext : (machine cfg).step s (.exec i (FetchAnswer.found data).input) =
          some (s', [.fetched job data]) := hstep
      exact skipped_of_rests (.step hr trivial hnext) hrest hr'
  · refine iff_of_false ?_ (by simp)
    intro hends
    exact (hends.after s' [] (.start rfl)).idle i hexecutes

/-- The first pull request is opened, and the execution of its run asks GitHub about it. -/
def askingRun : List AppAction :=
  .boot :: openPr 7 "a" "r1" ++
    [.watch 0 .go, .watch 0 (.polled (.runs [])), .wake 0, .exec 0 .go]

/-- The worker executes this job and is at this place. -/
def executesAt (job : ReviewJob) (pc : ExecPc) : Worker ExecPc → Bool
  | .busy job' pc' => decide (job' = job ∧ pc' = pc)
  | _ => false

/-- A worker that executes at a state is busy at it. -/
theorem eq_of_executesAt {job : ReviewJob} {pc : ExecPc} {w : Option (Worker ExecPc)}
    (h : ∃ x, w = some x ∧ executesAt job pc x = true) : w = some (.busy job pc) := by
  obtain ⟨x, rfl, hx⟩ := h
  cases x with
  | busy job' pc' =>
    obtain ⟨rfl, rfl⟩ := of_decide_eq_true hx
    rfl
  | _ => cases hx

/-- A closed pull request. -/
def closedPull : PrData :=
  ⟨some "closed", false, some "a"⟩

/-- A pull request found closed ends as skipped. -/
theorem gone_pull_skipped_iff_closed : ∃ (s s' : App) (h es : List AppEvent),
    (machine (smallConfig true 1)).Reachable s h ∧
      step (smallConfig true 1) s (.exec 0 (FetchAnswer.found closedPull).input) = some (s', es) ∧
      EndsSkipped (smallConfig true 1) s s' es "r1" := by
  obtain ⟨s, h, hr, hcheck⟩ := Machine.exists_reachable_run (M := machine (smallConfig true 1))
    askingRun
    (fun s _ => s.core.workers[0]?.any (executesAt firstJob .fetchPr) &&
      (step (smallConfig true 1) s (.exec 0 (FetchAnswer.found closedPull).input)).isSome)
    small_new (by decide)
  rw [Bool.and_eq_true, Option.any_eq_true, Option.isSome_iff_exists] at hcheck
  obtain ⟨hw, ⟨s', es⟩, hstep⟩ := hcheck
  exact ⟨s, s', h, es, hr, hstep, (gone_pull_skipped_iff (smallConfig true 1)
    (.found closedPull) rfl hr (eq_of_executesAt hw) hstep).mpr (by simp)⟩

/-- A pull request that GitHub answers 404 for is cloned, and its run is tried again. -/
theorem missing_pull_retried : ∃ (s s' t : App) (h es h' : List AppEvent),
    (machine (smallConfig true 1)).Reachable s h ∧
      s.core.workers[0]? = some (.busy firstJob .fetchPr) ∧ FetchAnswer.notFound.gone = true ∧
      step (smallConfig true 1) s (.exec 0 FetchAnswer.notFound.input) = some (s', es) ∧
      ((machine (smallConfig true 1)).startingAt s').Reachable t h' ∧
      t.core.workers[0]? = some (.busy { firstJob with attempts := 1 } .start) ∧
      ¬ EndsSkipped (smallConfig true 1) s s' es "r1" := by
  obtain ⟨s, h, hr, hcheck⟩ := Machine.exists_reachable_run (M := machine (smallConfig true 1))
    askingRun
    (fun s _ => s.core.workers[0]?.any (executesAt firstJob .fetchPr) &&
      (step (smallConfig true 1) s (.exec 0 FetchAnswer.notFound.input)).any fun r =>
        (((machine (smallConfig true 1)).startingAt r.1).run (fun _ _ _ => true) r.1 []
          [.exec 0 .slack, .exec 0 (.clone .fine true), .exec 0 (.diff none)]).any fun r' =>
            r'.1.core.workers[0]?.any (executesAt { firstJob with attempts := 1 } .start))
    small_new (by decide)
  simp only [Bool.and_eq_true, Option.any_eq_true] at hcheck
  obtain ⟨hw, ⟨s', es⟩, hstep, ⟨t, h'⟩, hrun, hretried⟩ := hcheck
  have hr' : ((machine (smallConfig true 1)).startingAt s').Reachable t h' :=
    Machine.Reaches.run (fun _ _ _ _ => trivial) (.start rfl) hrun
  have ht := eq_of_executesAt hretried
  refine ⟨s, s', t, h, es, h', hr, eq_of_executesAt hw, rfl, hstep, hr', ht, ?_⟩
  intro hends
  exact (hends.after t h' hr').idle 0 ⟨_, _, ht, rfl⟩

end App

end PrReviewer.Model
