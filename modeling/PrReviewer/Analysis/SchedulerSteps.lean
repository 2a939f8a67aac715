import PrReviewer.Interface.RunLife
import PrReviewer.Library.Slots
import PrReviewer.Model.Scheduler
import Mathlib.Tactic.Convert

/-!
# What a scheduler step does

One specification lemma for each operation of the scheduler, the inversion of a watcher step,
and the refinement: seen from any one run, a step of the scheduler is a step of
`Interface.Life` or no step at all.
-/

set_option autoImplicit false

namespace PrReviewer.Model

open PrReviewer.Library
open PrReviewer.Interface (Life)
open PrReviewer.Interface.Life

variable {π : Type}

/-! ## Reading the life of a run off a state -/

/-- The worker is busy with the run. -/
def Worker.holds (r : RunId) : Worker π → Bool
  | .busy job _ => job.runId == r
  | _ => false

/-- The worker does not execute a job. -/
def Worker.idle : Worker π → Bool
  | .busy _ _ => false
  | _ => true

/-- The watcher has not decided on the run yet. -/
def Watcher.watches (r : RunId) (w : Watcher) : Bool :=
  w.pc.undecided && w.job.runId == r

/-- What the loop of `_watch` knows where it is suspended: it polls only for a head, and sleeps
only on check runs of which one is not completed. -/
structure Watcher.Coherent (w : Watcher) : Prop where
  polls : w.pc = .polling → truthy w.job.head = true
  sleeps : ∀ runs, w.pc = .sleeping runs → allCompleted runs = false

/-- A watcher that has decided is coherent. -/
theorem Watcher.coherent_of_decided {w : Watcher} (h : w.pc.undecided = false) : w.Coherent := by
  constructor
  · intro hpc
    rw [hpc] at h
    cases h
  · intro runs hpc
    rw [hpc] at h
    cases h

/-- Why a watcher opens the gate: its job has no head, or it has just polled no check runs or
green ones, or it slept on completed ones. -/
def Watcher.MayPass (w : Watcher) (es : List SchedEvent) : Prop :=
  truthy w.job.head = false ∨
    (∃ runs, .polled w.job (.runs runs) ∈ es ∧ greenOrAbsent runs = true) ∨
      ∃ runs, w.pc = .sleeping runs ∧ allCompleted runs = true

namespace Sched

/-- The life of a run in a state of the scheduler. -/
def life (s : Sched π) (r : RunId) : Life where
  status := s.table.statusOf r
  held := s.workers.countP (Worker.holds r)
  inQueue := s.queue.countP fun job => job.runId == r
  watched := s.watchers.countP (Watcher.watches r)
  marked := decide (r ∈ s.queued)

/-- Waking the workers leaves which of them hold the run. -/
theorem countP_holds_wake (r : RunId) (l : List (Worker π)) :
    (l.map Worker.wake).countP (Worker.holds r) = l.countP (Worker.holds r) := by
  rw [List.countP_map]
  apply List.countP_congr
  intro w _
  cases w <;> simp [Worker.wake, Worker.holds]

/-- Setting the waker leaves every run's life. -/
@[simp] theorem life_setWaker (s : Sched π) (r : RunId) : s.setWaker.life r = s.life r := by
  exact Life.ext rfl (countP_holds_wake r s.workers) rfl rfl rfl

/-- Queueing a run adds one entry to its own life. -/
theorem life_put (s : Sched π) (job : ReviewJob) (r : RunId) :
    (s.put job).life r =
      { s.life r with inQueue := (s.life r).inQueue + if job.runId = r then 1 else 0 } := by
  refine Life.ext rfl rfl ?_ rfl rfl
  simp [life, put, List.countP_append, List.countP_cons]

/-- Marking a run marks its own life only. -/
theorem life_addQueued (s : Sched π) (r' r : RunId) :
    (s.addQueued r').life r = { s.life r with marked := (s.life r).marked || decide (r = r') } := by
  simp only [life, addQueued, List.mem_insert_iff]
  congr 1
  by_cases h : r = r' <;> simp [h]

/-- A status write stamps its own run's life only. -/
theorem life_writeStatus (s : Sched π) (r' r : RunId) (st : RunStatus) :
    (s.writeStatus r' st).life r = if r = r' then (s.life r).stamp st else s.life r := by
  simp only [life, writeStatus, RunTable.statusOf_setStatus, Life.stamp]
  split <;> rfl

/-- Watching a run adds one watcher to its own life. -/
theorem life_watch (s : Sched π) (job : ReviewJob) (r : RunId) :
    (s.watch job).life r =
      { s.life r with watched := (s.life r).watched + if job.runId = r then 1 else 0 } := by
  refine Life.ext rfl rfl rfl ?_ rfl
  simp [life, watch, List.countP_append, List.countP_cons, Watcher.watches, WatchPc.undecided]

/-- `put_back` of a run that is in `_queued` does nothing, of any other it queues it. -/
theorem life_putBack (s : Sched π) (job : ReviewJob) (r : RunId) :
    (s.putBack job).life r =
      if job.runId = r ∧ (s.life r).marked = false then
        { s.life r with inQueue := (s.life r).inQueue + 1, marked := true }
      else s.life r := by
  unfold putBack
  by_cases hmem : job.runId ∈ s.queued
  · rw [if_pos hmem]
    have : ¬ (job.runId = r ∧ (s.life r).marked = false) := by
      rintro ⟨rfl, hm⟩
      simp [life, hmem] at hm
    rw [if_neg this]
  · rw [if_neg hmem, life_setWaker, life_put, life_addQueued]
    by_cases hr : job.runId = r
    · subst hr
      simp [life, hmem]
    · have hr' : r ≠ job.runId := fun h => hr h.symm
      simp [hr, hr']

/-- A watcher that watches a run after the step if it did before keeps the life of the run. -/
theorem life_setWatcher_same {s : Sched π} {i : Nat} {w w' : Watcher}
    (h : s.watchers[i]? = some w) {r : RunId} (hw : w'.watches r = w.watches r) :
    (s.setWatcher i w').life r = s.life r := by
  have hcount := countP_set_add (a := w') (Watcher.watches r) h
  rw [hw] at hcount
  refine Life.ext rfl rfl rfl ?_ rfl
  show (s.watchers.set i w').countP (Watcher.watches r) = s.watchers.countP (Watcher.watches r)
  omega

/-- A watcher that has decided watches its run no longer. -/
theorem life_setWatcher_done {s : Sched π} {i : Nat} {w w' : Watcher}
    (h : s.watchers[i]? = some w) (hu : w.pc.undecided = true) (hu' : w'.pc.undecided = false)
    (r : RunId) :
    (s.setWatcher i w').life r =
      { s.life r with watched := (s.life r).watched - if w.job.runId = r then 1 else 0 } := by
  have hcount := countP_set_add (a := w') (Watcher.watches r) h
  have hw : w.watches r = decide (w.job.runId = r) := by
    simp [Watcher.watches, hu, Bool.beq_eq_decide_eq]
  have hw' : w'.watches r = false := by simp [Watcher.watches, hu']
  simp only [hw, hw', decide_eq_true_eq, Bool.false_eq_true, if_false] at hcount
  refine Life.ext rfl rfl rfl ?_ rfl
  show (s.watchers.set i w').countP (Watcher.watches r) =
    s.watchers.countP (Watcher.watches r) - if w.job.runId = r then 1 else 0
  omega

/-- What stands in the queue after a job is put back. -/
theorem mem_queue_putBack {s : Sched π} {job job' : ReviewJob}
    (h : job' ∈ (s.putBack job).queue) : job' ∈ s.queue ∨ job' = job := by
  unfold putBack at h
  split at h
  · exact Or.inl h
  · exact (List.mem_append.mp h).imp_right List.mem_singleton.mp

/-- Putting a run back leaves the watchers. -/
theorem putBack_watchers (s : Sched π) (job : ReviewJob) :
    (s.putBack job).watchers = s.watchers := by
  unfold putBack
  split <;> rfl

/-- `put_back` touches the queue, its set and the waker only. -/
theorem putBack_frame (s : Sched π) (job : ReviewJob) :
    (s.putBack job).table = s.table ∧ (s.putBack job).now = s.now ∧
      (s.putBack job).issued = s.issued ∧ (s.putBack job).up = s.up ∧
      (s.putBack job).active = s.active ∧
      ((s.putBack job).workers = s.workers ∨
        (s.putBack job).workers = s.workers.map Worker.wake) := by
  unfold putBack
  split
  · exact ⟨rfl, rfl, rfl, rfl, rfl, Or.inl rfl⟩
  · exact ⟨rfl, rfl, rfl, rfl, rfl, Or.inr rfl⟩

/-! ## A watcher step -/

/-- What a step of watcher `i` does to the state: the watcher goes on without writing, opens
the gate, or closes it; the latter two only before it has decided. -/
inductive WatchMove (s : Sched π) (i : Nat) (w : Watcher) : Sched π → List SchedEvent → Prop
  | goOn {w' : Watcher} {es : List SchedEvent} : w'.job = w.job →
      w'.pc.undecided = w.pc.undecided → w'.Coherent → WatchMove s i w (s.setWatcher i w') es
  | leave {w' : Watcher} {es : List SchedEvent} : w'.job = w.job → w'.pc.undecided = false →
      s.table.statusOf w.job.runId ≠ some .pendingCi → WatchMove s i w (s.setWatcher i w') es
  | pass {w' : Watcher} {es : List SchedEvent} : w'.job = w.job → w.pc.undecided = true →
      w.MayPass es → WatchMove s i w (s.passGate i w') es
  | close {w' : Watcher} {st : RunStatus} {pc : WatchPc} {es : List SchedEvent} :
      w'.job = w.job → w.pc.undecided = true → st = .ciFailed ∨ st = .skipped →
      pc.undecided = false → WatchMove s i w (s.closeGate i w' st pc) es

/-- The head of the loop goes on, leaves, or passes a job without a head. -/
theorem loopTop_move (s : Sched π) (i : Nat) {w : Watcher} (hu : w.pc.undecided = true)
    (e : Int) (es : List SchedEvent) :
    WatchMove s i w (s.loopTop i { w with elapsed := e }) es := by
  unfold loopTop
  cases hrow : s.table.row? w.job.runId with
  | none =>
    refine .leave rfl rfl ?_
    simp [RunTable.statusOf, hrow]
  | some row =>
    by_cases hp : row.status = .pendingCi
    · by_cases ht : truthy w.job.head = true
      · simp only [hp, ht, if_true]
        refine .goOn rfl ?_ ⟨fun _ => ht, by simp⟩
        rw [hu]
        rfl
      · simp only [hp, ht, if_true]
        exact .pass rfl hu (Or.inl (Bool.eq_false_iff.mpr ht))
    · simp only [hp, if_false]
      refine .leave rfl rfl ?_
      simp [RunTable.statusOf, hrow, hp]

/-- A decision block passes, closes, or goes on. -/
theorem decideGate_move {s : Sched π} {i : Nat} {w w' : Watcher} {es : List SchedEvent}
    (hj : w'.job = w.job) (hu : w.pc.undecided = true) (v : GateVerdict)
    (hpass : v = .pass → w.MayPass es) {t : Sched π} (ht : v = .wait → WatchMove s i w t es) :
    WatchMove s i w (s.decideGate i w' v t).1 es := by
  cases v with
  | pass => exact .pass hj hu (hpass rfl)
  | fail => exact .close hj hu (Or.inl rfl) rfl
  | timeout => exact .close hj hu (Or.inr rfl) rfl
  | wait => exact ht rfl

/-- The loop goes on after a poll only on check runs of which one is not completed. -/
theorem allCompleted_of_wait {g : GateConfig} {e : Int} {runs : List CheckRun}
    (h : afterPoll g e runs = .wait) : allCompleted runs = false := by
  unfold afterPoll at h
  cases hc : allCompleted runs with
  | false => rfl
  | true =>
    simp only [hc, if_true] at h
    split at h
    · cases h
    · split at h <;> cases h

/-- The gate lets only completed CI pass. -/
theorem allCompleted_of_pass {g : GateConfig} {e : Int} {runs : List CheckRun}
    (h : afterSleep g e runs = .pass) : allCompleted runs = true := by
  unfold afterSleep at h
  split at h
  · assumption
  · split at h <;> cases h

/-- Whatever resumes a watcher, it makes one of the watcher's moves. -/
theorem watchStep_move {cfg : SchedConfig π} {s s' : Sched π} {i : Nat} {inp : WatchInput}
    {es : List SchedEvent} (h : s.watchStep cfg i inp = some (s', es)) :
    ∃ w, s.watchers[i]? = some w ∧ WatchMove s i w s' es := by
  unfold watchStep at h
  cases hw : s.watchers[i]? with
  | none => simp [hw] at h
  | some w =>
    refine ⟨w, rfl, ?_⟩
    rw [hw] at h
    simp only at h
    -- a decided watcher only moves on
    have hended : ∀ {pc : WatchPc}, pc.undecided = false → w.pc.undecided = false →
        WatchMove s i w (s.setWatcher i { w with pc := pc }) es :=
      fun hpc hdec => .goOn rfl (hpc.trans hdec.symm) (Watcher.coherent_of_decided hpc)
    have hslack : ∀ b : Bool, (if b then WatchPc.notifySlack else .ended).undecided = false := by
      intro b
      cases b <;> rfl
    split at h <;>
      simp only [Option.some.injEq, Prod.mk.injEq, reduceCtorEq] at h
    case h_1 hpc =>
      rw [← h.1]
      exact loopTop_move s i (by rw [hpc]; rfl) w.elapsed es
    case h_2 hpc =>
      rw [← h.1]
      refine .goOn rfl ?_ ⟨by simp, by simp⟩
      rw [hpc]
      rfl
    case h_3 runs hpc =>
      have hu : w.pc.undecided = true := by rw [hpc]; rfl
      rw [← h.1]
      refine decideGate_move rfl hu _ ?_ fun hwait => .goOn rfl ?_ ⟨by simp, ?_⟩
      · intro hv
        refine Or.inr (Or.inl ⟨runs, ?_, afterPoll_eq_pass.mp hv⟩)
        rw [← h.2]
        exact List.mem_cons_self
      · rw [hu]
        rfl
      · intro runs' hp
        cases hp
        exact allCompleted_of_wait hwait
    case h_4 hpc =>
      rw [← h.1]
      exact loopTop_move s i (by rw [hpc]; rfl) _ es
    case h_5 runs hpc =>
      have hu : w.pc.undecided = true := by rw [hpc]; rfl
      have hs' := congrArg Prod.fst h
      simp only at hs'
      rw [← hs']
      refine decideGate_move ?_ hu _ ?_ fun _ => loopTop_move s i hu _ es
      · rfl
      · exact fun hv => Or.inr (Or.inr ⟨runs, hpc, allCompleted_of_pass hv⟩)
    all_goals
      rename_i hpc
      rw [← h.1]
      refine hended ?_ (by rw [hpc]; rfl)
      first | rfl | exact hslack _

/-- A watcher polls for its own job, where it awaits a poll, and inserts nothing. -/
theorem watchStep_events {cfg : SchedConfig π} {s s' : Sched π} {i : Nat} {inp : WatchInput}
    {es : List SchedEvent} {w : Watcher} (hw : s.watchers[i]? = some w)
    (h : s.watchStep cfg i inp = some (s', es)) :
    ∀ e ∈ es, (∃ o, e = .polled w.job o ∧ w.pc = .polling) ∨ ∃ body, e = .gateComment w.job body := by
  have hdecide : ∀ {w' : Watcher} {v : GateVerdict} {t : Sched π}, w'.job = w.job →
      ∀ e ∈ (s.decideGate i w' v t).2, ∃ body, e = .gateComment w.job body := by
    intro w' v t hj e he
    cases v with
    | timeout => exact ⟨_, by rw [List.mem_singleton.mp he, hj]⟩
    | _ => exact absurd he List.not_mem_nil
  unfold watchStep at h
  rw [hw] at h
  simp only at h
  split at h <;> simp only [Option.some.injEq, Prod.mk.injEq, reduceCtorEq] at h
  case h_2 hpc =>
    rw [← h.2]
    exact fun e he => Or.inl ⟨_, List.mem_singleton.mp he, hpc⟩
  case h_3 runs hpc =>
    rw [← h.2]
    intro e he
    rcases List.mem_cons.mp he with rfl | he
    · exact Or.inl ⟨_, rfl, hpc⟩
    · exact Or.inr (hdecide rfl e he)
  case h_5 runs hpc =>
    have hes := congrArg Prod.snd h
    simp only at hes
    rw [← hes]
    refine fun e he => Or.inr (hdecide ?_ e he)
    rfl
  all_goals
    rw [← h.2]
    intro e he
    first
    | exact absurd he List.not_mem_nil
    | exact Or.inr ⟨_, List.mem_singleton.mp he⟩

/-- A watcher's move writes at most the status of its own run, and leaves the clock, the issued
run ids and the jobs of the workers alone. -/
theorem WatchMove.frame {s s' : Sched π} {i : Nat} {w : Watcher} {es : List SchedEvent}
    (h : WatchMove s i w s' es) :
    (s'.table = s.table ∨ (w.pc.undecided = true ∧
        ∃ st, s'.table = s.table.setStatus w.job.runId st s.now)) ∧
      s'.now = s.now ∧ s'.issued = s.issued ∧ s'.up = s.up ∧ s'.active = s.active ∧
      (s'.workers = s.workers ∨ s'.workers = s.workers.map Worker.wake) := by
  cases h with
  | goOn hj hu _ => exact ⟨Or.inl rfl, rfl, rfl, rfl, rfl, Or.inl rfl⟩
  | leave hj hu hst => exact ⟨Or.inl rfl, rfl, rfl, rfl, rfl, Or.inl rfl⟩
  | @pass w' _ hj hu _ =>
    obtain ⟨htable, hnow, hissued, hup, hactive, hworkers⟩ :=
      putBack_frame (s.writeStatus w'.job.runId .queued) w'.job
    refine ⟨Or.inr ⟨hu, .queued, ?_⟩, hnow, hissued, hup, hactive, hworkers⟩
    rw [← hj]
    exact htable
  | @close w' st pc _ hj hu hst hpc =>
    refine ⟨Or.inr ⟨hu, st, ?_⟩, rfl, rfl, rfl, rfl, Or.inl rfl⟩
    rw [← hj]
    rfl

/-- Seen from a run, a watcher's move is a move of its life or no move. -/
theorem WatchMove.life {s s' : Sched π} {i : Nat} {w : Watcher} {es : List SchedEvent}
    (hw : s.watchers[i]? = some w) (h : WatchMove s i w s' es) (r : RunId) :
    s.life r = s'.life r ∨ Move (s.life r) (s'.life r) := by
  have hpos : w.pc.undecided = true → w.job.runId = r → 0 < (s.life r).watched := by
    intro hu hr
    exact countP_pos_of_getElem? hw (by simp [Watcher.watches, hu, hr])
  cases h with
  | goOn hj hu _ =>
    left
    exact (life_setWatcher_same hw (by simp [Watcher.watches, hj, hu])).symm
  | leave hj hu' hst =>
    cases hu : w.pc.undecided with
    | false =>
      left
      exact (life_setWatcher_same hw (by simp [Watcher.watches, hj, hu, hu'])).symm
    | true =>
      rw [life_setWatcher_done hw hu hu']
      by_cases hr : w.job.runId = r
      · right
        rw [if_pos hr]
        exact .left (hpos hu hr) (hr ▸ hst)
      · left
        rw [if_neg hr, Nat.sub_zero]
  | @pass w' _ hj hu _ =>
    have hw₁ : ((s.writeStatus w'.job.runId .queued).putBack w'.job).watchers[i]? = some w := by
      rw [putBack_watchers]
      exact hw
    have hdone : ({ w' with pc := .ended } : Watcher).pc.undecided = false := rfl
    rw [passGate, life_setWatcher_done hw₁ hu hdone, life_putBack, life_writeStatus, hj]
    by_cases hr : w.job.runId = r
    · right
      subst hr
      simp only [if_true]
      cases hm : (s.life w.job.runId).marked with
      | true => simpa [Life.stamp, hm] using Move.passedMarked (hpos hu rfl) hm
      | false => simpa [Life.stamp, hm] using Move.passed (hpos hu rfl) hm
    · left
      have hr' : r ≠ w.job.runId := fun h => hr h.symm
      simp [hr, hr']
  | @close w' st pc _ hj hu hst hpc =>
    have hdone : ({ w' with pc := pc } : Watcher).pc.undecided = false := hpc
    have hw₁ : (s.writeStatus w'.job.runId st).watchers[i]? = some w := hw
    rw [closeGate, life_setWatcher_done hw₁ hu hdone, life_writeStatus, hj]
    by_cases hr : w.job.runId = r
    · right
      subst hr
      simpa [Life.stamp] using Move.closed (hpos hu rfl) hst
    · left
      have hr' : r ≠ w.job.runId := fun h => hr h.symm
      simp [hr, hr']

/-! ## A worker looks for work -/

/-- The loop of `dequeue` pops jobs whose claims are lost and stops at the first claim that is
won, or at the end of the queue. -/
theorem claimNext_spec (now : Nat) (t : RunTable) (q : List ReviewJob) (queued : List RunId) :
    ∃ lost : List ReviewJob, (∀ job ∈ lost, t.statusOf job.runId ≠ some .queued) ∧
      ((∃ job rest, q = lost ++ job :: rest ∧ t.statusOf job.runId = some .queued ∧
          claimNext now t q queued = ((t.claimRun job.runId now).1, rest,
            queued.filter (· ∉ (lost ++ [job]).map ReviewJob.runId), some job)) ∨
        (q = lost ∧ claimNext now t q queued =
          (t, [], queued.filter (· ∉ lost.map ReviewJob.runId), none))) := by
  induction q generalizing queued with
  | nil => exact ⟨[], by simp, Or.inr ⟨rfl, by simp [claimNext]⟩⟩
  | cons job rest ih =>
    cases hb : (t.claimRun job.runId now).2 with
    | true =>
      refine ⟨[], by simp, Or.inl ⟨job, rest, rfl, RunTable.claimRun_eq_true.mp hb, ?_⟩⟩
      have hpair : t.claimRun job.runId now = ((t.claimRun job.runId now).1, true) :=
        Prod.ext rfl hb
      rw [claimNext, hpair]
      simp
    | false =>
      -- a lost claim leaves the table as it was
      have hpair : t.claimRun job.runId now = (t, false) :=
        Prod.ext (RunTable.claimRun_of_false hb) hb
      have hne : t.statusOf job.runId ≠ some .queued := by
        intro h
        rw [RunTable.claimRun_eq_true.mpr h] at hb
        exact absurd hb (by decide)
      obtain ⟨lost, hlost, hcase⟩ := ih (queued.filter (· ≠ job.runId))
      have hfilter : ∀ l : List RunId,
          (queued.filter (· ≠ job.runId)).filter (· ∉ l) = queued.filter (· ∉ job.runId :: l) := by
        intro l
        rw [List.filter_filter]
        apply List.filter_congr
        intro x _
        simp [Bool.and_comm]
      refine ⟨job :: lost, ?_, ?_⟩
      · intro j hj
        rcases List.mem_cons.mp hj with rfl | hj
        · exact hne
        · exact hlost j hj
      · rw [claimNext, hpair]
        rcases hcase with ⟨j, tail, hq, hs, heq⟩ | ⟨hq, heq⟩
        · refine Or.inl ⟨j, tail, by rw [hq, List.cons_append], hs, ?_⟩
          simp only [heq]
          rw [hfilter]
          rfl
        · refine Or.inr ⟨by rw [hq], ?_⟩
          simp only [heq]
          rw [hfilter]
          rfl

/-- Replacing an idle worker changes the count of workers on a run by what the new one does. -/
theorem countP_holds_set {l : List (Worker π)} {i : Nat} {w w' : Worker π} (h : l[i]? = some w)
    (hw : w.idle = true) (r : RunId) :
    (l.set i w').countP (Worker.holds r) =
      l.countP (Worker.holds r) + if w'.holds r then 1 else 0 := by
  have hcount := countP_set_add (a := w') (Worker.holds r) h
  have hno : w.holds r = false := by
    cases w <;> simp [Worker.holds, Worker.idle] at hw ⊢
  rw [hno] at hcount
  simpa using hcount

/-- Popping `k` entries of a run whose claims are lost. -/
theorem pop_lost {l l' : Life} {k : Nat} (hst : l.status = some .queued → k = 0)
    (hle : k ≤ l.inQueue)
    (hl' : l' = { l with inQueue := l.inQueue - k, marked := l.marked && decide (k = 0) }) :
    l = l' ∨ Pop l l' := by
  by_cases hk : k = 0
  · left
    rw [hl', hk]
    simp
  · right
    have hpop := Pop.lost (Nat.pos_of_ne_zero hk) hle fun h => hk (hst h)
    rw [hl']
    simpa [hk] using hpop

/-- Seen from a run, `dequeue` pops its entries, claims it, or does nothing. -/
theorem life_dequeue {cfg : SchedConfig π} {s : Sched π} {i : Nat} {w : Worker π}
    (hw : s.workers[i]? = some w) (hidle : w.idle = true) (r : RunId) :
    s.life r = (s.dequeue cfg i).life r ∨ Pop (s.life r) ((s.dequeue cfg i).life r) := by
  obtain ⟨lost, hlost, hcase⟩ := claimNext_spec s.now s.table s.queue s.queued
  -- the entries of the run among the lost ones
  obtain ⟨k, hk⟩ : ∃ k, k = lost.countP fun job => job.runId == r := ⟨_, rfl⟩
  have hzero : (s.life r).status = some .queued → k = 0 := by
    intro hq
    rw [hk, List.countP_eq_zero]
    intro job hjob hr
    have hr' : job.runId = r := by simpa using hr
    exact hlost job hjob (by rw [hr']; exact hq)
  have hmem : r ∈ lost.map ReviewJob.runId ↔ ¬ k = 0 := by
    rw [hk, List.countP_eq_zero]
    simp
  rcases hcase with ⟨job, rest, hqueue, hstat, heq⟩ | ⟨hqueue, heq⟩
  · have hdeq : (s.dequeue cfg i).life r =
        ⟨(s.table.claimRun job.runId s.now).1.statusOf r,
          s.workers.countP (Worker.holds r) + (if job.runId = r then 1 else 0),
          rest.countP (fun job => job.runId == r), s.watchers.countP (Watcher.watches r),
          decide (r ∈ s.queued.filter (· ∉ (lost ++ [job]).map ReviewJob.runId))⟩ := by
      rw [dequeue, heq]
      refine Life.ext rfl ?_ rfl rfl rfl
      show (s.workers.set i (.busy job cfg.start)).countP (Worker.holds r) = _
      rw [countP_holds_set hw hidle]
      simp [Worker.holds]
    have hin : (s.life r).inQueue =
        k + ((if job.runId = r then 1 else 0) + rest.countP (fun job => job.runId == r)) := by
      show s.queue.countP _ = _
      rw [hqueue, hk, List.countP_append, List.countP_cons]
      simp [Nat.add_comm]
    rw [hdeq, RunTable.statusOf_claimRun]
    by_cases hr : job.runId = r
    · -- the claimed run itself
      subst hr
      have hq : (s.life job.runId).status = some .queued := hstat
      have hk0 := hzero hq
      right
      rw [if_pos rfl] at hin
      have hpop := Pop.claimed (show 0 < (s.life job.runId).inQueue by omega) hq
      rw [if_pos ⟨rfl, hstat⟩, if_pos rfl]
      convert hpop using 1
      refine Life.ext ?_ rfl ?_ rfl ?_
      · simp [Life.stamp, hq]
      · show rest.countP (fun j => j.runId == job.runId) = (s.life job.runId).inQueue - 1
        omega
      · simp
    · have hne : r ≠ job.runId := fun h => hr h.symm
      rw [if_neg hr, Nat.zero_add] at hin
      refine pop_lost hzero (by omega) (Life.ext ?_ ?_ ?_ rfl ?_)
      · exact if_neg fun h => hne h.1
      · rw [if_neg hr]
        rfl
      · show rest.countP (fun job => job.runId == r) = (s.life r).inQueue - k
        omega
      · show _ = (decide (r ∈ s.queued) && decide (k = 0))
        simp only [List.mem_filter, List.map_append, List.mem_append, hmem, List.map_cons,
          List.map_nil, List.mem_singleton, hne, or_false, not_not, decide_eq_true_eq,
          Bool.decide_and]
  · have hdeq : (s.dequeue cfg i).life r =
        ⟨s.table.statusOf r, s.workers.countP (Worker.holds r), 0,
          s.watchers.countP (Watcher.watches r),
          decide (r ∈ s.queued.filter (· ∉ lost.map ReviewJob.runId))⟩ := by
      rw [dequeue, heq]
      refine Life.ext rfl ?_ rfl rfl rfl
      show (s.workers.set i .waiting).countP (Worker.holds r) = _
      rw [countP_holds_set hw hidle]
      simp [Worker.holds]
    have hin : (s.life r).inQueue = k := by
      show s.queue.countP _ = _
      rw [hqueue, hk]
    rw [hdeq]
    refine pop_lost hzero (by omega) (Life.ext rfl rfl ?_ rfl ?_)
    · show 0 = (s.life r).inQueue - k
      omega
    · show _ = (decide (r ∈ s.queued) && decide (k = 0))
      simp only [List.mem_filter, hmem, not_not, decide_eq_true_eq, Bool.decide_and]

/-- Looking for work does not concern a run without an entry in the queue. -/
theorem life_dequeue_unqueued {cfg : SchedConfig π} {s : Sched π} {i : Nat} {w : Worker π}
    (hw : s.workers[i]? = some w) (hidle : w.idle = true) {r : RunId}
    (hqueue : (s.life r).inQueue = 0) : (s.dequeue cfg i).life r = s.life r := by
  rcases life_dequeue hw hidle r with hsame | hpop
  · exact hsame.symm
  · have hpos := hpop.inQueue_pos
    rw [hqueue] at hpos
    exact absurd hpos (Nat.lt_irrefl 0)

/-- `dequeue` claims at most one run, and changes the slot of its worker only. -/
theorem dequeue_frame (cfg : SchedConfig π) (s : Sched π) (i : Nat) :
    (s.dequeue cfg i).now = s.now ∧ (s.dequeue cfg i).issued = s.issued ∧
      (s.dequeue cfg i).up = s.up ∧ (s.dequeue cfg i).watchers = s.watchers ∧
      ((∃ job ∈ s.queue, s.table.statusOf job.runId = some .queued ∧
          (s.dequeue cfg i).table = (s.table.claimRun job.runId s.now).1 ∧
          (s.dequeue cfg i).workers = s.workers.set i (.busy job cfg.start) ∧
          (s.dequeue cfg i).active = s.active + 1) ∨
        ((s.dequeue cfg i).table = s.table ∧
          (s.dequeue cfg i).workers = s.workers.set i .waiting ∧
          (s.dequeue cfg i).active = s.active)) ∧
      ∀ job ∈ (s.dequeue cfg i).queue, job ∈ s.queue := by
  obtain ⟨lost, -, ⟨job, rest, hq, hst, heq⟩ | ⟨hq, heq⟩⟩ :=
    claimNext_spec s.now s.table s.queue s.queued
  · have hmem : job ∈ s.queue := by
      rw [hq]
      exact List.mem_append_right _ List.mem_cons_self
    unfold dequeue
    rw [heq]
    refine ⟨rfl, rfl, rfl, rfl, Or.inl ⟨job, hmem, hst, rfl, rfl, rfl⟩, ?_⟩
    intro j hj
    rw [hq]
    exact List.mem_append_right _ (List.mem_cons_of_mem _ hj)
  · unfold dequeue
    rw [heq]
    exact ⟨rfl, rfl, rfl, rfl, Or.inr ⟨rfl, rfl, rfl⟩, fun j hj => absurd hj (by simp)⟩

end Sched

/-! ## A pipeline call ends -/

/-- The outcome makes the worker write, other than to queue the run again or to fail it, only
what `ok` allows. -/
def Outcome.EndsIn (ok : Option RunStatus → Prop) : Outcome → Prop
  | .none => ok .none
  | .raised => True
  | .result _ true => True
  | .result status false =>
    ∀ st, RunStatus.ofText (if status = "" then "posted" else status) = some st → ok (some st)

/-- An outcome that may write less may write more. -/
theorem Outcome.EndsIn.mono {ok ok' : Option RunStatus → Prop} (hok : ∀ st, ok st → ok' st)
    {out : Outcome} (h : out.EndsIn ok) : out.EndsIn ok' := by
  cases out with
  | none => exact hok _ h
  | raised => trivial
  | result status retryable =>
    cases retryable with
    | true => trivial
    | false => exact fun st hst => hok _ (h st hst)

/-- No condition on how pipeline calls end. -/
def AnyEnd : Option RunStatus → Prop :=
  fun _ => True

/-- A run may end as failed. -/
theorem anyEnd_failed : AnyEnd (some .failed) := trivial

/-- Every outcome ends somehow. -/
theorem Outcome.endsIn_any (out : Outcome) : out.EndsIn AnyEnd := by
  cases out with
  | none => trivial
  | raised => trivial
  | result status retryable =>
    cases retryable with
    | true => trivial
    | false => exact fun _ _ => trivial

namespace Sched

/-- A call that ends writes nothing, writes one status, or queues the run again. -/
theorem settle_cases {ok : Option RunStatus → Prop} (hfail : ok (some .failed))
    (cfg : SchedConfig π) (s : Sched π) (job : ReviewJob) {out : Outcome} (hout : out.EndsIn ok) :
    (s.settle cfg job out = s ∧ ok none) ∨
      (∃ st, s.settle cfg job out = s.writeStatus job.runId st ∧ ok (some st)) ∨
        s.settle cfg job out =
          (s.writeStatus job.runId .queued).put { job with attempts := job.attempts + 1 } := by
  cases out with
  | none => exact Or.inl ⟨rfl, hout⟩
  | raised => exact Or.inr (Or.inl ⟨.failed, rfl, hfail⟩)
  | result status retryable =>
    cases retryable with
    | true =>
      by_cases hatt : (job.attempts : Int) < cfg.maxAttempts
      · exact Or.inr (Or.inr (by simp [settle, hatt]))
      · exact Or.inr (Or.inl ⟨.failed, by simp [settle, hatt], hfail⟩)
    | false =>
      cases hst : RunStatus.ofText (if status = "" then "posted" else status) with
      | none => exact Or.inr (Or.inl ⟨.failed, by simp [settle, hst], hfail⟩)
      | some st => exact Or.inr (Or.inl ⟨st, by simp [settle, hst], hout st hst⟩)

/-- The end of a call writes at most the status of its run and queues at most its job. -/
theorem settle_frame (cfg : SchedConfig π) (s : Sched π) (job : ReviewJob) (out : Outcome) :
    ((s.settle cfg job out).table = s.table ∨
        ∃ st, (s.settle cfg job out).table = s.table.setStatus job.runId st s.now) ∧
      (s.settle cfg job out).now = s.now ∧ (s.settle cfg job out).issued = s.issued ∧
      (s.settle cfg job out).up = s.up ∧ (s.settle cfg job out).active = s.active ∧
      (s.settle cfg job out).watchers = s.watchers ∧
      (s.settle cfg job out).workers = s.workers ∧
      ∀ j ∈ (s.settle cfg job out).queue,
        j ∈ s.queue ∨ j = { job with attempts := job.attempts + 1 } := by
  rcases settle_cases anyEnd_failed cfg s job (Outcome.endsIn_any out) with ⟨h, -⟩ | ⟨st, h, -⟩ | h
  · rw [h]
    exact ⟨Or.inl rfl, rfl, rfl, rfl, rfl, rfl, rfl, fun j hj => Or.inl hj⟩
  · rw [h]
    exact ⟨Or.inr ⟨st, rfl⟩, rfl, rfl, rfl, rfl, rfl, rfl, fun j hj => Or.inl hj⟩
  · rw [h]
    refine ⟨Or.inr ⟨.queued, rfl⟩, rfl, rfl, rfl, rfl, rfl, rfl, fun j hj => ?_⟩
    rcases List.mem_append.mp hj with hj | hj
    · exact Or.inl hj
    · exact Or.inr (List.mem_singleton.mp hj)

/-- The end of a run leaves the workers until they are released. -/
theorem settle_workers (cfg : SchedConfig π) (s : Sched π) (job : ReviewJob) (out : Outcome) :
    (s.settle cfg job out).workers = s.workers :=
  (settle_frame cfg s job out).2.2.2.2.2.2.1

/-- A released worker is ready. -/
theorem ready_of_release (cfg : SchedConfig π) {s : Sched π} {i : Nat} {job : ReviewJob} {pc : π}
    (out : Outcome) (hw : s.workers[i]? = some (.busy job pc)) :
    ((s.settle cfg job out).release i).workers[i]? = some .ready := by
  obtain ⟨hi, -⟩ := List.getElem?_eq_some_iff.mp hw
  show ((s.settle cfg job out).workers.set i .ready)[i]? = some .ready
  rw [settle_workers, List.getElem?_set_self hi]

/-- No run sees a worker's wait time out. -/
theorem life_timeout {s : Sched π} {i : Nat} {w : Worker π} (hw : s.workers[i]? = some w)
    (hidle : w.idle = true) (r : RunId) :
    s.life r = ({ s with workers := s.workers.set i .resting } : Sched π).life r := by
  refine Life.ext rfl ?_ rfl rfl rfl
  show s.workers.countP (Worker.holds r) = (s.workers.set i .resting).countP (Worker.holds r)
  rw [countP_holds_set hw hidle]
  rfl

/-- No run sees a pipeline advance. -/
theorem life_advance {s : Sched π} {i : Nat} {job : ReviewJob} {pc' : π}
    (sha : Option (Option String)) (pc : π) (hw : s.workers[i]? = some (.busy job pc')) (r : RunId) :
    s.life r = ({ s with workers := s.workers.set i (.busy (job.fill sha) pc) } : Sched π).life r := by
  refine Life.ext rfl ?_ rfl rfl rfl
  have hcount := countP_set_add (a := Worker.busy (job.fill sha) pc) (Worker.holds r) hw
  have hsame : Worker.holds r (.busy (job.fill sha) pc) = Worker.holds r (.busy job pc') := by
    simp [Worker.holds]
  rw [hsame] at hcount
  show s.workers.countP (Worker.holds r) =
    (s.workers.set i (.busy (job.fill sha) pc)).countP (Worker.holds r)
  omega

/-- A worker that lets go of its job executes the run no longer. -/
theorem life_release {s : Sched π} {i : Nat} {job : ReviewJob} {pc : π}
    (hw : s.workers[i]? = some (.busy job pc)) (r : RunId) :
    (s.release i).life r =
      { s.life r with held := (s.life r).held - if job.runId = r then 1 else 0 } := by
  have hcount := countP_set_add (a := Worker.ready) (Worker.holds r) hw
  simp only [Worker.holds, Bool.false_eq_true, if_false, beq_iff_eq] at hcount
  refine Life.ext rfl ?_ rfl rfl rfl
  show (s.workers.set i .ready).countP (Worker.holds r) =
    s.workers.countP (Worker.holds r) - if job.runId = r then 1 else 0
  omega

/-- Seen from the run of its job, the end of a pipeline call settles the run; no other run sees
it. -/
theorem life_settle {ok : Option RunStatus → Prop} (hfail : ok (some .failed))
    {cfg : SchedConfig π} {s : Sched π} {i : Nat} {job : ReviewJob} {pc : π} {out : Outcome}
    (hw : s.workers[i]? = some (.busy job pc)) (hout : out.EndsIn ok) (r : RunId) :
    s.life r = ((s.settle cfg job out).release i).life r ∨
      Settle ok (s.life r) (((s.settle cfg job out).release i).life r) := by
  have hw' : (s.settle cfg job out).workers[i]? = some (.busy job pc) := by
    rw [settle_workers]
    exact hw
  have hpos : job.runId = r → 0 < (s.life r).held := by
    intro hr
    exact countP_pos_of_getElem? hw (by simp [Worker.holds, hr])
  rw [life_release hw']
  by_cases hr : job.runId = r
  · right
    rw [if_pos hr]
    rcases settle_cases hfail cfg s job hout with ⟨heq, hnone⟩ | ⟨st, heq, hst⟩ | heq
    · rw [heq]
      exact .dropped (hpos hr) hnone
    · rw [heq, life_writeStatus, if_pos hr.symm]
      exact .ended (hpos hr) hst
    · rw [heq, life_put, life_writeStatus, if_pos hr.symm, if_pos hr]
      exact .retried (hpos hr)
  · left
    have hr' : r ≠ job.runId := fun h => hr h.symm
    rw [if_neg hr, Nat.sub_zero]
    rcases settle_cases hfail cfg s job hout with ⟨heq, -⟩ | ⟨st, heq, -⟩ | heq
    · rw [heq]
    · rw [heq, life_writeStatus, if_neg hr']
    · rw [heq, life_put, life_writeStatus, if_neg hr', if_neg hr, Nat.add_zero]

/-! ## Commands, crashes and boots -/

/-- `enqueue` either stores the new run, watches it and queues it, or changes at most rows. -/
theorem enqueue_cases (s : Sched π) (r : RunId) (d : Decision) (cause : Cause) :
    (∃ job : ReviewJob, ∃ table, job.runId = r ∧ job.status = .pendingCi ∧ job.cause = cause ∧
        job.head = d.head ∧ s.table.insertRun job s.now = (table, true) ∧
        s.enqueue r d cause =
          ((((({ s with issued := r :: s.issued, table := table }.watch job).addQueued
            job.runId).put job).setWaker), [.inserted job])) ∨
      ∃ table, (table = s.table ∨ ∃ job : ReviewJob, job.runId = r ∧ job.cause = cause ∧
          s.table.insertRun job s.now = (table, false)) ∧
        s.enqueue r d cause = ({ s with issued := r :: s.issued, table := table }, []) := by
  unfold enqueue
  cases ho : d.owner with
  | none => exact Or.inr ⟨s.table, Or.inl rfl, rfl⟩
  | some owner =>
    cases hr : d.repo with
    | none => exact Or.inr ⟨s.table, Or.inl rfl, rfl⟩
    | some repo =>
      cases hins : s.table.insertRun (jobOf r d owner repo cause) s.now with
      | mk table inserted =>
        cases inserted with
        | true =>
          refine Or.inl ⟨jobOf r d owner repo cause, table, rfl, rfl, rfl, rfl, hins, ?_⟩
          simp only [hins]
        | false =>
          refine Or.inr ⟨table, Or.inr ⟨jobOf r d owner repo cause, rfl, rfl, hins⟩, ?_⟩
          simp only [hins]

/-- `enqueue` issues its run id, inserts at most one job, and leaves the clock and the workers'
jobs alone. -/
theorem enqueue_frame (s : Sched π) (r : RunId) (d : Decision) (cause : Cause) :
    (s.enqueue r d cause).1.now = s.now ∧ (s.enqueue r d cause).1.issued = r :: s.issued ∧
      (s.enqueue r d cause).1.up = s.up ∧ (s.enqueue r d cause).1.active = s.active ∧
      ((s.enqueue r d cause).1.workers = s.workers ∨
        (s.enqueue r d cause).1.workers = s.workers.map Worker.wake) ∧
      ((s.enqueue r d cause).1.table = s.table ∨ ∃ job : ReviewJob, job.runId = r ∧
        job.cause = cause ∧ (s.enqueue r d cause).1.table = (s.table.insertRun job s.now).1) := by
  rcases enqueue_cases s r d cause with
    ⟨job, table, hid, -, hcause, -, hins, heq⟩ | ⟨table, htab, heq⟩
  · rw [heq]
    exact ⟨rfl, rfl, rfl, rfl, Or.inr rfl, Or.inr ⟨job, hid, hcause, by rw [hins]; rfl⟩⟩
  · rw [heq]
    refine ⟨rfl, rfl, rfl, rfl, Or.inl rfl, ?_⟩
    rcases htab with htab | ⟨job, hid, hcause, hins⟩
    · exact Or.inl htab
    · exact Or.inr ⟨job, hid, hcause, by rw [hins]⟩

/-- Seen from another run, `enqueue` deletes its row or does nothing. -/
theorem life_enqueue_other (s : Sched π) (d : Decision) (cause : Cause) {r r' : RunId}
    (hne : r ≠ r') :
    s.life r = (s.enqueue r' d cause).1.life r ∨
      { s.life r with status := none } = (s.enqueue r' d cause).1.life r := by
  -- a table that lost rows at most deletes the run
  have hrows : ∀ table : RunTable,
      (table.statusOf r = s.table.statusOf r ∨ table.statusOf r = none) →
      ∀ s' : Sched π, s'.life r = { s.life r with status := table.statusOf r } →
        s.life r = s'.life r ∨ { s.life r with status := none } = s'.life r := by
    rintro table (h | h) s' hs'
    · left
      rw [hs', h]
      rfl
    · right
      rw [hs', h]
  rcases enqueue_cases s r' d cause with
    ⟨job, table, hid, -, -, -, hins, heq⟩ | ⟨table, htab, heq⟩
  · have hold := (RunTable.statusOf_insertRun s.table job s.now).2
    rw [hins] at hold
    have hne' : r ≠ job.runId := by rwa [hid]
    refine hrows table (hold r (Or.inr hne')) _ ?_
    rw [heq, life_setWaker, life_put, life_addQueued, life_watch, if_neg hne'.symm]
    simp only [hne', decide_false, Bool.or_false]
    rfl
  · refine hrows table ?_ _ (by rw [heq]; rfl)
    rcases htab with rfl | ⟨job, -, -, hins⟩
    · exact Or.inl rfl
    · have hold := (RunTable.statusOf_insertRun s.table job s.now).2
      rw [hins] at hold
      exact hold r (Or.inl rfl)

/-- Seen from the new run, `enqueue` starts its life or does nothing. -/
theorem life_enqueue_self {s : Sched π} {r : RunId} (hblank : s.life r = Life.blank)
    (d : Decision) (cause : Cause) :
    (s.enqueue r d cause).1.life r = Life.blank ∨
      (s.enqueue r d cause).1.life r = Life.inserted := by
  have hstat : s.table.statusOf r = none := congrArg Life.status hblank
  rcases enqueue_cases s r d cause with
    ⟨job, table, hid, hst, -, -, hins, heq⟩ | ⟨table, htab, heq⟩
  · have hnew := (RunTable.statusOf_insertRun s.table job s.now).1
    rw [hins] at hnew
    subst hid
    right
    rw [heq, life_setWaker, life_put, life_addQueued, life_watch, if_pos rfl]
    have hlife : ({ s with issued := job.runId :: s.issued, table := table } : Sched π).life
        job.runId = { s.life job.runId with status := table.statusOf job.runId } := rfl
    rw [hlife, hblank, hnew rfl, hst]
    simp [Life.blank, Life.inserted]
  · left
    have hnone : table.statusOf r = none := by
      rcases htab with rfl | ⟨job, -, -, hins⟩
      · exact hstat
      · have hold := (RunTable.statusOf_insertRun s.table job s.now).2
        rw [hins] at hold
        rcases hold r (Or.inl rfl) with h | h
        · exact h.trans hstat
        · exact h
    rw [heq]
    have hlife : ({ s with issued := r :: s.issued, table := table } : Sched π).life r =
        { s.life r with status := table.statusOf r } := rfl
    rw [hlife, hblank, hnone]
    rfl

/-- The boot sweep, job by job, as one change of the memory. -/
theorem foldl_resume (s : Sched π) (jobs : List ReviewJob) :
    jobs.foldl resume s =
      { s with
        watchers := s.watchers ++ (jobs.filter (·.status = .pendingCi)).map fun job => { job := job }
        queue := s.queue ++ jobs
        queued := (jobs.foldl resume s).queued } ∧
      ∀ r, r ∈ (jobs.foldl resume s).queued ↔ r ∈ s.queued ∨ r ∈ jobs.map ReviewJob.runId := by
  induction jobs generalizing s with
  | nil => simp
  | cons job jobs ih =>
    obtain ⟨hs, hq⟩ := ih (s.resume job)
    rw [List.foldl_cons]
    constructor
    · rw [hs]
      by_cases hp : job.status = .pendingCi
      · simp [resume, hp, watch, addQueued, put, List.append_assoc]
      · simp [resume, hp, addQueued, put, List.append_assoc]
    · intro r
      have hres : r ∈ (s.resume job).queued ↔ r ∈ s.queued ∨ r = job.runId := by
        by_cases hp : job.status = .pendingCi
        · simp [resume, hp, watch, addQueued, put, or_comm]
        · simp [resume, hp, addQueued, put, or_comm]
      rw [hq, hres, List.map_cons, List.mem_cons, or_assoc]

/-- What a boot leaves of the state. -/
theorem boot_eq (cfg : SchedConfig π) (s : Sched π) :
    ∃ table queued, table = (s.table.recoverOrphans 0 s.now).1 ∧
      (∀ r, r ∈ queued ↔ r ∈ table.reconcileOpenJobs.map ReviewJob.runId) ∧
      s.boot cfg = ⟨table, s.now, s.issued, true, table.reconcileOpenJobs, queued, false,
        (table.reconcileOpenJobs.filter (·.status = .pendingCi)).map fun job => { job := job },
        List.replicate cfg.concurrency .ready, 0⟩ := by
  obtain ⟨hs, hq⟩ := foldl_resume
    { ({ s.crash with up := true } : Sched π) with table := (s.table.recoverOrphans 0 s.now).1 }
    (s.table.recoverOrphans 0 s.now).1.reconcileOpenJobs
  refine ⟨_, _, rfl, fun r => (hq r).trans (by simp [crash]), ?_⟩
  unfold boot reconcile
  simp only [crash] at hs ⊢
  rw [hs]
  simp

/-- In a service that is down a run has only its status. -/
theorem life_of_down {s : Sched π} (hdown : s.crash = s) (r : RunId) :
    s.life r = Life.down (s.table.statusOf r) := by
  rw [← hdown]
  rfl

/-- Seen from any run, a boot boots its life. -/
theorem life_boot {cfg : SchedConfig π} {s : Sched π}
    (hstamp : ∀ row ∈ s.table.rows, row.updatedAt ≤ s.now) (r : RunId) :
    (s.boot cfg).life r = Life.booted (s.table.statusOf r) := by
  obtain ⟨table, queued, htab, hqueued, hboot⟩ := boot_eq cfg s
  have hst : table.statusOf r =
      (s.table.statusOf r).map fun st => if st = .running then .queued else st := by
    rw [htab]
    exact RunTable.statusOf_recoverOrphans hstamp r
  have hopen := RunTable.countP_reconcileOpenJobs table r
  -- the watchers of the run are those of its open jobs that wait for CI
  have hwatch : ((table.reconcileOpenJobs.filter (·.status = .pendingCi)).map
        fun job => ({ job := job } : Watcher)).countP (Watcher.watches r) =
      if table.statusOf r = some .pendingCi then 1 else 0 := by
    rw [List.countP_map, List.countP_filter]
    have hcongr : table.reconcileOpenJobs.countP
          (fun job => (Watcher.watches r ∘ fun job => ({ job := job } : Watcher)) job &&
            decide (job.status = .pendingCi)) =
        if table.statusOf r = some .pendingCi then
          table.reconcileOpenJobs.countP (fun job => job.runId == r) else 0 := by
      split
      · rename_i hp
        apply List.countP_congr
        intro job hjob
        obtain ⟨row, hrow, -, rfl⟩ := RunTable.mem_reconcileOpenJobs.mp hjob
        simp only [Function.comp, Watcher.watches, WatchPc.undecided, Bool.true_and,
          Bool.and_eq_true, beq_iff_eq, decide_eq_true_eq, Row.job_runId, and_iff_left_iff_imp]
        intro hr
        obtain ⟨row', hrow', hr', hs'⟩ := RunTable.statusOf_eq_some.mp hp
        rw [RunTable.eq_of_runId_eq hrow hrow' (hr.trans hr'.symm)]
        exact hs'
      · rename_i hp
        rw [List.countP_eq_zero]
        intro job hjob hc
        obtain ⟨row, hrow, -, rfl⟩ := RunTable.mem_reconcileOpenJobs.mp hjob
        simp only [Function.comp, Watcher.watches, WatchPc.undecided, Bool.true_and,
          Bool.and_eq_true, beq_iff_eq, decide_eq_true_eq, Row.job_runId] at hc
        exact hp (RunTable.statusOf_eq_some.mpr ⟨row, hrow, hc.1, hc.2⟩)
    rw [hcongr, hopen]
    by_cases hp : table.statusOf r = some .pendingCi <;> simp [hp]
  have hbusy : (List.replicate cfg.concurrency (Worker.ready : Worker π)).countP (Worker.holds r) =
      0 := by
    rw [List.countP_eq_zero]
    intro w hw
    rw [List.eq_of_mem_replicate hw]
    simp [Worker.holds]
  have hmark : r ∈ queued ↔
      (table.statusOf r = some .pendingCi ∨ table.statusOf r = some .queued) := by
    rw [hqueued]
    have hpos : r ∈ table.reconcileOpenJobs.map ReviewJob.runId ↔
        0 < table.reconcileOpenJobs.countP (fun job => job.runId == r) := by
      rw [List.countP_pos_iff]
      simp
    rw [hpos, hopen]
    split <;> rename_i h <;> simp [h]
  have hlife : (s.boot cfg).life r =
      ⟨table.statusOf r, 0,
        if table.statusOf r = some .pendingCi ∨ table.statusOf r = some .queued then 1 else 0,
        if table.statusOf r = some .pendingCi then 1 else 0,
        decide (table.statusOf r = some .pendingCi ∨ table.statusOf r = some .queued)⟩ := by
    rw [hboot]
    exact Life.ext rfl hbusy hopen hwatch (decide_eq_decide.mpr hmark)
  rw [hlife, hst]
  cases s.table.statusOf r with
  | none => rfl
  | some st => cases st <;> rfl

/-! ## The inversion of a step -/

/-- What a step of the scheduler does, guards included. -/
inductive StepCase (cfg : SchedConfig π) (s : Sched π) :
    SchedAction π → Sched π → List SchedEvent → Prop
  | tick (d : Nat) : StepCase cfg s (.tick d) { s with now := s.now + d } []
  | enqueue {r : RunId} {d : Decision} {cause : Cause} : s.up = true → r ∉ s.issued →
      StepCase cfg s (.enqueue r d cause) (s.enqueue r d cause).1 (s.enqueue r d cause).2
  | watch {i : Nat} {inp : WatchInput} {s' : Sched π} {es : List SchedEvent} :
      s.watchStep cfg i inp = some (s', es) → StepCase cfg s (.watch i inp) s' es
  | wake {i : Nat} {w : Worker π} : s.workers[i]? = some w → w.idle = true →
      StepCase cfg s (.wake i) (s.dequeue cfg i) []
  | timeout {i : Nat} {w : Worker π} : s.workers[i]? = some w → w.idle = true →
      StepCase cfg s (.timeout i) { s with workers := s.workers.set i .resting } []
  | advance {i : Nat} {sha : Option (Option String)} {pc pc' : π} {job : ReviewJob} :
      s.workers[i]? = some (.busy job pc') →
      StepCase cfg s (.advance i sha pc)
        { s with workers := s.workers.set i (.busy (job.fill sha) pc) } []
  | finish {i : Nat} {out : Outcome} {pc : π} {job : ReviewJob} :
      s.workers[i]? = some (.busy job pc) →
      StepCase cfg s (.finish i out) (s.finish cfg i job out) []
  | crash : s.up = true → StepCase cfg s .crash s.crash []
  | boot : s.up = false → StepCase cfg s .boot (s.boot cfg) []

/-- **Every step is one of these cases.** -/
theorem step_cases {cfg : SchedConfig π} {s s' : Sched π} {a : SchedAction π}
    {es : List SchedEvent} (h : Sched.step cfg s a = some (s', es)) : StepCase cfg s a s' es := by
  cases a with
  | tick d =>
    simp only [Sched.step, Option.some.injEq, Prod.mk.injEq] at h
    rw [← h.1, ← h.2]
    exact .tick d
  | enqueue r d cause =>
    simp only [Sched.step] at h
    split at h
    · rename_i hcond
      simp only [Bool.and_eq_true, decide_eq_true_eq] at hcond
      simp only [Option.some.injEq] at h
      have hfst := congrArg Prod.fst h
      have hsnd := congrArg Prod.snd h
      simp only at hfst hsnd
      rw [← hfst, ← hsnd]
      exact .enqueue hcond.1 hcond.2
    · simp at h
  | watch i inp => exact .watch h
  | wake i =>
    simp only [Sched.step] at h
    split at h
    case h_4 => simp at h
    all_goals
      rename_i hw
      simp only [Option.some.injEq, Prod.mk.injEq] at h
      rw [← h.1, ← h.2]
      exact .wake hw rfl
  | timeout i =>
    simp only [Sched.step] at h
    split at h
    case h_3 => simp at h
    all_goals
      rename_i hw
      simp only [Option.some.injEq, Prod.mk.injEq] at h
      rw [← h.1, ← h.2]
      exact .timeout hw rfl
  | advance i sha pc =>
    simp only [Sched.step] at h
    split at h
    · rename_i hw
      simp only [Option.some.injEq, Prod.mk.injEq] at h
      rw [← h.1, ← h.2]
      exact .advance hw
    · simp at h
  | finish i out =>
    simp only [Sched.step] at h
    split at h
    · rename_i hw
      simp only [Option.some.injEq, Prod.mk.injEq] at h
      rw [← h.1, ← h.2]
      exact .finish hw
    · simp at h
  | crash =>
    simp only [Sched.step] at h
    split at h
    · rename_i hup
      simp only [Option.some.injEq, Prod.mk.injEq] at h
      rw [← h.1, ← h.2]
      exact .crash hup
    · simp at h
  | boot =>
    simp only [Sched.step] at h
    split at h
    · simp at h
    · rename_i hup
      simp only [Option.some.injEq, Prod.mk.injEq] at h
      rw [← h.1, ← h.2]
      exact .boot (by simpa using hup)

/-- **Where the watchers after a step come from**: one of them makes the step, or the step adds
fresh ones at most, and then it reports nothing of a gate. -/
theorem watchers_of_step {cfg : SchedConfig π} {s s' : Sched π} {a : SchedAction π}
    {es : List SchedEvent} (h : Sched.step cfg s a = some (s', es)) :
    (∃ i inp, a = .watch i inp ∧ s.watchStep cfg i inp = some (s', es)) ∨
      (∀ w ∈ s'.watchers, (w ∈ s.watchers ∧ s'.up = s.up) ∨ ∃ job, w = { job := job }) ∧
        ∀ e ∈ es, ∃ job, e = .inserted job := by
  have hkept : ∀ {t : Sched π}, t.watchers = s.watchers → t.up = s.up →
      ∀ w ∈ t.watchers, (w ∈ s.watchers ∧ t.up = s.up) ∨ ∃ job, w = { job := job } := by
    intro t hwatchers hup w hw
    rw [hwatchers] at hw
    exact Or.inl ⟨hw, hup⟩
  cases step_cases h with
  | watch hwatch => exact Or.inl ⟨_, _, rfl, hwatch⟩
  | @enqueue r d cause _ _ =>
    right
    rcases enqueue_cases s r d cause with
      ⟨job, table, -, -, -, -, -, heq⟩ | ⟨table, -, heq⟩ <;> rw [heq]
    · refine ⟨fun w hw => ?_, fun e he => ⟨job, List.mem_singleton.mp he⟩⟩
      rcases List.mem_append.mp hw with hw | hw
      · exact Or.inl ⟨hw, rfl⟩
      · exact Or.inr ⟨job, List.mem_singleton.mp hw⟩
    · exact ⟨hkept rfl rfl, by simp⟩
  | tick d => exact Or.inr ⟨hkept rfl rfl, by simp⟩
  | @wake i _ _ _ =>
    have hframe := dequeue_frame cfg s i
    exact Or.inr ⟨hkept hframe.2.2.2.1 hframe.2.2.1, by simp⟩
  | timeout _ _ => exact Or.inr ⟨hkept rfl rfl, by simp⟩
  | advance _ => exact Or.inr ⟨hkept rfl rfl, by simp⟩
  | @finish i out pc job _ =>
    have hsettle := settle_frame cfg s job out
    have hframe := dequeue_frame cfg ((s.settle cfg job out).release i) i
    exact Or.inr ⟨hkept (hframe.2.2.2.1.trans hsettle.2.2.2.2.2.1)
      (hframe.2.2.1.trans hsettle.2.2.2.1), by simp⟩
  | crash _ => exact Or.inr ⟨fun w hw => absurd hw List.not_mem_nil, by simp⟩
  | boot _ =>
    obtain ⟨table, queued, -, -, hboot⟩ := boot_eq cfg s
    rw [hboot]
    refine Or.inr ⟨fun w hw => ?_, by simp⟩
    obtain ⟨job, -, rfl⟩ := List.mem_map.mp hw
    exact Or.inr ⟨job, rfl⟩

end Sched

end PrReviewer.Model
