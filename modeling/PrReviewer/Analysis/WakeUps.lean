import PrReviewer.Analysis.SchedulerSteps

/-!
# Wake-ups

All workers share one event, which each of them clears when it finds the queue empty. A worker is
suspended in its wait until it has run again, so also after the event has resolved the wait. The
retry of a job is put on the queue without setting the event; the worker that puts it looks into
the queue before its next await, so at least one entry is gone by then.
-/

set_option autoImplicit false

namespace PrReviewer.Model

open PrReviewer.Library (Machine)

variable {π : Type}

/-- The worker is suspended in `_waker.wait()`. -/
def Worker.suspended : Worker π → Bool
  | waiting => true
  | woken => true
  | _ => false

/-- A worker that was woken does not wait. -/
theorem Worker.wake_ne_waiting (w : Worker π) : w.wake ≠ .waiting := by
  cases w <;> simp [wake]

namespace Sched

/-- A suspended worker and an entry in the queue mean that the event is set, and a worker whose
wait is not resolved means that it is not. -/
structure Awake (s : Sched π) : Prop where
  wakes : ∀ (j : Nat) (w : Worker π), s.workers[j]? = some w → w.suspended = true →
    s.queue ≠ [] → s.waker = true
  sleeps : ∀ j : Nat, s.workers[j]? = some .waiting → s.waker = false

/-- The workers that stay are suspended only if they were, so nothing is lost while neither the
queue nor the event changes. -/
theorem Awake.keep {s s' : Sched π} (hs : Awake s) (hqueue : s'.queue = s.queue)
    (hwaker : s'.waker = s.waker)
    (hworkers : ∀ (j : Nat) (w : Worker π), s'.workers[j]? = some w → w.suspended = true →
      s.workers[j]? = some w) :
    Awake s' := by
  refine ⟨?_, ?_⟩
  · intro j w hw hsuspended hne
    rw [hqueue] at hne
    rw [hwaker]
    exact hs.wakes j w (hworkers j w hw hsuspended) hsuspended hne
  · intro j hw
    rw [hwaker]
    exact hs.sleeps j (hworkers j .waiting hw rfl)

/-- Setting the waker leaves nobody asleep. -/
theorem awake_setWaker (s : Sched π) : Awake s.setWaker := by
  refine ⟨fun _ _ _ _ _ => rfl, ?_⟩
  intro j hw
  have hmap : (s.workers.map Worker.wake)[j]? = some .waiting := hw
  rw [List.getElem?_map] at hmap
  obtain ⟨w, -, hwake⟩ := Option.map_eq_some_iff.mp hmap
  exact absurd hwake w.wake_ne_waiting

/-- Among the workers of which one has been replaced by one that is not suspended, the suspended
ones are others. -/
theorem other_of_suspended {l : List (Worker π)} {i j : Nat} {w w' : Worker π}
    (hw' : w'.suspended = false) (hw : (l.set i w')[j]? = some w) (hsuspended : w.suspended = true) :
    j ≠ i ∧ l[j]? = some w := by
  by_cases hij : i = j
  · subst hij
    rw [List.getElem?_set_self'] at hw
    obtain ⟨w₀, -, heq⟩ := Option.map_eq_some_iff.mp hw
    change w' = w at heq
    rw [← heq, hw'] at hsuspended
    cases hsuspended
  · rw [List.getElem?_set_ne hij] at hw
    exact ⟨Ne.symm hij, hw⟩

/-- A worker that is not suspended can be put in place of any. -/
theorem Awake.set {s : Sched π} (hs : Awake s) (i : Nat) {w' : Worker π}
    (hw' : w'.suspended = false) : Awake { s with workers := s.workers.set i w' } :=
  hs.keep rfl rfl fun _ _ hw hsuspended => (other_of_suspended hw' hw hsuspended).2

/-- **A worker looks into the queue.** It may be entered with one entry nobody has been told of:
that one, or another one, is gone when the worker is suspended again. -/
theorem awake_dequeue (cfg : SchedConfig π) {s : Sched π} {i : Nat}
    (hwakes : ∀ (j : Nat) (w : Worker π), j ≠ i → s.workers[j]? = some w → w.suspended = true →
      1 < s.queue.length → s.waker = true)
    (hsleeps : ∀ j : Nat, j ≠ i → s.workers[j]? = some .waiting → s.waker = false) :
    Awake (s.dequeue cfg i) := by
  obtain ⟨lost, -, ⟨job, rest, hq, -, heq⟩ | ⟨-, heq⟩⟩ :=
    claimNext_spec s.now s.table s.queue s.queued
  · unfold dequeue
    rw [heq]
    refine ⟨?_, ?_⟩
    · intro j w hw hsuspended hne
      obtain ⟨hji, hw'⟩ := other_of_suspended rfl hw hsuspended
      refine hwakes j w hji hw' hsuspended ?_
      have hrest : 0 < rest.length := List.length_pos_iff.mpr hne
      rw [hq, List.length_append, List.length_cons]
      omega
    · intro j hw
      obtain ⟨hji, hw'⟩ := other_of_suspended rfl hw rfl
      exact hsleeps j hji hw'
  · -- the queue is empty, and the event cleared
    unfold dequeue
    rw [heq]
    exact ⟨fun _ _ _ _ hne => absurd rfl hne, fun _ _ => rfl⟩

/-- An enqueued run leaves nobody asleep over it. -/
theorem Awake.enqueue {s : Sched π} (hs : Awake s) (r : RunId) (d : Decision) (cause : Cause) :
    Awake (s.enqueue r d cause).1 := by
  rcases enqueue_cases s r d cause with ⟨job, table, -, -, -, -, -, heq⟩ | ⟨table, -, heq⟩
  · rw [heq]
    exact awake_setWaker _
  · rw [heq]
    exact hs.keep rfl rfl fun _ _ hw _ => hw

/-- A watcher's move leaves nobody asleep over the queue. -/
theorem Awake.watch {s s' : Sched π} {i : Nat} {w : Watcher} {es : List SchedEvent}
    (hs : Awake s) (h : WatchMove s i w s' es) : Awake s' := by
  cases h with
  | goOn _ _ _ => exact hs.keep rfl rfl fun _ _ hw _ => hw
  | leave _ _ _ => exact hs.keep rfl rfl fun _ _ hw _ => hw
  | close _ _ _ _ => exact hs.keep rfl rfl fun _ _ hw _ => hw
  | @pass w' _ _ _ _ =>
    have hback : Awake ((s.writeStatus w'.job.runId .queued).putBack w'.job) := by
      unfold putBack
      split
      · exact hs.keep rfl rfl fun _ _ hw _ => hw
      · exact awake_setWaker _
    exact hback.keep rfl rfl fun _ _ hw _ => hw

/-- A retry adds one entry at most, and the event stays as it is. -/
theorem settle_waker (cfg : SchedConfig π) (s : Sched π) (job : ReviewJob) (out : Outcome) :
    (s.settle cfg job out).waker = s.waker ∧
      (s.settle cfg job out).queue.length ≤ s.queue.length + 1 := by
  rcases settle_cases anyEnd_failed cfg s job (Outcome.endsIn_any out) with ⟨h, -⟩ | ⟨st, h, -⟩ | h
  · rw [h]
    exact ⟨rfl, Nat.le_succ _⟩
  · rw [h]
    exact ⟨rfl, Nat.le_succ _⟩
  · rw [h]
    exact ⟨rfl, Nat.le_of_eq List.length_append⟩

/-- The end of a run leaves nobody asleep over the queue. -/
theorem Awake.finish {cfg : SchedConfig π} {s : Sched π} (hs : Awake s) (i : Nat)
    (job : ReviewJob) (out : Outcome) : Awake (s.finish cfg i job out) := by
  obtain ⟨hwaker, hlength⟩ := settle_waker cfg s job out
  have hworkers : ∀ (j : Nat) (w : Worker π), j ≠ i →
      ((s.settle cfg job out).release i).workers[j]? = some w → s.workers[j]? = some w := by
    intro j w hji hw
    have hset : ((s.settle cfg job out).workers.set i .ready)[j]? = some w := hw
    rwa [settle_workers, List.getElem?_set_ne (Ne.symm hji)] at hset
  refine awake_dequeue cfg ?_ ?_
  · intro j w hji hw hsuspended hlong
    have hne : s.queue ≠ [] := by
      intro hnil
      change 1 < (s.settle cfg job out).queue.length at hlong
      rw [hnil, List.length_nil] at hlength
      omega
    exact hwaker.trans (hs.wakes j w (hworkers j w hji hw) hsuspended hne)
  · intro j hji hw
    exact hwaker.trans (hs.sleeps j (hworkers j .waiting hji hw))

/-- Every step leaves nobody asleep over the queue. -/
theorem Awake.step {cfg : SchedConfig π} {s s' : Sched π} {a : SchedAction π}
    {es : List SchedEvent} (hs : Awake s) (h : Sched.step cfg s a = some (s', es)) : Awake s' := by
  cases step_cases h with
  | tick d => exact hs.keep rfl rfl fun _ _ hw _ => hw
  | enqueue _ _ => exact hs.enqueue _ _ _
  | watch hstep =>
    obtain ⟨w, -, hmove⟩ := watchStep_move hstep
    exact hs.watch hmove
  | @wake i w hw hidle =>
    refine awake_dequeue cfg ?_ fun j _ hw => hs.sleeps j hw
    intro j w _ hw hsuspended hlong
    exact hs.wakes j w hw hsuspended (List.ne_nil_of_length_pos (by omega))
  | @timeout i w hw hidle => exact hs.set i rfl
  | advance hw => exact hs.set _ rfl
  | finish hw => exact hs.finish _ _ _
  | crash _ =>
    refine ⟨?_, ?_⟩
    · intro j w hw
      cases hw
    · intro j hw
      cases hw
  | boot _ =>
    have hready : ∀ (j : Nat) (w : Worker π), (List.replicate cfg.concurrency .ready)[j]? = some w →
        w.suspended = false := by
      intro j w hw
      rw [List.eq_of_mem_replicate (List.mem_of_getElem? hw)]
      rfl
    refine ⟨?_, ?_⟩
    · intro j w hw hsuspended
      rw [hready j w hw] at hsuspended
      cases hsuspended
    · intro j hw
      have hno := hready j .waiting hw
      cases hno

/-- **In every reachable state** the event is set if it has to be. -/
theorem reaches_awake {cfg : SchedConfig π} {s : Sched π} {h : List SchedEvent}
    (hr : (machine cfg).Reachable s h) : Awake s := by
  refine Machine.Reaches.invariant (I := fun s _ => Awake s) ?_ ?_ hr
  · intro s hcold
    have hnone : s.workers = [] := by
      rw [← hcold.memory]
      rfl
    refine ⟨?_, ?_⟩
    · intro j w hw
      rw [hnone] at hw
      cases hw
    · intro j hw
      rw [hnone] at hw
      cases hw
  · intro s h a s' es _ hs _ hstep
    exact hs.step hstep

/-- **No wake-up is lost.** At every await boundary, if a worker is suspended in its wait and the
queue is not empty, then the event is set. -/
theorem no_lost_wakeup (cfg : SchedConfig π) (s : Sched π) (h : List SchedEvent)
    (hr : (machine cfg).Reachable s h) (j : Nat) (w : Worker π) (hw : s.workers[j]? = some w)
    (hsuspended : w.suspended = true) (hqueue : s.queue ≠ []) : s.waker = true :=
  (reaches_awake hr).wakes j w hw hsuspended hqueue

/-- A service with one worker. -/
def soleWorker : SchedConfig Unit :=
  ⟨{}, false, 3, 1, ()⟩

/-- The decision on a pull request that was opened. -/
def openedPr : Decision where
  action := .enqueue
  owner := some "acme"
  repo := some "app"
  pr := some 1

/-- The worker waits on an empty queue, and a job is put on it. -/
theorem no_lost_wakeup_enqueued :
    ∃ (s : Sched Unit) (h : List SchedEvent), (machine soleWorker).Reachable s h ∧
      s.workers[0]? = some .woken ∧ s.queue ≠ [] ∧ s.waker = true := by
  obtain ⟨s, h, hr, hcheck⟩ := Machine.exists_reachable_run (M := machine soleWorker)
    [.boot, .wake 0, .enqueue "r1" openedPr .webhook]
    (fun (s : Sched Unit) _ => decide (s.workers[0]? = some (.woken : Worker Unit)) && !s.queue.isEmpty) new_cold
    (by decide)
  simp only [Bool.and_eq_true, decide_eq_true_eq, Bool.not_eq_true', List.isEmpty_eq_false_iff]
    at hcheck
  obtain ⟨hwoken, hqueue⟩ := hcheck
  exact ⟨s, h, hr, hwoken, hqueue, no_lost_wakeup soleWorker s h hr 0 .woken hwoken rfl hqueue⟩

/-- **Nobody sleeps on work**: while a wait is not resolved the queue is empty. -/
theorem queue_empty_of_waiting {cfg : SchedConfig π} {s : Sched π} {h : List SchedEvent}
    (hr : (machine cfg).Reachable s h) {j : Nat} (hw : s.workers[j]? = some .waiting) :
    s.queue = [] := by
  by_contra hne
  have hset := (reaches_awake hr).wakes j .waiting hw rfl hne
  rw [(reaches_awake hr).sleeps j hw] at hset
  cases hset

end Sched

end PrReviewer.Model
