import PrReviewer.Analysis.SchedulerSteps

/-!
# Ownership of runs over whole executions

`step_life` is the refinement: a step of the scheduler is a step of the life of every run.
With it the two invariants of a single life, `Life.Sound` and `Life.Tracked`, hold of every
run in every state an execution reaches, and the status of every row follows the run state
machine. What remains is the bookkeeping of the process itself, `Grounded`.
-/

set_option autoImplicit false

namespace PrReviewer.Model

open PrReviewer.Library
open PrReviewer.Interface (Life)
open PrReviewer.Interface.Life

variable {π : Type}

namespace Sched

/-- The workers inside the pipeline. -/
def busyCount (l : List (Worker π)) : Nat :=
  l.countP fun w => !w.idle

/-- The bookkeeping of a process: unused run ids, the clock, and the counter of its workers. -/
structure Grounded (cfg : SchedConfig π) (s : Sched π) : Prop where
  fresh : ∀ r, r ∉ s.issued → s.life r = Life.blank
  stamped : ∀ row ∈ s.table.rows, row.updatedAt ≤ s.now
  down : s.up = false → s.crash = s
  counted : s.active = (busyCount s.workers : Int)
  slots : s.up = true → s.workers.length = cfg.concurrency

/-- The discipline of a scheduler whose pipeline calls end as `ok` allows. -/
def endsIn (ok : Option RunStatus → Prop) : Machine.Discipline (Sched π) (SchedAction π) SchedEvent :=
  fun _ _ a => ∀ i out, a = .finish i out → out.EndsIn ok

/-! ## The refinement -/

/-- **A step of the scheduler is a step of the life of every run**, apart from crashes and
boots, and only `enqueue` starts the life of a run, with a run id it has issued. -/
theorem step_life {ok : Option RunStatus → Prop} (hfail : ok (some .failed))
    {cfg : SchedConfig π} {s s' : Sched π} {a : SchedAction π} {es : List SchedEvent}
    (hg : Grounded cfg s) (hd : ∀ i out, a = .finish i out → out.EndsIn ok)
    (h : Sched.step cfg s a = some (s', es)) (hup : s'.up = s.up) (r : RunId) :
    Life.Step ok (s.life r) (s'.life r) ∧
      (s.life r = Life.blank → s'.life r = Life.blank ∨ r ∈ s'.issued) := by
  -- a move keeps an unused run unused
  have hmove : ∀ {t : Sched π}, s.life r = t.life r ∨ Move (s.life r) (t.life r) →
      Life.Step ok (s.life r) (t.life r) ∧
        (s.life r = Life.blank → t.life r = Life.blank ∨ r ∈ t.issued) := by
    rintro t (heq | hm)
    · refine ⟨heq ▸ Step.refl ok _, fun hb => Or.inl ?_⟩
      rw [← heq]
      exact hb
    · refine ⟨.move hm, fun hb => Or.inl ?_⟩
      rw [hb] at hm
      exact hm.of_blank
  -- so does a worker: an unused run is neither held nor queued
  have hwork : ∀ {t : Sched π} {m : Life}, s.life r = m ∨ Settle ok (s.life r) m →
      m = t.life r ∨ Pop m (t.life r) →
      Life.Step ok (s.life r) (t.life r) ∧
        (s.life r = Life.blank → t.life r = Life.blank ∨ r ∈ t.issued) := by
    intro t m hset hpop
    refine ⟨.work hset hpop, fun hb => Or.inl ?_⟩
    have hm : m = Life.blank := by
      rcases hset with heq | hset
      · rw [← heq]
        exact hb
      · have hpos := hset.held_pos
        rw [hb] at hpos
        exact absurd hpos (Nat.lt_irrefl 0)
    rcases hpop with heq | hpop
    · rw [← heq]
      exact hm
    · have hpos := hpop.inQueue_pos
      rw [hm] at hpos
      exact absurd hpos (Nat.lt_irrefl 0)
  cases step_cases h with
  | tick d => exact hmove (Or.inl rfl)
  | @enqueue r' d cause _ hr' =>
    by_cases hr : r = r'
    · subst hr
      have hb := hg.fresh r hr'
      have hissued : r ∈ (s.enqueue r d cause).1.issued := by
        rw [(enqueue_frame s r d cause).2.1]
        exact List.mem_cons_self
      rw [hb]
      rcases life_enqueue_self hb d cause with h' | h' <;> rw [h']
      · exact ⟨Step.refl ok _, fun _ => Or.inl rfl⟩
      · exact ⟨.inserted, fun _ => Or.inr hissued⟩
    · rcases life_enqueue_other s d cause hr with h' | h'
      · exact hmove (Or.inl h')
      · exact hmove (Or.inr (h' ▸ .deleted))
  | watch hstep =>
    obtain ⟨w, hw, hm⟩ := watchStep_move hstep
    exact hmove (hm.life hw r)
  | wake hw hidle => exact hwork (Or.inl rfl) (life_dequeue hw hidle r)
  | @timeout i w hw hidle =>
    exact hmove (Or.inl (life_timeout hw hidle r))
  | @advance i sha pc pc' job hw =>
    exact hmove (Or.inl (life_advance sha pc hw r))
  | @finish i out pc job hw =>
    exact hwork (life_settle hfail hw (hd i out rfl) r)
      (life_dequeue (ready_of_release cfg out hw) rfl r)
  | crash hup' =>
    rw [hup'] at hup
    exact absurd hup Bool.false_ne_true
  | boot hup' =>
    obtain ⟨table, queued, -, -, hboot⟩ := boot_eq cfg s
    rw [hboot, hup'] at hup
    exact absurd hup.symm Bool.false_ne_true

/-- A crash and a boot, seen from any run. -/
theorem restart_life {cfg : SchedConfig π} {s s' : Sched π} {a : SchedAction π}
    {es : List SchedEvent} (hg : Grounded cfg s) (h : Sched.step cfg s a = some (s', es))
    (hup : s'.up ≠ s.up) (r : RunId) :
    (s'.up = false ∧ s'.life r = Life.down (s.table.statusOf r)) ∨
      (s'.up = true ∧ s'.life r = Life.booted (s.table.statusOf r)) := by
  cases step_cases h with
  | tick d => exact absurd rfl hup
  | @enqueue r' d cause _ _ =>
    exact absurd (enqueue_frame s r' d cause).2.2.1 hup
  | watch hstep =>
    obtain ⟨w, hw, hm⟩ := watchStep_move hstep
    exact absurd hm.frame.2.2.2.1 hup
  | wake _ _ => exact absurd (dequeue_frame cfg s _).2.2.1 hup
  | timeout _ _ => exact absurd rfl hup
  | advance _ => exact absurd rfl hup
  | @finish i out pc job _ =>
    have hdeq := (dequeue_frame cfg ((s.settle cfg job out).release i) i).2.2.1
    exact absurd (hdeq.trans (settle_frame cfg s job out).2.2.2.1) hup
  | crash _ => exact Or.inl ⟨rfl, rfl⟩
  | boot hdown =>
    refine Or.inr ⟨?_, life_boot hg.stamped r⟩
    obtain ⟨table, queued, -, -, hboot⟩ := boot_eq cfg s
    rw [hboot]

/-! ## The bookkeeping -/

section Stamps

variable {t : RunTable} {now : Nat} (hs : ∀ row ∈ t.rows, row.updatedAt ≤ now)

include hs

/-- A status write stamps no row later than now. -/
theorem stamped_stampWhere (p : Row → Bool) (st : RunStatus) :
    ∀ row ∈ (t.stampWhere p st now).rows, row.updatedAt ≤ now := by
  intro row hrow
  rcases RunTable.mem_stampWhere.mp hrow with ⟨old, -, -, rfl⟩ | ⟨hrow, -⟩
  · exact Nat.le_refl _
  · exact hs row hrow

/-- An insert stamps no row later than now. -/
theorem stamped_insertRun (job : ReviewJob) :
    ∀ row ∈ (t.insertRun job now).1.rows, row.updatedAt ≤ now := by
  intro row hrow
  rcases (RunTable.insertRun_spec t job now).1 row hrow with hrow | ⟨-, pr, -, rfl⟩
  · exact hs row hrow
  · exact Nat.le_refl _

end Stamps

/-- Starting a run stamps no row later than now. -/
theorem stamped_dequeue {cfg : SchedConfig π} {s : Sched π} (i : Nat)
    (hs : ∀ row ∈ s.table.rows, row.updatedAt ≤ s.now) :
    ∀ row ∈ (s.dequeue cfg i).table.rows, row.updatedAt ≤ (s.dequeue cfg i).now := by
  obtain ⟨hnow, -, -, -, hcase, -⟩ := dequeue_frame cfg s i
  rw [hnow]
  rcases hcase with ⟨job, -, -, htable, -, -⟩ | ⟨htable, -, -⟩
  · rw [htable]
    exact stamped_stampWhere hs _ _
  · rw [htable]
    exact hs

/-- Replacing one worker changes the count by that worker. -/
theorem busyCount_set {l : List (Worker π)} {i : Nat} {w : Worker π} (h : l[i]? = some w)
    (w' : Worker π) :
    busyCount (l.set i w') + (if w.idle then 0 else 1) =
      busyCount l + (if w'.idle then 0 else 1) := by
  have hcount := countP_set_add (a := w') (fun w => !w.idle) h
  unfold busyCount
  cases hw : w.idle <;> cases hw' : w'.idle <;> simpa [hw, hw'] using hcount

/-- Waking the workers leaves the count of the busy ones. -/
theorem busyCount_wake (l : List (Worker π)) : busyCount (l.map Worker.wake) = busyCount l := by
  unfold busyCount
  rw [List.countP_map]
  apply List.countP_congr
  intro w _
  cases w <;> simp [Worker.wake, Worker.idle]

/-- The counter after an idle worker has looked for work. -/
theorem counted_dequeue (cfg : SchedConfig π) {s : Sched π} {i : Nat} {w : Worker π}
    (hw : s.workers[i]? = some w) (hidle : w.idle = true)
    (hc : s.active = (busyCount s.workers : Int)) :
    (s.dequeue cfg i).active = (busyCount (s.dequeue cfg i).workers : Int) ∧
      (s.dequeue cfg i).workers.length = s.workers.length := by
  obtain ⟨-, -, -, -, hcase, -⟩ := dequeue_frame cfg s i
  rcases hcase with ⟨job, -, -, -, hworkers, hactive⟩ | ⟨-, hworkers, hactive⟩
  · have hcount := busyCount_set hw (.busy job cfg.start)
    rw [if_pos hidle] at hcount
    simp only [Worker.idle, Bool.false_eq_true, if_false] at hcount
    rw [hworkers, hactive, hc]
    refine ⟨?_, List.length_set⟩
    omega
  · have hcount := busyCount_set hw .waiting
    rw [if_pos hidle] at hcount
    simp only [Worker.idle, if_true] at hcount
    rw [hworkers, hactive, hc]
    refine ⟨?_, List.length_set⟩
    omega

/-- Run ids once issued stay issued. -/
theorem issued_mono {cfg : SchedConfig π} {s s' : Sched π} {a : SchedAction π}
    {es : List SchedEvent} (h : Sched.step cfg s a = some (s', es)) {r : RunId}
    (hr : r ∈ s.issued) : r ∈ s'.issued := by
  cases step_cases h with
  | tick d => exact hr
  | @enqueue r' d cause hup hr' =>
    rw [(enqueue_frame s r' d cause).2.1]
    exact List.mem_cons_of_mem _ hr
  | watch hstep =>
    obtain ⟨w, hw, hm⟩ := watchStep_move hstep
    rw [hm.frame.2.2.1]
    exact hr
  | @wake i w hw hidle =>
    rw [(dequeue_frame cfg s i).2.1]
    exact hr
  | timeout _ _ => exact hr
  | advance hw => exact hr
  | @finish i out pc job hw =>
    show r ∈ (((s.settle cfg job out).release i).dequeue cfg i).issued
    rw [(dequeue_frame cfg _ i).2.1]
    show r ∈ (s.settle cfg job out).issued
    rw [(settle_frame cfg s job out).2.2.1]
    exact hr
  | crash hup => exact hr
  | boot hup =>
    obtain ⟨table, queued, -, -, hboot⟩ := boot_eq cfg s
    rw [hboot]
    exact hr

section Bookkeeping

variable {cfg : SchedConfig π} {s s' : Sched π} {i : Nat} {w w' : Worker π}

/-- Workers exist only while the service is up. -/
theorem Grounded.up_of_worker (hg : Grounded cfg s) (hw : w ∈ s.workers) : s.up = true := by
  cases hup : s.up with
  | true => rfl
  | false =>
    rw [← hg.down hup] at hw
    exact absurd hw List.not_mem_nil

/-- Watchers exist only while the service is up. -/
theorem Grounded.up_of_watcher {x : Watcher} (hg : Grounded cfg s) (hx : x ∈ s.watchers) :
    s.up = true := by
  cases hup : s.up with
  | true => rfl
  | false =>
    rw [← hg.down hup] at hx
    exact absurd hx List.not_mem_nil

/-- The bookkeeping of a process that is up. -/
theorem Grounded.of_up (hfresh : ∀ r, r ∉ s'.issued → s'.life r = Life.blank)
    (hstamp : ∀ row ∈ s'.table.rows, row.updatedAt ≤ s'.now) (hup : s'.up = true)
    (hcount : s'.active = (busyCount s'.workers : Int))
    (hslots : s'.workers.length = cfg.concurrency) : Grounded cfg s' := by
  refine ⟨hfresh, hstamp, fun hdown => ?_, hcount, fun _ => hslots⟩
  rw [hup] at hdown
  exact absurd hdown (by decide)

/-- The bookkeeping after a step that at most wakes the workers. -/
theorem Grounded.of_wake (hg : Grounded cfg s) (hup : s.up = true)
    (hfresh : ∀ r, r ∉ s'.issued → s'.life r = Life.blank)
    (hstamp : ∀ row ∈ s'.table.rows, row.updatedAt ≤ s'.now) (hup' : s'.up = s.up)
    (hactive : s'.active = s.active)
    (hworkers : s'.workers = s.workers ∨ s'.workers = s.workers.map Worker.wake) :
    Grounded cfg s' := by
  apply Grounded.of_up hfresh hstamp (hup'.trans hup)
  · rw [hactive, hg.counted]
    rcases hworkers with hworkers | hworkers <;> rw [hworkers]
    rw [busyCount_wake]
  · rcases hworkers with hworkers | hworkers <;> rw [hworkers]
    · exact hg.slots hup
    · rw [List.length_map]
      exact hg.slots hup

/-- The counter after a worker has gone from one state to another that is as busy. -/
theorem counted_set (hc : s.active = (busyCount s.workers : Int)) (hw : s.workers[i]? = some w)
    (hsame : w'.idle = w.idle) : s.active = (busyCount (s.workers.set i w') : Int) := by
  have hcount := busyCount_set hw w'
  rw [hsame] at hcount
  rw [hc]
  omega

/-- The process after a worker has finished its job and has not looked for another one. -/
theorem Grounded.release (hg : Grounded cfg s) {job : ReviewJob} {pc : π} (out : Outcome)
    (hw : s.workers[i]? = some (.busy job pc)) :
    (∀ row ∈ ((s.settle cfg job out).release i).table.rows,
        row.updatedAt ≤ ((s.settle cfg job out).release i).now) ∧
      ((s.settle cfg job out).release i).active =
        (busyCount ((s.settle cfg job out).release i).workers : Int) ∧
      ((s.settle cfg job out).release i).workers.length = cfg.concurrency ∧
      ((s.settle cfg job out).release i).up = true := by
  have hup := hg.up_of_worker (List.mem_of_getElem? hw)
  obtain ⟨htable, hnow, -, hup', hactive, -, hworkers, -⟩ := settle_frame cfg s job out
  refine ⟨?_, ?_, ?_, hup'.trans hup⟩
  · show ∀ row ∈ (s.settle cfg job out).table.rows, row.updatedAt ≤ (s.settle cfg job out).now
    rw [hnow]
    rcases htable with htable | ⟨st, htable⟩ <;> rw [htable]
    · exact hg.stamped
    · exact stamped_stampWhere hg.stamped _ _
  · have hbusy := busyCount_set hw .ready
    simp only [Worker.idle, Bool.false_eq_true, if_false, if_true] at hbusy
    show (s.settle cfg job out).active - 1 =
      (busyCount ((s.settle cfg job out).workers.set i .ready) : Int)
    rw [hworkers, hactive, hg.counted]
    omega
  · show ((s.settle cfg job out).workers.set i .ready).length = cfg.concurrency
    rw [hworkers, List.length_set]
    exact hg.slots hup

/-- A run id that has not been issued is not used after a step either. -/
theorem Grounded.fresh_step {a : SchedAction π} {es : List SchedEvent} (hg : Grounded cfg s)
    (h : Sched.step cfg s a = some (s', es)) {r : RunId} (hr : r ∉ s'.issued) :
    s'.life r = Life.blank := by
  have hblank := hg.fresh r fun hc => hr (issued_mono h hc)
  by_cases hup : s'.up = s.up
  · obtain ⟨-, hstay⟩ := step_life anyEnd_failed hg
      (fun i out _ => Outcome.endsIn_any out) h hup r
    exact (hstay hblank).resolve_right hr
  · have hnone : s.table.statusOf r = none := congrArg Life.status hblank
    rcases restart_life hg h hup r with ⟨-, hlife⟩ | ⟨-, hlife⟩ <;> rw [hlife, hnone] <;> rfl

/-- A step keeps the bookkeeping. -/
theorem Grounded.step {a : SchedAction π} {es : List SchedEvent} (hg : Grounded cfg s)
    (h : Sched.step cfg s a = some (s', es)) : Grounded cfg s' := by
  have hfresh : ∀ r, r ∉ s'.issued → s'.life r = Life.blank := fun r hr => hg.fresh_step h hr
  cases step_cases h with
  | tick d =>
    refine ⟨hfresh, fun row hrow => ?_, fun hup => ?_, hg.counted, hg.slots⟩
    · exact Nat.le_trans (hg.stamped row hrow) (Nat.le_add_right _ _)
    · exact congrArg (fun t : Sched π => { t with now := s.now + d }) (hg.down hup)
  | @enqueue r' d cause hup hr' =>
    obtain ⟨hnow, -, hup', hactive, hworkers, htable⟩ := enqueue_frame s r' d cause
    refine hg.of_wake hup hfresh ?_ hup' hactive hworkers
    rw [hnow]
    rcases htable with htable | ⟨job, -, -, htable⟩ <;> rw [htable]
    · exact hg.stamped
    · exact stamped_insertRun hg.stamped job
  | watch hstep =>
    obtain ⟨w, hw, hm⟩ := watchStep_move hstep
    obtain ⟨htable, hnow, -, hup', hactive, hworkers⟩ := hm.frame
    refine hg.of_wake (hg.up_of_watcher (List.mem_of_getElem? hw)) hfresh ?_ hup' hactive hworkers
    rw [hnow]
    rcases htable with htable | ⟨-, st, htable⟩ <;> rw [htable]
    · exact hg.stamped
    · exact stamped_stampWhere hg.stamped _ _
  | @wake i w hw hidle =>
    have hup := hg.up_of_worker (List.mem_of_getElem? hw)
    obtain ⟨hactive, hlength⟩ := counted_dequeue cfg hw hidle hg.counted
    apply Grounded.of_up hfresh (stamped_dequeue i hg.stamped)
    · exact (dequeue_frame cfg s i).2.2.1.trans hup
    · exact hactive
    · exact hlength.trans (hg.slots hup)
  | @timeout i w hw hidle =>
    have hup := hg.up_of_worker (List.mem_of_getElem? hw)
    exact .of_up hfresh hg.stamped hup (counted_set hg.counted hw hidle.symm)
      (List.length_set.trans (hg.slots hup))
  | @advance i sha pc pc' job hw =>
    have hup := hg.up_of_worker (List.mem_of_getElem? hw)
    exact .of_up hfresh hg.stamped hup (counted_set hg.counted hw rfl)
      (List.length_set.trans (hg.slots hup))
  | @finish i out pc job hw =>
    obtain ⟨hstamp, hcount, hlength, hup⟩ := hg.release out hw
    obtain ⟨hactive, hlength'⟩ := counted_dequeue cfg (ready_of_release cfg out hw) rfl hcount
    apply Grounded.of_up hfresh (stamped_dequeue i hstamp)
    · exact (dequeue_frame cfg _ i).2.2.1.trans hup
    · exact hactive
    · exact hlength'.trans hlength
  | crash hup =>
    refine ⟨hfresh, hg.stamped, fun _ => rfl, rfl, fun hup' => ?_⟩
    exact absurd hup' (by simp [crash])
  | boot hup =>
    obtain ⟨table, queued, htable, -, hboot⟩ := boot_eq cfg s
    have hzero : busyCount (List.replicate cfg.concurrency (Worker.ready : Worker π)) = 0 := by
      unfold busyCount
      rw [List.countP_eq_zero]
      intro w hw
      rw [List.eq_of_mem_replicate hw]
      simp [Worker.idle]
    apply Grounded.of_up hfresh
    · rw [hboot, htable]
      exact stamped_stampWhere hg.stamped _ _
    · rw [hboot]
    · rw [hboot]
      show (0 : Int) = (busyCount (List.replicate cfg.concurrency (Worker.ready : Worker π)) : Int)
      rw [hzero]
      rfl
    · rw [hboot]
      exact List.length_replicate

end Bookkeeping

/-! ## Whole executions -/

/-- A process that has not been booted yet is grounded. -/
theorem Cold.grounded (cfg : SchedConfig π) {s : Sched π} (hc : s.Cold) : Grounded cfg s := by
  have hmem := hc.memory
  refine ⟨?_, hc.stamped, fun _ => hmem, ?_, fun hup => ?_⟩
  · intro r hr
    have hnone : s.table.statusOf r = none := by
      rw [RunTable.statusOf_eq_none]
      intro row hrow hid
      exact hr (hid ▸ hc.issued row hrow)
    rw [life_of_down hmem, hnone]
    rfl
  · rw [← hmem]
    rfl
  · rw [hc.down] at hup
    exact absurd hup (by decide)

/-- In every run the state is grounded. -/
theorem reaches_grounded {cfg : SchedConfig π} {D : Machine.Discipline (Sched π) (SchedAction π) SchedEvent}
    {s : Sched π} {h : List SchedEvent} (hr : (machine cfg).Reaches D s h) : Grounded cfg s :=
  hr.invariant (I := fun s _ => Grounded cfg s) (fun _ hs => Cold.grounded cfg hs)
    fun _ _ _ _ _ _ hg _ hstep => hg.step hstep

/-- **Every run of every state an execution reaches has at most one owner**, whatever the
pipeline returns. -/
theorem reaches_sound {cfg : SchedConfig π} {D : Machine.Discipline (Sched π) (SchedAction π) SchedEvent}
    {s : Sched π} {h : List SchedEvent} (hr : (machine cfg).Reaches D s h) (r : RunId) :
    (s.life r).Sound := by
  refine hr.invariant (I := fun s _ => (s.life r).Sound) ?_ ?_
  · intro s hs
    rw [life_of_down (Cold.memory hs)]
    exact sound_down _
  · intro s h a s' es hr hsound _ hstep
    have hg := reaches_grounded hr
    by_cases hup : s'.up = s.up
    · have hlife := (step_life anyEnd_failed hg
        (fun i out _ => Outcome.endsIn_any out) hstep hup r).1
      exact hsound.step hlife
    · rcases restart_life hg hstep hup r with ⟨-, hlife⟩ | ⟨-, hlife⟩
      · rw [hlife]
        exact sound_down _
      · rw [hlife]
        exact sound_booted _

/-- A watcher that has not decided watches a run that no worker executes. -/
theorem watched_not_held {cfg : SchedConfig π}
    {D : Machine.Discipline (Sched π) (SchedAction π) SchedEvent} {s : Sched π}
    {h : List SchedEvent} (hr : (machine cfg).Reaches D s h) {i j : Nat} {w : Watcher}
    {job : ReviewJob} {pc : π} (hw : s.watchers[i]? = some w) (hu : w.pc.undecided = true)
    (hb : s.workers[j]? = some (.busy job pc)) : w.job.runId ≠ job.runId := by
  intro heq
  have hwatched : 0 < (s.life job.runId).watched :=
    countP_pos_of_getElem? hw (by simp [Watcher.watches, hu, heq])
  have hheld : 0 < (s.life job.runId).held := countP_pos_of_getElem? hb (by simp [Worker.holds])
  have hone := (reaches_sound hr job.runId).heldOrWatched
  omega

/-- A queued job is executed by no worker. -/
theorem queued_not_held {cfg : SchedConfig π}
    {D : Machine.Discipline (Sched π) (SchedAction π) SchedEvent} {s : Sched π}
    {h : List SchedEvent} (hr : (machine cfg).Reaches D s h) {j : Nat} {job job' : ReviewJob}
    {pc : π} (hq : job' ∈ s.queue) (hb : s.workers[j]? = some (.busy job pc)) :
    job'.runId ≠ job.runId := by
  intro heq
  have hqueued : 0 < (s.life job.runId).inQueue :=
    List.countP_pos_iff.mpr ⟨job', hq, by simp [heq]⟩
  have hheld : 0 < (s.life job.runId).held := countP_pos_of_getElem? hb (by simp [Worker.holds])
  have hone := (reaches_sound hr job.runId).heldOrQueued
  omega

/-- **Exclusive, bounded execution.** In every state an execution reaches, whatever the
pipeline returns: no run is executed by two workers, no run stands in the queue twice, and
`active_workers` is the number of workers inside the pipeline, between 0 and `concurrency`. -/
theorem exclusive_bounded_execution (cfg : SchedConfig π) {s : Sched π} {h : List SchedEvent}
    (hr : (machine cfg).Reachable s h) :
    (∀ (i j : Nat) (job job' : ReviewJob) (pc pc' : π), s.workers[i]? = some (.busy job pc) →
        s.workers[j]? = some (.busy job' pc') → job.runId = job'.runId → i = j) ∧
      (s.queue.map ReviewJob.runId).Nodup ∧ s.active = (busyCount s.workers : Int) ∧
        0 ≤ s.active ∧ s.active ≤ (cfg.concurrency : Int) := by
  obtain ⟨-, -, hdown, hcount, hslots⟩ := reaches_grounded hr
  refine ⟨?_, ?_, hcount, ?_, ?_⟩
  · intro i j job job' pc pc' hi hj heq
    have hone := (reaches_sound hr job.runId).heldOrQueued
    have hheld : s.workers.countP (Worker.holds job.runId) ≤ 1 := by
      show (s.life job.runId).held ≤ 1
      omega
    exact eq_of_countP_le_one hheld hi hj (by simp [Worker.holds]) (by simp [Worker.holds, heq])
  · rw [List.nodup_iff_count_le_one]
    intro r
    rw [List.count_eq_countP, List.countP_map]
    have hone := (reaches_sound hr r).heldOrQueued
    show (s.life r).inQueue ≤ 1
    omega
  · rw [hcount]
    exact Int.natCast_nonneg _
  · cases hup : s.up with
    | true =>
      have hle : busyCount s.workers ≤ s.workers.length := List.countP_le_length
      have hlen := hslots hup
      rw [hcount]
      omega
    | false =>
      have hzero : s.active = 0 := by
        rw [← hdown hup]
        rfl
      rw [hzero]
      exact Int.natCast_nonneg _

/-- Two workers and a gate that passes at once. -/
def twoWorkers : SchedConfig Unit where
  gate := {}
  slack := true
  maxAttempts := 3
  concurrency := 2
  start := ()

/-- A webhook enqueues a run, its gate passes, and a worker claims it. -/
def claimedRun : List (SchedAction Unit) :=
  [.boot, .enqueue "r1" { action := .enqueue, owner := "o", repo := "p", pr := some 7, head := "a" }
      .webhook,
    .wake 0, .watch 0 .go, .watch 0 (.polled (.runs [])), .wake 0]

/-- A claimed run is held by one worker and counted once. -/
theorem exclusive_bounded_execution_claimed :
    ∃ s h, ((∃ job, s.workers[0]? = some (.busy job ())) ∧ s.active = 1) ∧
      ((∀ (i j : Nat) (job job' : ReviewJob) (pc pc' : Unit), s.workers[i]? = some (.busy job pc) →
          s.workers[j]? = some (.busy job' pc') → job.runId = job'.runId → i = j) ∧
        (s.queue.map ReviewJob.runId).Nodup ∧ s.active = (busyCount s.workers : Int) ∧
          0 ≤ s.active ∧ s.active ≤ (2 : Int)) ∧
      (machine twoWorkers).Reachable s h := by
  have hx : ((machine twoWorkers).run (fun _ _ _ => true) Sched.new [] claimedRun).isSome = true := by
    decide
  have hr := Machine.reaches_run (D := fun _ _ _ => True) (fun _ _ _ _ => trivial) new_cold hx
  exact ⟨_, _, ⟨⟨_, rfl⟩, rfl⟩, exclusive_bounded_execution twoWorkers hr, hr⟩

end Sched

end PrReviewer.Model
