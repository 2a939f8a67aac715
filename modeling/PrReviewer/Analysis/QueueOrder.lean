import Mathlib.Data.List.Infix
import PrReviewer.Analysis.Drains

/-!
# The order of the queue

A run of the service is watched at its queue: `QueueLog` writes down what is put on it, what its
workers take off it, with the status they find, and the jobs their pipelines are started on. What is
taken off is a prefix of what was put on, so nobody overtakes, and `queue_fifo` says that the jobs
that are executed are the queued ones among it, in the order in which they came.
-/

set_option autoImplicit false

namespace PrReviewer.Model

open PrReviewer.Library

variable {π : Type}

namespace Sched

/-- What happened at the queue. -/
structure QueueLog where
  /-- the jobs put on the queue -/
  put : List ReviewJob := []
  /-- the jobs taken off the queue, each with the status of its run then -/
  taken : List (ReviewJob × Option RunStatus) := []
  /-- the jobs a pipeline was started on -/
  started : List ReviewJob := []
  /-- how often a worker looked into the queue -/
  looks : Nat := 0

/-- The entries up to the first one whose run is queued, which is the one that is claimed. -/
def upToQueued (t : RunTable) : List ReviewJob → List (ReviewJob × Option RunStatus)
  | [] => []
  | job :: rest =>
    (job, t.statusOf job.runId) ::
      if t.statusOf job.runId = some .queued then [] else upToQueued t rest

/-- The state in which a worker looks into the queue, if one does in this step. -/
def looksIn (cfg : SchedConfig π) (s : Sched π) : SchedAction π → Option (Sched π × Nat)
  | .wake i => some (s, i)
  | .finish i out =>
    match s.workers[i]? with
    | some (.busy job _) => some ((s.settle cfg job out).release i, i)
    | _ => none
  | _ => none

/-- What a step from `s` to `s'` does at the queue. -/
def logStep (cfg : SchedConfig π) (s s' : Sched π) (a : SchedAction π) (l : QueueLog) : QueueLog :=
  match s.looksIn cfg a with
  | none => { l with put := l.put ++ s'.queue.drop s.queue.length }
  | some (t, _) =>
    { put := l.put ++ t.queue.drop s.queue.length
      taken := l.taken ++ upToQueued t.table t.queue
      started := l.started ++ (claimNext t.now t.table t.queue t.queued).2.2.2.toList
      looks := l.looks + 1 }

/-- The scheduler, watched at its queue. -/
def watchedQueue (cfg : SchedConfig π) (s₀ : Sched π) :
    Machine (Sched π × QueueLog) (SchedAction π) SchedEvent where
  start := fun s => s = (s₀, {})
  step := fun s a =>
    (Sched.step cfg s.1 a).map fun r => ((r.1, logStep cfg s.1 r.1 a s.2), r.2)

/-! ## One look -/

section Look

variable {cfg : SchedConfig π} {s s' : Sched π}

/-- Lost entries are passed over up to the first queued one. -/
theorem upToQueued_append {t : RunTable} {lost rest : List ReviewJob}
    (hlost : ∀ job ∈ lost, t.statusOf job.runId ≠ some .queued) :
    upToQueued t (lost ++ rest)
      = lost.map (fun job => (job, t.statusOf job.runId)) ++ upToQueued t rest := by
  induction lost with
  | nil => rfl
  | cons job lost ih =>
    have hjob := hlost job List.mem_cons_self
    rw [List.cons_append, upToQueued, if_neg hjob,
      ih fun j hj => hlost j (List.mem_cons_of_mem _ hj)]
    rfl

/-- The job of an entry whose run was queued. -/
def queuedJob (e : ReviewJob × Option RunStatus) : Option ReviewJob :=
  if e.2 = some .queued then some e.1 else none

/-- Lost entries hold no queued job. -/
theorem filterMap_queuedJob_lost {t : RunTable} {lost : List ReviewJob}
    (hlost : ∀ job ∈ lost, t.statusOf job.runId ≠ some .queued) :
    (lost.map fun job => (job, t.statusOf job.runId)).filterMap queuedJob = [] := by
  rw [List.filterMap_eq_nil_iff]
  intro e he
  obtain ⟨job, hjob, rfl⟩ := List.mem_map.mp he
  exact if_neg (hlost job hjob)

/-- **A look takes a prefix off the queue**, with one queued job at most, which is started. -/
theorem look_spec (now : Nat) (t : RunTable) (q : List ReviewJob) (queued : List RunId) :
    q = (upToQueued t q).map Prod.fst ++ (claimNext now t q queued).2.1 ∧
      (upToQueued t q).filterMap queuedJob = (claimNext now t q queued).2.2.2.toList ∧
      (q ≠ [] → upToQueued t q ≠ []) := by
  obtain ⟨lost, hlost, ⟨job, rest, hq, hst, heq⟩ | ⟨hq, heq⟩⟩ := claimNext_spec now t q queued
  · have hup : upToQueued t q
        = (lost.map fun job => (job, t.statusOf job.runId)) ++ [(job, some .queued)] := by
      rw [hq, upToQueued_append hlost, upToQueued, hst, if_pos rfl]
    rw [heq, hup]
    refine ⟨?_, ?_, ?_⟩
    · simp [hq, Function.comp_def]
    · rw [List.filterMap_append, filterMap_queuedJob_lost hlost]
      rfl
    · intro _ hnil
      simp at hnil
  · have hup : upToQueued t q = lost.map fun job => (job, t.statusOf job.runId) := by
      have happend := @upToQueued_append t lost [] hlost
      rw [List.append_nil, upToQueued, List.append_nil] at happend
      rw [hq, happend]
    rw [heq, hup]
    refine ⟨?_, filterMap_queuedJob_lost hlost, ?_⟩
    · simp [hq, Function.comp_def]
    · intro hne hnil
      rw [List.map_eq_nil_iff] at hnil
      exact hne (hq.trans hnil)

/-- Taking a run leaves the queue that claiming leaves. -/
theorem dequeue_queue (cfg : SchedConfig π) (s : Sched π) (i : Nat) :
    (s.dequeue cfg i).queue = (claimNext s.now s.table s.queue s.queued).2.1 := by
  unfold dequeue
  split <;> rename_i heq <;> rw [heq]

/-- Putting a run back adds at the end at most. -/
theorem putBack_queue (s : Sched π) (job : ReviewJob) : s.queue <+: (s.putBack job).queue := by
  unfold putBack
  split
  · exact List.prefix_refl _
  · exact List.prefix_append _ _

/-- A step in which no worker looks adds to the queue at most. -/
theorem queue_grows {a : SchedAction π} {es : List SchedEvent} (hstays : a.stays = true)
    (h : Sched.step cfg s a = some (s', es)) (hlook : s.looksIn cfg a = none) :
    s.queue <+: s'.queue := by
  cases step_cases h with
  | tick d => exact List.prefix_refl _
  | @enqueue r d cause _ _ =>
    rcases enqueue_cases s r d cause with ⟨job, table, -, -, -, -, -, heq⟩ | ⟨table, -, heq⟩
    · rw [heq]
      exact List.prefix_append _ _
    · rw [heq]
  | watch hwatch =>
    obtain ⟨w, -, hmove⟩ := watchStep_move hwatch
    cases hmove with
    | goOn _ _ _ => exact List.prefix_refl _
    | leave _ _ _ => exact List.prefix_refl _
    | close _ _ _ _ => exact List.prefix_refl _
    | @pass w' _ _ _ _ => exact putBack_queue (s.writeStatus w'.job.runId .queued) w'.job
  | wake _ _ => cases hlook
  | timeout _ _ => exact List.prefix_refl _
  | advance _ => exact List.prefix_refl _
  | finish hw =>
    simp only [looksIn, hw, reduceCtorEq] at hlook
  | crash _ => cases hstays
  | boot _ => cases hstays

/-- A look is a look of `dequeue`, into a queue that has at most grown. -/
theorem step_of_looksIn {a : SchedAction π} {es : List SchedEvent} {t : Sched π} {i : Nat}
    (h : Sched.step cfg s a = some (s', es)) (hlook : s.looksIn cfg a = some (t, i)) :
    s' = t.dequeue cfg i ∧ s.queue <+: t.queue := by
  cases step_cases h with
  | wake _ _ =>
    simp only [looksIn, Option.some.injEq, Prod.mk.injEq] at hlook
    obtain ⟨rfl, rfl⟩ := hlook
    exact ⟨rfl, List.prefix_refl _⟩
  | @finish j out pc job hw =>
    simp only [looksIn, hw, Option.some.injEq, Prod.mk.injEq] at hlook
    obtain ⟨rfl, rfl⟩ := hlook
    refine ⟨rfl, ?_⟩
    show s.queue <+: (s.settle cfg job out).queue
    rcases settle_cases anyEnd_failed cfg s job (Outcome.endsIn_any out) with
      ⟨heq, -⟩ | ⟨st, heq, -⟩ | heq
    · rw [heq]
    · rw [heq]
      exact List.prefix_refl _
    · rw [heq]
      exact List.prefix_append _ _
  | _ => cases hlook

end Look

/-! ## Runs -/

/-- What holds of the queue and its log all along a run that starts in `s₀`. -/
structure InOrder (s₀ s : Sched π) (l : QueueLog) : Prop where
  conserved : s₀.queue ++ l.put = l.taken.map Prod.fst ++ s.queue
  executed : l.started = l.taken.filterMap queuedJob
  /-- while entries of the start are left, every look has taken one at least -/
  served : l.looks ≤ l.taken.length ∨ s₀.queue.length ≤ l.taken.length

/-- A list is its prefix and what follows it. -/
theorem append_drop_length {α : Type} {l₁ l₂ : List α} (h : l₁ <+: l₂) :
    l₁ ++ l₂.drop l₁.length = l₂ := by
  obtain ⟨l, rfl⟩ := h
  rw [List.drop_left]

/-- Every step keeps the order of the queue. -/
theorem InOrder.step {cfg : SchedConfig π} {s₀ s s' : Sched π} {l : QueueLog}
    {a : SchedAction π} {es : List SchedEvent} (hl : InOrder s₀ s l) (hstays : a.stays = true)
    (h : Sched.step cfg s a = some (s', es)) : InOrder s₀ s' (logStep cfg s s' a l) := by
  cases hlook : s.looksIn cfg a with
  | none =>
    unfold logStep
    rw [hlook]
    refine ⟨?_, hl.executed, hl.served⟩
    rw [← List.append_assoc, hl.conserved, List.append_assoc,
      append_drop_length (queue_grows hstays h hlook)]
  | some r =>
    obtain ⟨t, i⟩ := r
    obtain ⟨rfl, hprefix⟩ := step_of_looksIn h hlook
    obtain ⟨htake, hstart, hone⟩ := look_spec t.now t.table t.queue t.queued
    unfold logStep
    rw [hlook]
    refine ⟨?_, ?_, ?_⟩
    · calc
        s₀.queue ++ (l.put ++ t.queue.drop s.queue.length)
            = l.taken.map Prod.fst ++ (s.queue ++ t.queue.drop s.queue.length) := by
          rw [← List.append_assoc, hl.conserved, List.append_assoc]
        _ = l.taken.map Prod.fst ++ t.queue := by rw [append_drop_length hprefix]
        _ = (l.taken ++ upToQueued t.table t.queue).map Prod.fst ++ (t.dequeue cfg i).queue := by
          rw [dequeue_queue, List.map_append, List.append_assoc, ← htake]
    · show l.started ++ _ = (l.taken ++ _).filterMap queuedJob
      rw [List.filterMap_append, hl.executed, hstart]
    · show l.looks + 1 ≤ (l.taken ++ upToQueued t.table t.queue).length ∨
        s₀.queue.length ≤ (l.taken ++ upToQueued t.table t.queue).length
      rw [List.length_append]
      by_cases hempty : t.queue = []
      · -- an empty queue means that what was there at the start has been taken
        have hs : s.queue = [] := by
          rw [hempty] at hprefix
          exact List.prefix_nil.mp hprefix
        have hlength := congrArg List.length hl.conserved
        rw [hs, List.append_nil, List.length_append, List.length_map] at hlength
        omega
      · have hpos := List.length_pos_iff.mpr (hone hempty)
        rcases hl.served with hle | hle <;> omega

/-- **The queue is first in, first out.** Whatever a process does until it crashes: what its workers
take off the queue is, in this order, a prefix of what stood on it and was put on it since; the jobs
that are executed are those among it whose runs were queued when they were taken, so nobody
overtakes; and an entry with `p` entries ahead of it is taken by the `p + 1`st look into the queue
at the latest. -/
theorem queue_fifo (cfg : SchedConfig π) (s₀ s : Sched π) (l : QueueLog) (h : List SchedEvent)
    (hr : (watchedQueue cfg s₀).Reaches (fun _ _ a => a.stays = true) (s, l) h) :
    s₀.queue ++ l.put = l.taken.map Prod.fst ++ s.queue ∧
      l.started = l.taken.filterMap queuedJob ∧
      ∀ (p : Nat) (job : ReviewJob), s₀.queue[p]? = some job → p < l.looks →
        (l.taken.map Prod.fst)[p]? = some job := by
  have hl : InOrder s₀ s l := by
    refine hr.invariant (I := fun s _ => InOrder s₀ s.1 s.2) ?_ ?_
    · rintro s rfl
      exact ⟨List.append_nil _, rfl, Or.inl (Nat.le_refl _)⟩
    · rintro ⟨s, l⟩ h a ⟨s', l'⟩ es _ hl hstays hstep
      obtain ⟨r, hr, heq⟩ := Option.map_eq_some_iff.mp hstep
      obtain ⟨⟨rfl, rfl⟩, rfl⟩ : (r.1 = s' ∧ logStep cfg s r.1 a l = l') ∧ r.2 = es := by
        simpa [Prod.ext_iff] using heq
      exact hl.step hstays hr
  refine ⟨hl.conserved, hl.executed, ?_⟩
  intro p job hjob hlooks
  obtain ⟨hp, -⟩ := List.getElem?_eq_some_iff.mp hjob
  have hlength : p < (l.taken.map Prod.fst).length := by
    rw [List.length_map]
    rcases hl.served with hle | hle <;> omega
  have hat := congrArg (fun q : List ReviewJob => q[p]?) hl.conserved
  simp only [List.getElem?_append_left hp, List.getElem?_append_left hlength] at hat
  rw [← hat]
  exact hjob

/-- A process that has accepted two commands. -/
def twoAccepted : Sched Unit :=
  (((Sched.new.boot twoWorkers).enqueue "r1"
      { action := .enqueue, owner := "o", repo := "p", pr := some 7, head := "a" }
      .webhook).1.enqueue
    "r2" { action := .enqueue, owner := "o", repo := "p", pr := some 8, head := "b" } .webhook).1

/-- The gate of the second run opens first, and its worker takes the first one off unclaimed. -/
theorem queue_fifo_second :
    ∃ (s : Sched Unit) (l : QueueLog),
      (l.started.map ReviewJob.runId = ["r2"] ∧ l.looks = 1) ∧
      twoAccepted.queue ++ l.put = l.taken.map Prod.fst ++ s.queue ∧
        l.started = l.taken.filterMap queuedJob ∧
        ∀ (p : Nat) (job : ReviewJob), twoAccepted.queue[p]? = some job → p < l.looks →
          (l.taken.map Prod.fst)[p]? = some job := by
  obtain ⟨⟨s, l⟩, h, hr, hcheck⟩ := Machine.exists_reaches_decide
    (M := watchedQueue twoWorkers twoAccepted) (D := fun _ _ a => a.stays = true)
    [.watch 1 .go, .watch 1 (.polled (.runs [])), .wake 0]
    (fun s _ => decide (s.2.started.map ReviewJob.runId = ["r2"] ∧ s.2.looks = 1)) rfl (by decide)
  exact ⟨s, l, of_decide_eq_true hcheck, queue_fifo twoWorkers twoAccepted s l h hr⟩

end Sched

end PrReviewer.Model
