import PrReviewer.Model.Domain

/-!
# The life of one run

What a run is, seen apart from all the others: the status of its row, how many workers
execute it, how often it stands in the queue, how many undecided watchers it has, and
whether the queue's set `_queued` holds it. This is the purpose of the scheduler stated for
a single run; `PrReviewer.Analysis.SchedulerSteps` shows that every step of the scheduler
moves every run along these moves or not at all.

The moves take a predicate `ok` on how a pipeline call may end, as the status it makes the
worker write (`none` for a call that returns `None` and writes nothing).
-/

set_option autoImplicit false

namespace PrReviewer.Interface

open PrReviewer.Model (RunStatus)

/-- One run, seen apart from the others. -/
@[ext]
structure Life where
  /-- the status of its row, if there is a row -/
  status : Option RunStatus
  /-- the workers that execute it -/
  held : Nat
  /-- its entries in the queue -/
  inQueue : Nat
  /-- its watchers that have not decided yet -/
  watched : Nat
  /-- it is in the set `_queued` -/
  marked : Bool
  deriving DecidableEq

namespace Life

/-- A run id that nobody has used. -/
def blank : Life := ⟨none, 0, 0, 0, false⟩

/-- A run that `enqueue` has just stored. -/
def inserted : Life := ⟨some .pendingCi, 0, 1, 1, true⟩

/-- The row of the run, if there is one, gets a new status. -/
def stamp (l : Life) (st : RunStatus) : Life :=
  { l with status := l.status.map fun _ => st }

/-- A run while the process is down: only its row is left. -/
def down (st : Option RunStatus) : Life := ⟨st, 0, 0, 0, false⟩

/-- What a boot makes of a run of which only the row is left. -/
def booted : Option RunStatus → Life
  | some .pendingCi => ⟨some .pendingCi, 0, 1, 1, true⟩
  | some .queued => ⟨some .queued, 0, 1, 0, true⟩
  | some .running => ⟨some .queued, 0, 1, 0, true⟩
  | st => down st

/-- The moves of watchers and commands. -/
inductive Move : Life → Life → Prop
  /-- a comment deleted its row -/
  | deleted {l : Life} : Move l { l with status := none }
  /-- a watcher found that there is nothing to watch -/
  | left {l : Life} : 0 < l.watched → l.status ≠ some .pendingCi →
      Move l { l with watched := l.watched - 1 }
  /-- a watcher opened the gate, `put_back` found the run in `_queued` -/
  | passedMarked {l : Life} : 0 < l.watched → l.marked = true →
      Move l { l.stamp .queued with watched := l.watched - 1 }
  /-- a watcher opened the gate, `put_back` queued the run -/
  | passed {l : Life} : 0 < l.watched → l.marked = false →
      Move l { l.stamp .queued with
        watched := l.watched - 1, inQueue := l.inQueue + 1, marked := true }
  /-- a watcher closed the gate -/
  | closed {l : Life} {st : RunStatus} : 0 < l.watched → st = .ciFailed ∨ st = .skipped →
      Move l { l.stamp st with watched := l.watched - 1 }

/-- The moves of a pipeline call that ends. -/
inductive Settle (ok : Option RunStatus → Prop) : Life → Life → Prop
  /-- the worker queued it again, past the set `_queued` -/
  | retried {l : Life} : 0 < l.held →
      Settle ok l { l.stamp .queued with held := l.held - 1, inQueue := l.inQueue + 1 }
  | ended {l : Life} {st : RunStatus} : 0 < l.held → ok (some st) →
      Settle ok l { l.stamp st with held := l.held - 1 }
  | dropped {l : Life} : 0 < l.held → ok none → Settle ok l { l with held := l.held - 1 }

/-- The moves of a worker that looks for work. -/
inductive Pop : Life → Life → Prop
  /-- its entries were popped and the claims lost -/
  | lost {l : Life} {k : Nat} : 0 < k → k ≤ l.inQueue → l.status ≠ some .queued →
      Pop l { l with inQueue := l.inQueue - k, marked := false }
  | claimed {l : Life} : 0 < l.inQueue → l.status = some .queued →
      Pop l { l.stamp .running with
        inQueue := l.inQueue - 1, held := l.held + 1, marked := false }

/-- What one step of a process that stays up, or stays down, may do to one run. -/
inductive Step (ok : Option RunStatus → Prop) : Life → Life → Prop
  | inserted : Step ok blank inserted
  | move {l l' : Life} : Move l l' → Step ok l l'
  | work {l m l' : Life} : l = m ∨ Settle ok l m → m = l' ∨ Pop m l' → Step ok l l'

/-- No step: nothing happened to the run. -/
theorem Step.refl (ok : Option RunStatus → Prop) (l : Life) : Step ok l l :=
  .work (Or.inl rfl) (Or.inl rfl)

/-- An unused run id stays unused under every move. -/
theorem Move.of_blank {l' : Life} (h : Move blank l') : l' = blank := by
  generalize hl : blank = l at h
  have hwatched : l.watched = 0 := by rw [← hl]; rfl
  cases h with
  | deleted => rw [← hl]; rfl
  | left hw hst => omega
  | passedMarked hw hm => omega
  | passed hw hm => omega
  | closed hw hst => omega

/-- A run that settles is held. -/
theorem Settle.held_pos {ok : Option RunStatus → Prop} {l l' : Life} (h : Settle ok l l') :
    0 < l.held := by
  cases h with
  | retried hh => exact hh
  | ended hh _ => exact hh
  | dropped hh _ => exact hh

/-- A run that is popped was in the queue. -/
theorem Pop.inQueue_pos {l l' : Life} (h : Pop l l') : 0 < l.inQueue := by
  cases h with
  | lost hk hle _ => omega
  | claimed hq _ => exact hq

/-! ## Who may hold a run -/

/-- At most one party owns a run: a worker that executes it, a watcher that will queue it, or
the queue; a watched run waits for CI and an executed one is running. -/
structure Sound (l : Life) : Prop where
  heldOrQueued : l.held + l.inQueue ≤ 1
  heldOrWatched : l.held + l.watched ≤ 1
  /-- `put_back` returns early only for a run that is in the queue -/
  markedQueued : l.marked = true → 0 < l.inQueue
  queuedMarked : 0 < l.watched → 0 < l.inQueue → l.marked = true
  watchedPending : 0 < l.watched → l.status = none ∨ l.status = some .pendingCi
  heldRunning : 0 < l.held → l.status = none ∨ l.status = some .running

/-- A run whose memory is gone is owned by nobody. -/
theorem sound_down (st : Option RunStatus) : Sound (down st) := by
  constructor <;> simp [down]

/-- A booted run is owned by the queue, and by its watcher if it still waits for CI. -/
theorem sound_booted (st : Option RunStatus) : Sound (Life.booted st) := by
  cases st with
  | none => exact sound_down none
  | some st => cases st <;> constructor <;> simp [Life.booted, down]

/-- A watcher that decides gives the run up: no other watcher has it, and no worker. -/
theorem Sound.decided {l : Life} (hl : Sound l) (hw : 0 < l.watched) (st : RunStatus) :
    Sound { l.stamp st with watched := l.watched - 1 } := by
  obtain ⟨h₁, h₂, h₃, h₄, -, -⟩ := hl
  refine ⟨h₁, ?_, h₃, ?_, ?_, ?_⟩
  · show l.held + (l.watched - 1) ≤ 1
    omega
  · exact fun _ hq => h₄ hw hq
  · intro hw'
    have : 0 < l.watched - 1 := hw'
    omega
  · intro hh
    have : 0 < l.held := hh
    omega

/-- Moves keep the ownership of a run. -/
theorem Sound.move {l l' : Life} (hl : Sound l) (h : Move l l') : Sound l' := by
  cases h with
  | deleted =>
    exact { hl with
      watchedPending := fun _ => Or.inl rfl
      heldRunning := fun _ => Or.inl rfl }
  | left hw hs =>
    obtain ⟨h₁, h₂, h₃, h₄, h₅, h₆⟩ := hl
    refine ⟨h₁, ?_, h₃, ?_, ?_, h₆⟩
    · show l.held + (l.watched - 1) ≤ 1
      omega
    · intro hw' hq
      exact h₄ hw hq
    · intro hw'
      exact h₅ hw
  | passedMarked hw _ => exact hl.decided hw .queued
  | passed hw hm =>
    obtain ⟨h₁, h₂, h₃, h₄, -, -⟩ := hl
    -- an unmarked watched run is not in the queue
    have hq : l.inQueue = 0 := by
      by_contra hne
      have := h₄ hw (by omega)
      rw [hm] at this
      exact Bool.false_ne_true this
    refine ⟨?_, ?_, ?_, ?_, ?_, ?_⟩
    · show l.held + (l.inQueue + 1) ≤ 1
      omega
    · show l.held + (l.watched - 1) ≤ 1
      omega
    · intro _
      show 0 < l.inQueue + 1
      omega
    · exact fun _ _ => rfl
    · intro hw'
      have : 0 < l.watched - 1 := hw'
      omega
    · intro hh
      have : 0 < l.held := hh
      omega
  | closed hw _ => exact hl.decided hw _

/-- The end of a pipeline call keeps the ownership of a run. -/
theorem Sound.settle {ok : Option RunStatus → Prop} {l l' : Life} (hl : Sound l)
    (h : Settle ok l l') : Sound l' := by
  obtain ⟨h₁, h₂, h₃, h₄, h₅, h₆⟩ := hl
  cases h with
  | retried hh =>
    refine ⟨?_, ?_, ?_, ?_, ?_, ?_⟩
    · show l.held - 1 + (l.inQueue + 1) ≤ 1
      omega
    · show l.held - 1 + l.watched ≤ 1
      omega
    · intro _
      show 0 < l.inQueue + 1
      omega
    · intro hw
      have : 0 < l.watched := hw
      omega
    · intro hw
      have : 0 < l.watched := hw
      omega
    · intro hh'
      have : 0 < l.held - 1 := hh'
      omega
  | ended hh _ =>
    refine ⟨?_, ?_, h₃, h₄, ?_, ?_⟩
    · show l.held - 1 + l.inQueue ≤ 1
      omega
    · show l.held - 1 + l.watched ≤ 1
      omega
    · intro hw
      have : 0 < l.watched := hw
      omega
    · intro hh'
      have : 0 < l.held - 1 := hh'
      omega
  | dropped hh _ =>
    refine ⟨?_, ?_, h₃, h₄, h₅, ?_⟩
    · show l.held - 1 + l.inQueue ≤ 1
      omega
    · show l.held - 1 + l.watched ≤ 1
      omega
    · intro hh'
      have : 0 < l.held - 1 := hh'
      omega

/-- A worker that looks for work keeps the ownership of a run. -/
theorem Sound.pop {l l' : Life} (hl : Sound l) (h : Pop l l') : Sound l' := by
  obtain ⟨h₁, h₂, h₃, h₄, h₅, h₆⟩ := hl
  cases h with
  | @lost k hk hle hs =>
    have hq : l.inQueue = 1 := by omega
    refine ⟨?_, h₂, ?_, ?_, h₅, h₆⟩
    · show l.held + (l.inQueue - k) ≤ 1
      omega
    · intro hm
      exact absurd hm Bool.false_ne_true
    · intro _ hq'
      have : 0 < l.inQueue - k := hq'
      omega
  | claimed hq hs =>
    -- a queued row has no watcher, so the claim is the only owner
    have hw : l.watched = 0 := by
      by_contra hne
      rcases h₅ (by omega) with h | h <;> rw [hs] at h <;> simp at h
    refine ⟨?_, ?_, ?_, ?_, ?_, ?_⟩
    · show l.held + 1 + (l.inQueue - 1) ≤ 1
      omega
    · show l.held + 1 + l.watched ≤ 1
      omega
    · intro hm
      exact absurd hm Bool.false_ne_true
    · intro hw'
      have : 0 < l.watched := hw'
      omega
    · intro hw'
      have : 0 < l.watched := hw'
      omega
    · intro _
      right
      simp [stamp, hs]

/-- Every step keeps a life sound. -/
theorem Sound.step {ok : Option RunStatus → Prop} {l l' : Life} (hl : Sound l)
    (h : Step ok l l') : Sound l' := by
  cases h with
  | inserted => exact sound_booted (some .pendingCi)
  | move hm => exact hl.move hm
  | work hs hp =>
    have hmid := hs.elim (fun he => he ▸ hl) hl.settle
    exact hp.elim (fun he => he ▸ hmid) hmid.pop

/-! ## Nobody loses a run -/

/-- Every open run is in somebody's hands. -/
structure Tracked (l : Life) : Prop where
  queued : l.status = some .queued → 0 < l.inQueue
  pending : l.status = some .pendingCi → 0 < l.watched
  running : l.status = some .running → 0 < l.held

/-- A run without a row is not lost. -/
theorem Tracked.of_none {l : Life} (h : l.status = none) : Tracked l := by
  constructor <;> simp [h]

/-- A boot takes every open run up again. -/
theorem tracked_booted (st : Option RunStatus) : Tracked (Life.booted st) := by
  cases st with
  | none => exact Tracked.of_none rfl
  | some st => cases st <;> constructor <;> simp [Life.booted, down]

/-- No move loses a run. -/
theorem Tracked.move {l l' : Life} (hl : Tracked l) (hs : Sound l) (h : Move l l') :
    Tracked l' := by
  obtain ⟨hq, hp, hr⟩ := hl
  -- a written status replaces that of the row, if there is one
  have hstamp : ∀ st : RunStatus, (l.stamp st).status = none ∨ (l.stamp st).status = some st := by
    intro st
    cases hst : l.status <;> simp [stamp, hst]
  cases h with
  | deleted => exact Tracked.of_none rfl
  | left hw hst => exact ⟨hq, fun h => absurd h hst, hr⟩
  | passedMarked hw hm =>
    rcases hstamp .queued with h | h
    · exact Tracked.of_none h
    · refine ⟨fun _ => hs.markedQueued hm, fun h' => ?_, fun h' => ?_⟩
      · simp [h] at h'
      · simp [h] at h'
  | passed hw hm =>
    rcases hstamp .queued with h | h
    · exact Tracked.of_none h
    · refine ⟨fun _ => Nat.succ_pos _, fun h' => ?_, fun h' => ?_⟩
      · simp [h] at h'
      · simp [h] at h'
  | closed hw hst =>
    rcases hst with rfl | rfl
    · rcases hstamp .ciFailed with h | h
      · exact Tracked.of_none h
      · constructor <;> simp [h]
    · rcases hstamp .skipped with h | h
      · exact Tracked.of_none h
      · constructor <;> simp [h]

/-- A pipeline call that ends in a final status, or is retried, does not lose its run. -/
theorem Tracked.settle {ok : Option RunStatus → Prop}
    (hok : ∀ st, ok st → ∃ f, st = some f ∧ f.final = true) {l l' : Life} (hl : Tracked l)
    (h : Settle ok l l') : Tracked l' := by
  obtain ⟨hq, hp, hr⟩ := hl
  cases h with
  | retried hh =>
    cases hst : l.status with
    | none => exact Tracked.of_none (by simp [stamp, hst])
    | some st => constructor <;> simp [stamp, hst]
  | @ended st hh ho =>
    obtain ⟨f, hf, hfinal⟩ := hok _ ho
    cases hf
    cases hst : l.status with
    | none => exact Tracked.of_none (by simp [stamp, hst])
    | some st' =>
      constructor <;> simp only [stamp, hst] <;> rintro ⟨⟩ <;> simp [RunStatus.final] at hfinal
  | dropped hh ho =>
    obtain ⟨f, hf, -⟩ := hok _ ho
    cases hf

/-- A tracked run stays tracked when it is popped. -/
theorem Tracked.pop {l l' : Life} (hl : Tracked l) (h : Pop l l') : Tracked l' := by
  obtain ⟨hq, hp, hr⟩ := hl
  cases h with
  | lost hk hle hst => exact ⟨fun h => absurd h hst, hp, hr⟩
  | claimed hq' hst => constructor <;> simp [stamp, hst]

/-- No step loses a run, as long as pipeline calls end in a final status or are retried. -/
theorem Tracked.step {ok : Option RunStatus → Prop}
    (hok : ∀ st, ok st → ∃ f, st = some f ∧ f.final = true) {l l' : Life} (hl : Tracked l)
    (hs : Sound l) (h : Step ok l l') : Tracked l' := by
  cases h with
  | inserted => exact tracked_booted (some .pendingCi)
  | move hm => exact hl.move hs hm
  | work hset hp =>
    have hmid := hset.elim (fun he => he ▸ hl) (hl.settle hok)
    exact hp.elim (fun he => he ▸ hmid) hmid.pop

/-! ## The end of a run -/

/-- The run has ended with this status and nobody has it in hand; a comment may delete its row. -/
structure Concluded (st : RunStatus) (l : Life) : Prop where
  held : l.held = 0
  inQueue : l.inQueue = 0
  watched : l.watched = 0
  status : l.status = none ∨ l.status = some st

/-- Only a new run with its id would change a run that has ended. -/
theorem Concluded.step {ok : Option RunStatus → Prop} {st : RunStatus} {l l' : Life}
    (hl : Concluded st l) (h : Step ok l l') : Concluded st l' ∨ l = blank ∧ l' = inserted := by
  obtain ⟨hheld, hqueue, hwatched, hstatus⟩ := hl
  cases h with
  | inserted => exact Or.inr ⟨rfl, rfl⟩
  | move hm =>
    left
    cases hm with
    | deleted => exact ⟨hheld, hqueue, hwatched, Or.inl rfl⟩
    | left hw _ => omega
    | passedMarked hw _ => omega
    | passed hw _ => omega
    | closed hw _ => omega
  | work hset hp =>
    left
    rcases hset with rfl | hset
    · rcases hp with rfl | hp
      · exact ⟨hheld, hqueue, hwatched, hstatus⟩
      · have := hp.inQueue_pos
        omega
    · have := hset.held_pos
      omega

/-- A restart leaves a run alone whose status is final. -/
theorem concluded_down {st : RunStatus} {status : Option RunStatus}
    (h : status = none ∨ status = some st) : Concluded st (down status) :=
  ⟨rfl, rfl, rfl, h⟩

/-- A run that was over, or has no row, is concluded after a boot. -/
theorem concluded_booted {st : RunStatus} (hfinal : st.final = true) {status : Option RunStatus}
    (h : status = none ∨ status = some st) : Concluded st (booted status) := by
  rcases h with rfl | rfl
  · exact concluded_down (Or.inl rfl)
  · cases st <;> first | exact concluded_down (Or.inr rfl) | exact absurd hfinal Bool.false_ne_true

/-- A worker that writes a status and lets go of its run concludes it: nobody else has the run. -/
theorem Sound.concluded {l : Life} (hl : Sound l) (hheld : 0 < l.held) (st : RunStatus) :
    Concluded st { l.stamp st with held := l.held - 1 } := by
  have hqueued := hl.heldOrQueued
  have hwatched := hl.heldOrWatched
  constructor
  · show l.held - 1 = 0
    omega
  · show l.inQueue = 0
    omega
  · show l.watched = 0
    omega
  · show (l.status.map fun _ => st) = none ∨ (l.status.map fun _ => st) = some st
    cases l.status with
    | none => exact Or.inl rfl
    | some _ => exact Or.inr rfl

/-- The gate of the run is shut, and no worker has got past it. -/
structure Shut (l : Life) : Prop where
  held : l.held = 0
  status : l.status = none ∨ l.status = some .ciFailed ∨ l.status = some .skipped

/-- A run that is shut stays shut until it is inserted again. -/
theorem Shut.step {ok : Option RunStatus → Prop} {l l' : Life} (hs : Sound l) (hl : Shut l)
    (h : Step ok l l') : Shut l' ∨ l = blank ∧ l' = inserted := by
  obtain ⟨hheld, hstatus⟩ := hl
  -- what is still watched has no row
  have hrowless : 0 < l.watched → l.status = none := by
    intro hw
    rcases hs.watchedPending hw with h | h
    · exact h
    · rcases hstatus with h' | h' | h' <;> rw [h] at h' <;> cases h'
  cases h with
  | inserted => exact Or.inr ⟨rfl, rfl⟩
  | move hm =>
    left
    cases hm with
    | deleted => exact ⟨hheld, Or.inl rfl⟩
    | left _ _ => exact ⟨hheld, hstatus⟩
    | passedMarked hw _ => exact ⟨hheld, Or.inl (by simp [stamp, hrowless hw])⟩
    | passed hw _ => exact ⟨hheld, Or.inl (by simp [stamp, hrowless hw])⟩
    | closed hw _ => exact ⟨hheld, Or.inl (by simp [stamp, hrowless hw])⟩
  | work hset hp =>
    left
    rcases hset with rfl | hset
    · rcases hp with rfl | hp
      · exact ⟨hheld, hstatus⟩
      · cases hp with
        | lost _ _ _ => exact ⟨hheld, hstatus⟩
        | claimed _ hq => rcases hstatus with h | h | h <;> rw [hq] at h <;> cases h
    · have := hset.held_pos
      omega

/-! ## The status machine -/

/-- The edges of the run state machine. -/
inductive StatusEdge : RunStatus → RunStatus → Prop
  | gatePassed : StatusEdge .pendingCi .queued
  | gateFailed : StatusEdge .pendingCi .ciFailed
  | gateTimeout : StatusEdge .pendingCi .skipped
  | claimed : StatusEdge .queued .running
  | retried : StatusEdge .running .queued
  | published : StatusEdge .running .posted
  | staged : StatusEdge .running .pendingApproval
  | prClosed : StatusEdge .running .skipped
  | gaveUp : StatusEdge .running .failed

/-- No edge leaves a final status. -/
theorem StatusEdge.not_final {a b : RunStatus} (h : StatusEdge a b) : a.final = false := by
  cases h <;> rfl

/-- The status of a row stays or follows an edge. -/
def Follows (a b : RunStatus) : Prop :=
  b = a ∨ StatusEdge a b

/-- A move takes the status of a row along an edge, or deletes the row. -/
theorem Move.follows {l l' : Life} (hs : Sound l) (h : Move l l') {a b : RunStatus}
    (ha : l.status = some a) (hb : l'.status = some b) : Follows a b := by
  -- a watcher is undecided only while the row waits for CI
  have hpending : 0 < l.watched → a = .pendingCi := by
    intro hw
    rcases hs.watchedPending hw with h | h <;> rw [ha] at h
    · simp at h
    · simpa using h
  cases h with
  | deleted => simp at hb
  | left hw hst => exact Or.inl (by simpa [ha] using hb.symm)
  | passedMarked hw hm =>
    rw [hpending hw]
    have : b = .queued := by simpa [stamp, ha] using hb.symm
    exact this ▸ Or.inr .gatePassed
  | passed hw hm =>
    rw [hpending hw]
    have : b = .queued := by simpa [stamp, ha] using hb.symm
    exact this ▸ Or.inr .gatePassed
  | @closed st hw hst =>
    rw [hpending hw]
    have : b = st := by simpa [stamp, ha] using hb.symm
    rw [this]
    rcases hst with rfl | rfl
    · exact Or.inr .gateFailed
    · exact Or.inr .gateTimeout

/-- A boot queues a running row again and leaves every other row alone. -/
theorem booted_follows {a b : RunStatus} (h : (booted (some a)).status = some b) :
    Follows a b := by
  cases a <;> simp only [booted, down, Option.some.injEq] at h <;> subst h
  case running => exact Or.inr .retried
  all_goals exact Or.inl rfl

/-- Only a pipeline call that ends so makes a row wait for approval. -/
theorem Step.pendingApproval {ok : Option RunStatus → Prop} (hok : ¬ ok (some .pendingApproval))
    {l l' : Life} (h : Step ok l l') (hst : l'.status = some .pendingApproval) :
    l.status = some .pendingApproval := by
  -- a row that has just been given another status does not wait for approval
  have hstamp : ∀ {l : Life} {st : RunStatus}, (l.stamp st).status = some .pendingApproval →
      st = .pendingApproval := by
    intro l st h
    simp only [stamp, Option.map_eq_some_iff] at h
    obtain ⟨_, -, h⟩ := h
    exact h
  cases h with
  | inserted => cases hst
  | move hm =>
    cases hm with
    | deleted => cases hst
    | left _ _ => exact hst
    | passedMarked _ _ => exact absurd (hstamp (l := l) hst) (by simp)
    | passed _ _ => exact absurd (hstamp (l := l) hst) (by simp)
    | closed _ hc =>
      have := hstamp (l := l) hst
      rcases hc with rfl | rfl <;> cases this
  | @work _ m _ hset hp =>
    have hmid : m.status = some .pendingApproval := by
      rcases hp with rfl | hp
      · exact hst
      · cases hp with
        | lost _ _ _ => exact hst
        | claimed _ _ => exact absurd (hstamp (l := m) hst) (by simp)
    rcases hset with rfl | hset
    · exact hmid
    · cases hset with
      | retried _ => exact absurd (hstamp (l := l) hmid) (by simp)
      | ended _ ho => exact absurd (hstamp (l := l) hmid ▸ ho) hok
      | dropped _ _ => exact hmid

/-- The statuses the pipeline of the service makes a worker write. -/
def RealEnd (st : Option RunStatus) : Prop :=
  st = some .posted ∨ st = some .pendingApproval ∨ st = some .skipped ∨ st = some .failed

/-- A step takes the status of a row along at most one edge, or deletes the row. -/
theorem Step.follows {l l' : Life} (hs : Sound l) (h : Step RealEnd l l') {a b : RunStatus}
    (ha : l.status = some a) (hb : l'.status = some b) : Follows a b := by
  cases h with
  | inserted => simp [blank] at ha
  | move hm => exact hm.follows hs ha hb
  | work hset hp =>
    rename_i m
    -- the status between the end of the call and the search for work
    have hmid : m.status = some a ∨ ∃ c, m.status = some c ∧ a = .running ∧ StatusEdge a c := by
      rcases hset with rfl | hset
      · exact Or.inl ha
      · have hrun : 0 < l.held → a = .running := by
          intro hh
          rcases hs.heldRunning hh with h | h <;> rw [ha] at h
          · simp at h
          · simpa using h
        cases hset with
        | retried hh =>
          refine Or.inr ⟨.queued, by simp [stamp, ha], hrun hh, hrun hh ▸ .retried⟩
        | @ended st hh ho =>
          refine Or.inr ⟨st, by simp [stamp, ha], hrun hh, hrun hh ▸ ?_⟩
          rcases ho with h | h | h | h <;> cases h
          · exact .published
          · exact .staged
          · exact .prClosed
          · exact .gaveUp
        | dropped hh ho => exact Or.inl ha
    rcases hp with rfl | hp
    · rcases hmid with hm | ⟨c, hm, -, he⟩
      · exact Or.inl (by simpa [hm] using hb.symm)
      · have : b = c := by simpa [hm] using hb.symm
        exact this ▸ Or.inr he
    · cases hp with
      | lost hk hle hst =>
        rcases hmid with hm | ⟨c, hm, -, he⟩
        · exact Or.inl (by simpa [hm] using hb.symm)
        · have : b = c := by simpa [hm] using hb.symm
          exact this ▸ Or.inr he
      | claimed hq hst =>
        have hb' : b = .running := by simpa [stamp, hst] using hb.symm
        rcases hmid with hm | ⟨c, hm, hrun, -⟩
        · have : a = .queued := by simpa [hst] using hm.symm
          rw [hb', this]
          exact Or.inr .claimed
        · -- retried and claimed again at once
          exact Or.inl (by rw [hb', hrun])

end Life

end PrReviewer.Interface
