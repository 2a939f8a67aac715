import PrReviewer.Model.Scheduler
import Mathlib.Tactic.ByContra

/-!
# The live gate and its reference decision

`_watch`, which the service runs, against `resolve_gate`, which the unit tests exercise. They
disagree on three kinds of scripts: an empty poll inside the settle window, which `_watch`
takes for "no CI"; a poll error after the settle window, which `resolve_gate` takes for "no
CI"; and a wait cap reached by the sleep, where `_watch` decides on the poll before it.
`agrees_iff` says that these are all.
-/

set_option autoImplicit false

namespace PrReviewer.Model

/-! ## What agreement means -/

/-- The status written says what the reference decision says. -/
def GateResult.Matches (r : GateResult) (st : RunStatus) : Prop :=
  (st = .queued ↔ r.passed = true) ∧ (st = .ciFailed ↔ r.reason = .ciFailed) ∧
    (st = .skipped ↔ r.reason = .timeout)

/-- The reference decision at the time of the `k`-th poll, on what is reported then. -/
def referenceAt (g : GateConfig) (reports : Nat → PollOutcome) (k : Nat) : GateResult :=
  resolveGate g (reports k) (g.elapsedAt k)

/-- The loop writes `st` when `j` poll intervals have elapsed. -/
def Writes (g : GateConfig) (reports : Nat → PollOutcome) (j : Nat) (st : RunStatus) : Prop :=
  ∃ n, watchRounds g reports n 0 = some (j, st)

/-- The loop gets to its `k`-th poll: its first `k` rounds write nothing. -/
def Polls (g : GateConfig) (reports : Nat → PollOutcome) (k : Nat) : Prop :=
  watchRounds g reports k 0 = none

/-- The live gate agrees with the reference on a script: every status written matches the
reference at that time, where the reference is pending nothing is written, and neither an
error nor an empty poll before the settle window opens the gate in either of them. -/
structure Agrees (g : GateConfig) (reports : Nat → PollOutcome) : Prop where
  matched : ∀ j st, Writes g reports j st → (referenceAt g reports j).Matches st
  pending : ∀ k, (referenceAt g reports k).reason = .pending → ∀ st, ¬ Writes g reports k st
  error : ∀ k, Polls g reports k → reports k = .error →
    (referenceAt g reports k).passed = false ∧ ¬ Writes g reports k .queued
  empty : ∀ k, Polls g reports k → reports k = .runs [] → g.elapsedAt k < g.settleSeconds →
    (referenceAt g reports k).passed = false ∧ ¬ Writes g reports k .queued

/-! ## The condition, on the script alone -/

/-- Some check runs are reported and one of them is not completed. -/
def Incomplete (o : PollOutcome) : Prop :=
  ∃ runs, o = .runs runs ∧ runs.isEmpty = false ∧ allCompleted runs = false

/-- Up to the `k`-th poll every report is an error, or incomplete with the next poll still
before the cap. -/
def Waits (g : GateConfig) (reports : Nat → PollOutcome) (k : Nat) : Prop :=
  ∀ i < k, reports i = .error ∨ Incomplete (reports i) ∧ g.elapsedAt (i + 1) < g.cap

/-- While the gate waits: no empty report before the settle window is over, no error after it,
and an incomplete report whose next poll would be at the cap or later is still incomplete
then. -/
structure Steady (g : GateConfig) (reports : Nat → PollOutcome) : Prop where
  settled : ∀ k, Waits g reports k → reports k = .runs [] → g.settleSeconds ≤ g.elapsedAt k
  polled : ∀ k, Waits g reports k → reports k = .error → g.elapsedAt k < g.settleSeconds
  stalled : ∀ k, Waits g reports k → Incomplete (reports k) → g.elapsedAt k < g.cap →
    g.cap ≤ g.elapsedAt (k + 1) → Incomplete (reports (k + 1))

/-! ## One round -/

section Round

variable {g : GateConfig} {reports : Nat → PollOutcome}

/-- One round takes the poll interval. -/
theorem elapsedAt_succ (g : GateConfig) (k : Nat) :
    g.elapsedAt (k + 1) = g.elapsedAt k + g.pollIntervalSeconds := by
  unfold GateConfig.elapsedAt
  rw [Int.natCast_add, Int.add_mul]
  simp

/-- A round on an incomplete report waits, or writes `skipped` at the cap. -/
theorem watchRound_incomplete {o : PollOutcome} (k : Nat) (ho : Incomplete o) :
    watchRound g k o =
      if g.cap ≤ g.elapsedAt k then some (k, .skipped)
      else if g.cap ≤ g.elapsedAt (k + 1) then some (k + 1, .skipped)
      else none := by
  obtain ⟨runs, rfl, hne, hc⟩ := ho
  have hpoll' : afterPoll g (g.elapsedAt k) runs =
      if g.elapsedAt k ≥ g.cap then .timeout else .wait := by
    unfold afterPoll
    rw [hne, hc]
    rfl
  have hsleep : afterSleep g (g.elapsedAt (k + 1)) runs =
      if g.elapsedAt (k + 1) ≥ g.cap then .timeout else .wait := by
    unfold afterSleep
    rw [hc]
    rfl
  unfold watchRound
  simp only [hpoll', hsleep]
  by_cases h₁ : g.cap ≤ g.elapsedAt k
  · rw [if_pos h₁, if_pos h₁]
    rfl
  · rw [if_neg h₁, if_neg h₁]
    by_cases h₂ : g.cap ≤ g.elapsedAt (k + 1)
    · rw [if_pos h₂, if_pos h₂]
      rfl
    · rw [if_neg h₂, if_neg h₂]
      rfl

/-- An empty poll lets the run through at once. -/
theorem watchRound_empty (g : GateConfig) (k : Nat) :
    watchRound g k (.runs []) = some (k, .queued) := rfl

/-- A round on completed check runs decides at once. -/
theorem watchRound_completed {runs : List CheckRun} (k : Nat) (hne : runs.isEmpty = false)
    (hc : allCompleted runs = true) :
    watchRound g k (.runs runs) = some (k, if anyFailed runs then .ciFailed else .queued) := by
  have hv : afterPoll g (g.elapsedAt k) runs = if anyFailed runs then .fail else .pass := by
    unfold afterPoll
    rw [hne, hc]
    rfl
  unfold watchRound
  simp only [hv]
  cases anyFailed runs <;> rfl

/-- The kinds of reports. -/
theorem report_cases (o : PollOutcome) :
    o = .error ∨ o = .runs [] ∨ Incomplete o ∨
      ∃ runs, o = .runs runs ∧ runs.isEmpty = false ∧ allCompleted runs = true := by
  cases o with
  | error => exact Or.inl rfl
  | runs runs =>
    cases hne : runs.isEmpty with
    | true =>
      rw [List.isEmpty_iff] at hne
      exact Or.inr (Or.inl (by rw [hne]))
    | false =>
      cases hc : allCompleted runs with
      | false => exact Or.inr (Or.inr (Or.inl ⟨runs, rfl, hne, hc⟩))
      | true => exact Or.inr (Or.inr (Or.inr ⟨runs, rfl, hne, hc⟩))

/-- A round goes on exactly on an error, or on an incomplete report with the next poll still
before the cap. -/
theorem watchRound_eq_none (hpoll : 0 < g.pollIntervalSeconds) (k : Nat) (o : PollOutcome) :
    watchRound g k o = none ↔
      o = .error ∨ Incomplete o ∧ g.elapsedAt (k + 1) < g.cap := by
  have hnext := elapsedAt_succ g k
  constructor
  · intro h
    rcases report_cases o with ho | ho | ho | ⟨runs, ho, hne, hc⟩
    · exact Or.inl ho
    · rw [ho, watchRound_empty] at h
      exact absurd h (by simp)
    · rw [watchRound_incomplete k ho] at h
      by_cases h₁ : g.cap ≤ g.elapsedAt k
      · rw [if_pos h₁] at h
        exact absurd h (by simp)
      · by_cases h₂ : g.cap ≤ g.elapsedAt (k + 1)
        · rw [if_neg h₁, if_pos h₂] at h
          exact absurd h (by simp)
        · exact Or.inr ⟨ho, by omega⟩
    · rw [ho, watchRound_completed k hne hc] at h
      exact absurd h (by simp)
  · rintro (rfl | ⟨ho, hlt⟩)
    · rfl
    · rw [watchRound_incomplete k ho, if_neg (by omega), if_neg (by omega)]

end Round

/-! ## The loop -/

section Loop

variable {g : GateConfig} {reports : Nat → PollOutcome}

/-- The rounds write nothing exactly if none of them does. -/
theorem watchRounds_eq_none (n k : Nat) :
    watchRounds g reports n k = none ↔
      ∀ i < n, watchRound g (k + i) (reports (k + i)) = none := by
  induction n generalizing k with
  | zero => simp [watchRounds]
  | succ n ih =>
    rw [watchRounds, Option.or_eq_none_iff, ih]
    constructor
    · rintro ⟨h₀, hrest⟩ i hi
      cases i with
      | zero => exact h₀
      | succ i =>
        have h := hrest i (by omega)
        have heq : k + (i + 1) = k + 1 + i := by omega
        rw [heq]
        exact h
    · intro hall
      refine ⟨hall 0 (by omega), fun i hi => ?_⟩
      have heq : k + 1 + i = k + (i + 1) := by omega
      rw [heq]
      exact hall (i + 1) (by omega)

/-- The loop polls for the `k`-th time exactly if the script makes it wait that long. -/
theorem polls_iff (hpoll : 0 < g.pollIntervalSeconds) (k : Nat) :
    Polls g reports k ↔ Waits g reports k := by
  unfold Polls Waits
  rw [watchRounds_eq_none]
  constructor
  · intro h i hi
    have hround := h i hi
    rw [Nat.zero_add] at hround
    exact (watchRound_eq_none hpoll i _).mp hround
  · intro h i hi
    rw [Nat.zero_add]
    exact (watchRound_eq_none hpoll i _).mpr (h i hi)

/-- What the rounds write, the first round that does not go on writes. -/
theorem watchRounds_eq_some {w : Nat × RunStatus} (n k : Nat) :
    watchRounds g reports n k = some w ↔
      ∃ i < n, (∀ i' < i, watchRound g (k + i') (reports (k + i')) = none) ∧
        watchRound g (k + i) (reports (k + i)) = some w := by
  induction n generalizing k with
  | zero => simp [watchRounds]
  | succ n ih =>
    rw [watchRounds]
    cases h₀ : watchRound g k (reports k) with
    | some w₀ =>
      rw [Option.some_or]
      constructor
      · intro h
        refine ⟨0, by omega, fun i' hi' => absurd hi' (Nat.not_lt_zero i'), ?_⟩
        rw [Nat.add_zero, h₀, h]
      · rintro ⟨i, -, hbefore, hi⟩
        cases i with
        | zero =>
          rw [Nat.add_zero, h₀] at hi
          exact hi
        | succ i =>
          have h := hbefore 0 (by omega)
          rw [Nat.add_zero, h₀] at h
          exact absurd h (by simp)
    | none =>
      rw [Option.none_or, ih]
      constructor
      · rintro ⟨i, hi, hbefore, hround⟩
        refine ⟨i + 1, by omega, ?_, ?_⟩
        · intro i' hi'
          cases i' with
          | zero => exact h₀
          | succ i' =>
            have heq : k + (i' + 1) = k + 1 + i' := by omega
            rw [heq]
            exact hbefore i' (by omega)
        · have heq : k + (i + 1) = k + 1 + i := by omega
          rw [heq]
          exact hround
      · rintro ⟨i, hi, hbefore, hround⟩
        cases i with
        | zero =>
          rw [Nat.add_zero, h₀] at hround
          exact absurd hround (by simp)
        | succ i =>
          refine ⟨i, by omega, ?_, ?_⟩
          · intro i' hi'
            have heq : k + 1 + i' = k + (i' + 1) := by omega
            rw [heq]
            exact hbefore (i' + 1) (by omega)
          · have heq : k + 1 + i = k + (i + 1) := by omega
            rw [heq]
            exact hround

/-- The loop writes what its first round that does not go on writes. -/
theorem writes_iff (hpoll : 0 < g.pollIntervalSeconds) {j : Nat} {st : RunStatus} :
    Writes g reports j st ↔
      ∃ k, Waits g reports k ∧ watchRound g k (reports k) = some (j, st) := by
  unfold Writes
  constructor
  · rintro ⟨n, hn⟩
    obtain ⟨k, -, hbefore, hround⟩ := (watchRounds_eq_some n 0).mp hn
    rw [Nat.zero_add] at hround
    refine ⟨k, ?_, hround⟩
    rw [← polls_iff hpoll]
    exact (watchRounds_eq_none k 0).mpr hbefore
  · rintro ⟨k, hwaits, hround⟩
    refine ⟨k + 1, (watchRounds_eq_some (k + 1) 0).mpr ⟨k, by omega, ?_, ?_⟩⟩
    · rw [← polls_iff hpoll] at hwaits
      exact (watchRounds_eq_none k 0).mp hwaits
    · rw [Nat.zero_add]
      exact hround

end Loop

/-! ## The reference -/

section Reference

variable {g : GateConfig} {reports : Nat → PollOutcome} {k : Nat}

/-- The reference takes an error for no check runs. -/
theorem referenceAt_absent (h : reports k = .error ∨ reports k = .runs []) :
    referenceAt g reports k =
      if g.settleSeconds ≤ g.elapsedAt k then ⟨true, .noCi, .absent⟩
      else ⟨false, .pending, .absent⟩ := by
  unfold referenceAt resolveGate
  rcases h with h | h <;> rw [h] <;> rfl

/-- On incomplete CI the reference waits below the cap and times out from there. -/
theorem referenceAt_incomplete (h : Incomplete (reports k)) :
    referenceAt g reports k =
      if g.cap ≤ g.elapsedAt k then ⟨false, .timeout, .pending⟩
      else ⟨false, .pending, .pending⟩ := by
  obtain ⟨runs, hruns, hne, hc⟩ := h
  unfold referenceAt resolveGate
  rw [hruns]
  simp only [hne, hc]
  rfl

/-- On completed CI the reference opens or fails. -/
theorem referenceAt_completed {runs : List CheckRun} (h : reports k = .runs runs)
    (hne : runs.isEmpty = false) (hc : allCompleted runs = true) :
    referenceAt g reports k =
      if anyFailed runs then ⟨false, .ciFailed, .failed⟩ else ⟨true, .green, .success⟩ := by
  unfold referenceAt resolveGate
  rw [h]
  simp only [hne, hc]
  cases anyFailed runs <;> rfl

/-- The reference times out only on an incomplete report. -/
theorem incomplete_of_timeout (h : (referenceAt g reports k).reason = .timeout) :
    Incomplete (reports k) := by
  rcases report_cases (reports k) with ho | ho | ho | ⟨runs, ho, hne, hc⟩
  · rw [referenceAt_absent (Or.inl ho)] at h
    split at h <;> exact absurd h (by simp)
  · rw [referenceAt_absent (Or.inr ho)] at h
    split at h <;> exact absurd h (by simp)
  · exact ho
  · rw [referenceAt_completed ho hne hc] at h
    split at h <;> exact absurd h (by simp)

/-- A pending reference does not open the gate. -/
theorem not_passed_of_pending (h : (referenceAt g reports k).reason = .pending) :
    (referenceAt g reports k).passed = false := by
  have habsent : reports k = .error ∨ reports k = .runs [] →
      (referenceAt g reports k).passed = false := by
    intro ho
    rw [referenceAt_absent ho] at h ⊢
    by_cases hle : g.settleSeconds ≤ g.elapsedAt k
    · rw [if_pos hle] at h
      exact absurd h (by decide)
    · rw [if_neg hle]
  rcases report_cases (reports k) with ho | ho | ho | ⟨runs, ho, hne, hc⟩
  · exact habsent (Or.inl ho)
  · exact habsent (Or.inr ho)
  · rw [referenceAt_incomplete ho]
    split <;> rfl
  · rw [referenceAt_completed ho hne hc] at h
    split at h <;> exact absurd h (by decide)

end Reference

/-! ## Agreement -/

section Agreement

variable {g : GateConfig} {reports : Nat → PollOutcome}

/-- A round writes `queued` only at its own poll. -/
theorem eq_of_watchRound_queued {k j : Nat} {o : PollOutcome}
    (h : watchRound g k o = some (j, .queued)) : j = k := by
  rcases report_cases o with ho | ho | ho | ⟨runs, ho, hne, hc⟩
  · rw [ho] at h
    exact absurd h (by simp [watchRound])
  · rw [ho, watchRound_empty] at h
    have := Option.some.inj h
    exact (congrArg Prod.fst this).symm
  · rw [watchRound_incomplete k ho] at h
    split at h
    · exact absurd h (by simp)
    · split at h <;> exact absurd h (by simp)
  · rw [ho, watchRound_completed k hne hc] at h
    have := Option.some.inj h
    exact (congrArg Prod.fst this).symm

/-- On a steady script every write matches the reference at its time. -/
theorem Steady.matches_reference (hpoll : 0 < g.pollIntervalSeconds) (hs : Steady g reports)
    {j : Nat} {st : RunStatus} (hw : Writes g reports j st) :
    (referenceAt g reports j).Matches st := by
  obtain ⟨k, hwaits, hround⟩ := (writes_iff hpoll).mp hw
  rcases report_cases (reports k) with ho | ho | ho | ⟨runs, ho, hne, hc⟩
  · rw [ho] at hround
    exact absurd hround (by simp [watchRound])
  · rw [ho, watchRound_empty] at hround
    obtain ⟨rfl, rfl⟩ := Prod.mk.inj (Option.some.inj hround)
    rw [referenceAt_absent (Or.inr ho), if_pos (hs.settled k hwaits ho)]
    simp [GateResult.Matches]
  · rw [watchRound_incomplete k ho] at hround
    by_cases h₁ : g.cap ≤ g.elapsedAt k
    · rw [if_pos h₁] at hround
      obtain ⟨rfl, rfl⟩ := Prod.mk.inj (Option.some.inj hround)
      rw [referenceAt_incomplete ho, if_pos h₁]
      simp [GateResult.Matches]
    · rw [if_neg h₁] at hround
      by_cases h₂ : g.cap ≤ g.elapsedAt (k + 1)
      · -- decided after the sleep, on the poll before it
        rw [if_pos h₂] at hround
        obtain ⟨rfl, rfl⟩ := Prod.mk.inj (Option.some.inj hround)
        have hstill := hs.stalled k hwaits ho (by omega) h₂
        rw [referenceAt_incomplete hstill, if_pos h₂]
        simp [GateResult.Matches]
      · rw [if_neg h₂] at hround
        exact absurd hround (by simp)
  · rw [ho, watchRound_completed k hne hc] at hround
    obtain ⟨rfl, rfl⟩ := Prod.mk.inj (Option.some.inj hround)
    rw [referenceAt_completed ho hne hc]
    cases anyFailed runs <;> simp [GateResult.Matches]

/-- What is written and matches is not pending. -/
theorem not_pending_of_writes (hpoll : 0 < g.pollIntervalSeconds) {j : Nat} {st : RunStatus}
    (hw : Writes g reports j st) (hm : (referenceAt g reports j).Matches st) :
    (referenceAt g reports j).reason ≠ .pending := by
  obtain ⟨k, -, hround⟩ := (writes_iff hpoll).mp hw
  obtain ⟨hqueued, hfailed, hskipped⟩ := hm
  intro hpending
  have hnot := not_passed_of_pending hpending
  -- a round writes one of three statuses, and each of them has its reason
  have hkind : st = .queued ∨ st = .ciFailed ∨ st = .skipped := by
    rcases report_cases (reports k) with ho | ho | ho | ⟨runs, ho, hne, hc⟩
    · rw [ho] at hround
      exact absurd hround (by simp [watchRound])
    · rw [ho, watchRound_empty] at hround
      exact Or.inl (Prod.mk.inj (Option.some.inj hround)).2.symm
    · rw [watchRound_incomplete k ho] at hround
      split at hround
      · exact Or.inr (Or.inr (Prod.mk.inj (Option.some.inj hround)).2.symm)
      · split at hround
        · exact Or.inr (Or.inr (Prod.mk.inj (Option.some.inj hround)).2.symm)
        · exact absurd hround (by simp)
    · rw [ho, watchRound_completed k hne hc] at hround
      have hst := (Prod.mk.inj (Option.some.inj hround)).2
      split at hst
      · exact Or.inr (Or.inl hst.symm)
      · exact Or.inl hst.symm
  rcases hkind with hst | hst | hst
  · rw [hqueued.mp hst] at hnot
    exact absurd hnot (by decide)
  · rw [hfailed.mp hst] at hpending
    exact absurd hpending (by decide)
  · rw [hskipped.mp hst] at hpending
    exact absurd hpending (by decide)

/-- The live gate agrees with the reference exactly on the steady scripts. -/
theorem agrees_iff_steady (hpoll : 0 < g.pollIntervalSeconds) :
    Agrees g reports ↔ Steady g reports := by
  constructor
  · intro ha
    refine ⟨?_, ?_, ?_⟩
    · intro k hwaits ho
      have hw : Writes g reports k .queued :=
        (writes_iff hpoll).mpr ⟨k, hwaits, by rw [ho, watchRound_empty]⟩
      have hpassed := (ha.matched k .queued hw).1.mp rfl
      rw [referenceAt_absent (Or.inr ho)] at hpassed
      by_contra hlt
      rw [if_neg hlt] at hpassed
      exact absurd hpassed (by decide)
    · intro k hwaits ho
      have hnot := (ha.error k ((polls_iff hpoll k).mpr hwaits) ho).1
      rw [referenceAt_absent (Or.inl ho)] at hnot
      by_contra hge
      rw [if_pos (by omega)] at hnot
      exact absurd hnot (by decide)
    · intro k hwaits ho hlt hle
      have hw : Writes g reports (k + 1) .skipped := by
        refine (writes_iff hpoll).mpr ⟨k, hwaits, ?_⟩
        rw [watchRound_incomplete k ho, if_neg (by omega), if_pos hle]
      exact incomplete_of_timeout ((ha.matched (k + 1) .skipped hw).2.2.mp rfl)
  · intro hs
    have hopens : ∀ k, reports k = .error → ¬ Writes g reports k .queued := by
      intro k ho hw
      obtain ⟨k', -, hround⟩ := (writes_iff hpoll).mp hw
      rw [← eq_of_watchRound_queued hround, ho] at hround
      exact absurd hround (by simp [watchRound])
    refine ⟨fun j st hw => hs.matches_reference hpoll hw, ?_, ?_, ?_⟩
    · intro k hpending st hw
      exact not_pending_of_writes hpoll hw (hs.matches_reference hpoll hw) hpending
    · intro k hpolls ho
      refine ⟨?_, hopens k ho⟩
      have hlt := hs.polled k ((polls_iff hpoll k).mp hpolls) ho
      rw [referenceAt_absent (Or.inl ho), if_neg (by omega)]
    · intro k hpolls ho hlt
      have hle := hs.settled k ((polls_iff hpoll k).mp hpolls) ho
      omega

end Agreement

/-- **The live gate agrees with its reference decision exactly on the steady scripts**: the
script never reports no check runs before the settle window is over, nor an error after it,
while the gate waits, and a report that is incomplete when the sleep runs into the wait cap is
still incomplete then. -/
theorem live_gate_agrees_iff (g : GateConfig) (hpoll : 0 < g.pollIntervalSeconds)
    (head : Option String) (script : Nat → PollOutcome) :
    Agrees g (reported head script) ↔ Steady g (reported head script) :=
  agrees_iff_steady hpoll

/-- One check run in progress at the first poll, completed and successful from then on. -/
def greenAtSecondPoll : Nat → PollOutcome
  | 0 => .runs [CheckRun.ofApi "build" "in_progress" none]
  | _ => .runs [CheckRun.ofApi "build" "completed" (some "success")]

/-- On CI that is green at the second poll the gate agrees with the reference. -/
theorem live_gate_agrees_iff_green :
    Agrees {} (reported (some "a") greenAtSecondPoll) ↔
      Steady {} (reported (some "a") greenAtSecondPoll) :=
  live_gate_agrees_iff {} (by decide) (some "a") greenAtSecondPoll

/-- With the default settings a head whose check runs have not been reported yet when the run
is enqueued is reviewed at once. -/
theorem live_gate_disagrees : ¬ Agrees {} (reported (some "a") fun _ => .runs []) := by
  intro ha
  have hw : Writes {} (reported (some "a") fun _ => .runs []) 0 .queued := ⟨1, rfl⟩
  exact absurd ((ha.matched 0 .queued hw).1.mp rfl) (by decide)

/-! ## The loop is the watcher's -/

namespace Sched

variable {π : Type} {cfg : SchedConfig π} {s : Sched π} {i : Nat} {w : Watcher}

/-- The verdict of a decision block is what the watcher writes to the row of its run. -/
theorem decideGate_written (w' : Watcher) {v : GateVerdict} {st st₀ : RunStatus}
    (hst : s.table.statusOf w'.job.runId = some st₀) (hv : v.written = some st)
    (goOn : Sched π) :
    (s.decideGate i w' v goOn).1.table.statusOf w'.job.runId = some st := by
  have hwrite : ∀ st, (s.writeStatus w'.job.runId st).table.statusOf w'.job.runId = some st := by
    intro st
    show (s.table.setStatus w'.job.runId st s.now).statusOf w'.job.runId = some st
    rw [RunTable.statusOf_setStatus, if_pos rfl, hst]
    rfl
  cases v with
  | pass =>
    cases hv
    have hback : ∀ t : Sched π, (t.putBack w'.job).table = t.table := by
      intro t
      unfold putBack
      split <;> rfl
    show ((s.writeStatus w'.job.runId .queued).putBack w'.job).table.statusOf w'.job.runId = _
    rw [hback]
    exact hwrite .queued
  | fail =>
    cases hv
    exact hwrite .ciFailed
  | timeout =>
    cases hv
    exact hwrite .skipped
  | wait => cases hv

/-- The head of the loop goes back to polling while the row waits for CI. -/
theorem loopTop_polls (hhead : truthy w.job.head = true)
    (hst : s.table.statusOf w.job.runId = some .pendingCi) :
    s.loopTop i w = s.setWatcher i { w with pc := .polling } := by
  unfold RunTable.statusOf at hst
  obtain ⟨row, hrow, hp⟩ := Option.map_eq_some_iff.mp hst
  unfold loopTop
  rw [hrow]
  simp only [hp, if_true, hhead]

/-- A watcher of a job without a head opens the gate at once, which is the round on no check
runs. -/
theorem watchStep_headless (hw : s.watchers[i]? = some w) (hpc : w.pc = .created)
    (hhead : truthy w.job.head = false)
    (hst : s.table.statusOf w.job.runId = some .pendingCi) :
    ∃ s₁, s.watchStep cfg i .go = some (s₁, []) ∧
      s₁.table.statusOf w.job.runId = some .queued := by
  obtain ⟨row, hrow, hp⟩ := Option.map_eq_some_iff.mp hst
  have hloop : s.loopTop i w = (s.decideGate i w .pass s).1 := by
    unfold loopTop
    rw [hrow]
    simp only [hp, if_true, hhead]
    rfl
  refine ⟨s.loopTop i w, ?_, ?_⟩
  · unfold watchStep
    rw [hw]
    simp only [hpc]
  · rw [hloop]
    exact decideGate_written w hst rfl s

/-- The only verdict that writes no status is to wait. -/
theorem wait_of_written {v : GateVerdict} (h : v.written = none) : v = .wait := by
  cases v with
  | wait => rfl
  | pass => cases h
  | fail => cases h
  | timeout => cases h

/-- **A watcher that polls follows the rounds of the loop**: on the outcome of its poll, and
the end of its sleep if it sleeps, it writes what the round writes, or stands at the next poll
with the table as it was. -/
theorem watchStep_round {k : Nat} (hw : s.watchers[i]? = some w)
    (hpc : w.pc = .polling) (he : w.elapsed = cfg.gate.elapsedAt k)
    (hhead : truthy w.job.head = true) (hst : s.table.statusOf w.job.runId = some .pendingCi)
    (o : PollOutcome) :
    ∃ s₁ es₁, s.watchStep cfg i (.polled o) = some (s₁, es₁) ∧
      match watchRound cfg.gate k o with
      | some (j, st) =>
        (j = k ∧ s₁.table.statusOf w.job.runId = some st) ∨
          (j = k + 1 ∧ s₁.table = s.table ∧ ∃ s₂ es₂, s₁.watchStep cfg i .go = some (s₂, es₂) ∧
            s₂.table.statusOf w.job.runId = some st)
      | none =>
        s₁.table = s.table ∧ ∃ s₂ es₂, s₁.watchStep cfg i .go = some (s₂, es₂) ∧
          s₂.table = s.table ∧
          s₂.watchers[i]? = some { w with elapsed := cfg.gate.elapsedAt (k + 1) } := by
  obtain ⟨hi, -⟩ := List.getElem?_eq_some_iff.mp hw
  have hnext : w.elapsed + cfg.gate.pollIntervalSeconds = cfg.gate.elapsedAt (k + 1) := by
    rw [he, elapsedAt_succ]
  -- the watcher after its poll, in the state it leaves
  have hset : ∀ w' : Watcher, (s.setWatcher i w').watchers[i]? = some w' := by
    intro w'
    exact List.getElem?_set_self hi
  -- from the state the poll leaves, the head of the loop goes to the next poll
  have hloop : ∀ (w' : Watcher) (pc : WatchPc),
      (s.setWatcher i w').loopTop i { w with elapsed := cfg.gate.elapsedAt (k + 1), pc := pc } =
        s.setWatcher i { w with elapsed := cfg.gate.elapsedAt (k + 1) } := by
    intro w' pc
    have hpolls : ∀ t : Sched π, t.table = s.table →
        t.loopTop i { w with elapsed := cfg.gate.elapsedAt (k + 1), pc := pc } =
          t.setWatcher i { w with elapsed := cfg.gate.elapsedAt (k + 1), pc := .polling } := by
      intro t ht
      exact loopTop_polls hhead (by rw [ht]; exact hst)
    rw [hpolls (s.setWatcher i w') rfl, ← hpc]
    unfold setWatcher
    rw [List.set_set]
  cases o with
  | error =>
    refine ⟨s.setWatcher i { w with pc := .backoff }, [.polled w.job .error], ?_, rfl,
      s.setWatcher i { w with elapsed := cfg.gate.elapsedAt (k + 1) }, [], ?_, rfl, hset _⟩
    · unfold watchStep
      rw [hw]
      simp only [hpc]
    · unfold watchStep
      rw [hset]
      simp only [hnext, hloop]
  | runs runs =>
    have hpolled : s.watchStep cfg i (.polled (.runs runs)) =
        some ((s.decideGate i w (afterPoll cfg.gate (cfg.gate.elapsedAt k) runs)
            (s.setWatcher i { w with pc := .sleeping runs })).1,
          .polled w.job (.runs runs) ::
            (s.decideGate i w (afterPoll cfg.gate (cfg.gate.elapsedAt k) runs)
              (s.setWatcher i { w with pc := .sleeping runs })).2) := by
      unfold watchStep
      rw [hw]
      simp only [hpc, he]
    refine ⟨_, _, hpolled, ?_⟩
    cases hv : (afterPoll cfg.gate (cfg.gate.elapsedAt k) runs).written with
    | some st =>
      have hround : watchRound cfg.gate k (.runs runs) = some (k, st) := by
        unfold watchRound
        simp only [hv]
      rw [hround]
      exact Or.inl ⟨rfl, decideGate_written w hst hv _⟩
    | none =>
      have hround : watchRound cfg.gate k (.runs runs) =
          (afterSleep cfg.gate (cfg.gate.elapsedAt (k + 1)) runs).written.map
            fun st => (k + 1, st) := by
        unfold watchRound
        simp only [hv]
      rw [hround, wait_of_written hv]
      obtain ⟨s₂, es₂, hdecide⟩ : ∃ s₂ es₂,
          (s.setWatcher i { w with pc := .sleeping runs }).decideGate i
            { w with elapsed := cfg.gate.elapsedAt (k + 1), pc := .sleeping runs }
            (afterSleep cfg.gate (cfg.gate.elapsedAt (k + 1)) runs)
            (s.setWatcher i { w with elapsed := cfg.gate.elapsedAt (k + 1) }) = (s₂, es₂) :=
        ⟨_, _, rfl⟩
      have hslept : (s.setWatcher i { w with pc := .sleeping runs }).watchStep cfg i .go =
          some (s₂, es₂) := by
        unfold watchStep
        rw [hset]
        simp only [hnext, hloop, hdecide]
      cases hv' : (afterSleep cfg.gate (cfg.gate.elapsedAt (k + 1)) runs).written with
      | some st =>
        rw [Option.map_some]
        refine Or.inr ⟨rfl, rfl, s₂, es₂, hslept, ?_⟩
        have hwritten := decideGate_written
          (s := s.setWatcher i { w with pc := .sleeping runs }) (i := i)
          { w with elapsed := cfg.gate.elapsedAt (k + 1), pc := .sleeping runs } hst hv'
          (s.setWatcher i { w with elapsed := cfg.gate.elapsedAt (k + 1) })
        rw [hdecide] at hwritten
        exact hwritten
      | none =>
        rw [Option.map_none]
        rw [wait_of_written hv'] at hdecide
        obtain ⟨rfl, -⟩ := Prod.mk.inj hdecide
        exact ⟨rfl, _, es₂, hslept, rfl, hset _⟩

end Sched

end PrReviewer.Model
