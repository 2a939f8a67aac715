import PrReviewer.Library.History

/-!
# Machines that leave a history

A `Machine` is a state space with start states and a partial step function. A step
consumes an action, which carries every choice of the environment, and emits a list of
events. `Reaches D s h` says that some run whose steps all keep the discipline `D` ends in
state `s` with history `h`; `Reachable` is the same without a discipline.

The rules here are the ones the analysis of a concrete machine uses:

* `Reaches.invariant`, what holds at the start and is kept by every step holds everywhere;
* `Reaches.simulate`, the projection of a run is a run of the machine it refines;
* `Reachable.append`, a run goes on where another one ended;
* `reaches_run`, an executed list of actions is a run.
-/

set_option autoImplicit false

namespace PrReviewer.Library

/-- A machine over states `σ`, actions `α` and events `ε`. -/
structure Machine (σ α ε : Type) where
  /-- The states a run may begin in. -/
  start : σ → Prop
  /-- One step: `none` when the action is not possible in the state. -/
  step : σ → α → Option (σ × List ε)

namespace Machine

variable {σ α ε : Type}

/-- What an environment may do, given the state and the history so far. -/
abbrev Discipline (σ α ε : Type) : Type := σ → List ε → α → Prop

/-- The states and histories of the runs whose steps all keep the discipline `D`. -/
inductive Reaches (M : Machine σ α ε) (D : Discipline σ α ε) : σ → List ε → Prop
  | start {s : σ} : M.start s → Reaches M D s []
  | step {s : σ} {h : List ε} {a : α} {s' : σ} {es : List ε} :
      Reaches M D s h → D s h a → M.step s a = some (s', es) → Reaches M D s' (h ++ es)

/-- The states and histories of all runs. -/
def Reachable (M : Machine σ α ε) : σ → List ε → Prop :=
  M.Reaches fun _ _ _ => True

variable {M : Machine σ α ε} {D D' : Discipline σ α ε}

/-- **The invariant rule.** What holds at every start state and is kept by every step of a
run holds all along the run. The step may use that its source is itself reached. -/
theorem Reaches.invariant {I : σ → List ε → Prop} (hstart : ∀ s, M.start s → I s [])
    (hstep : ∀ s h a s' es, M.Reaches D s h → I s h → D s h a → M.step s a = some (s', es) →
      I s' (h ++ es))
    {s : σ} {h : List ε} (hr : M.Reaches D s h) : I s h := by
  induction hr with
  | start hs => exact hstart _ hs
  | step hr hd hs ih => exact hstep _ _ _ _ _ hr ih hd hs

/-- A run under a discipline is one under a weaker discipline. -/
theorem Reaches.mono (hD : ∀ s h a, D s h a → D' s h a) {s : σ} {h : List ε}
    (hr : M.Reaches D s h) : M.Reaches D' s h := by
  induction hr with
  | start hs => exact .start hs
  | step _ hd hs ih => exact .step ih (hD _ _ _ hd) hs

/-- A run keeps every discipline that each of its steps keeps because of where it starts. -/
theorem Reaches.strengthen (hD : ∀ s h a s' es, M.Reaches D s h → M.step s a = some (s', es) → D' s h a)
    {s : σ} {h : List ε} (hr : M.Reaches D s h) : M.Reaches D' s h := by
  induction hr with
  | start hs => exact .start hs
  | step hr _ hs ih => exact .step ih (hD _ _ _ _ _ hr hs) hs

/-- What a discipline reaches is reachable. -/
theorem Reaches.reachable {s : σ} {h : List ε} (hr : M.Reaches D s h) : M.Reachable s h :=
  hr.mono fun _ _ _ _ => trivial

/-- A machine with more starts has the runs of the other. -/
theorem Reaches.of_start {N : Machine σ α ε} (hstart : ∀ s, M.start s → N.start s)
    (hstep : ∀ s a, M.step s a = N.step s a) {s : σ} {h : List ε} (hr : M.Reaches D s h) :
    N.Reaches D s h := by
  induction hr with
  | start hs => exact .start (hstart _ hs)
  | step _ hd hs ih => exact .step ih hd ((hstep _ _).symm.trans hs)

/-- **The simulation rule.** If every step of `M` is matched by some steps of `N` between the
projected states, then the projection of a run of `M` is a run of `N`. -/
theorem Reaches.simulate {τ β δ : Type} {N : Machine τ β δ} {E : Discipline τ β δ}
    (abs : σ → τ) (obs : ε → Option δ) (hstart : ∀ s, M.start s → N.start (abs s))
    (hstep : ∀ s h a s' es, M.Reaches D s h → N.Reaches E (abs s) (h.filterMap obs) →
      D s h a → M.step s a = some (s', es) →
      N.Reaches E (abs s') (h.filterMap obs ++ es.filterMap obs))
    {s : σ} {h : List ε} (hr : M.Reaches D s h) :
    N.Reaches E (abs s) (h.filterMap obs) := by
  refine hr.invariant (I := fun s h => N.Reaches E (abs s) (h.filterMap obs))
    (fun s hs => .start (hstart s hs)) ?_
  intro s h a s' es hr ih hd hs
  rw [List.filterMap_append]
  exact hstep s h a s' es hr ih hd hs

/-! ## Continued runs -/

/-- The same machine, started in this state. -/
def startingAt (M : Machine σ α ε) (s : σ) : Machine σ α ε where
  start := fun t => t = s
  step := M.step

/-- A run that goes on where another one ended continues it. -/
theorem Reachable.append {s t : σ} {h h' : List ε} (hr : M.Reachable s h)
    (hr' : (M.startingAt s).Reachable t h') : M.Reachable t (h ++ h') := by
  refine hr'.invariant (I := fun t h' => M.Reachable t (h ++ h')) ?_ ?_
  · rintro t rfl
    rw [List.append_nil]
    exact hr
  · intro t h' a t' es _ ih _ hstep
    rw [← List.append_assoc]
    exact .step ih trivial hstep

/-! ## Executed runs -/

/-- Run a list of actions from a state and a history; `none` as soon as one of them is not
possible or not allowed by `ok`. -/
def run (M : Machine σ α ε) (ok : σ → List ε → α → Bool) :
    σ → List ε → List α → Option (σ × List ε)
  | s, h, [] => some (s, h)
  | s, h, a :: as =>
    if ok s h a then
      match M.step s a with
      | none => none
      | some (s', es) => run M ok s' (h ++ es) as
    else none

/-- An executed list of actions extends a run. -/
theorem Reaches.run {ok : σ → List ε → α → Bool} (hok : ∀ s h a, ok s h a = true → D s h a)
    {as : List α} {s s' : σ} {h h' : List ε} (hr : M.Reaches D s h)
    (hx : M.run ok s h as = some (s', h')) : M.Reaches D s' h' := by
  induction as generalizing s h with
  | nil =>
    simp only [Machine.run, Option.some.injEq, Prod.mk.injEq] at hx
    obtain ⟨rfl, rfl⟩ := hx
    exact hr
  | cons a as ih =>
    simp only [Machine.run] at hx
    by_cases ha : ok s h a = true
    · rw [if_pos ha] at hx
      cases hs : M.step s a with
      | none => simp [hs] at hx
      | some r =>
        obtain ⟨t, es⟩ := r
        simp only [hs] at hx
        exact ih (.step hr (hok s h a ha) hs) hx
    · rw [if_neg ha] at hx
      simp at hx

/-- The result of a list of actions that can be executed from a start state is reached. -/
theorem reaches_run {ok : σ → List ε → α → Bool} (hok : ∀ s h a, ok s h a = true → D s h a)
    {as : List α} {s : σ} (hs : M.start s) (hx : (M.run ok s [] as).isSome = true) :
    M.Reaches D ((M.run ok s [] as).get hx).1 ((M.run ok s [] as).get hx).2 :=
  Reaches.run hok (.start hs) (Option.some_get hx).symm

/-- A list of actions that can be executed from a start state, with a result that passes a
check, gives a run with such a result. -/
theorem exists_reaches_run {ok : σ → List ε → α → Bool}
    (hok : ∀ s h a, ok s h a = true → D s h a) (as : List α) (P : σ → List ε → Bool) {s : σ}
    (hs : M.start s) (hx : (M.run ok s [] as).any (fun r => P r.1 r.2) = true) :
    ∃ s' h', M.Reaches D s' h' ∧ P s' h' = true := by
  cases hrun : M.run ok s [] as with
  | none =>
    rw [hrun] at hx
    exact absurd hx Bool.false_ne_true
  | some r =>
    rw [hrun] at hx
    exact ⟨r.1, r.2, Reaches.run hok (.start hs) hrun, hx⟩

/-- The same with a discipline that can be checked. -/
theorem exists_reaches_decide [∀ s h a, Decidable (D s h a)] (as : List α)
    (P : σ → List ε → Bool) {s : σ} (hs : M.start s)
    (hx : (M.run (fun s h a => decide (D s h a)) s [] as).any (fun r => P r.1 r.2) = true) :
    ∃ s' h', M.Reaches D s' h' ∧ P s' h' = true :=
  exists_reaches_run (fun _ _ _ => of_decide_eq_true) as P hs hx

/-- The same without a discipline. -/
theorem exists_reachable_run (as : List α) (P : σ → List ε → Bool) {s : σ} (hs : M.start s)
    (hx : (M.run (fun _ _ _ => true) s [] as).any (fun r => P r.1 r.2) = true) :
    ∃ s' h', M.Reachable s' h' ∧ P s' h' = true :=
  exists_reaches_run (fun _ _ _ _ => trivial) as P hs hx

end Machine

end PrReviewer.Library
