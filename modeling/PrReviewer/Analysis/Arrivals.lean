import PrReviewer.Analysis.Triggers
import PrReviewer.Library.Growth

/-!
# Deliveries and the backfill, in any order

An arrival is an event that the dispatcher is given or an open pull request that the backfill
comes to. `Sweeps` are the ways in which the application handles some arrivals one after the
other, whatever else happens in between, as long as no comment command starts a run. The dedup
keys of the table then grow as `Library.grow` says: the check of the backfill looks at heads only,
but a new key silences only the visits that would have asked for it. So the order does not
matter, and a second backfill finds nothing to do.
-/

set_option autoImplicit false

namespace PrReviewer.Model

open PrReviewer.Library

/-- What the service is told about a pull request. -/
inductive Arrival
  /-- the event of a delivery, when it is dispatched -/
  | delivery (event : NormalizedEvent)
  /-- an open pull request of a repository, when the backfill comes to it -/
  | openPr (spec : RepoSpec) (p : OpenPr)

/-- The arrival that a step handles. -/
def AppAction.arrival (s : App) : AppAction → Option Arrival
  | .dispatch k _ => (s.dispatches[k]?).map .delivery
  | .backfill spec p _ => some (.openPr spec p)
  | _ => none

/-- What `enqueue` returns in a step, if the step calls it. -/
def AppAction.result (cfg : AppConfig) (s : App) (a : AppAction) : Option EnqueueResult :=
  (a.dispatched cfg s).bind fun event =>
    (cfg.trigger.decide event).cause?.map fun cause =>
      s.core.enqueueResult a.runId (cfg.trigger.decide event) cause

/-- The dedup columns of the run that an event says is stored. -/
def AppEvent.key? : AppEvent → Option DedupKey
  | .core (.inserted job) => job.pr.map job.columns
  | _ => none

/-- An arrival as it was handled. -/
structure Receipt where
  arrival : Arrival
  result : Option EnqueueResult
  before : App
  after : App
  events : List AppEvent

namespace Receipt

/-- A run with these columns is stored. -/
def brings (x : Receipt) (k : DedupKey) : Bool :=
  x.events.any fun e => e.key? == some k

/-- It is not a duplicate: a run with these new columns is stored, watched and queued. -/
def Starts (x : Receipt) (k : DedupKey) : Prop :=
  ∃ job pr, job.pr = some pr ∧ job.columns pr = k ∧ k ∉ x.before.core.table.keys ∧
    x.result = some { runId := job.runId } ∧ x.events = [.core (.inserted job)] ∧
    x.after.core.table.keys = x.before.core.table.keys ++ [k] ∧
    x.after.core.watchers = x.before.core.watchers ++ [{ job := job }] ∧
    x.after.core.queue = x.before.core.queue ++ [job]

/-- It is a duplicate, or nothing is enqueued: no row, no watcher and no queue entry changes. -/
structure Idle (x : Receipt) : Prop where
  result : ∀ result, x.result = some result → result.duplicate = true
  events : ∀ job, .core (.inserted job) ∉ x.events
  table : x.after.core.table = x.before.core.table
  watchers : x.after.core.watchers = x.before.core.watchers
  queue : x.after.core.queue = x.before.core.queue

/-- A receipt that starts a run brings its own key and no other. -/
theorem Starts.brings_iff {x : Receipt} {k : DedupKey} (h : x.Starts k) (k' : DedupKey) :
    x.brings k' = true ↔ k' = k := by
  obtain ⟨job, pr, hpr, hk, -, -, hevents, -⟩ := h
  have hkey : AppEvent.key? (.core (.inserted job)) = some k := by
    rw [← hk]
    simp [AppEvent.key?, hpr]
  rw [brings, hevents, List.any_cons, List.any_nil, Bool.or_false, hkey, beq_iff_eq,
    Option.some.injEq]
  exact eq_comm

/-- A receipt that starts nothing brings no key. -/
theorem Idle.brings {x : Receipt} (h : x.Idle) (k : DedupKey) : x.brings k = false := by
  rw [Receipt.brings, List.any_eq_false]
  intro e he
  cases e with
  | core e =>
    cases e with
    | inserted job => exact absurd he (h.events job)
    | _ => simp [AppEvent.key?]
  | _ => simp [AppEvent.key?]

end Receipt

namespace App

/-- No comment command starts a run. -/
def NoCommand (es : List AppEvent) : Prop :=
  ∀ job, .core (.inserted job) ∈ es → job.cause = .webhook

/-- The application goes from a state on to another and handles these arrivals on the way. -/
inductive Sweeps (cfg : AppConfig) (s₀ : App) : List Receipt → App → Prop
  | start : Sweeps cfg s₀ [] s₀
  | step {l : List Receipt} {s s' : App} {a : AppAction} {es : List AppEvent} :
      Sweeps cfg s₀ l s → step cfg s a = some (s', es) → NoCommand es →
      Sweeps cfg s₀
        (l ++ ((a.arrival s).map fun x => ⟨x, a.result cfg s, s, s', es⟩).toList) s'

variable {cfg : AppConfig} {s s' s₀ : App} {a : AppAction} {h es : List AppEvent}
  {l l' : List Receipt}

/-- A sweep stays within the reachable states. -/
theorem Sweeps.reachable (hs : Sweeps cfg s₀ l s) (hr : (machine cfg).Reachable s₀ h) :
    ∃ h', (machine cfg).Reachable s h' := by
  induction hs with
  | start => exact ⟨h, hr⟩
  | step _ hstep _ ih =>
    obtain ⟨h', hr'⟩ := ih
    exact ⟨_, .step hr' trivial hstep⟩

/-! ## What an arrival asks for -/

/-- The dedup columns an arrival asks for, if the table has these. -/
def asks (cfg : AppConfig) (keys : List DedupKey) : Arrival → Option DedupKey
  | .delivery event =>
    let d := cfg.trigger.decide event
    if d.cause? = some .webhook then d.columns else none
  | .openPr spec p =>
    let d := cfg.trigger.decide (p.event spec.owner spec.repo)
    let known := keys.any fun k => k.1 == spec.owner && k.2.1 == spec.repo &&
      k.2.2.1 == p.number.getD 0 && k.2.2.2.1 == orEmpty p.head
    if prTruthy p.number && truthy p.head && !known && d.action == .enqueue then d.columns else none

/-- The dedup columns of a run for a webhook: the model is none. -/
theorem columns_of_webhook {event : NormalizedEvent}
    (hcause : (cfg.trigger.decide event).cause? = some .webhook) {k : DedupKey}
    (hk : (cfg.trigger.decide event).columns = some k) :
    ∃ number, event.prNumber = some number ∧ k = columnsOf event number := by
  have hdecide := cfg.trigger.decide_cases event
  generalize cfg.trigger.decide event = d at hdecide hcause hk
  cases hdecide with
  | command _ _ _ => simp [Decision.cause?] at hcause
  | noCommand _ _ hnone =>
    rw [hnone] at hcause
    cases hcause
  | rejected _ _ _ hnone =>
    rw [hnone] at hcause
    cases hcause
  | _ =>
    unfold Decision.columns at hk
    cases hp : event.prNumber with
    | none => simp [hp] at hk
    | some number =>
      simp only [hp, Option.some.injEq] at hk
      exact ⟨number, rfl, hk.symm⟩

/-- The columns that the backfill asks for, for an open pull request. -/
theorem asks_openPr {keys : List DedupKey} {spec : RepoSpec} {p : OpenPr} {k : DedupKey}
    (hk : asks cfg keys (.openPr spec p) = some k) :
    ∃ number, p.number = some number ∧ k = (spec.owner, spec.repo, number, orEmpty p.head, "") := by
  simp only [asks] at hk
  split at hk
  · rename_i hguard
    simp only [Bool.and_eq_true, beq_iff_eq] at hguard
    have hcause : (cfg.trigger.decide (p.event spec.owner spec.repo)).cause? = some .webhook := by
      simp [Decision.cause?, hguard.2]
    exact columns_of_webhook hcause hk
  · cases hk

/-- A new key silences only the visits that ask for it. -/
theorem asks_settled (cfg : AppConfig) : Settled (asks cfg) fun k => k.2.2.2.2 = "" where
  asked := by
    intro keys x k hk
    cases x with
    | delivery event =>
      simp only [asks] at hk
      split at hk
      · rename_i hcause
        obtain ⟨number, -, rfl⟩ := columns_of_webhook hcause hk
        rfl
      · cases hk
    | openPr spec p =>
      obtain ⟨number, -, rfl⟩ := asks_openPr hk
      rfl
  silenced := by
    intro keys k x hnew
    cases x with
    | delivery event => exact Or.inl rfl
    | openPr spec p =>
      by_cases hk : k.1 = spec.owner ∧ k.2.1 = spec.repo ∧ k.2.2.1 = p.number.getD 0 ∧
          k.2.2.2.1 = orEmpty p.head
      · -- the key is of this pull request and head, so it is the one asked for, if one is
        have hnone : asks cfg (keys ++ [k]) (.openPr spec p) = none := by
          simp [asks, hk.1, hk.2.1, hk.2.2.1, hk.2.2.2]
        cases hasks : asks cfg keys (.openPr spec p) with
        | none => exact Or.inl hnone
        | some k' =>
          obtain ⟨number, hnumber, rfl⟩ := asks_openPr hasks
          obtain ⟨owner, repo, pr, head, model⟩ := k
          obtain ⟨ho, hr, hp, hh⟩ := hk
          simp only at ho hr hp hh hnew
          subst ho hr hh hnew
          rw [hnumber] at hp
          exact Or.inr ⟨by rw [hp]; rfl, hnone⟩
      · left
        have hknown : (k.1 == spec.owner && k.2.1 == spec.repo && k.2.2.1 == p.number.getD 0 &&
            k.2.2.2.1 == orEmpty p.head) = false := by
          simpa [and_assoc] using hk
        simp only [asks, List.any_append, List.any_cons, List.any_nil, hknown, Bool.or_false]

/-! ## One step -/

/-- The check of the backfill in terms of the keys. -/
theorem hasRunForHead_keys (t : RunTable) (owner repo : String) (pr : Int) (head : String) :
    t.hasRunForHead owner repo pr head =
      t.keys.any fun k => k.1 == owner && k.2.1 == repo && k.2.2.1 == pr && k.2.2.2.1 == head := by
  rw [RunTable.keys, List.any_map]
  rfl

/-- A step that dispatches no event stores no run. -/
theorem step_table_of_not_dispatched (hstep : step cfg s a = some (s', es))
    (hd : a.dispatched cfg s = none) :
    s.core.table.Restamped s'.core.table ∧ ∀ job, .core (.inserted job) ∉ es := by
  have hcore : ∀ {ca : SchedAction ExecPc} {c : Sched ExecPc} {ces : List SchedEvent},
      Sched.step cfg.sched s.core ca = some (c, ces) → (∀ r d cause, ca ≠ .enqueue r d cause) →
      s.core.table.Restamped c.table ∧ ∀ job, .inserted job ∉ ces := by
    intro ca c ces hcore hne
    rcases Sched.step_table hcore with hsame | ⟨r, d, cause, heq, -⟩
    · exact hsame
    · exact absurd heq (hne r d cause)
  cases step_cases hstep with
  | core hb hcstep =>
    obtain ⟨htable, hno⟩ := hcore hcstep (by rintro r d cause rfl; exact hb)
    refine ⟨htable, fun job hmem => ?_⟩
    obtain ⟨e, he, heq⟩ := List.mem_map.mp hmem
    cases heq
    exact hno job he
  | enqueue henq _ =>
    have hsome := henq.1
    rw [hd] at hsome
    cases hsome
  | chatter _ hes =>
    refine ⟨.refl _, fun job hmem => ?_⟩
    obtain ⟨origin, w, heq, -⟩ := hes _ hmem
    cases heq
  | @ask _ request run otherwise summary _ _ =>
    rcases ask_cases (s := s) request run otherwise summary with ⟨job', -, heq⟩ | ⟨-, heq⟩ <;>
      rw [heq] <;> exact ⟨.refl _, by simp⟩
  | @exec i inp job pc m c _ hm hcstep =>
    refine ⟨(hcore hcstep ?_).1, fun job' hmem => ?_⟩
    · intro r d cause
      cases m.next <;> simp [ExecNext.action]
    · have hnil := mem_core_history.mpr hmem
      rw [hm.filterMap_core] at hnil
      exact absurd hnil List.not_mem_nil
  | publish _ hm =>
    refine ⟨.refl _, fun job' hmem => ?_⟩
    have hnil := mem_core_history.mpr hmem
    rw [hm.filterMap_core] at hnil
    exact absurd hnil List.not_mem_nil
  | crash _ => exact ⟨.refl _, by simp⟩
  | push _ _ => exact ⟨.refl _, by simp⟩
  | acceptWorker _ _ hcstep => exact ⟨(hcore hcstep (by simp)).1, by simp⟩
  | acceptApproval _ _ _ => exact ⟨.refl _, by simp⟩
  | acceptOrphan _ => exact ⟨.refl _, by simp⟩

/-- An arrival that is no pull request's event dispatches nothing. -/
theorem dispatched_of_arrival (hx : a.arrival s = none) : a.dispatched cfg s = none := by
  cases a with
  | dispatch k r => simpa [AppAction.arrival, AppAction.dispatched] using hx
  | backfill spec p r => cases hx
  | _ => rfl

/-- An arrival whose event is dispatched asks for what its decision says. -/
theorem asks_of_dispatched {x : Arrival} {event : NormalizedEvent} (hx : a.arrival s = some x)
    (hd : a.dispatched cfg s = some event) :
    asks cfg s.core.table.keys x =
      if (cfg.trigger.decide event).cause? = some .webhook then (cfg.trigger.decide event).columns
      else none := by
  cases a with
  | dispatch k r =>
    have hk : s.dispatches[k]? = some event := hd
    simp only [AppAction.arrival, hk, Option.map_some, Option.some.injEq] at hx
    rw [← hx]
    rfl
  | backfill spec p r =>
    simp only [AppAction.arrival, Option.some.injEq] at hx
    simp only [AppAction.dispatched] at hd
    split at hd
    · rename_i hguard
      cases hd
      have hcause : (cfg.trigger.decide (p.event spec.owner spec.repo)).cause? = some .webhook := by
        simp only [backfills, Bool.and_eq_true, beq_iff_eq] at hguard
        simp [Decision.cause?, hguard.2]
      rw [← hx, if_pos hcause]
      rw [backfills, hasRunForHead_keys] at hguard
      exact if_pos hguard
    · cases hd
  | _ => cases hd

/-- A visit that dispatches nothing does nothing and asks for nothing. -/
theorem idle_of_not_dispatched {x : Arrival} (hstep : step cfg s a = some (s', es))
    (hx : a.arrival s = some x) (hd : a.dispatched cfg s = none) :
    asks cfg s.core.table.keys x = none ∧ s' = s ∧ es = [] := by
  cases a with
  | dispatch k r =>
    have hk : s.dispatches[k]? = none := hd
    simp [AppAction.arrival, hk] at hx
  | backfill spec p r =>
    simp only [AppAction.arrival, Option.some.injEq] at hx
    simp only [AppAction.dispatched] at hd
    split at hd
    · cases hd
    · rename_i hguard
      simp only [step] at hstep
      split at hstep
      · have hrun : s.backfillPr cfg spec p r = some (s, []) := if_neg hguard
        rw [hrun] at hstep
        cases hstep
        rw [backfills, hasRunForHead_keys] at hguard
        exact ⟨by rw [← hx]; exact if_neg hguard, rfl, rfl⟩
      · cases hstep
  | _ => cases hx

/-- What `enqueue` makes of a step that dispatches an event, as a receipt. -/
def receiptOf (s : App) (x : Arrival) (dispatches : List NormalizedEvent) (r : RunId) (d : Decision)
    (cause : Cause) : Receipt where
  arrival := x
  result := some (s.core.enqueueResult r d cause)
  before := s
  after := { s with dispatches := dispatches, core := (s.core.enqueue r d cause).1 }
  events := (s.core.enqueue r d cause).2.map .core

variable {x : Arrival} {dispatches : List NormalizedEvent} {r : RunId} {d : Decision} {cause : Cause}

/-- A refused run leaves the arrival idle. -/
theorem idle_of_refused (heq : s.core.enqueue r d cause = (s.core.refused r, [])) :
    (receiptOf s x dispatches r d cause).Idle := by
  constructor
  · intro result hresult
    cases hresult
    rw [Sched.enqueueResult_duplicate, heq]
    rfl
  · simp [receiptOf, heq]
  · show (s.core.enqueue r d cause).1.table = _
    rw [heq]
    rfl
  · show (s.core.enqueue r d cause).1.watchers = _
    rw [heq]
    rfl
  · show (s.core.enqueue r d cause).1.queue = _
    rw [heq]
    rfl

/-- A run that is stored behind the others is started. -/
theorem starts_of_stored {job : ReviewJob} {pr : Int} {table : RunTable}
    (hj : Sched.Stores d r cause job pr) (hnew : job.columns pr ∉ s.core.table.keys)
    (hrows : table.rows = s.core.table.rows ++ [RunTable.rowOf job pr s.core.now])
    (heq : s.core.enqueue r d cause = (s.core.started table job, [.inserted job])) :
    (receiptOf s x dispatches r d cause).Starts (job.columns pr) := by
  refine ⟨job, pr, hj.number, rfl, hnew, ?_, ?_, ?_, ?_, ?_⟩
  · show some (s.core.enqueueResult r d cause) = _
    have hstored := Sched.enqueueResult_duplicate s.core r d cause
    rw [heq] at hstored
    rw [Sched.enqueueResult_of_stored hstored, hj.runId]
  · show (s.core.enqueue r d cause).2.map AppEvent.core = _
    rw [heq]
    rfl
  · show (s.core.enqueue r d cause).1.table.keys = _
    rw [heq]
    show table.keys = _
    rw [RunTable.keys, hrows, List.map_append]
    rfl
  · show (s.core.enqueue r d cause).1.watchers = _
    rw [heq]
    rfl
  · show (s.core.enqueue r d cause).1.queue = _
    rw [heq]
    rfl

/-- **An arrival is handled in one of two ways**: it starts the run it asks for, or it asks for
none that is new and is idle. -/
theorem handled_cases (hr : (machine cfg).Reachable s h) (hstep : step cfg s a = some (s', es))
    (hno : NoCommand es) {x : Arrival} (hx : a.arrival s = some x) :
    (∃ k, asks cfg s.core.table.keys x = some k ∧
        Receipt.Starts ⟨x, a.result cfg s, s, s', es⟩ k) ∨
      (∀ k, asks cfg s.core.table.keys x = some k → k ∈ s.core.table.keys) ∧
        Receipt.Idle ⟨x, a.result cfg s, s, s', es⟩ := by
  obtain ⟨hmodelled, hgrounded⟩ := reaches_keyed hr
  cases hd : a.dispatched cfg s with
  | none =>
    obtain ⟨hasks, rfl, rfl⟩ := idle_of_not_dispatched hstep hx hd
    refine Or.inr ⟨?_, ?_, by simp, rfl, rfl, rfl⟩
    · intro k hk
      rw [hasks] at hk
      cases hk
    · intro result hresult
      simp [AppAction.result, hd] at hresult
  | some event =>
    rw [asks_of_dispatched hx hd]
    cases dispatch_cases hstep hd with
    | @enqueue dispatches cause hcause hup hfresh =>
      have hrow := hgrounded.fresh_row hfresh
      have hresult : a.result cfg s =
          some (s.core.enqueueResult a.runId (cfg.trigger.decide event) cause) := by
        simp [AppAction.result, hd, hcause]
      rw [hresult]
      cases cause with
      | webhook =>
        rw [if_pos hcause]
        rcases Sched.enqueue_webhook (d := cfg.trigger.decide event) hmodelled hrow with
          ⟨job, pr, hj, hnew, table, hrows, heq⟩ | ⟨hold, heq⟩
        · exact Or.inl ⟨_, hj.columns, starts_of_stored hj hnew hrows heq⟩
        · exact Or.inr ⟨hold, idle_of_refused heq⟩
      | comment =>
        have hne : ¬ (cfg.trigger.decide event).cause? = some .webhook := by simp [hcause]
        rw [if_neg hne]
        rcases Sched.enqueue_comment (d := cfg.trigger.decide event) hrow with
          ⟨job, pr, hj, table, -, heq⟩ | ⟨-, heq⟩
        · have hwebhook := hno job (by rw [heq]; exact List.mem_singleton.mpr rfl)
          rw [hj.job_cause] at hwebhook
          cases hwebhook
        · exact Or.inr ⟨by simp, idle_of_refused heq⟩
    | drop hcause hes =>
      have hne : ¬ (cfg.trigger.decide event).cause? = some .webhook := by simp [hcause]
      rw [if_neg hne]
      refine Or.inr ⟨by simp, ?_, ?_, rfl, rfl, rfl⟩
      · intro result hresult
        simp [AppAction.result, hd, hcause] at hresult
      · intro job hmem
        obtain ⟨origin, w, heq, -⟩ := hes _ hmem
        cases heq

/-! ## A whole sweep -/

/-- **The keys of the table grow as the arrivals ask.** -/
theorem Sweeps.keys (hs : Sweeps cfg s₀ l s) (hr : (machine cfg).Reachable s₀ h) :
    s.core.table.keys = (l.map Receipt.arrival).foldl (grow (asks cfg)) s₀.core.table.keys := by
  induction hs with
  | start => rfl
  | @step l s s' a es hs hstep hno ih =>
    obtain ⟨h', hr'⟩ := hs.reachable hr
    cases hx : a.arrival s with
    | none =>
      have hd : a.dispatched cfg s = none := dispatched_of_arrival hx
      rw [(step_table_of_not_dispatched hstep hd).1.keys, ih]
      simp
    | some x =>
      rw [Option.map_some, Option.toList_some, List.map_append, List.foldl_append, ← ih]
      show _ = grow (asks cfg) s.core.table.keys x
      rcases handled_cases hr' hstep hno hx with ⟨k, hk, hstarts⟩ | ⟨hold, hidle⟩
      · obtain ⟨job, pr, -, -, hnew, -, -, hkeys, -⟩ := hstarts
        simpa [grow, hk, hnew] using hkeys
      · have htable : s'.core.table = s.core.table := hidle.table
        rw [htable]
        cases hk : asks cfg s.core.table.keys x with
        | none => simp [grow, hk]
        | some k => simp [grow, hk, hold k hk]

/-- Every receipt of a sweep starts a run or does nothing. -/
theorem Sweeps.starts_or_idle (hs : Sweeps cfg s₀ l s) (hr : (machine cfg).Reachable s₀ h) :
    ∀ x ∈ l, (∃ k, x.Starts k) ∨ x.Idle := by
  induction hs with
  | start => exact fun x hx => absurd hx List.not_mem_nil
  | step hs hstep hno ih =>
    intro x hx
    rcases List.mem_append.mp hx with hx | hx
    · exact ih x hx
    · rw [Option.mem_toList] at hx
      obtain ⟨y, hy, rfl⟩ := Option.map_eq_some_iff.mp hx
      obtain ⟨h', hr'⟩ := hs.reachable hr
      rcases handled_cases hr' hstep hno hy with ⟨k, -, hstarts⟩ | ⟨-, hidle⟩
      · exact Or.inl ⟨k, hstarts⟩
      · exact Or.inr hidle

/-- **A run is started once for each new key, and for no other.** -/
theorem Sweeps.brings_once (hs : Sweeps cfg s₀ l s) (hr : (machine cfg).Reachable s₀ h)
    (k : DedupKey) :
    l.countP (fun x => x.brings k) =
      if k ∈ s.core.table.keys ∧ k ∉ s₀.core.table.keys then 1 else 0 := by
  induction hs with
  | start => simp
  | @step l s s' a es hs hstep hno ih =>
    obtain ⟨h', hr'⟩ := hs.reachable hr
    have hsub : ∀ k, k ∈ s₀.core.table.keys → k ∈ s.core.table.keys := by
      intro k hk
      rw [hs.keys hr, mem_foldl_grow (asks_settled cfg)]
      exact Or.inl hk
    cases hx : a.arrival s with
    | none =>
      have hd : a.dispatched cfg s = none := dispatched_of_arrival hx
      rw [(step_table_of_not_dispatched hstep hd).1.keys]
      simpa using ih
    | some x =>
      rw [Option.map_some, Option.toList_some, List.countP_append, ih, List.countP_singleton]
      rcases handled_cases hr' hstep hno hx with ⟨k₀, hk, hstarts⟩ | ⟨hold, hidle⟩
      · have hbrings := hstarts.brings_iff k
        obtain ⟨job, pr, -, -, hnew, -, -, hkeys, -⟩ := hstarts
        have hmem : k ∈ s'.core.table.keys ↔ k ∈ s.core.table.keys ∨ k = k₀ := by
          rw [show s'.core.table.keys = s.core.table.keys ++ [k₀] from hkeys]
          simp
        have hnew : k₀ ∉ s.core.table.keys := hnew
        by_cases hkk : k = k₀
        · subst hkk
          have hold : k ∉ s₀.core.table.keys := fun hk => hnew (hsub k hk)
          simp [hbrings, hmem, hnew, hold]
        · simp [hbrings, hmem, hkk]
      · have htable : s'.core.table = s.core.table := hidle.table
        rw [htable, hidle.brings k]
        simp

/-- Two sweeps one after the other are a sweep. -/
theorem Sweeps.trans (hs : Sweeps cfg s₀ l s) (hs' : Sweeps cfg s l' s') :
    Sweeps cfg s₀ (l ++ l') s' := by
  induction hs' with
  | start => simpa using hs
  | step _ hstep hno ih =>
    rw [← List.append_assoc]
    exact .step ih hstep hno

/-! ## A second backfill -/

variable {spec : RepoSpec} {p : OpenPr} {keys keys' : List DedupKey}

/-- A visit asks for nothing once the key it would ask for is there. -/
theorem asks_none_of_mem {k : DedupKey} (hk : asks cfg keys (.openPr spec p) = some k)
    (hmem : k ∈ keys') : asks cfg keys' (.openPr spec p) = none := by
  obtain ⟨number, hnumber, rfl⟩ := asks_openPr hk
  have hknown : (keys'.any fun k => k.1 == spec.owner && k.2.1 == spec.repo &&
      k.2.2.1 == p.number.getD 0 && k.2.2.2.1 == orEmpty p.head) = true :=
    List.any_eq_true.mpr ⟨_, hmem, by simp [hnumber]⟩
  simp [asks, hknown]

/-- A visit that asks for nothing asks for nothing on a larger table. -/
theorem asks_none_of_subset (hsub : ∀ k ∈ keys, k ∈ keys')
    (hnone : asks cfg keys (.openPr spec p) = none) :
    asks cfg keys' (.openPr spec p) = none := by
  cases hasks : asks cfg keys' (.openPr spec p) with
  | none => rfl
  | some k =>
    -- on the larger table the check has passed, so it passes on the smaller one
    simp only [asks] at hasks hnone
    split at hasks
    · rename_i hguard
      rw [if_pos] at hnone
      · rw [hnone] at hasks
        cases hasks
      · simp only [Bool.and_eq_true, Bool.not_eq_true', List.any_eq_false] at hguard ⊢
        exact ⟨⟨hguard.1.1, fun k hk => hguard.1.2 k (hsub k hk)⟩, hguard.2⟩
    · cases hasks

/-- A visit that asks for nothing dispatches nothing. -/
theorem backfills_of_asks_none (t : RunTable) (hnone : asks cfg t.keys (.openPr spec p) = none) :
    backfills cfg t spec p = false := by
  by_contra hguard
  rw [Bool.not_eq_false] at hguard
  have hcols : (cfg.trigger.decide (p.event spec.owner spec.repo)).columns = none := by
    rw [← hnone]
    rw [backfills, hasRunForHead_keys] at hguard
    exact (if_pos hguard).symm
  simp only [backfills, Bool.and_eq_true, beq_iff_eq] at hguard
  obtain ⟨⟨⟨hnumber, -⟩, -⟩, haction⟩ := hguard
  have hdecide := cfg.trigger.decide_cases (p.event spec.owner spec.repo)
  generalize cfg.trigger.decide (p.event spec.owner spec.repo) = d at hdecide hcols haction
  cases hdecide with
  | accepted _ _ _ =>
    cases hp : p.number with
    | none => simp [hp, prTruthy] at hnumber
    | some number => simp [Decision.columns, OpenPr.event, hp] at hcols
  | command _ _ _ => cases haction
  | ci _ _ => cases haction
  | noCommand _ _ hcause => simp [Decision.cause?, haction] at hcause
  | rejected _ _ _ hcause => simp [Decision.cause?, haction] at hcause

/-- An open pull request that the backfill has come to asks for nothing any more. -/
theorem Sweeps.asks_none_of_visited (hs : Sweeps cfg s₀ l s) (hr : (machine cfg).Reachable s₀ h)
    (hv : .openPr spec p ∈ l.map Receipt.arrival) :
    asks cfg s.core.table.keys (.openPr spec p) = none := by
  have hkeys := fun k => mem_foldl_grow (asks_settled cfg) s₀.core.table.keys
    (l.map Receipt.arrival) k
  simp only [← hs.keys hr] at hkeys
  cases hasks : asks cfg s₀.core.table.keys (.openPr spec p) with
  | none => exact asks_none_of_subset (fun k hk => (hkeys k).mpr (Or.inl hk)) hasks
  | some k => exact asks_none_of_mem hasks ((hkeys k).mpr (Or.inr ⟨_, hv, hasks⟩))

/-- Later visits of such a pull request do nothing. -/
theorem Sweeps.revisit (hs : Sweeps cfg s₀ l s) (hr : (machine cfg).Reachable s₀ h)
    (hs' : Sweeps cfg s l' s') (hv : .openPr spec p ∈ l.map Receipt.arrival) {x : Receipt}
    (hx : x ∈ l') (harrival : x.arrival = .openPr spec p) :
    x.result = none ∧ x.events = [] ∧ x.after = x.before := by
  induction hs' with
  | start => exact absurd hx List.not_mem_nil
  | @step l' t t' a es hs' hstep hno ih =>
    rcases List.mem_append.mp hx with hx | hx
    · exact ih hx
    · rw [Option.mem_toList] at hx
      obtain ⟨y, hy, rfl⟩ := Option.map_eq_some_iff.mp hx
      have hy' : y = .openPr spec p := harrival
      subst hy'
      have hvisited : .openPr spec p ∈ (l ++ l').map Receipt.arrival := by
        rw [List.map_append]
        exact List.mem_append_left _ hv
      have hasks := (hs.trans hs').asks_none_of_visited hr hvisited
      have hd : a.dispatched cfg t = none := by
        cases a with
        | dispatch k r =>
          obtain ⟨event, -, heq⟩ := Option.map_eq_some_iff.mp hy
          cases heq
        | backfill spec' p' r =>
          cases hy
          exact if_neg (by rw [backfills_of_asks_none _ hasks]; simp)
        | _ => rfl
      obtain ⟨-, rfl, rfl⟩ := idle_of_not_dispatched hstep hy hd
      refine ⟨?_, rfl, rfl⟩
      show a.result cfg _ = none
      simp [AppAction.result, hd]

/-- What a sweep over some arrivals does, whatever their order: `s₂` is where another sweep over
them ends. -/
structure InAnyOrder (cfg : AppConfig) (s₀ : App) (l₁ : List Receipt) (s₁ s₂ : App) : Prop where
  /-- the dedup keys are the same -/
  keys : ∀ k, k ∈ s₁.core.table.keys ↔ k ∈ s₂.core.table.keys
  /-- every arrival starts a run or is idle -/
  handled : ∀ x ∈ l₁, (∃ k, x.Starts k) ∨ x.Idle
  /-- one run is started for each new key -/
  once : ∀ k, l₁.countP (fun x => x.brings k) =
    if k ∈ s₁.core.table.keys ∧ k ∉ s₀.core.table.keys then 1 else 0
  /-- a second backfill over open pull requests that the sweep has come to dispatches nothing -/
  again : ∀ answers l s, Sweeps cfg s₁ l s →
    (∀ v ∈ cfg.config.openPrs answers, .openPr v.1 v.2 ∈ l₁.map Receipt.arrival) →
    ∀ x ∈ l, ∀ v ∈ cfg.config.openPrs answers, x.arrival = .openPr v.1 v.2 →
      x.result = none ∧ x.events = [] ∧ x.after = x.before

/-- **The order of deliveries and backfill visits does not matter.** -/
theorem arrivals_commute {l₁ l₂ : List Receipt} {s₁ s₂ : App} (hr : (machine cfg).Reachable s₀ h)
    (h₁ : Sweeps cfg s₀ l₁ s₁) (h₂ : Sweeps cfg s₀ l₂ s₂)
    (hperm : (l₁.map Receipt.arrival).Perm (l₂.map Receipt.arrival)) :
    InAnyOrder cfg s₀ l₁ s₁ s₂ where
  keys := by
    intro k
    rw [h₁.keys hr, h₂.keys hr]
    exact mem_foldl_grow_of_perm (asks_settled cfg) _ hperm k
  handled := h₁.starts_or_idle hr
  once := h₁.brings_once hr
  again := by
    intro answers l s hs hvisited x hx v hv harrival
    exact h₁.revisit hr hs (hvisited v hv) hx harrival

/-- The pull request of `openedPr 7 "a"` as the backfill finds it. -/
def openPr7 : OpenPr where
  number := some 7
  head := some "a"
  author := some "me"
  requestedReviewers := []
  state := some "open"

/-- The delivery comes before the backfill, and after it. -/
theorem arrivals_commute_opened :
    ∃ s₀ h l₁ l₂ s₁ s₂, (machine (smallConfig true 1)).Reachable s₀ h ∧
      Sweeps (smallConfig true 1) s₀ l₁ s₁ ∧ Sweeps (smallConfig true 1) s₀ l₂ s₂ ∧
      l₁.length = 2 ∧ InAnyOrder (smallConfig true 1) s₀ l₁ s₁ s₂ := by
  let spec : RepoSpec := { owner := "me", repo := "app" }
  let cfg := smallConfig true 1
  obtain ⟨s, h, hr, hcheck⟩ := Machine.exists_reachable_run (M := machine cfg)
    [.boot, .webhook (openedPr 7 "a")]
    (fun s _ => s.dispatches[0]? == some (openedPr 7 "a") &&
      (step cfg s (.dispatch 0 "r1")).any (fun r =>
        r.2 == [.core (.inserted firstJob)] &&
          (step cfg r.1 (.backfill spec openPr7 "r2")).any fun r => r.2 == []) &&
      (step cfg s (.backfill spec openPr7 "r1")).any fun r =>
        r.1.dispatches[0]? == some (openedPr 7 "a") && r.2 == [.core (.inserted firstJob)] &&
          (step cfg r.1 (.dispatch 0 "r2")).any fun r => r.2 == [])
    App.small_new (by decide)
  simp only [Bool.and_eq_true, Option.any_eq_true, beq_iff_eq] at hcheck
  obtain ⟨⟨hd, ⟨t, es⟩, ht, hes, ⟨t', es'⟩, ht', hes'⟩, ⟨u, fs⟩, hu, ⟨hd', hfs⟩, ⟨u', fs'⟩, hu', hfs'⟩ :=
    hcheck
  simp only at hes hes' hd' hfs hfs' ht' hu'
  have hfirst : NoCommand [.core (.inserted firstJob)] := by
    intro job hjob
    cases List.mem_singleton.mp hjob
    rfl
  have hnothing : NoCommand [] := fun job hjob => absurd hjob List.not_mem_nil
  subst hes hes' hfs hfs'
  have h₁ : Sweeps cfg s _ t' := .step (.step .start ht hfirst) ht' hnothing
  have h₂ : Sweeps cfg s _ u' := .step (.step .start hu hfirst) hu' hnothing
  refine ⟨s, h, _, _, t', u', hr, h₁, h₂, ?_, arrivals_commute hr h₁ h₂ ?_⟩
  · simp [AppAction.arrival, hd]
  · simp [AppAction.arrival, hd, hd', List.Perm.swap]

end App

end PrReviewer.Model
