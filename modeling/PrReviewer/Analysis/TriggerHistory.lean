import Mathlib.Data.Fintype.EquivFin
import PrReviewer.Analysis.Arrivals

/-!
# What a pull request's history triggers

A pull request on GitHub is opened and then changes, and GitHub sends a webhook for most of the
changes. The trigger looks at one webhook at a time: it takes the self account's own pull request
at every push, but one that the self account is asked to review only at the request itself, and
not while it is a draft. `PullHistory.Served` says for which histories that is enough.
-/

set_option autoImplicit false

namespace PrReviewer.Model

open PrReviewer.Library

/-! ## A pull request on GitHub -/

/-- What a webhook says about an open pull request. -/
structure PullState where
  head : String
  draft : Bool
  reviewers : List String
  deriving DecidableEq, Repr

/-- What happens to an open pull request. -/
inductive PullAction
  | reviewRequested (login : String)
  | synchronize (head : String)
  | readyForReview
  | convertedToDraft
  | reviewRequestRemoved (login : String)
  deriving DecidableEq, Repr

/-- The pull request after an action. -/
def PullState.after (p : PullState) : PullAction → PullState
  | .reviewRequested login => { p with reviewers := p.reviewers.insert login }
  | .synchronize head => { p with head := head }
  | .readyForReview => { p with draft := false }
  | .convertedToDraft => { p with draft := true }
  | .reviewRequestRemoved login => { p with reviewers := p.reviewers.filter (· != login) }

/-- The action of its webhook, if the handler supports it. -/
def PullAction.webhook? : PullAction → Option String
  | .reviewRequested _ => some "review_requested"
  | .synchronize _ => some "synchronize"
  | .readyForReview => some "ready_for_review"
  | .convertedToDraft | .reviewRequestRemoved _ => none

/-- The webhooks for some actions, with the pull request as each leaves it. -/
def PullState.sent : PullState → List PullAction → List (String × PullState)
  | _, [] => []
  | p, a :: as => (a.webhook?.toList.map fun action => (action, p.after a)) ++ (p.after a).sent as

/-- A pull request that has not been closed. -/
structure PullHistory where
  owner : String
  repo : String
  number : Int
  author : String
  /-- as it was opened -/
  first : PullState
  actions : List PullAction
  deriving DecidableEq, Repr

namespace PullHistory

/-- The pull request in the end. -/
def last (hist : PullHistory) : PullState :=
  hist.actions.foldl PullState.after hist.first

/-- The webhooks that the history sends, with the state each shows. -/
def webhooks (hist : PullHistory) : List (String × PullState) :=
  ("opened", hist.first) :: hist.first.sent hist.actions

/-- The payload of a webhook. -/
def payload (hist : PullHistory) (p : PullState) : WebhookPayload where
  pullRequest :=
    { number := some hist.number, headSha := some p.head, user := some hist.author,
      requestedReviewers := p.reviewers.map some, state := some "open", merged := some false,
      draft := p.draft }
  owner := some hist.owner
  repo := some hist.repo
  sender := some hist.author

/-- The event of a webhook. -/
def event (hist : PullHistory) (w : String × PullState) : NormalizedEvent :=
  normalizeEvent "pull_request" w.1 (hist.payload w.2)

/-- The last push, or the opening, has told the service the head. -/
theorem exists_push (hist : PullHistory) :
    ∃ w ∈ hist.webhooks, (w.1 = "opened" ∨ w.1 = "synchronize") ∧ w.2.head = hist.last.head := by
  -- the head in the end is the first one, or a webhook for a push carries it
  have hpush : ∀ (as : List PullAction) (p : PullState),
      (as.foldl PullState.after p).head = p.head ∨
        ∃ w ∈ p.sent as, w.1 = "synchronize" ∧ w.2.head = (as.foldl PullState.after p).head := by
    intro as
    induction as with
    | nil => exact fun p => Or.inl rfl
    | cons a as ih =>
      intro p
      rw [List.foldl_cons]
      rcases ih (p.after a) with hsame | ⟨w, hw, hsync, hhead⟩
      · cases a with
        | synchronize head =>
          right
          exact ⟨("synchronize", p.after (.synchronize head)), List.mem_cons_self, rfl, hsame.symm⟩
        | _ => exact Or.inl hsame
      · exact Or.inr ⟨w, List.mem_append_right _ hw, hsync, hhead⟩
  rcases hpush hist.actions hist.first with hsame | ⟨w, hw, hsync, hhead⟩
  · exact ⟨_, List.mem_cons_self, Or.inl rfl, hsame.symm⟩
  · exact ⟨w, List.mem_cons_of_mem _ hw, Or.inr hsync, hhead⟩

/-- The webhooks are these four. -/
theorem action_of_webhook {hist : PullHistory} {w : String × PullState} (hw : w ∈ hist.webhooks) :
    w.1 = "opened" ∨ w.1 = "review_requested" ∨ w.1 = "synchronize" ∨ w.1 = "ready_for_review" := by
  have hsent : ∀ (as : List PullAction) (p : PullState), w ∈ p.sent as →
      w.1 = "review_requested" ∨ w.1 = "synchronize" ∨ w.1 = "ready_for_review" := by
    intro as
    induction as with
    | nil => exact fun p hw => absurd hw List.not_mem_nil
    | cons a as ih =>
      intro p hw
      rcases List.mem_append.mp hw with hw | hw
      · obtain ⟨action, haction, rfl⟩ := List.mem_map.mp hw
        cases a <;> simp_all [PullAction.webhook?]
      · exact ih _ hw
  rcases List.mem_cons.mp hw with rfl | hw
  · exact Or.inl rfl
  · exact Or.inr (hsent _ _ hw)

/-! ## What the trigger makes of it -/

/-- The trigger takes a webhook of the self account's own pull request, except a request for
review, and a request for review by the self account, unless the pull request is another's
draft. -/
theorem accepts_event_iff {cfg : AppConfig} {hist : PullHistory} (hself : cfg.selfAccount ≠ "")
    (hscope : App.InScope cfg.config hist.owner hist.repo) {w : String × PullState}
    (hw : w ∈ hist.webhooks) :
    cfg.trigger.Accepts (hist.event w) ↔
      (hist.author = cfg.selfAccount ∧ w.1 ≠ "review_requested") ∨
        (w.1 = "review_requested" ∧ cfg.selfAccount ∈ w.2.reviewers ∧
          (hist.author = cfg.selfAccount ∨ w.2.draft = false)) := by
  have hactions := action_of_webhook hw
  have hconcerns : cfg.trigger.concernsSelf (hist.event w) = true ↔
      (w.1 ∈ ["opened", "ready_for_review", "synchronize"] ∧ hist.author = cfg.selfAccount) ∨
        (w.1 = "review_requested" ∧ cfg.selfAccount ∈ w.2.reviewers) := by
    rw [event, App.concernsSelf_normalizeEvent hself]
    simp [payload, AppConfig.trigger]
  have hopen : ¬ (hist.event w).closesPr := by
    rintro ⟨-, hclosed | hclosed | hclosed⟩
    · have haction : w.1 = "closed" := hclosed
      rw [haction] at hactions
      revert hactions
      decide
    · exact absurd hclosed (by simp [event, normalizeEvent, payload, PrPayload.prState, truthy])
    · exact absurd hclosed (by simp [event, normalizeEvent, payload, PrPayload.prState, truthy])
  constructor
  · intro h
    rcases hconcerns.mp (h.concerns.resolve_left hself) with ⟨haction, hauthor⟩ | ⟨haction, hreviewer⟩
    · refine Or.inl ⟨hauthor, ?_⟩
      intro hrequested
      rw [hrequested] at haction
      revert haction
      decide
    · refine Or.inr ⟨haction, hreviewer, ?_⟩
      by_contra hno
      rw [not_or, Bool.not_eq_false] at hno
      exact h.ready ⟨hno.2, hself, fun heq => hno.1 (Option.some.inj heq)⟩
  · intro h
    refine ⟨hopen, ?_, Or.inr (hconcerns.mpr ?_), hscope.1, hscope.2⟩
    · rintro ⟨hdraft, -, hauthor⟩
      rcases h with ⟨hself', -⟩ | ⟨-, -, hself' | hready⟩
      · exact hauthor (congrArg some hself')
      · exact hauthor (congrArg some hself')
      · exact Bool.false_ne_true (hready.symm.trans hdraft)
    · rcases h with ⟨hauthor, hne⟩ | ⟨haction, hreviewer, -⟩
      · refine Or.inl ⟨?_, hauthor⟩
        rcases hactions with h | h | h | h
        · simp [h]
        · exact absurd h hne
        · simp [h]
        · simp [h]
      · exact Or.inr ⟨haction, hreviewer⟩

/-- The self account's part in the pull request is settled by one of the webhooks for its last
head, or there is none to settle. -/
def Served (hist : PullHistory) (self : String) : Prop :=
  hist.last.draft = true ∨ hist.author = self ∨ self ∉ hist.last.reviewers ∨
    ∃ p, ("review_requested", p) ∈ hist.webhooks ∧ p.head = hist.last.head ∧ p.draft = false ∧
      self ∈ p.reviewers

end PullHistory

namespace App

variable {cfg : AppConfig} {s s₀ : App} {h : List AppEvent} {l : List Receipt}
  {hist : PullHistory}

/-- The dispatcher enqueues a pull request event exactly if the trigger accepts it. -/
theorem asks_delivery {keys : List DedupKey} {e : NormalizedEvent} (he : e.event = "pull_request")
    {k : DedupKey} :
    asks cfg keys (.delivery e) = some k ↔
      cfg.trigger.Accepts e ∧ ∃ number, e.prNumber = some number ∧ k = columnsOf e number := by
  have hcomment : e.event ≠ "issue_comment" := by
    rw [he]
    decide
  have hci : ¬ e.completesCi := by
    rintro ⟨hci | hci, -⟩ <;> rw [he] at hci <;> exact absurd hci (by decide)
  constructor
  · intro hk
    simp only [asks] at hk
    split at hk
    · rename_i hcause
      refine ⟨?_, columns_of_webhook hcause hk⟩
      have hdecide := cfg.trigger.decide_cases e
      generalize cfg.trigger.decide e = d at hdecide hcause
      cases hdecide with
      | command hc _ _ => exact absurd hc hcomment
      | noCommand hc _ _ => exact absurd hc hcomment
      | ci _ hc => exact absurd hc hci
      | accepted _ _ haccepts => exact haccepts
      | rejected _ _ _ hnone =>
        rw [hnone] at hcause
        cases hcause
    · cases hk
  · rintro ⟨haccepts, number, hnumber, rfl⟩
    simp only [asks]
    have hdecide := cfg.trigger.decide_cases e
    generalize cfg.trigger.decide e = d at hdecide ⊢
    cases hdecide with
    | command hc _ _ => exact absurd hc hcomment
    | noCommand hc _ _ => exact absurd hc hcomment
    | ci _ hc => exact absurd hc hci
    | accepted _ _ _ => simp [Decision.cause?, Decision.columns, hnumber, columnsOf, orEmpty]
    | rejected _ _ hno _ => exact absurd haccepts hno

/-- If the whole history is delivered and dispatched, and the self account has a part in the pull
request in the end, there is a run for its head. -/
def Complete (cfg : AppConfig) (hist : PullHistory) : Prop :=
  ∀ s₀ h l s, (machine cfg).Reachable s₀ h → Sweeps cfg s₀ l s →
    (∀ w ∈ hist.webhooks, .delivery (hist.event w) ∈ l.map Receipt.arrival) →
    hist.last.draft = false →
    (hist.author = cfg.selfAccount ∨ cfg.selfAccount ∈ hist.last.reviewers) →
    s.core.table.hasRunForHead hist.owner hist.repo hist.number hist.last.head = true

/-- A webhook for the last head that the trigger accepts leads to a run for it. -/
theorem hasRun_of_accepted (hr : (machine cfg).Reachable s₀ h) (hs : Sweeps cfg s₀ l s)
    {w : String × PullState} (hw : .delivery (hist.event w) ∈ l.map Receipt.arrival)
    (hhead : w.2.head = hist.last.head) (haccepts : cfg.trigger.Accepts (hist.event w)) :
    s.core.table.hasRunForHead hist.owner hist.repo hist.number hist.last.head = true := by
  have hasks : asks cfg s₀.core.table.keys (.delivery (hist.event w)) =
      some (hist.owner, hist.repo, hist.number, w.2.head, "") :=
    (asks_delivery rfl).mpr ⟨haccepts, hist.number, rfl, rfl⟩
  have hmem : (hist.owner, hist.repo, hist.number, w.2.head, "") ∈ s.core.table.keys := by
    rw [hs.keys hr, mem_foldl_grow (asks_settled cfg)]
    exact Or.inr ⟨_, hw, hasks⟩
  rw [hasRunForHead_keys]
  exact List.any_eq_true.mpr ⟨_, hmem, by simp [hhead]⟩

/-- A history that is served is complete. -/
theorem complete_of_served (hself : cfg.selfAccount ≠ "")
    (hscope : InScope cfg.config hist.owner hist.repo) (hserved : hist.Served cfg.selfAccount) :
    Complete cfg hist := by
  intro s₀ h l s hr hs hdelivered hready hconcerns
  have hpush : hist.author = cfg.selfAccount →
      s.core.table.hasRunForHead hist.owner hist.repo hist.number hist.last.head = true := by
    intro hauthor
    obtain ⟨w, hw, haction, hhead⟩ := hist.exists_push
    refine hasRun_of_accepted hr hs (hdelivered w hw) hhead
      ((PullHistory.accepts_event_iff hself hscope hw).mpr (Or.inl ⟨hauthor, ?_⟩))
    rcases haction with haction | haction <;> rw [haction] <;> decide
  rcases hserved with hdraft | hauthor | hno | ⟨p, hw, hhead, hopen, hreviewer⟩
  · exact absurd (hready.symm.trans hdraft) Bool.false_ne_true
  · exact hpush hauthor
  · exact hpush (hconcerns.resolve_right hno)
  · exact hasRun_of_accepted hr hs (hdelivered _ hw) hhead
      ((PullHistory.accepts_event_iff hself hscope hw).mpr
        (Or.inr ⟨rfl, hreviewer, Or.inr hopen⟩))

/-! ## A run that delivers the history -/

/-- Every webhook of a history is supported. -/
theorem event_supported {w : String × PullState} (hw : w ∈ hist.webhooks) :
    (hist.event w).supported = true := by
  have hevent : (hist.event w).event = "pull_request" := normalizeEvent_event _ _ _
  have haction : (hist.event w).action = w.1 := normalizeEvent_action _ _ _
  rw [NormalizedEvent.supported, hevent, haction]
  rcases PullHistory.action_of_webhook hw with h | h | h | h <;> rw [h] <;> decide

/-- There is an id that was not issued. -/
theorem exists_fresh (issued : List RunId) : ∃ r, r ∉ issued := by
  obtain ⟨r, hr⟩ := Infinite.exists_notMem_finset issued.toFinset
  exact ⟨r, by simpa using hr⟩

/-- An event can be dispatched while the process is up, with a fresh run id. -/
theorem dispatchEvent_isSome (cfg : AppConfig) (e : NormalizedEvent) {r : RunId} (hup : s.core.up = true)
    (hfresh : r ∉ s.core.issued) :
    ∃ s' es, s.dispatchEvent cfg e r = some (s', es) ∧ s'.dispatches = s.dispatches ∧
      s'.core.up = true := by
  have hcore : ∀ d cause, ∃ s' es, s.coreStep cfg (.enqueue r d cause) = some (s', es) ∧
      s'.dispatches = s.dispatches ∧ s'.core.up = true := by
    intro d cause
    refine ⟨{ s with core := (s.core.enqueue r d cause).1 },
      (s.core.enqueue r d cause).2.map .core, ?_, rfl, ?_⟩
    · simp [coreStep, Sched.step, hup, hfresh]
    · exact (Sched.enqueue_frame s.core r d cause).2.2.1.trans hup
  unfold dispatchEvent
  simp only
  split
  · exact hcore _ _
  · exact hcore _ _
  · split
    · exact ⟨s, _, rfl, rfl, hup⟩
    · exact hcore _ _
  · exact ⟨s, _, rfl, rfl, hup⟩
  · exact ⟨s, _, rfl, rfl, hup⟩

/-- Dispatching an event that is enqueued for no comment starts no run for one. -/
theorem noCommand_of_cause {a : AppAction} {s' : App} {es : List AppEvent} {e : NormalizedEvent}
    (hcause : ∀ cause, (cfg.trigger.decide e).cause? = some cause → cause = .webhook)
    (hstep : step cfg s a = some (s', es)) (hd : a.dispatched cfg s = some e) : NoCommand es := by
  intro job hjob
  cases dispatch_cases hstep hd with
  | @enqueue dispatches cause hc _ _ =>
    rcases Sched.enqueue_cases s.core a.runId (cfg.trigger.decide e) cause with
      ⟨j, table, -, -, hj, -, -, heq⟩ | ⟨table, -, heq⟩
    · rw [heq] at hjob
      cases List.mem_singleton.mp hjob
      exact hj.trans (hcause cause hc)
    · rw [heq] at hjob
      exact absurd hjob List.not_mem_nil
  | drop _ hes =>
    obtain ⟨origin, w, heq, -⟩ := hes _ hjob
    cases heq

/-- Dispatching a pull request event starts no run for a comment. -/
theorem noCommand_of_pullRequest {a : AppAction} {s' : App} {es : List AppEvent}
    {e : NormalizedEvent} (he : e.event = "pull_request")
    (hstep : step cfg s a = some (s', es)) (hd : a.dispatched cfg s = some e) : NoCommand es := by
  have hcause : ∀ cause, (cfg.trigger.decide e).cause? = some cause → cause = .webhook := by
    intro cause hcause
    have hdecide := cfg.trigger.decide_cases e
    generalize cfg.trigger.decide e = d at hdecide hcause
    cases hdecide with
    | command hc _ _ =>
      rw [he] at hc
      exact absurd hc (by decide)
    | noCommand _ _ hnone =>
      rw [hnone] at hcause
      cases hcause
    | rejected _ _ _ hnone =>
      rw [hnone] at hcause
      cases hcause
    | _ =>
      cases hcause
      rfl
  exact noCommand_of_cause hcause hstep hd

/-- Pull request events can be delivered and dispatched one after the other. -/
theorem exists_deliveries (cfg : AppConfig) (events : List NormalizedEvent)
    (hevents : ∀ e ∈ events, e.event = "pull_request" ∧ e.supported = true)
    (hup : s.core.up = true) (hidle : s.dispatches = []) :
    ∃ l s', Sweeps cfg s l s' ∧ l.map Receipt.arrival = events.map .delivery := by
  -- from any such state on, along the events
  induction events generalizing s with
  | nil => exact ⟨[], s, .start, rfl⟩
  | cons e events ih =>
    obtain ⟨he, hsupported⟩ := hevents e List.mem_cons_self
    obtain ⟨r, hfresh⟩ := exists_fresh s.core.issued
    have hwebhook : step cfg s (.webhook e) = some ({ s with dispatches := [e] }, []) := by
      simp [step, hup, hsupported, hidle]
    obtain ⟨t, es, hdispatch, hdispatches, hup'⟩ :=
      dispatchEvent_isSome cfg (s := { s with dispatches := [] }) e hup hfresh
    have hstep : step cfg { s with dispatches := [e] } (.dispatch 0 r) = some (t, es) := hdispatch
    have hno : NoCommand es := noCommand_of_pullRequest he hstep rfl
    obtain ⟨l, s', hs', hl⟩ := ih (fun e' he' => hevents e' (List.mem_cons_of_mem _ he')) hup'
      hdispatches
    have hfirst : Sweeps cfg s _ t :=
      .step (.step .start hwebhook fun job hjob => absurd hjob List.not_mem_nil) hstep hno
    exact ⟨_, s', hfirst.trans hs', by simp [AppAction.arrival, hl]⟩

/-- A complete history is served. -/
theorem served_of_complete (hself : cfg.selfAccount ≠ "")
    (hscope : InScope cfg.config hist.owner hist.repo) (hcomplete : Complete cfg hist) :
    hist.Served cfg.selfAccount := by
  by_contra hno
  simp only [PullHistory.Served, not_or, Bool.not_eq_true, Decidable.not_not] at hno
  obtain ⟨hready, hauthor, hreviewer, hnone⟩ := hno
  -- a new installation is started and told the history
  have hbooted : (machine cfg).Reachable { App.small with core := Sched.new.boot cfg.sched } [] :=
    .step (s := App.small) (a := .boot) (.start App.small_new) trivial rfl
  obtain ⟨l, s, hs, hl⟩ := exists_deliveries cfg
    (s := { App.small with core := Sched.new.boot cfg.sched }) (hist.webhooks.map hist.event)
    (by
      intro e he
      obtain ⟨w, hw, rfl⟩ := List.mem_map.mp he
      exact ⟨normalizeEvent_event _ _ _, event_supported hw⟩) rfl rfl
  have hdelivered : ∀ w ∈ hist.webhooks, .delivery (hist.event w) ∈ l.map Receipt.arrival := by
    intro w hw
    rw [hl, List.map_map]
    exact List.mem_map.mpr ⟨w, hw, rfl⟩
  have hrun := hcomplete _ _ l s hbooted hs hdelivered hready (Or.inr hreviewer)
  rw [hasRunForHead_keys] at hrun
  obtain ⟨k, hk, hmatch⟩ := List.any_eq_true.mp hrun
  rw [hs.keys hbooted, mem_foldl_grow (asks_settled cfg)] at hk
  rcases hk with hk | ⟨x, hx, hasks⟩
  · exact absurd hk List.not_mem_nil
  · -- the webhook that the run is for is a request for review
    rw [hl, List.map_map] at hx
    obtain ⟨w, hw, rfl⟩ := List.mem_map.mp hx
    obtain ⟨haccepts, number, -, rfl⟩ := (asks_delivery (normalizeEvent_event _ _ _)).mp hasks
    simp only [Bool.and_eq_true, beq_iff_eq] at hmatch
    rcases (PullHistory.accepts_event_iff hself hscope hw).mp haccepts with
      ⟨hauthor', -⟩ | ⟨haction, hreviewer', hauthor' | hopen⟩
    · exact hauthor hauthor'
    · exact hauthor hauthor'
    · exact hnone ⟨w.2, by rw [← haction]; exact hw, hmatch.2, hopen, hreviewer'⟩

/-- **The history of a pull request is enough for a run for its head, exactly if it is served.** -/
theorem history_complete_iff (hself : cfg.selfAccount ≠ "")
    (hscope : InScope cfg.config hist.owner hist.repo) :
    Complete cfg hist ↔ hist.Served cfg.selfAccount :=
  ⟨served_of_complete hself hscope, complete_of_served hself hscope⟩

/-- `me` is asked to review a pull request of `you`, and then `you` pushes to it. -/
def pushedAfterRequest : PullHistory where
  owner := "me"
  repo := "app"
  number := 7
  author := "you"
  first := { head := "a", draft := false, reviewers := [] }
  actions := [.reviewRequested "me", .synchronize "b"]

/-- The two sides for a push after the request. -/
theorem history_complete_iff_pushed :
    InScope (smallConfig true 1).config "me" "app" ∧
      (Complete (smallConfig true 1) pushedAfterRequest ↔ pushedAfterRequest.Served "me") :=
  ⟨⟨by decide, by decide⟩, history_complete_iff (by decide) ⟨by decide, by decide⟩⟩

/-- There is no run for the head that was pushed. -/
theorem push_not_reviewed :
    ¬ ∀ cfg hist, cfg.selfAccount ≠ "" → InScope cfg.config hist.owner hist.repo →
      Complete cfg hist := by
  intro hall
  have hcomplete := hall (smallConfig true 1) pushedAfterRequest (by decide) ⟨by decide, by decide⟩
  have hserved : pushedAfterRequest.Served "me" :=
    served_of_complete (by decide) ⟨by decide, by decide⟩ hcomplete
  rcases hserved with h | h | h | ⟨p, hp, hhead, -⟩
  · revert h
    decide
  · revert h
    decide
  · revert h
    decide
  · have hp : ("review_requested", p) ∈ [("opened", ⟨"a", false, []⟩),
        ("review_requested", ⟨"a", false, ["me"]⟩), ("synchronize", ⟨"b", false, ["me"]⟩)] := hp
    have hhead : p.head = "b" := hhead
    simp only [List.mem_cons, Prod.mk.injEq, List.not_mem_nil, or_false] at hp
    rcases hp with ⟨h, -⟩ | ⟨-, rfl⟩ | ⟨h, -⟩
    · exact absurd h (by decide)
    · exact absurd hhead (by decide)
    · exact absurd h (by decide)

end App

end PrReviewer.Model
