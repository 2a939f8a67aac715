import PrReviewer.Analysis.PipelineSteps
import PrReviewer.Analysis.TableSteps

/-!
# What a dispatched event may start

`dispatch_cases` says what the dispatcher makes of an event, wherever it comes from, and
`inserted_iff` when that stores a run. From it: which events start runs outside the managed
repositories, and which start runs that nobody asked for. In both cases the check of the trigger
is made for pull request events only, while comments and CI completions reach the same queue.
-/

set_option autoImplicit false

namespace PrReviewer.Model

open PrReviewer.Library (Machine)

/-! ## The trigger -/

/-- The event is a completed check run or workflow run. -/
def NormalizedEvent.completesCi (e : NormalizedEvent) : Prop :=
  (e.event = "check_run" ∨ e.event = "workflow_run") ∧ e.action = "completed"

/-- The event says that its pull request is closed or merged. -/
def NormalizedEvent.closesPr (e : NormalizedEvent) : Prop :=
  e.event = "pull_request" ∧
    (e.action = "closed" ∨ e.prState = some "closed" ∨ e.prState = some "merged")

namespace TriggerDecisionEngine

/-- The author of a comment may give commands. -/
def mayCommand (t : TriggerDecisionEngine) (e : NormalizedEvent) : Prop :=
  t.selfAccount = "" ∨ e.author = some t.selfAccount

/-- The comment is a command, from somebody who may give it. -/
def commanded (t : TriggerDecisionEngine) (e : NormalizedEvent) : Prop :=
  t.mayCommand e ∧ ∃ cmd, parseCommand t.unicode (orEmpty e.commentBody) = .command cmd

/-- The event passes every check of the last branch of `decide`. -/
structure Accepts (t : TriggerDecisionEngine) (e : NormalizedEvent) : Prop where
  isOpen : ¬ e.closesPr
  ready : ¬ (e.draft = true ∧ t.selfAccount ≠ "" ∧ e.author ≠ some t.selfAccount)
  concerns : t.selfAccount = "" ∨ t.concernsSelf e = true
  managed : t.config.isManaged e.owner e.repo = true
  allowed : t.config.isDenied e.owner e.repo = false

/-- What `decide` makes of an event. -/
inductive DecideCase (t : TriggerDecisionEngine) (e : NormalizedEvent) : Decision → Prop
  | command {cmd : Command} : e.event = "issue_comment" → t.mayCommand e →
      parseCommand t.unicode (orEmpty e.commentBody) = .command cmd →
      DecideCase t e { action := .reply, owner := e.owner, repo := e.repo, pr := e.prNumber,
                       head := e.headSha, model := cmd.model, target := some cmd }
  | noCommand {d : Decision} : e.event = "issue_comment" → ¬ t.commanded e → d.cause? = none →
      DecideCase t e d
  | ci : e.event ≠ "issue_comment" → e.completesCi →
      DecideCase t e { action := .advanceCi, owner := e.owner, repo := e.repo, pr := e.prNumber,
                       head := e.headSha, target := some { kind := "advance-ci" } }
  | accepted : e.event ≠ "issue_comment" → ¬ e.completesCi → t.Accepts e →
      DecideCase t e { action := .enqueue, owner := e.owner, repo := e.repo, pr := e.prNumber,
                       head := e.headSha }
  | rejected {d : Decision} : e.event ≠ "issue_comment" → ¬ e.completesCi → ¬ t.Accepts e →
      d.cause? = none → DecideCase t e d

/-- **Every decision is one of these.** -/
theorem decide_cases (t : TriggerDecisionEngine) (e : NormalizedEvent) :
    DecideCase t e (t.decide e) := by
  unfold decide
  by_cases hcomment : e.event = "issue_comment"
  · rw [if_pos hcomment]
    unfold decideComment
    split
    · rename_i hself
      refine .noCommand hcomment ?_ rfl
      rintro ⟨hmay | hmay, -⟩
      · exact hself.1 hmay
      · exact hself.2 hmay
    · rename_i hself
      have hmay : t.mayCommand e := by
        unfold mayCommand
        by_contra hno
        rw [not_or] at hno
        exact hself hno
      split
      · rename_i hparse
        refine .noCommand hcomment ?_ rfl
        rintro ⟨-, cmd, hcmd⟩
        rw [hparse] at hcmd
        cases hcmd
      · rename_i hparse
        refine .noCommand hcomment ?_ rfl
        rintro ⟨-, cmd, hcmd⟩
        rw [hparse] at hcmd
        cases hcmd
      · exact .command hcomment hmay ‹_›
  · rw [if_neg hcomment]
    split
    · exact .ci hcomment ‹_›
    · rename_i hci
      -- the checks of the last branch, one after the other
      split
      · rename_i hclosed
        have hno : ¬ t.Accepts e := fun h => h.isOpen hclosed
        split
        · exact .rejected hcomment hci hno rfl
        · exact .rejected hcomment hci hno rfl
      · rename_i hopen
        split
        · rename_i hdraft
          exact .rejected hcomment hci (fun h => h.ready hdraft) rfl
        · rename_i hready
          split
          · rename_i hself
            refine .rejected hcomment hci (fun h => ?_) rfl
            rcases h.concerns with hempty | hconcerns
            · exact hself.1 hempty
            · rw [hself.2] at hconcerns
              cases hconcerns
          · rename_i hself
            have hconcerns : t.selfAccount = "" ∨ t.concernsSelf e = true := by
              by_contra hno
              rw [not_or, Bool.not_eq_true] at hno
              exact hself hno
            split
            · rename_i hmanaged
              refine .rejected hcomment hci (fun h => ?_) rfl
              exact Bool.false_ne_true (hmanaged.symm.trans h.managed)
            · rename_i hmanaged
              split
              · rename_i hdenied
                refine .rejected hcomment hci (fun h => ?_) rfl
                exact Bool.false_ne_true (h.allowed.symm.trans hdenied)
              · rename_i hdenied
                exact .accepted hcomment hci
                  ⟨hopen, hready, hconcerns, by simpa using hmanaged, by simpa using hdenied⟩

end TriggerDecisionEngine

namespace App

variable {cfg : AppConfig} {s s' : App} {a : AppAction} {event : NormalizedEvent}
  {h es : List AppEvent}

/-! ## The dispatcher -/

/-- What the dispatcher makes of an event, with this run id for a run. -/
inductive DispatchCase (cfg : AppConfig) (s : App) (event : NormalizedEvent) (r : RunId) :
    App → List AppEvent → Prop
  | enqueue {dispatches : List NormalizedEvent} {cause : Cause} :
      (cfg.trigger.decide event).cause? = some cause → s.core.up = true → r ∉ s.core.issued →
      DispatchCase cfg s event r
        { s with
          dispatches := dispatches,
          core := (s.core.enqueue r (cfg.trigger.decide event) cause).1 }
        ((s.core.enqueue r (cfg.trigger.decide event) cause).2.map .core)
  | drop {dispatches : List NormalizedEvent} {es : List AppEvent} :
      (cfg.trigger.decide event).cause? = none → (∀ e ∈ es, e.Chatter) →
      DispatchCase cfg s event r { s with dispatches := dispatches } es

/-- Dispatching an event is one of its cases. -/
theorem dispatchEvent_case (dispatches : List NormalizedEvent) {r : RunId}
    (hstep : { s with dispatches := dispatches }.dispatchEvent cfg event r = some (s', es)) :
    DispatchCase cfg s event r s' es := by
  have henqueue : ∀ cause, (cfg.trigger.decide event).cause? = some cause →
      { s with dispatches := dispatches }.coreStep cfg
        (.enqueue r (cfg.trigger.decide event) cause) = some (s', es) →
      DispatchCase cfg s event r s' es := by
    intro cause hcause hc
    obtain ⟨c, ces, hcore, rfl, rfl⟩ := coreStep_eq hc
    cases Sched.step_cases hcore with
    | enqueue hup hr => exact .enqueue hcause hup hr
  unfold dispatchEvent at hstep
  simp only at hstep
  split at hstep
  · rename_i haction
    exact henqueue .webhook (by simp [Decision.cause?, haction]) hstep
  · rename_i haction
    exact henqueue .webhook (by simp [Decision.cause?, haction]) hstep
  · rename_i haction
    split at hstep
    · rename_i hreason
      cases hstep
      refine .drop (by simp [Decision.cause?, haction, hreason]) ?_
      intro e he
      exact ⟨_, _, List.mem_singleton.mp he, Or.inl rfl, rfl⟩
    · rename_i hreason
      exact henqueue .comment (by simp [Decision.cause?, haction, hreason]) hstep
  · rename_i haction
    cases hstep
    exact .drop (by simp [Decision.cause?, haction]) (by simp)
  · rename_i haction
    cases hstep
    exact .drop (by simp [Decision.cause?, haction]) (by simp)

/-- **What a step that dispatches an event does.** -/
theorem dispatch_cases (hstep : step cfg s a = some (s', es))
    (hd : a.dispatched cfg s = some event) : DispatchCase cfg s event a.runId s' es := by
  cases a with
  | dispatch k r =>
    have hk : s.dispatches[k]? = some event := hd
    simp only [step, hk] at hstep
    exact dispatchEvent_case _ hstep
  | backfill spec p r =>
    simp only [AppAction.dispatched] at hd
    simp only [step] at hstep
    split at hd
    · rename_i hguard
      cases hd
      split at hstep
      · have hrun : s.backfillPr cfg spec p r =
            s.dispatchEvent cfg (p.event spec.owner spec.repo) r := if_pos hguard
        rw [hrun] at hstep
        exact dispatchEvent_case s.dispatches hstep
      · cases hstep
    · cases hd
  | _ => cases hd

/-- In every run the table is keyed and the state grounded. -/
theorem reaches_keyed (hr : (machine cfg).Reachable s h) :
    s.core.table.Modelled ∧ Sched.Grounded cfg.sched s.core :=
  ⟨Sched.reaches_modelled (reaches_core hr),
    Sched.reaches_grounded (Sched.reaches_of_new (reaches_core hr))⟩

/-- The decision is one that `enqueue` stores a run for, on this table. -/
def Stored (t : RunTable) (d : Decision) : Prop :=
  (d.cause? = some .webhook ∧ ∃ k, d.columns = some k ∧ k ∉ t.keys) ∨
    (d.cause? = some .comment ∧ d.columns ≠ none)

/-- A dropped decision stores nothing. -/
theorem not_stored_of_drop {t : RunTable} {d : Decision} (hd : d.cause? = none) :
    ¬ Stored t d := by
  rintro (⟨hc, -⟩ | ⟨hc, -⟩) <;> rw [hd] at hc <;> cases hc

/-- `enqueue` stores one run if the decision is one to store, and none if it is not. -/
theorem enqueue_stored {c : Sched ExecPc} {r : RunId} {d : Decision} {cause : Cause}
    (ht : c.table.Modelled) (hrow : ∀ row ∈ c.table.rows, row.runId ≠ r)
    (hcause : d.cause? = some cause) :
    (∃ job pr, Sched.Stores d r cause job pr ∧ (c.enqueue r d cause).2 = [.inserted job] ∧
        Stored c.table d) ∨
      (c.enqueue r d cause).2 = [] ∧ ¬ Stored c.table d := by
  cases cause with
  | webhook =>
    rcases Sched.enqueue_webhook (d := d) ht hrow with
      ⟨job, pr, hj, hnew, table, -, heq⟩ | ⟨hold, heq⟩ <;> rw [heq]
    · exact Or.inl ⟨job, pr, hj, rfl, Or.inl ⟨hcause, _, hj.columns, hnew⟩⟩
    · refine Or.inr ⟨rfl, ?_⟩
      rintro (⟨-, k, hk, hnew⟩ | ⟨hc, -⟩)
      · exact hnew (hold k hk)
      · rw [hcause] at hc
        cases hc
  | comment =>
    rcases Sched.enqueue_comment (d := d) hrow with
      ⟨job, pr, hj, table, -, heq⟩ | ⟨hcols, heq⟩ <;> rw [heq]
    · refine Or.inl ⟨job, pr, hj, rfl, Or.inr ⟨hcause, ?_⟩⟩
      rw [hj.columns]
      simp
    · refine Or.inr ⟨rfl, ?_⟩
      rintro (⟨hc, -⟩ | ⟨-, hk⟩)
      · rw [hcause] at hc
        cases hc
      · exact hk hcols

/-- **A dispatched event starts a run exactly if its decision is one to store**, and the run is
in the repository the decision names. -/
theorem inserted_iff (hr : (machine cfg).Reachable s h) (hstep : step cfg s a = some (s', es))
    (hd : a.dispatched cfg s = some event) :
    ((∃ job, .core (.inserted job) ∈ es) ↔ Stored s.core.table (cfg.trigger.decide event)) ∧
      ∀ job, .core (.inserted job) ∈ es →
        (cfg.trigger.decide event).owner = some job.owner ∧
          (cfg.trigger.decide event).repo = some job.repo := by
  obtain ⟨hmodelled, hgrounded⟩ := reaches_keyed hr
  cases dispatch_cases hstep hd with
  | enqueue hcause hup hfresh =>
    rcases enqueue_stored hmodelled (hgrounded.fresh_row hfresh) hcause with
      ⟨job, pr, ⟨⟨owner, repo, ho, hrepo, rfl⟩, -, -⟩, hes, hst⟩ | ⟨hes, hst⟩ <;> rw [hes]
    · refine ⟨iff_of_true ⟨_, List.mem_singleton.mpr rfl⟩ hst, ?_⟩
      intro job hmem
      cases List.mem_singleton.mp hmem
      exact ⟨ho, hrepo⟩
    · simpa using hst
  | drop hcause hes =>
    have hno : ∀ job, .core (.inserted job) ∉ es := by
      intro job hmem
      obtain ⟨origin, w, heq, -⟩ := hes _ hmem
      cases heq
    refine ⟨iff_of_false ?_ (not_stored_of_drop hcause), fun job hmem => absurd hmem (hno job)⟩
    exact fun hex => hno _ hex.choose_spec

/-! ## Which events start a run -/

/-- The dedup columns of the run an event without a model asks for. -/
def columnsOf (e : NormalizedEvent) (number : Int) : DedupKey :=
  (e.owner, e.repo, number, orEmpty e.headSha, "")

/-- The event reaches the queue without the last branch of the trigger, and starts a run. -/
def Bypasses (cfg : AppConfig) (t : RunTable) (e : NormalizedEvent) : Prop :=
  ∃ number, e.prNumber = some number ∧
    ((e.event = "issue_comment" ∧ cfg.trigger.commanded e) ∨
      (e.completesCi ∧ columnsOf e number ∉ t.keys))

/-- The event passes the last branch of the trigger, and starts a run. -/
def Triggers (cfg : AppConfig) (t : RunTable) (e : NormalizedEvent) : Prop :=
  e.event ≠ "issue_comment" ∧ ¬ e.completesCi ∧ cfg.trigger.Accepts e ∧
    ∃ number, e.prNumber = some number ∧ columnsOf e number ∉ t.keys

/-- A comment completes no CI. -/
theorem not_completesCi_of_comment {e : NormalizedEvent} (h : e.event = "issue_comment") :
    ¬ e.completesCi := by
  rintro ⟨hci | hci, -⟩ <;> rw [h] at hci <;> exact absurd hci (by decide)

/-- A run for an event in the way of the webhook is stored if its columns are new. -/
theorem stored_webhook {t : RunTable} {d : Decision} {e : NormalizedEvent}
    (hcause : d.cause? = some .webhook) (ho : d.owner = some e.owner) (hr : d.repo = some e.repo)
    (hp : d.pr = e.prNumber) (hh : d.head = e.headSha) (hm : d.model = none) :
    Stored t d ↔ ∃ number, e.prNumber = some number ∧ columnsOf e number ∉ t.keys := by
  have hcols : ∀ k, d.columns = some k ↔ ∃ number, e.prNumber = some number ∧
      k = columnsOf e number := by
    intro k
    unfold Decision.columns
    rw [ho, hr, hp, hh, hm]
    cases e.prNumber with
    | none => simp
    | some number =>
      simp only [Option.some.injEq, exists_eq_left']
      exact eq_comm
  constructor
  · rintro (⟨-, k, hk, hnew⟩ | ⟨hc, -⟩)
    · obtain ⟨number, hnumber, rfl⟩ := (hcols k).mp hk
      exact ⟨number, hnumber, hnew⟩
    · rw [hcause] at hc
      cases hc
  · rintro ⟨number, hnumber, hnew⟩
    exact Or.inl ⟨hcause, _, (hcols _).mpr ⟨number, hnumber, rfl⟩, hnew⟩

/-- **The events whose run is stored**: those that bypass the last branch of the trigger, and
those that pass it. -/
theorem stored_iff (cfg : AppConfig) (t : RunTable) (e : NormalizedEvent) :
    Stored t (cfg.trigger.decide e) ↔ Bypasses cfg t e ∨ Triggers cfg t e := by
  have hdecide := cfg.trigger.decide_cases e
  generalize cfg.trigger.decide e = d at hdecide ⊢
  cases hdecide with
  | @command cmd hcomment hmay hparse =>
    have hno : ¬ Triggers cfg t e := fun h => h.1 hcomment
    have hcommanded : cfg.trigger.commanded e := ⟨hmay, cmd, hparse⟩
    have hci := not_completesCi_of_comment hcomment
    unfold Stored Bypasses Decision.columns
    cases e.prNumber <;> simp [Decision.cause?, hno, hcomment, hcommanded, hci]
  | noCommand hcomment hcommand hcause =>
    refine iff_of_false (not_stored_of_drop hcause) ?_
    rintro (⟨number, -, ⟨-, hc⟩ | ⟨hc, -⟩⟩ | h)
    · exact hcommand hc
    · exact not_completesCi_of_comment hcomment hc
    · exact h.1 hcomment
  | ci hcomment hci =>
    rw [stored_webhook (e := e) rfl rfl rfl rfl rfl rfl]
    constructor
    · rintro ⟨number, hnumber, hnew⟩
      exact Or.inl ⟨number, hnumber, Or.inr ⟨hci, hnew⟩⟩
    · rintro (⟨number, hnumber, ⟨hc, -⟩ | ⟨-, hnew⟩⟩ | h)
      · exact absurd hc hcomment
      · exact ⟨number, hnumber, hnew⟩
      · exact absurd hci h.2.1
  | accepted hcomment hci haccepts =>
    rw [stored_webhook (e := e) rfl rfl rfl rfl rfl rfl]
    constructor
    · exact fun h => Or.inr ⟨hcomment, hci, haccepts, h⟩
    · rintro (⟨number, -, ⟨hc, -⟩ | ⟨hc, -⟩⟩ | h)
      · exact absurd hc hcomment
      · exact absurd hc hci
      · exact h.2.2.2
  | rejected hcomment hci haccepts hcause =>
    refine iff_of_false (not_stored_of_drop hcause) ?_
    rintro (⟨number, -, ⟨hc, -⟩ | ⟨hc, -⟩⟩ | h)
    · exact hcomment hc
    · exact hci hc
    · exact haccepts h.2.2.1

/-- A run is started in the repository of its event. -/
theorem inserted_ref (hr : (machine cfg).Reachable s h) (hstep : step cfg s a = some (s', es))
    (hd : a.dispatched cfg s = some event) {job : ReviewJob} (hjob : .core (.inserted job) ∈ es) :
    job.owner = event.owner ∧ job.repo = event.repo := by
  obtain ⟨hiff, href⟩ := inserted_iff hr hstep hd
  obtain ⟨ho, hrepo⟩ := href job hjob
  have hst := hiff.mp ⟨job, hjob⟩
  have hdecide := cfg.trigger.decide_cases event
  generalize cfg.trigger.decide event = d at hdecide ho hrepo hst
  cases hdecide with
  | noCommand _ _ hcause => exact absurd hst (not_stored_of_drop hcause)
  | rejected _ _ _ hcause => exact absurd hst (not_stored_of_drop hcause)
  | _ => exact ⟨(Option.some.inj ho).symm, (Option.some.inj hrepo).symm⟩

/-! ## Repository scoping -/

/-- The repository is managed and not denied. -/
def InScope (config : Config) (owner repo : String) : Prop :=
  config.isManaged owner repo = true ∧ config.isDenied owner repo = false

/-- **A dispatched event starts runs in managed repositories that are not denied only, exactly if
its repository is one or it does not bypass the checks.** -/
theorem dispatch_scoped_iff (hr : (machine cfg).Reachable s h)
    (hstep : step cfg s a = some (s', es)) (hd : a.dispatched cfg s = some event) :
    (∀ job, .core (.inserted job) ∈ es → InScope cfg.config job.owner job.repo) ↔
      InScope cfg.config event.owner event.repo ∨ ¬ Bypasses cfg s.core.table event := by
  have hiff := (inserted_iff hr hstep hd).1
  rw [stored_iff] at hiff
  have hrepo : ∀ job, .core (.inserted job) ∈ es →
      (InScope cfg.config job.owner job.repo ↔ InScope cfg.config event.owner event.repo) := by
    intro job hjob
    obtain ⟨ho, hr⟩ := inserted_ref hr hstep hd hjob
    rw [ho, hr]
  constructor
  · intro hscope
    by_contra hno
    rw [not_or, not_not] at hno
    obtain ⟨job, hjob⟩ := hiff.mpr (Or.inl hno.2)
    exact hno.1 ((hrepo job hjob).mp (hscope job hjob))
  · intro hcond job hjob
    rw [hrepo job hjob]
    rcases hcond with hscope | hno
    · exact hscope
    · obtain ⟨-, -, haccepts, -⟩ := (hiff.mp ⟨job, hjob⟩).resolve_left hno
      exact ⟨haccepts.managed, haccepts.allowed⟩

/-- The repository is denied. -/
def deniedConfig : AppConfig :=
  { smallConfig true 1 with
    config := { repoConfig := [{ owner := "me", repo := "app" }], denylist := ["me/app"],
                providers := ["free"] } }

/-- The two sides for a pull request opened in scope. -/
theorem dispatch_scoped_iff_opened :
    ∃ s h s' es, (machine deniedConfig).Reachable s h ∧
      step deniedConfig s (.dispatch 0 "r1") = some (s', es) ∧
      ((∀ job, .core (.inserted job) ∈ es → InScope deniedConfig.config job.owner job.repo) ↔
        InScope deniedConfig.config "me" "app" ∨
          ¬ Bypasses deniedConfig s.core.table (openedPr 7 "a")) := by
  obtain ⟨s, h, hr, hcheck⟩ := Machine.exists_reachable_run (M := machine deniedConfig)
    [.boot, .webhook (openedPr 7 "a")]
    (fun s _ => (step deniedConfig s (.dispatch 0 "r1")).isSome &&
      s.dispatches[0]? == some (openedPr 7 "a")) App.small_new (by decide)
  rw [Bool.and_eq_true, Option.isSome_iff_exists, beq_iff_eq] at hcheck
  obtain ⟨⟨⟨s', es⟩, hstep⟩, hd⟩ := hcheck
  exact ⟨s, h, s', es, hr, hstep, dispatch_scoped_iff hr hstep hd⟩

/-- A comment command starts a run in a denied repository. -/
theorem comment_not_scoped :
    ¬ ∀ cfg s h a s' es event, (machine cfg).Reachable s h → step cfg s a = some (s', es) →
      a.dispatched cfg s = some event →
      ∀ job, .core (.inserted job) ∈ es → InScope cfg.config job.owner job.repo := by
  intro hall
  obtain ⟨s, h, hr, hcheck⟩ := Machine.exists_reachable_run (M := machine deniedConfig)
    [.boot, .webhook (reviewComment 7)]
    (fun s _ => (step deniedConfig s (.dispatch 0 "r1")).any (fun r => r.2.any fun e =>
        e == .core (.inserted { firstJob with head := none, cause := .comment })) &&
      s.dispatches[0]? == some (reviewComment 7)) App.small_new (by decide)
  rw [Bool.and_eq_true, Option.any_eq_true, beq_iff_eq] at hcheck
  obtain ⟨⟨⟨s', es⟩, hstep, hany⟩, hd⟩ := hcheck
  obtain ⟨e, he, heq⟩ := List.any_eq_true.mp hany
  rw [beq_iff_eq.mp heq] at he
  have hscope := hall deniedConfig s h _ s' es _ hr hstep hd _ he
  exact absurd hscope.2 (by decide)

/-! ## Trigger authority -/

/-- The payload shows that the self account opened the pull request, marked it ready, pushed to
it or is asked to review it, or that it wrote the comment. -/
def Authorizes (self event action : String) (payload : WebhookPayload) : Prop :=
  (event = "pull_request" ∧
      ((action ∈ ["opened", "ready_for_review", "synchronize"] ∧
          payload.pullRequest.user = some self) ∨
        (action = "review_requested" ∧
          some self ∈ payload.pullRequest.requestedReviewers))) ∨
    (event = "issue_comment" ∧ payload.commentAuthor = some self)

/-- The payload of a completed check run or workflow run that names a pull request, and the table
has no run for its head and the default model. -/
def StartsOnCi (t : RunTable) (event : String) (payload : WebhookPayload) : Prop :=
  (event = "check_run" ∨ event = "workflow_run") ∧
    ∃ number, payload.pullRequest.number = some number ∧
      (orEmpty payload.owner, orEmpty payload.repo, number,
        orEmpty payload.pullRequest.headSha, "") ∉ t.keys

variable {type action : String} {payload : WebhookPayload}

/-- The normalised event has its type. -/
@[simp] theorem normalizeEvent_event (type action : String) (payload : WebhookPayload) :
    (normalizeEvent type action payload).event = type := by
  unfold normalizeEvent
  split
  · rfl
  · split <;> rfl

/-- The normalised event has its action. -/
@[simp] theorem normalizeEvent_action (type action : String) (payload : WebhookPayload) :
    (normalizeEvent type action payload).action = action := by
  unfold normalizeEvent
  split
  · rfl
  · split <;> rfl

/-- The events the handler lets through. -/
theorem supported_cases {e : NormalizedEvent} (h : e.supported = true) :
    e.event = "pull_request" ∨ e.event = "issue_comment" ∨ e.completesCi := by
  simp only [NormalizedEvent.supported, Bool.and_eq_true, supportedEvents, List.contains_eq_mem,
    List.mem_cons, List.not_mem_nil, or_false, decide_eq_true_eq] at h
  obtain ⟨hevent, haction⟩ := h
  rcases hevent with hevent | hevent | hevent | hevent
  · exact Or.inl hevent
  · exact Or.inr (Or.inl hevent)
  · rw [hevent] at haction
    exact Or.inr (Or.inr ⟨Or.inl hevent, by simpa [supportedActions] using haction⟩)
  · rw [hevent] at haction
    exact Or.inr (Or.inr ⟨Or.inr hevent, by simpa [supportedActions] using haction⟩)

/-- A pull request event concerns the self account as its payload says. -/
theorem concernsSelf_normalizeEvent {t : TriggerDecisionEngine} (hself : t.selfAccount ≠ "") :
    t.concernsSelf (normalizeEvent "pull_request" action payload) = true ↔
      (action ∈ ["opened", "ready_for_review", "synchronize"] ∧
          payload.pullRequest.user = some t.selfAccount) ∨
        (action = "review_requested" ∧
          some t.selfAccount ∈ payload.pullRequest.requestedReviewers) := by
  have hreviewer : t.selfAccount ∈ payload.pullRequest.requestedReviewers.map orEmpty ↔
      some t.selfAccount ∈ payload.pullRequest.requestedReviewers := by
    rw [List.mem_map]
    constructor
    · rintro ⟨login, hlogin, heq⟩
      cases login with
      | none => exact absurd heq.symm hself
      | some login =>
        cases heq
        exact hlogin
    · exact fun hmem => ⟨_, hmem, rfl⟩
  rw [← hreviewer]
  simp [TriggerDecisionEngine.concernsSelf, normalizeEvent, and_comm]

/-- **A supported payload starts a run with authority only, exactly if it is no CI completion that
starts one.** -/
theorem authorized_iff (hself : cfg.selfAccount ≠ "")
    (hsupported : (normalizeEvent type action payload).supported = true)
    (hr : (machine cfg).Reachable s h) (hstep : step cfg s a = some (s', es))
    (hd : a.dispatched cfg s = some (normalizeEvent type action payload)) :
    ((∃ job, .core (.inserted job) ∈ es) → Authorizes cfg.selfAccount type action payload) ↔
      ¬ StartsOnCi s.core.table type payload := by
  rw [(inserted_iff hr hstep hd).1, stored_iff]
  have hcases := supported_cases hsupported
  -- a CI completion starts a run in the case said
  have hci : (normalizeEvent type action payload).completesCi →
      (StartsOnCi s.core.table type payload ↔
        ∃ number, (normalizeEvent type action payload).prNumber = some number ∧
          columnsOf (normalizeEvent type action payload) number ∉ s.core.table.keys) := by
    intro hci
    have htype : type = "check_run" ∨ type = "workflow_run" := by simpa using hci.1
    rcases htype with rfl | rfl <;> simp [StartsOnCi, normalizeEvent, columnsOf]
  constructor
  · intro hauthorized hstarts
    have htype := hstarts.1
    have hcompletes : (normalizeEvent type action payload).completesCi := by
      rcases hcases with hpr | hcomment | hci
      · rcases htype with rfl | rfl <;> simp at hpr
      · rcases htype with rfl | rfl <;> simp at hcomment
      · exact hci
    obtain ⟨number, hnumber, hnew⟩ := (hci hcompletes).mp hstarts
    rcases hauthorized (Or.inl ⟨number, hnumber, Or.inr ⟨hcompletes, hnew⟩⟩) with
      ⟨hpr, -⟩ | ⟨hcomment, -⟩
    · rcases htype with rfl | rfl <;> exact absurd hpr (by decide)
    · rcases htype with rfl | rfl <;> exact absurd hcomment (by decide)
  · rintro hno (⟨number, hnumber, ⟨hcomment, hmay, -⟩ | ⟨hcompletes, hnew⟩⟩ |
      ⟨hcomment, hcompletes, haccepts, -⟩)
    · right
      rw [normalizeEvent_event] at hcomment
      subst hcomment
      exact ⟨rfl, hmay.resolve_left hself⟩
    · exact absurd ((hci hcompletes).mpr ⟨number, hnumber, hnew⟩) hno
    · left
      have hpr : type = "pull_request" := by
        rcases hcases with hpr | hc | hc
        · simpa using hpr
        · exact absurd hc hcomment
        · exact absurd hc hcompletes
      subst hpr
      exact ⟨rfl, (concernsSelf_normalizeEvent hself).mp (haccepts.concerns.resolve_left hself)⟩

/-- The payload of a pull request that `me` has opened. -/
def openedPayload : WebhookPayload where
  pullRequest := { number := some 7, headSha := some "a", user := some "me", state := some "open" }
  owner := some "me"
  repo := some "app"
  sender := some "me"

/-- The payload of a completed check run that names its pull request. -/
def checkRunPayload : WebhookPayload where
  pullRequest := { number := some 7, headSha := some "a" }
  owner := some "me"
  repo := some "app"
  checkRun := { conclusion := some "success", status := some "completed" }
  sender := some "ci"

/-- The two sides for a pull request that the account opened. -/
theorem authorized_iff_opened :
    ∃ s h s' es, (machine (smallConfig true 1)).Reachable s h ∧
      step (smallConfig true 1) s (.dispatch 0 "r1") = some (s', es) ∧
      (((∃ job, .core (.inserted job) ∈ es) →
          Authorizes "me" "pull_request" "opened" openedPayload) ↔
        ¬ StartsOnCi s.core.table "pull_request" openedPayload) := by
  obtain ⟨s, h, hr, hcheck⟩ := Machine.exists_reachable_run (M := machine (smallConfig true 1))
    [.boot, .webhook (normalizeEvent "pull_request" "opened" openedPayload)]
    (fun s _ => (step (smallConfig true 1) s (.dispatch 0 "r1")).isSome &&
      s.dispatches[0]? == some (normalizeEvent "pull_request" "opened" openedPayload))
    App.small_new (by decide)
  rw [Bool.and_eq_true, Option.isSome_iff_exists, beq_iff_eq] at hcheck
  obtain ⟨⟨⟨s', es⟩, hstep⟩, hd⟩ := hcheck
  exact ⟨s, h, s', es, hr, hstep, authorized_iff (by decide) (by decide) hr hstep hd⟩

/-- A check run that is not the self account's starts a run. -/
theorem ci_not_authorized :
    ¬ ∀ cfg s h a s' es type action payload, cfg.selfAccount ≠ "" →
      (normalizeEvent type action payload).supported = true → (machine cfg).Reachable s h →
      step cfg s a = some (s', es) → a.dispatched cfg s = some (normalizeEvent type action payload) →
      (∃ job, .core (.inserted job) ∈ es) → Authorizes cfg.selfAccount type action payload := by
  intro hall
  obtain ⟨s, h, hr, hcheck⟩ := Machine.exists_reachable_run (M := machine (smallConfig true 1))
    [.boot, .webhook (normalizeEvent "check_run" "completed" checkRunPayload)]
    (fun s _ => (step (smallConfig true 1) s (.dispatch 0 "r1")).any (fun r => r.2.any fun e =>
        e == .core (.inserted firstJob)) &&
      s.dispatches[0]? == some (normalizeEvent "check_run" "completed" checkRunPayload))
    App.small_new (by decide)
  rw [Bool.and_eq_true, Option.any_eq_true, beq_iff_eq] at hcheck
  obtain ⟨⟨⟨s', es⟩, hstep, hany⟩, hd⟩ := hcheck
  obtain ⟨e, he, heq⟩ := List.any_eq_true.mp hany
  rw [beq_iff_eq.mp heq] at he
  rcases hall _ s h _ s' es _ _ _ (by decide) (by decide) hr hstep hd ⟨_, he⟩ with
    ⟨hpr, -⟩ | ⟨hcomment, -⟩
  · exact absurd hpr (by decide)
  · exact absurd hcomment (by decide)

end App

end PrReviewer.Model
