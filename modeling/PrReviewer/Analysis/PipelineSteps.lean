import PrReviewer.Analysis.Lineage
import PrReviewer.Model.App

/-!
# Steps of the pipeline and of the application

`execStep_cases` and `App.step_cases` say everything one step can do; every invariant of the
application is derived from them. `App.reaches_core` is the refinement: the scheduler of a
reached application is reached by the scheduler alone, with calls of the pipeline that end as
the real pipeline ends them.
-/

set_option autoImplicit false

namespace PrReviewer.Model

open PrReviewer.Library
open PrReviewer.Interface.Life

/-- `submit_review` writes nothing after its requests but the comment that stands in for the
review. -/
theorem submitStep_writes {r : Review} {pc pc' : SubmitPc} {reply : SubmitReply}
    {writes : List GitHubWrite} (h : submitStep r pc reply = some (.goOn pc' writes)) :
    ∀ w ∈ writes, w = commentOn r.ref r.body := by
  have hfall : ∀ {pc' : SubmitPc} {writes : List GitHubWrite}, r.fallBack = .goOn pc' writes →
      ∀ w ∈ writes, w = commentOn r.ref r.body := by
    intro pc' writes h w hw
    cases h
    exact List.mem_singleton.mp hw
  have hafter : ∀ {inline : Bool} {pc' : SubmitPc} {writes : List GitHubWrite},
      r.afterFailure inline = .goOn pc' writes → ∀ w ∈ writes, w = commentOn r.ref r.body := by
    intro inline pc' writes h
    unfold Review.afterFailure at h
    split at h
    · cases h
      intro w hw
      exact absurd hw List.not_mem_nil
    · exact hfall h
  unfold submitStep at h
  split at h
  case h_3 => exact hfall (Option.some.inj h)
  case h_4 =>
    split at h
    · cases h
      intro w hw
      exact absurd hw List.not_mem_nil
    · exact hafter (Option.some.inj h)
  case h_5 => exact hafter (Option.some.inj h)
  all_goals
    cases h
    try exact fun w hw => absurd hw List.not_mem_nil

/-! ## `execute` -/

/-- After the pull request comes the announcement or the clone. -/
theorem PipelineConfig.afterPr_cases (cfg : PipelineConfig) :
    cfg.afterPr = .announce ∨ cfg.afterPr = .clone := by
  unfold PipelineConfig.afterPr
  split
  · exact Or.inl rfl
  · exact Or.inr rfl

/-- What a step of `execute` does. -/
inductive ExecCase (cfg : PipelineConfig) (now : Nat) (cache : Cache) (staged : StagedReviews)
    (job : ReviewJob) : ExecPc → ExecInput → ExecMove → Prop
  | look : ExecCase cfg now cache staged job .start .go ⟨.goOn none .fetchPr, cache, staged, []⟩
  | noLook : ExecCase cfg now cache staged job .start .go ⟨.goOn none cfg.afterPr, cache, staged, []⟩
  | lookFailed : ExecCase cfg now cache staged job .fetchPr (.pr none)
      ⟨.goOn none cfg.afterPr, cache, staged, []⟩
  | prOver {data : PrData} : data.over = true → ExecCase cfg now cache staged job .fetchPr
      (.pr (some data)) ⟨.finish (.result "skipped" false), cache, staged, [.fetched job data]⟩
  | looked {data : PrData} : data.over = false → ExecCase cfg now cache staged job .fetchPr
      (.pr (some data)) ⟨.goOn (some data.headSha) cfg.afterPr, cache, staged, [.fetched job data]⟩
  | announced : ExecCase cfg now cache staged job .announce .slack
      ⟨.goOn none .clone, cache, staged, []⟩
  | cloneFailed {git : GitAnswers} {docs : Bool} {cache' : Cache} :
      cache.ensure cfg.config.diskCapBytes now git job.owner job.repo job.head = (cache', false) →
      ExecCase cfg now cache staged job .clone (.clone git docs) ⟨.finish .retry, cache', staged, []⟩
  | docsFailed {git : GitAnswers} {cache' : Cache} :
      cache.ensure cfg.config.diskCapBytes now git job.owner job.repo job.head = (cache', true) →
      ExecCase cfg now cache staged job .clone (.clone git false)
        ⟨.finish .raised, cache', staged, []⟩
  | cloned {git : GitAnswers} {cache' : Cache} :
      cache.ensure cfg.config.diskCapBytes now git job.owner job.repo job.head = (cache', true) →
      ExecCase cfg now cache staged job .clone (.clone git true)
        ⟨.goOn none (.fetchDiff (repoKey job.owner job.repo)), cache', staged, []⟩
  | diffFailed {checkout : String} : ExecCase cfg now cache staged job (.fetchDiff checkout)
      (.diff none) ⟨.finish .retry, cache, staged, []⟩
  | noModel {checkout diff : String} : ExecCase cfg now cache staged job (.fetchDiff checkout)
      (.diff (some diff)) ⟨.finish .raised, cache, staged, []⟩
  | ran {checkout diff : String} : ExecCase cfg now cache staged job (.fetchDiff checkout)
      (.diff (some diff)) ⟨.goOn none (.running checkout), cache, staged,
        [.ran job checkout diff (modelAlias cfg.config job)]⟩
  | runFailed {checkout : String} {result : Option ReviewResult} {extra : List Finding}
      {out : Outcome} : out = .raised ∨ out = .retry → ExecCase cfg now cache staged job
        (.running checkout) (.reviewed result extra) ⟨.finish out, cache, staged, []⟩
  | staged {checkout : String} {result : ReviewResult} {extra : List Finding} :
      cfg.slack = true → ExecCase cfg now cache staged job (.running checkout)
        (.reviewed (some result) extra)
        ⟨.goOn none .notify, cache,
          staged.stage job.runId ⟨result.summary, assembleFindings result.findings extra⟩,
          [.staged job ⟨result.summary, assembleFindings result.findings extra⟩]⟩
  | publish {checkout : String} {result : ReviewResult} {extra : List Finding} {review : Review} :
      cfg.slack = false →
      review = reviewOf job result.summary (assembleFindings result.findings extra) .comment →
      ExecCase cfg now cache staged job (.running checkout) (.reviewed (some result) extra)
        ⟨.goOn none (.publishing review .first), cache, staged,
          [.write (.worker job.runId) (.submitReview review)]⟩
  | notified : ExecCase cfg now cache staged job .notify .slack
      ⟨.finish (.result "pending_approval" false), cache, staged, []⟩
  | submitting {review : Review} {pc pc' : SubmitPc} {reply : SubmitReply}
      {writes : List GitHubWrite} : submitStep review pc reply = some (.goOn pc' writes) →
      ExecCase cfg now cache staged job (.publishing review pc) (.submit reply)
        ⟨.goOn none (.publishing review pc'), cache, staged,
          writes.map (.write (.worker job.runId))⟩
  | submitted {review : Review} {pc : SubmitPc} {reply : SubmitReply} :
      submitStep review pc reply = some .returned →
      ExecCase cfg now cache staged job (.publishing review pc) (.submit reply)
        ⟨.finish (.result "posted" false), cache, staged, []⟩
  | submitFailed {review : Review} {pc : SubmitPc} {reply : SubmitReply} :
      submitStep review pc reply = some .raised →
      ExecCase cfg now cache staged job (.publishing review pc) (.submit reply)
        ⟨.finish .raised, cache, staged, []⟩

/-- **Every step of `execute` is one of these cases.** -/
theorem execStep_cases {cfg : PipelineConfig} {now : Nat} {cache : Cache} {staged : StagedReviews}
    {job : ReviewJob} {pc : ExecPc} {inp : ExecInput} {m : ExecMove}
    (h : execStep cfg now cache staged job pc inp = some m) :
    ExecCase cfg now cache staged job pc inp m := by
  unfold execStep at h
  split at h
  · split at h <;> cases h
    · exact .look
    · exact .noLook
  · cases h
    exact .lookFailed
  · split at h <;> cases h
    · exact .prOver ‹_›
    · exact .looked (Bool.eq_false_iff.mpr ‹_›)
  · cases h
    exact .announced
  · rename_i git docs
    split at h
    · cases h
      exact .cloneFailed ‹_›
    · rename_i cache' hens
      cases docs with
      | true =>
        cases h
        exact .cloned hens
      | false =>
        cases h
        exact .docsFailed hens
  · cases h
    exact .diffFailed
  · simp only at h
    split at h <;> cases h
    · exact .ran
    · exact .noModel
  · cases h
    exact .runFailed (Or.inl rfl)
  · split at h
    · cases h
      exact .runFailed (Or.inr rfl)
    · simp only at h
      split at h <;> cases h
      · exact .staged ‹_›
      · exact .publish (Bool.eq_false_iff.mpr ‹_›) rfl
  · cases h
    exact .notified
  · rename_i review spc reply
    cases hs : submitStep review spc reply with
    | none => simp [hs] at h
    | some next =>
      cases next with
      | goOn pc' writes =>
        simp only [hs, Option.map_some, Option.some.injEq] at h
        rw [← h]
        exact .submitting hs
      | returned =>
        simp only [hs, Option.map_some, Option.some.injEq] at h
        rw [← h]
        exact .submitted hs
      | raised =>
        simp only [hs, Option.map_some, Option.some.injEq] at h
        rw [← h]
        exact .submitFailed hs
  · cases h

/-- The real pipeline ends with `posted`, `pending_approval`, `skipped`, a retry or an
exception. -/
theorem ExecCase.endsIn {cfg : PipelineConfig} {now : Nat} {cache : Cache} {staged : StagedReviews}
    {job : ReviewJob} {pc : ExecPc} {inp : ExecInput} {m : ExecMove} {out : Outcome}
    (h : ExecCase cfg now cache staged job pc inp m) (hm : m.next = .finish out) :
    out.EndsIn RealEnd := by
  have hretry : Outcome.retry.EndsIn RealEnd := trivial
  have hresult : ∀ (status : String) (st : RunStatus), RunStatus.ofText status = some st →
      status ≠ "" → RealEnd (some st) → (Outcome.result status false).EndsIn RealEnd := by
    intro status st hst hne hreal st' hst'
    rw [if_neg hne, hst] at hst'
    exact Option.some.inj hst' ▸ hreal
  cases h <;> cases hm
  case prOver => exact hresult "skipped" .skipped (by decide) (by decide) (Or.inr (Or.inr (Or.inl rfl)))
  case notified =>
    exact hresult "pending_approval" .pendingApproval (by decide) (by decide) (Or.inr (Or.inl rfl))
  case submitted => exact hresult "posted" .posted (by decide) (by decide) (Or.inl rfl)
  case runFailed ho =>
    rcases ho with rfl | rfl
    · trivial
    · exact hretry
  all_goals trivial

/-! ## `publish_approved_review` -/

/-- What a step of `publish_approved_review` does. -/
inductive ApprovalCase (cfg : PipelineConfig) (staged : StagedReviews) (head : String)
    (p : Approval) : ApprovalInput → ApprovalMove → Prop
  | blocked : p.pc = .created → p.blocked cfg.config = true → ApprovalCase cfg staged head p .go
      ⟨.ended, staged.drop p.job.runId,
        [.publishing p.number p.job p.userApproved (staged.find p.job.runId)]⟩
  | started {review : Review} : p.pc = .created → p.blocked cfg.config = false →
      review = p.review (staged.find p.job.runId) → ApprovalCase cfg staged head p .go
        ⟨.submitting review .first, staged.drop p.job.runId,
          [.publishing p.number p.job p.userApproved (staged.find p.job.runId),
            p.writes (.submitReview review)]⟩
  | submitting {review : Review} {pc pc' : SubmitPc} {reply : SubmitReply}
      {writes : List GitHubWrite} : p.pc = .submitting review pc →
      submitStep review pc reply = some (.goOn pc' writes) →
      ApprovalCase cfg staged head p (.submit reply)
        ⟨.submitting review pc', staged, writes.map p.writes⟩
  | promote {review : Review} {pc : SubmitPc} {reply : SubmitReply} :
      p.pc = .submitting review pc → submitStep review pc reply = some .returned →
      ApprovalCase cfg staged head p (.submit reply)
        ⟨.marking, staged, [p.writes (.markReady p.job.ref p.job.runId)]⟩
  | submitFailed {review : Review} {pc : SubmitPc} {reply : SubmitReply} :
      p.pc = .submitting review pc → submitStep review pc reply = some .raised →
      ApprovalCase cfg staged head p (.submit reply) ⟨.ended, staged, []⟩
  | merge {inp : ApprovalInput} {methods : List String} : p.shouldAutoMerge cfg.config = true →
      (∃ review pc, p.pc = .submitting review pc ∧ p.isDraft = false) ∨ p.pc = .marking →
      ApprovalCase cfg staged head p inp
        ⟨.merging methods, staged, [p.writes (.mergePr p.job.ref p.job.runId head)]⟩
  | finish {inp : ApprovalInput} {pc : ApprovalPc} : p.pc ≠ .created → p.pc ≠ .ended →
      pc = .notifying ∨ pc = .ended ∨ (∃ methods, pc = .merging methods) →
      ApprovalCase cfg staged head p inp ⟨pc, staged, []⟩

/-- The events of such a step are the start of the publication and its writes. -/
theorem ApprovalCase.start_or_write {cfg : PipelineConfig} {staged : StagedReviews} {head : String}
    {p : Approval} {inp : ApprovalInput} {m : ApprovalMove}
    (hm : ApprovalCase cfg staged head p inp m) {e : AppEvent} (he : e ∈ m.events) :
    e = .publishing p.number p.job p.userApproved (staged.find p.job.runId) ∨
      ∃ w, e = p.writes w := by
  cases hm with
  | blocked _ _ => exact Or.inl (List.mem_singleton.mp he)
  | started _ _ _ =>
    rcases List.mem_cons.mp he with rfl | he
    · exact Or.inl rfl
    · exact Or.inr ⟨_, List.mem_singleton.mp he⟩
  | submitting _ _ =>
    obtain ⟨w, -, rfl⟩ := List.mem_map.mp he
    exact Or.inr ⟨w, rfl⟩
  | promote _ _ => exact Or.inr ⟨_, List.mem_singleton.mp he⟩
  | submitFailed _ _ => exact absurd he List.not_mem_nil
  | merge _ _ => exact Or.inr ⟨_, List.mem_singleton.mp he⟩
  | finish _ _ _ => exact absurd he List.not_mem_nil

/-- After the merge comes the notification or the end. -/
theorem Approval.afterMerge_cases (cfg : PipelineConfig) :
    Approval.afterMerge cfg = .notifying ∨ Approval.afterMerge cfg = .ended := by
  unfold Approval.afterMerge
  cases cfg.slack
  · exact Or.inr rfl
  · exact Or.inl rfl

/-- **Every step of `publish_approved_review` is one of these cases.** -/
theorem approvalStep_cases {cfg : PipelineConfig} {staged : StagedReviews} {head : String}
    {p : Approval} {inp : ApprovalInput} {m : ApprovalMove}
    (h : p.step cfg staged head inp = some m) : ApprovalCase cfg staged head p inp m := by
  have hafter : ∀ {inp : ApprovalInput}, p.pc ≠ .created → p.pc ≠ .ended →
      ApprovalCase cfg staged head p inp ⟨Approval.afterMerge cfg, staged, []⟩ := by
    intro inp hpc hended
    rcases Approval.afterMerge_cases cfg with h' | h'
    · exact .finish hpc hended (Or.inl h')
    · exact .finish hpc hended (Or.inr (Or.inl h'))
  have hmerge : ∀ {inp : ApprovalInput},
      (∃ review pc, p.pc = .submitting review pc ∧ p.isDraft = false) ∨ p.pc = .marking →
      ApprovalCase cfg staged head p inp (p.merge cfg staged head) := by
    intro inp hpc
    unfold Approval.merge
    split
    · exact .merge ‹_› hpc
    · apply hafter <;> rcases hpc with ⟨review, pc, hpc, -⟩ | hpc <;> rw [hpc] <;> simp
  cases inp with
  | go =>
    simp only [Approval.step] at h
    split at h
    · rename_i hpc
      split at h <;> cases h
      · exact .blocked hpc ‹_›
      · exact .started hpc (Bool.eq_false_iff.mpr ‹_›) rfl
    · cases h
  | submit reply =>
    simp only [Approval.step] at h
    split at h
    · rename_i review pc hpc
      cases hs : submitStep review pc reply with
      | none => simp [hs] at h
      | some next =>
        cases next with
        | goOn pc' writes =>
          simp only [hs, Option.map_some, Option.some.injEq] at h
          rw [← h]
          exact .submitting hpc hs
        | returned =>
          simp only [hs, Option.map_some, Option.some.injEq] at h
          rw [← h]
          split
          · exact .promote hpc hs
          · exact hmerge (Or.inl ⟨review, pc, hpc, Bool.eq_false_iff.mpr ‹_›⟩)
        | raised =>
          simp only [hs, Option.map_some, Option.some.injEq] at h
          rw [← h]
          exact .submitFailed hpc hs
    · cases h
  | answered ok =>
    simp only [Approval.step] at h
    split at h
    · rename_i hpc
      cases h
      exact hmerge (Or.inr hpc)
    · rename_i first method methods hpc
      have hne : p.pc ≠ .created := by rw [hpc]; simp
      have hended : p.pc ≠ .ended := by rw [hpc]; simp
      split at h <;> cases h
      · exact hafter hne hended
      · exact .finish hne hended (Or.inr (Or.inr ⟨_, rfl⟩))
    · rename_i methods _ hpc
      cases h
      exact hafter (by rw [hpc]; simp) (by rw [hpc]; simp)
    · cases h
  | slack =>
    simp only [Approval.step] at h
    split at h
    · rename_i hpc
      cases h
      exact .finish (by rw [hpc]; simp) (by rw [hpc]; simp) (Or.inr (Or.inl rfl))
    · cases h

/-! ## The application -/

/-- The steps of the scheduler that the pipeline and the ingress have no part in. -/
def SchedAction.background : SchedAction ExecPc → Prop
  | .tick _ | .watch _ _ | .wake _ | .timeout _ | .boot => True
  | _ => False

/-- A write that does not publish, by nobody who handles a run or an approval. -/
def AppEvent.Chatter (e : AppEvent) : Prop :=
  ∃ origin w, e = .write origin w ∧ (origin = .reply ∨ origin = .registrar) ∧ w.publishes = false

/-- What an approval request asks for: the run, the job if the run has no row, and the
summary. -/
def ApprovalRequest.target (cfg : AppConfig) :
    ApprovalRequest → Option (RunId × Option ReviewJob × String)
  | .endpoint run owner repo pr =>
    some (run, App.jobOfQuery run owner repo pr, "Review Approved via Agent")
  | .slack payload =>
    match cfg.trigger.processSlackEventPayload payload with
    | .approve run job summary => some (run, some job, summary)
    | _ => none

/-- What a step of the pipeline of worker `i` makes the scheduler do. -/
def ExecNext.action (i : Nat) : ExecNext → SchedAction ExecPc
  | .goOn sha pc => .advance i sha pc
  | .finish out => .finish i out

/-- The scheduler's events are found again. -/
@[simp] theorem filterMap_core (ces : List SchedEvent) :
    (ces.map AppEvent.core).filterMap AppEvent.core? = ces := by
  rw [List.filterMap_map]
  exact List.filterMap_some

/-- Writes to GitHub are no events of the scheduler. -/
@[simp] theorem filterMap_core_writes (origin : Origin) (writes : List GitHubWrite) :
    (writes.map (AppEvent.write origin)).filterMap AppEvent.core? = [] := by
  rw [List.filterMap_map, List.filterMap_eq_nil_iff]
  exact fun _ _ => rfl

/-- A pipeline call makes no events of the scheduler. -/
theorem ExecCase.filterMap_core {cfg : PipelineConfig} {now : Nat} {cache : Cache}
    {staged : StagedReviews} {job : ReviewJob} {pc : ExecPc} {inp : ExecInput} {m : ExecMove}
    (h : ExecCase cfg now cache staged job pc inp m) : m.events.filterMap AppEvent.core? = [] := by
  cases h
  case submitting => exact filterMap_core_writes _ _
  all_goals rfl

/-- A publication makes no events of the scheduler. -/
theorem ApprovalCase.filterMap_core {cfg : PipelineConfig} {staged : StagedReviews} {head : String}
    {p : Approval} {inp : ApprovalInput} {m : ApprovalMove}
    (h : ApprovalCase cfg staged head p inp m) : m.events.filterMap AppEvent.core? = [] := by
  cases h
  case submitting => exact filterMap_core_writes _ _
  all_goals rfl

/-- What a decision is enqueued for, if `dispatch` or `_reply_post` enqueues it. -/
def Decision.cause? (d : Decision) : Option Cause :=
  match d.action with
  | .enqueue | .advanceCi => some .webhook
  | .reply => if d.reason = some "malformed-command" then none else some .comment
  | .notifyMerged | .skip => none

/-- A run caused by a comment comes from a reply. -/
theorem Decision.action_of_comment {d : Decision} (h : d.cause? = some .comment) :
    d.action = .reply := by
  unfold Decision.cause? at h
  split at h
  · cases h
  · cases h
  · assumption
  · cases h
  · cases h

/-- The backfill dispatches the event of this open pull request, on this table. -/
def App.backfills (cfg : AppConfig) (t : RunTable) (spec : RepoSpec) (p : OpenPr) : Bool :=
  prTruthy p.number && truthy p.head &&
    !t.hasRunForHead spec.owner spec.repo (p.number.getD 0) (orEmpty p.head) &&
    (cfg.trigger.decide (p.event spec.owner spec.repo)).action == .enqueue

/-- The event that a step dispatches. -/
def AppAction.dispatched (cfg : AppConfig) (s : App) : AppAction → Option NormalizedEvent
  | .dispatch k _ => s.dispatches[k]?
  | .backfill spec p _ =>
    if App.backfills cfg s.core.table spec p then some (p.event spec.owner spec.repo) else none
  | _ => none

/-- The run id a step draws for the run it may start. -/
def AppAction.runId : AppAction → RunId
  | .dispatch _ r | .backfill _ _ r => r
  | _ => ""

/-- The request that a step deals with. -/
def AppAction.request : AppAction → Option ApprovalRequest
  | .approve run owner repo pr => some (.endpoint run owner repo pr)
  | .slack payload => some (.slack payload)
  | _ => none

namespace App

/-- The step dispatches an event whose decision is enqueued for this cause. -/
def Enqueues (cfg : AppConfig) (s : App) (a : AppAction) (event : NormalizedEvent) (cause : Cause) :
    Prop :=
  a.dispatched cfg s = some event ∧ (cfg.trigger.decide event).cause? = some cause

/-- The step deals with a comment command. -/
def runsCommand (s : App) (cfg : AppConfig) (a : AppAction) : Prop :=
  ∃ k r event, a = .dispatch k r ∧ s.dispatches[k]? = some event ∧
    (cfg.trigger.decide event).action = .reply

/-- What a step of the application does. -/
inductive AppCase (cfg : AppConfig) (s : App) : AppAction → App → List AppEvent → Prop
  /-- a step of the scheduler in the background -/
  | core {a : AppAction} {ca : SchedAction ExecPc} {c : Sched ExecPc} {ces : List SchedEvent} :
      ca.background → Sched.step cfg.sched s.core ca = some (c, ces) →
      AppCase cfg s a { s with core := c } (ces.map .core)
  /-- an event makes the queue manager enqueue -/
  | enqueue {a : AppAction} {dispatches : List NormalizedEvent} {event : NormalizedEvent}
      {cause : Cause} {c : Sched ExecPc} {ces : List SchedEvent} :
      s.Enqueues cfg a event cause →
      Sched.step cfg.sched s.core (.enqueue a.runId (cfg.trigger.decide event) cause) =
        some (c, ces) →
      AppCase cfg s a { s with dispatches := dispatches, core := c } (ces.map .core)
  /-- an event comes in or is dealt with, or the registrar runs -/
  | chatter {a : AppAction} {es : List AppEvent} (dispatches : List NormalizedEvent) :
      (∀ e ∈ es, e.Chatter) → AppCase cfg s a { s with dispatches := dispatches } es
  | ask {a : AppAction} {request : ApprovalRequest} {run : RunId} {otherwise : Option ReviewJob}
      {summary : String} : a.request = some request →
      request.target cfg = some (run, otherwise, summary) →
      AppCase cfg s a (s.ask request run otherwise summary).1 (s.ask request run otherwise summary).2
  | exec {i : Nat} {inp : ExecInput} {job : ReviewJob} {pc : ExecPc} {m : ExecMove}
      {c : Sched ExecPc} : s.core.workers[i]? = some (.busy job pc) →
      ExecCase cfg.pipeline s.core.now s.cache s.staged job pc inp m →
      Sched.step cfg.sched s.core (ExecNext.action i m.next) = some (c, []) →
      AppCase cfg s (.exec i inp)
        { s with
          core := c, cache := m.cache, staged := m.staged,
          orphans := s.orphans ++ (Worker.unaccepted (.busy job pc)).toList } m.events
  | publish {k : Nat} {inp : ApprovalInput} {p : Approval} {m : ApprovalMove} :
      s.approvals[k]? = some p →
      ApprovalCase cfg.pipeline s.staged (s.head p.job.ref) p inp m →
      AppCase cfg s (.publish k inp)
        { s with
          staged := m.staged, approvals := s.approvals.set k { p with pc := m.pc },
          orphans := s.orphans ++ p.unaccepted.toList } m.events
  | crash : s.core.up = true →
      AppCase cfg s .crash { s.crash with core := s.core.crash } [.crashed]
  | push (ref : PrRef) (sha : String) : AppCase cfg s (.push ref sha)
      { s with head := fun k => if k = ref then sha else s.head k } [.pushed ref sha]
  | acceptWorker {i : Nat} {job : ReviewJob} {review : Review} {pc pc' : SubmitPc}
      {c : Sched ExecPc} : s.core.workers[i]? = some (.busy job (.publishing review pc)) →
      pc.accept = some pc' →
      Sched.step cfg.sched s.core (.advance i none (.publishing review pc')) = some (c, []) →
      AppCase cfg s (.acceptWorker i) { s with core := c } [.accepted review.run]
  | acceptApproval {k : Nat} {p : Approval} {review : Review} {pc pc' : SubmitPc} :
      s.approvals[k]? = some p → p.pc = .submitting review pc → pc.accept = some pc' →
      AppCase cfg s (.acceptApproval k)
        { s with approvals := s.approvals.set k { p with pc := .submitting review pc' } }
        [.accepted review.run]
  | acceptOrphan {k : Nat} {run : RunId} : s.orphans[k]? = some run →
      AppCase cfg s (.acceptOrphan k) { s with orphans := s.orphans.eraseIdx k } [.accepted run]

variable {cfg : AppConfig} {s s' : App} {es : List AppEvent}

/-- A scheduler step of the application is a step of its scheduler. -/
theorem coreStep_eq {a : SchedAction ExecPc} (h : s.coreStep cfg a = some (s', es)) :
    ∃ c ces, Sched.step cfg.sched s.core a = some (c, ces) ∧ s' = { s with core := c } ∧
      es = ces.map .core := by
  unfold coreStep at h
  cases hs : Sched.step cfg.sched s.core a with
  | none => simp [hs] at h
  | some r =>
    simp only [hs, Option.map_some, Option.some.injEq, Prod.mk.injEq] at h
    exact ⟨r.1, r.2, rfl, h.1.symm, h.2.symm⟩

/-- A scheduler's step, with other events before its own. -/
theorem coreStep_map_eq {a : SchedAction ExecPc} {b : List AppEvent}
    (h : (s.coreStep cfg a).map (fun r => (r.1, b ++ r.2)) = some (s', es)) :
    ∃ c ces, Sched.step cfg.sched s.core a = some (c, ces) ∧ s' = { s with core := c } ∧
      es = b ++ ces.map .core := by
  obtain ⟨⟨t, tes⟩, hr, hres⟩ := Option.map_eq_some_iff.mp h
  obtain ⟨c, ces, hcore, hc, hes⟩ := coreStep_eq hr
  simp only [Prod.mk.injEq] at hres
  exact ⟨c, ces, hcore, hres.1.symm.trans hc, by rw [← hres.2, hes]⟩

/-- The backfill only enqueues for webhooks. -/
theorem Enqueues.runsCommand {s : App} {a : AppAction} {event : NormalizedEvent}
    (h : s.Enqueues cfg a event .comment) : s.runsCommand cfg a := by
  obtain ⟨hd, hcause⟩ := h
  have haction := Decision.action_of_comment hcause
  cases a with
  | dispatch k r => exact ⟨k, r, event, rfl, hd, haction⟩
  | backfill spec p r =>
    simp only [AppAction.dispatched] at hd
    split at hd
    · rename_i hguard
      cases hd
      simp [backfills, haction] at hguard
    · cases hd
  | _ => cases hd

/-- Dispatching an event enqueues or at most replies. -/
theorem dispatchEvent_cases {a : AppAction} {event : NormalizedEvent}
    (dispatches : List NormalizedEvent) (hd : a.dispatched cfg s = some event)
    (h : { s with dispatches := dispatches }.dispatchEvent cfg event a.runId = some (s', es)) :
    AppCase cfg s a s' es := by
  have henqueue : ∀ cause, (cfg.trigger.decide event).cause? = some cause →
      { s with dispatches := dispatches }.coreStep cfg
        (.enqueue a.runId (cfg.trigger.decide event) cause) = some (s', es) →
      AppCase cfg s a s' es := by
    intro cause hcause hc
    obtain ⟨c, ces, hstep, rfl, rfl⟩ := coreStep_eq hc
    exact .enqueue ⟨hd, hcause⟩ hstep
  unfold dispatchEvent at h
  simp only at h
  split at h
  · rename_i haction
    exact henqueue .webhook (by simp [Decision.cause?, haction]) h
  · rename_i haction
    exact henqueue .webhook (by simp [Decision.cause?, haction]) h
  · rename_i haction
    split at h
    · cases h
      refine .chatter _ ?_
      intro e he
      exact ⟨_, _, List.mem_singleton.mp he, Or.inl rfl, rfl⟩
    · rename_i hreason
      exact henqueue .comment (by simp [Decision.cause?, haction, hreason]) h
  · cases h
    exact .chatter _ (by simp)
  · cases h
    exact .chatter _ (by simp)

/-- Ensuring a webhook publishes nothing. -/
theorem ensureWebhook_publishes {owner repo desired : String} {hooks : List Hook} {w : GitHubWrite}
    (h : ensureWebhook owner repo desired hooks = some w) : w.publishes = false := by
  unfold ensureWebhook at h
  split at h
  · cases h
    rfl
  · split at h <;> cases h
    rfl

/-- A step of the pipeline of a worker makes the scheduler go on or finish, silently. -/
theorem exec_silent {i : Nat} {next : ExecNext} {c : Sched ExecPc} {ces : List SchedEvent}
    (h : Sched.step cfg.sched s.core (ExecNext.action i next) = some (c, ces)) : ces = [] := by
  cases next with
  | goOn sha pc => cases Sched.step_cases h; rfl
  | finish out => cases Sched.step_cases h; rfl

/-- What `execMove` does with a step of `execute`. -/
theorem execMove_cases {i : Nat} {job : ReviewJob} {pc : ExecPc} {inp : ExecInput}
    (hw : s.core.workers[i]? = some (.busy job pc))
    (h : s.execMove cfg i job pc inp = some (s', es)) : AppCase cfg s (.exec i inp) s' es := by
  unfold execMove at h
  cases hm : execStep cfg.pipeline s.core.now s.cache s.staged job pc inp with
  | none => simp [hm] at h
  | some m =>
    have hcase := execStep_cases hm
    obtain ⟨next, cache, staged, events⟩ := m
    have hstep : ∀ {a : SchedAction ExecPc}, a = ExecNext.action i next →
        (({ s with cache := cache, staged := staged }.orphan
          (Worker.unaccepted (.busy job pc))).coreStep cfg a).map
            (fun r : App × List AppEvent => (r.1, events ++ r.2)) = some (s', es) →
        AppCase cfg s (.exec i inp) s' es := by
      intro a ha hc
      obtain ⟨c, ces, hcore, rfl, rfl⟩ := coreStep_map_eq hc
      rw [ha] at hcore
      have hsilent := exec_silent (s := s) hcore
      subst hsilent
      rw [List.map_nil, List.append_nil]
      exact .exec hw hcase hcore
    simp only [hm] at h
    cases next with
    | goOn sha pc' => exact hstep rfl h
    | finish out => exact hstep rfl h

/-- A task of a Slack payload does nothing, puts off an event, or asks for an approval. -/
theorem slackPayload_cases {payload : SlackPayload} (h : s.slackPayload cfg payload = (s', es)) :
    AppCase cfg s (.slack payload) s' es := by
  unfold slackPayload at h
  split at h
  · cases h
    exact .chatter s.dispatches (by simp)
  · cases h
    exact .chatter _ (by simp)
  · rename_i run otherwise summary hp
    have htarget : (ApprovalRequest.slack payload).target cfg =
        some (run, some otherwise, summary) := by
      simp only [ApprovalRequest.target, hp]
    have hcase := AppCase.ask (s := s) (a := .slack payload) rfl htarget
    rwa [h] at hcase

/-- The approve endpoint asks for an approval of the run in its path. -/
theorem approve_cases {run : RunId} {owner repo : Option String} {pr : Option Int}
    (h : s.ask (.endpoint run owner repo pr) run (jobOfQuery run owner repo pr)
      "Review Approved via Agent" = (s', es)) : AppCase cfg s (.approve run owner repo pr) s' es := by
  have htarget : (ApprovalRequest.endpoint run owner repo pr).target cfg =
      some (run, jobOfQuery run owner repo pr, "Review Approved via Agent") := rfl
  have hcase := AppCase.ask (s := s) (a := .approve run owner repo pr) rfl htarget
  rwa [h] at hcase

/-- The backfill dispatches the event of an open pull request, or leaves everything as it was. -/
theorem backfillPr_cases {spec : RepoSpec} {p : OpenPr} {r : RunId}
    (h : s.backfillPr cfg spec p r = some (s', es)) : AppCase cfg s (.backfill spec p r) s' es := by
  unfold backfillPr at h
  simp only at h
  split at h
  · rename_i hcond
    exact dispatchEvent_cases (a := .backfill spec p r) s.dispatches (if_pos hcond) h
  · cases h
    exact .chatter s.dispatches (by simp)

/-- What `publishMove` does with a step of a publication. -/
theorem publishMove_cases {k : Nat} {p : Approval} {inp : ApprovalInput}
    (hp : s.approvals[k]? = some p) (h : s.publishMove cfg k p inp = some (s', es)) :
    AppCase cfg s (.publish k inp) s' es := by
  unfold publishMove at h
  obtain ⟨m, hm, hres⟩ := Option.map_eq_some_iff.mp h
  cases hres
  exact .publish hp (approvalStep_cases hm)

/-- The death of the process is one of its scheduler. -/
theorem crash_cases (h : (s.crash.coreStep cfg .crash).map (fun r => (r.1, .crashed :: r.2)) =
    some (s', es)) : AppCase cfg s .crash s' es := by
  obtain ⟨c, ces, hstep, rfl, rfl⟩ := coreStep_map_eq (b := [.crashed]) h
  cases Sched.step_cases hstep with
  | crash hup => exact AppCase.crash (s := s) hup

/-- GitHub accepts the review of a worker that is sending one. -/
theorem acceptWorker_cases {i : Nat} (h : s.acceptWorker cfg i = some (s', es)) :
    AppCase cfg s (.acceptWorker i) s' es := by
  unfold acceptWorker at h
  split at h
  · rename_i job review pc hw
    split at h
    · rename_i pc' hpc
      obtain ⟨c, ces, hstep, rfl, rfl⟩ := coreStep_map_eq (b := [.accepted review.run]) h
      have hsilent : ces = [] := by cases Sched.step_cases hstep; rfl
      subst hsilent
      exact .acceptWorker hw hpc hstep
    · cases h
  · cases h

/-- GitHub accepts the review of a publication that is sending one. -/
theorem acceptApproval_cases {k : Nat} (h : s.acceptApproval k = some (s', es)) :
    AppCase cfg s (.acceptApproval k) s' es := by
  unfold acceptApproval at h
  split at h
  · rename_i p hp
    split at h
    · rename_i review pc hpc
      obtain ⟨pc', hpc', hres⟩ := Option.map_eq_some_iff.mp h
      cases hres
      exact .acceptApproval hp hpc hpc'
    · cases h
  · cases h

/-- **Every step of the application is one of these cases.** -/
theorem step_cases {a : AppAction} (h : step cfg s a = some (s', es)) : AppCase cfg s a s' es := by
  have hcore : ∀ {a : AppAction} {ca : SchedAction ExecPc}, s.coreStep cfg ca = some (s', es) →
      ca.background → AppCase cfg s a s' es := by
    intro a ca hc hb
    obtain ⟨c, ces, hstep, rfl, rfl⟩ := coreStep_eq hc
    exact .core hb hstep
  cases a with
  | tick d => exact hcore h trivial
  | watch i inp => exact hcore h trivial
  | wake i => exact hcore h trivial
  | timeout i => exact hcore h trivial
  | boot => exact hcore h trivial
  | exec i inp =>
    simp only [step] at h
    split at h
    · exact execMove_cases ‹_› h
    · cases h
  | webhook event =>
    simp only [step] at h
    split at h <;> cases h
    exact .chatter _ (by simp)
  | slack payload =>
    simp only [step] at h
    split at h
    · exact slackPayload_cases (Option.some.inj h)
    · cases h
  | approve run owner repo pr =>
    simp only [step] at h
    split at h
    · exact approve_cases (Option.some.inj h)
    · cases h
  | dispatch k r =>
    simp only [step] at h
    split at h
    · rename_i event hk
      exact dispatchEvent_cases (a := .dispatch k r) _ hk h
    · cases h
  | backfill spec p r =>
    simp only [step] at h
    split at h
    · exact backfillPr_cases h
    · cases h
  | publish k inp =>
    simp only [step] at h
    split at h
    · exact publishMove_cases ‹_› h
    · cases h
  | registrar spec tunnel hooks =>
    simp only [step] at h
    split at h <;> cases h
    refine .chatter s.dispatches ?_
    intro e he
    obtain ⟨w, hw, rfl⟩ := List.mem_map.mp he
    exact ⟨_, w, rfl, Or.inr rfl, ensureWebhook_publishes (by simpa using hw)⟩
  | crash => exact crash_cases h
  | push ref sha =>
    cases h
    exact .push ref sha
  | acceptWorker i => exact acceptWorker_cases h
  | acceptApproval k => exact acceptApproval_cases h
  | acceptOrphan k =>
    simp only [step] at h
    split at h <;> cases h
    exact .acceptOrphan ‹_›

/-- An approval request leaves the scheduler alone and is one event. -/
theorem ask_cases (request : ApprovalRequest) (run : RunId) (otherwise : Option ReviewJob)
    (summary : String) :
    (∃ job, (s.core.table.getJob run).or otherwise = some job ∧
        s.ask request run otherwise summary =
          ({ s with
              requests := s.requests + 1,
              approvals := s.approvals ++
                [{ number := s.requests, job := job, summary := summary }] },
            [.asked s.requests request (s.core.table.getJob run) (some job)])) ∨
      (s.core.table.getJob run).or otherwise = none ∧
        s.ask request run otherwise summary =
          ({ s with requests := s.requests + 1 },
            [.asked s.requests request (s.core.table.getJob run) none]) := by
  unfold ask
  cases h : (s.core.table.getJob run).or otherwise with
  | none =>
    right
    simp only [h, and_self]
  | some job =>
    left
    exact ⟨job, rfl, by simp only [h]⟩

/-- Where an event of a step comes from. -/
inductive EventCase (cfg : AppConfig) (s : App) (a : AppAction) (s' : App) (es : List AppEvent) :
    AppEvent → Prop
  | core {ca : SchedAction ExecPc} {ces : List SchedEvent} {ce : SchedEvent} :
      Sched.step cfg.sched s.core ca = some (s'.core, ces) → ce ∈ ces → es = ces.map .core →
      EventCase cfg s a s' es (.core ce)
  | chatter {origin : Origin} {w : GitHubWrite} : origin = .reply ∨ origin = .registrar →
      w.publishes = false → EventCase cfg s a s' es (.write origin w)
  | asked {request : ApprovalRequest} {stored job : Option ReviewJob} :
      EventCase cfg s a s' es (.asked s.requests request stored job)
  | fetched {i : Nat} {job : ReviewJob} {data : PrData} : a = .exec i (.pr (some data)) →
      s.core.workers[i]? = some (.busy job .fetchPr) → es = [.fetched job data] →
      EventCase cfg s a s' es (.fetched job data)
  | ran {i : Nat} {job : ReviewJob} {checkout diff model : String} :
      s.core.workers[i]? = some (.busy job (.fetchDiff checkout)) →
      es = [.ran job checkout diff model] → EventCase cfg s a s' es (.ran job checkout diff model)
  | staged {i : Nat} {job : ReviewJob} {checkout : String} {x : StagedReview} :
      s.core.workers[i]? = some (.busy job (.running checkout)) → es = [.staged job x] →
      cfg.slack = true → Sched.step cfg.sched s.core (.advance i none .notify) = some (s'.core, []) →
      EventCase cfg s a s' es (.staged job x)
  /-- a worker submits a review, or the comment that stands in for it -/
  | worker {i : Nat} {job : ReviewJob} {pc : ExecPc} {w : GitHubWrite} :
      s.core.workers[i]? = some (.busy job pc) → (w.publishes = true → cfg.slack = false) →
      EventCase cfg s a s' es (.write (.worker job.runId) w)
  | publishing {k : Nat} {p : Approval} {inp : ApprovalInput} {m : ApprovalMove} :
      s.approvals[k]? = some p →
      ApprovalCase cfg.pipeline s.staged (s.head p.job.ref) p inp m → es = m.events →
      EventCase cfg s a s' es
        (.publishing p.number p.job p.userApproved (s.staged.find p.job.runId))
  | approval {k : Nat} {p : Approval} {inp : ApprovalInput} {m : ApprovalMove} {w : GitHubWrite} :
      s.approvals[k]? = some p →
      ApprovalCase cfg.pipeline s.staged (s.head p.job.ref) p inp m → es = m.events →
      p.writes w ∈ es → EventCase cfg s a s' es (.write (.approval p.number) w)
  | crashed : EventCase cfg s a s' es .crashed
  | pushed {ref : PrRef} {sha : String} : EventCase cfg s a s' es (.pushed ref sha)
  | acceptedWorker {i : Nat} {job : ReviewJob} {review : Review} {pc pc' : SubmitPc} :
      s.core.workers[i]? = some (.busy job (.publishing review pc)) → pc.accept = some pc' →
      Sched.step cfg.sched s.core (.advance i none (.publishing review pc')) = some (s'.core, []) →
      es = [.accepted review.run] → EventCase cfg s a s' es (.accepted review.run)
  | acceptedApproval {k : Nat} {p : Approval} {review : Review} {pc : SubmitPc} :
      s.approvals[k]? = some p → p.pc = .submitting review pc →
      EventCase cfg s a s' es (.accepted review.run)
  | acceptedOrphan {k : Nat} {run : RunId} : a = .acceptOrphan k → s.orphans[k]? = some run →
      EventCase cfg s a s' es (.accepted run)

/-- **Every event of a step comes from one of these.** -/
theorem event_of_step {a : AppAction} (hstep : step cfg s a = some (s', es)) {e : AppEvent}
    (he : e ∈ es) : EventCase cfg s a s' es e := by
  cases step_cases hstep with
  | core _ hcore =>
    obtain ⟨ce, hce, rfl⟩ := List.mem_map.mp he
    exact .core hcore hce rfl
  | enqueue _ hcore =>
    obtain ⟨ce, hce, rfl⟩ := List.mem_map.mp he
    exact .core hcore hce rfl
  | chatter _ hes =>
    obtain ⟨origin, w, rfl, horigin, hpub⟩ := hes e he
    exact .chatter horigin hpub
  | @ask _ request run otherwise summary _ _ =>
    rcases ask_cases (s := s) request run otherwise summary with ⟨job, -, heq⟩ | ⟨-, heq⟩ <;>
      rw [heq] at he <;> cases List.mem_singleton.mp he <;> exact .asked
  | exec hw hm hcore =>
    cases hm with
    | prOver _ =>
      cases List.mem_singleton.mp he
      exact .fetched rfl hw rfl
    | looked _ =>
      cases List.mem_singleton.mp he
      exact .fetched rfl hw rfl
    | ran =>
      cases List.mem_singleton.mp he
      exact .ran hw rfl
    | staged hslack =>
      cases List.mem_singleton.mp he
      exact .staged hw rfl hslack hcore
    | publish hslack _ =>
      cases List.mem_singleton.mp he
      exact .worker hw fun _ => hslack
    | submitting hs =>
      obtain ⟨w, hw', rfl⟩ := List.mem_map.mp he
      refine .worker hw fun hpub => ?_
      rw [submitStep_writes hs w hw'] at hpub
      cases hpub
    | _ => exact absurd he List.not_mem_nil
  | @publish _ _ p _ hp hm =>
    rcases hm.start_or_write he with rfl | ⟨w, rfl⟩
    · exact .publishing hp hm rfl
    · exact .approval hp hm rfl he
  | crash _ =>
    cases List.mem_singleton.mp he
    exact .crashed
  | push _ _ =>
    cases List.mem_singleton.mp he
    exact .pushed
  | acceptWorker hw hpc hcore =>
    cases List.mem_singleton.mp he
    exact .acceptedWorker hw hpc hcore rfl
  | acceptApproval hp hpc _ =>
    cases List.mem_singleton.mp he
    exact .acceptedApproval hp hpc
  | acceptOrphan hk =>
    cases List.mem_singleton.mp he
    exact .acceptedOrphan rfl hk

/-- A request arrives by the step that deals with it; its job is the row of its run, or else the one
it brings along. -/
theorem asked_of_step {a : AppAction} (hstep : step cfg s a = some (s', es)) {n : Nat}
    {request : ApprovalRequest} {stored job : Option ReviewJob}
    (he : .asked n request stored job ∈ es) : es = [.asked n request stored job] ∧
      a.request = some request ∧ ∃ run otherwise given,
        request.target cfg = some (run, otherwise, given) ∧ stored = s.core.table.getJob run ∧
          job = stored.or otherwise := by
  have hcore : ∀ {ces : List SchedEvent}, .asked n request stored job ∉ ces.map AppEvent.core := by
    intro ces hmem
    obtain ⟨ce, -, heq⟩ := List.mem_map.mp hmem
    cases heq
  cases step_cases hstep with
  | core _ _ => exact absurd he hcore
  | enqueue _ _ => exact absurd he hcore
  | chatter _ hes =>
    obtain ⟨origin, w, heq, -, -⟩ := hes _ he
    cases heq
  | @ask _ request' run otherwise given hrequest htarget =>
    rcases ask_cases (s := s) request' run otherwise given with ⟨job', hjob, heq⟩ | ⟨hjob, heq⟩ <;>
      rw [heq] at he ⊢ <;> cases List.mem_singleton.mp he <;>
      exact ⟨rfl, hrequest, run, otherwise, given, htarget, rfl, hjob.symm⟩
  | exec _ hm _ =>
    cases hm with
    | prOver _ | looked _ | ran | staged _ | publish _ _ => cases List.mem_singleton.mp he
    | submitting _ =>
      obtain ⟨w, -, heq⟩ := List.mem_map.mp he
      cases heq
    | _ => cases he
  | publish _ hm => rcases hm.start_or_write he with heq | ⟨w, heq⟩ <;> cases heq
  | _ => cases List.mem_singleton.mp he

/-- Why worker `j` is busy after a step. -/
inductive BusyCase (cfg : AppConfig) (s : App) (a : AppAction) (es : List AppEvent) (j : Nat) :
    ReviewJob → ExecPc → Prop
  /-- its pipeline has not moved -/
  | same {job : ReviewJob} {pc : ExecPc} : s.core.workers[j]? = some (.busy job pc) →
      BusyCase cfg s a es j job pc
  /-- its pipeline has gone on -/
  | moved {inp : ExecInput} {job : ReviewJob} {pc pc' : ExecPc} {sha : Option (Option String)}
      {m : ExecMove} : a = .exec j inp → s.core.workers[j]? = some (.busy job pc) →
      ExecCase cfg.pipeline s.core.now s.cache s.staged job pc inp m → m.next = .goOn sha pc' →
      es = m.events → BusyCase cfg s a es j (job.fill sha) pc'
  /-- GitHub has accepted its review -/
  | accepted {job : ReviewJob} {review : Review} {pc pc' : SubmitPc} : a = .acceptWorker j →
      s.core.workers[j]? = some (.busy job (.publishing review pc)) → pc.accept = some pc' →
      BusyCase cfg s a es j job (.publishing review pc')
  /-- it has just claimed its job, perhaps after the end of another call -/
  | claimed {job : ReviewJob} {t : Sched ExecPc} :
      (t = s.core ∨ ∃ inp job' pc m out, a = .exec j inp ∧
        s.core.workers[j]? = some (.busy job' pc) ∧
        ExecCase cfg.pipeline s.core.now s.cache s.staged job' pc inp m ∧ m.next = .finish out ∧
        t = (s.core.settle cfg.sched job' out).release j) →
      job ∈ t.queue → t.table.statusOf job.runId = some .queued →
      BusyCase cfg s a es j job .start

/-- **A worker that is busy after a step is so for one of these reasons.** -/
theorem busy_of_step {a : AppAction} (hstep : step cfg s a = some (s', es)) {j : Nat}
    {job : ReviewJob} {pc : ExecPc} (hw : s'.core.workers[j]? = some (.busy job pc)) :
    BusyCase cfg s a es j job pc := by
  -- a step of the scheduler that is not one of this worker's pipeline
  have hother : ∀ {a : AppAction} {es : List AppEvent} {ca : SchedAction ExecPc} {c : Sched ExecPc}
      {ces : List SchedEvent}, Sched.step cfg.sched s.core ca = some (c, ces) →
      (∀ sha pc, ca ≠ .advance j sha pc) → (∀ out, ca ≠ .finish j out) →
      c.workers[j]? = some (.busy job pc) → BusyCase cfg s a es j job pc := by
    intro a es ca c ces hcore hadv hfin hw
    rcases Sched.step_busy hcore hw with
      ⟨hw, -⟩ | ⟨sha, _, _, heq, -⟩ | ⟨t, rfl | ⟨out, _, _, heq, -⟩, hq, hst, rfl⟩
    · exact .same hw
    · exact absurd heq (hadv sha pc)
    · exact .claimed (Or.inl rfl) hq hst
    · exact absurd heq (hfin out)
  cases step_cases hstep with
  | core hb hcore =>
    refine hother hcore ?_ ?_ hw
    · rintro sha pc rfl
      exact hb
    · rintro out rfl
      exact hb
  | enqueue _ hcore => exact hother hcore (by simp) (by simp) hw
  | chatter _ _ => exact .same hw
  | @ask _ request run otherwise summary _ _ =>
    rcases ask_cases (s := s) request run otherwise summary with ⟨job', -, heq⟩ | ⟨-, heq⟩ <;>
      rw [heq] at hw <;> exact .same hw
  | @exec i inp job₀ pc₀ m c hw₀ hm hcore =>
    by_cases hij : j = i
    · subst hij
      rcases Sched.step_busy hcore hw with
        ⟨-, hadv, hfin⟩ | ⟨sha, _, _, heq, hw', rfl⟩ | ⟨t, rfl | ⟨out, _, _, heq, hw', rfl⟩, hq, hst, rfl⟩
      · cases hnext : m.next with
        | goOn sha pc' => exact absurd (by rw [hnext]; rfl) (hadv sha pc')
        | finish out => exact absurd (by rw [hnext]; rfl) (hfin out)
      · cases hnext : m.next with
        | goOn sha' pc' =>
          rw [hnext] at heq
          cases heq
          rw [hw₀] at hw'
          cases hw'
          exact .moved rfl hw₀ hm hnext rfl
        | finish out =>
          rw [hnext] at heq
          cases heq
      · exact .claimed (Or.inl rfl) hq hst
      · cases hnext : m.next with
        | goOn sha' pc' =>
          rw [hnext] at heq
          cases heq
        | finish out' =>
          rw [hnext] at heq
          cases heq
          rw [hw₀] at hw'
          cases hw'
          exact .claimed (Or.inr ⟨_, _, _, _, _, rfl, hw₀, hm, hnext, rfl⟩) hq hst
    · refine hother hcore ?_ ?_ hw
      · intro sha pc heq
        cases hnext : m.next <;> rw [hnext] at heq <;> cases heq
        exact hij rfl
      · intro out heq
        cases hnext : m.next <;> rw [hnext] at heq <;> cases heq
        exact hij rfl
  | publish _ _ => exact .same hw
  | crash _ => exact absurd hw (by simp [Sched.crash])
  | push _ _ => exact .same hw
  | @acceptWorker i job₀ review pc₀ pc₁ c hw₀ hpc hcore =>
    by_cases hij : j = i
    · subst hij
      rcases Sched.step_busy hcore hw with
        ⟨-, hadv, -⟩ | ⟨sha, _, _, heq, hw', rfl⟩ | ⟨t, rfl | ⟨out, _, _, heq, -⟩, hq, hst, rfl⟩
      · exact absurd rfl (hadv _ _)
      · cases heq
        rw [hw₀] at hw'
        cases hw'
        exact .accepted rfl hw₀ hpc
      · exact .claimed (Or.inl rfl) hq hst
      · cases heq
    · refine hother hcore ?_ (by simp) hw
      intro sha pc heq
      cases heq
      exact hij rfl
  | acceptApproval _ _ _ => exact .same hw
  | acceptOrphan _ => exact .same hw

/-! ## The refinement -/

/-- **A step of the application makes at most one step of its scheduler**: a call of the
pipeline that ends there ends as the real pipeline does, and what is enqueued there is an event
that the step dispatches. -/
theorem AppCase.core_step {a : AppAction} (h : AppCase cfg s a s' es) :
    (s'.core = s.core ∧ es.filterMap AppEvent.core? = []) ∨
      ∃ ca, Sched.step cfg.sched s.core ca = some (s'.core, es.filterMap AppEvent.core?) ∧
        (∀ i out, ca = .finish i out → out.EndsIn RealEnd) ∧
        ∀ r d cause, ca = .enqueue r d cause → es = (es.filterMap AppEvent.core?).map .core ∧
          ∃ event, s.Enqueues cfg a event cause ∧ d = cfg.trigger.decide event ∧ r = a.runId := by
  cases h with
  | @core a ca c ces hb hstep =>
    refine Or.inr ⟨ca, by rw [filterMap_core]; exact hstep, ?_, ?_⟩
    · intro i out hca
      rw [hca] at hb
      exact absurd hb id
    · intro r d cause hca
      rw [hca] at hb
      exact absurd hb id
  | enqueue hcause hstep =>
    refine Or.inr ⟨_, by rw [filterMap_core]; exact hstep, ?_, ?_⟩
    · intro i out hca
      cases hca
    · intro r d cause hca
      cases hca
      exact ⟨by rw [filterMap_core], _, hcause, rfl, rfl⟩
  | chatter dispatches hes =>
    refine Or.inl ⟨rfl, ?_⟩
    rw [List.filterMap_eq_nil_iff]
    intro e he
    obtain ⟨origin, w, rfl, -, -⟩ := hes e he
    rfl
  | @ask _ request run otherwise summary _ htarget =>
    left
    rcases ask_cases (s := s) request run otherwise summary with ⟨job, -, h⟩ | ⟨-, h⟩ <;>
      rw [h] <;> exact ⟨rfl, rfl⟩
  | @exec i inp job pc m c hw hm hstep =>
    refine Or.inr ⟨ExecNext.action i m.next, by rw [hm.filterMap_core]; exact hstep, ?_, ?_⟩
    · intro j out hca
      refine hm.endsIn ?_
      cases hnext : m.next with
      | goOn sha pc' =>
        rw [hnext] at hca
        cases hca
      | finish out' =>
        rw [hnext] at hca
        cases hca
        rfl
    · intro r d cause hca
      cases hnext : m.next <;> rw [hnext] at hca <;> cases hca
  | publish hp hm => exact Or.inl ⟨rfl, hm.filterMap_core⟩
  | crash hup =>
    refine Or.inr ⟨.crash, ?_, ?_, ?_⟩
    · simp [Sched.step, hup, AppEvent.core?]
    · intro i out hca
      cases hca
    · intro r d cause hca
      cases hca
  | push ref sha => exact Or.inl ⟨rfl, rfl⟩
  | acceptWorker hw hpc hstep =>
    refine Or.inr ⟨_, hstep, ?_, ?_⟩
    · intro i out hca
      cases hca
    · intro r d cause hca
      cases hca
  | acceptApproval hp hpc hpc' => exact Or.inl ⟨rfl, rfl⟩
  | acceptOrphan ho => exact Or.inl ⟨rfl, rfl⟩

/-- An issued id stays issued. -/
theorem issued_of_step {a : AppAction} (hstep : step cfg s a = some (s', es)) {r : RunId}
    (hr : r ∈ s.core.issued) : r ∈ s'.core.issued := by
  rcases (step_cases hstep).core_step with ⟨hs, -⟩ | ⟨ca, hca, -⟩
  · rw [hs]
    exact hr
  · exact Sched.issued_mono hca hr

variable {D : Machine.Discipline App AppAction AppEvent} {h : List AppEvent}

/-- **The refinement.** The scheduler of a reached application is reached by the scheduler of a
new installation, with calls of the pipeline that end as the real ones do. -/
theorem reaches_core (hr : (machine cfg).Reaches D s h) :
    (Sched.newMachine cfg.sched).Reaches (Sched.endsIn RealEnd) s.core
      (h.filterMap AppEvent.core?) := by
  refine Machine.Reaches.simulate App.core AppEvent.core? ?_ ?_ hr
  · intro s hs
    exact New.core hs
  intro s h a s' es _ hcore _ hstep
  rcases (step_cases hstep).core_step with ⟨hs, hes⟩ | ⟨ca, hca, hout, -⟩
  · rw [hs, hes, List.append_nil]
    exact hcore
  · exact .step hcore hout hca

/-- An event of the scheduler in an application's history. -/
theorem mem_core_history {e : SchedEvent} :
    e ∈ h.filterMap AppEvent.core? ↔ AppEvent.core e ∈ h := by
  rw [List.mem_filterMap]
  constructor
  · rintro ⟨x, hx, hxe⟩
    cases x <;> simp only [AppEvent.core?, reduceCtorEq, Option.some.injEq] at hxe
    exact hxe ▸ hx
  · intro he
    exact ⟨_, he, rfl⟩

end App

end PrReviewer.Model
