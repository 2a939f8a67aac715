import PrReviewer.Analysis.Lineage
import PrReviewer.Analysis.PipelineSteps

/-!
# Approvals

What the history of an application says about each call of `publish_approved_review`: the
request it answers, the job it is for, and what it publishes. `Booked` is the invariant; that
nothing is published without an approval, and that an approval publishes what was staged for
its run, if anything was, are read off it.
-/

set_option autoImplicit false

namespace PrReviewer.Model

open PrReviewer.Library

/-! ## What the events are about -/

namespace AppEvent

/-- The event is the start or a write of the publication for the request `n`. -/
def By (n : Nat) : AppEvent → Prop
  | .publishing m _ _ _ => m = n
  | .write (.approval m) _ => m = n
  | _ => False

/-- The event is the arrival of the request `n`. -/
def Asks (n : Nat) : AppEvent → Prop
  | .asked m _ _ _ => m = n
  | _ => False

/-- A review is staged for the run. -/
def stages (r : RunId) : AppEvent → Bool
  | .staged job _ => job.runId == r
  | _ => false

/-- An event belongs to one publication only. -/
theorem By.unique {e : AppEvent} {n m : Nat} (hn : e.By n) (hm : e.By m) : n = m := by
  cases e with
  | publishing _ _ _ _ => exact hn.symm.trans hm
  | write origin _ =>
    cases origin with
    | approval _ => exact hn.symm.trans hm
    | _ => exact absurd hn id
  | _ => exact absurd hn id

/-- A step of a publication asks for none. -/
theorem By.not_asks {e : AppEvent} {n m : Nat} (hn : e.By n) : ¬ e.Asks m := by
  cases e with
  | asked _ _ _ _ => exact absurd hn id
  | _ => exact id

/-- After this event the review that was staged for the run is not there, or not the latest. -/
def Unstages (r : RunId) : AppEvent → Prop
  | .staged job _ => job.runId = r
  | .publishing _ job _ _ => job.runId = r
  | .crashed => True
  | _ => False

end AppEvent

/-- The latest review of the job's run, staged for this job. -/
def Reviewed (h : List AppEvent) (job : ReviewJob) (x : StagedReview) : Prop :=
  Since (fun _ e => e = .staged job x) (fun e => e.stages job.runId = false) h

/-- The review is the last one staged for the run; no publication has taken it and the process
has not died since. -/
def LastStaged (h : List AppEvent) (r : RunId) (x : StagedReview) : Prop :=
  Since (fun _ e => ∃ job, e = .staged job x ∧ job.runId = r) (fun e => ¬ e.Unstages r) h

/-- Nothing is staged before the first event. -/
theorem not_lastStaged_nil {r : RunId} {x : StagedReview} : ¬ LastStaged [] r x :=
  not_since_nil

/-- One more event stages the review, or leaves it where it is. -/
theorem lastStaged_snoc {h : List AppEvent} {e : AppEvent} {r : RunId} {x : StagedReview} :
    LastStaged (h ++ [e]) r x ↔
      (∃ job, e = .staged job x ∧ job.runId = r) ∨ LastStaged h r x ∧ ¬ e.Unstages r :=
  since_snoc

/-- Events that take nothing from the staged reviews leave the last one staged. -/
theorem lastStaged_append {h es : List AppEvent} {r : RunId} {x : StagedReview}
    (hes : ∀ e ∈ es, ¬ e.Unstages r) : LastStaged (h ++ es) r x ↔ LastStaged h r x := by
  refine (since_append ?_).trans (and_iff_left hes)
  rintro before e he ⟨job, rfl, hid⟩
  exact hes _ he hid

/-- Events that unstage nothing leave what is staged for a run as it was. -/
theorem staged_append {staged : StagedReviews} {h es : List AppEvent} {r : RunId}
    {x : StagedReview} (hstaged : staged.find r = some x ↔ LastStaged h r x)
    (hes : ∀ e ∈ es, ¬ e.Unstages r) :
    staged.find r = some x ↔ LastStaged (h ++ es) r x := by
  rw [lastStaged_append hes]
  exact hstaged

/-! ## Requests -/

/-- An approval request: the endpoint, the approve button, or a message that says so. -/
def ApprovalRequest.Genuine (cfg : AppConfig) : ApprovalRequest → Prop
  | .endpoint _ _ _ _ => True
  | .slack (.eventCallback _ text) =>
    hasText "approve".toList (cfg.unicode.lower text.toList) = true
  | .slack (.blockActions value) => "approve_".toList.isPrefixOf value.toList = true
  | .slack .other => False

/-- Only an approval request asks for an approval. -/
theorem ApprovalRequest.genuine_of_target {cfg : AppConfig} {request : ApprovalRequest}
    {t : RunId × Option ReviewJob × String} (h : request.target cfg = some t) :
    request.Genuine cfg := by
  cases request with
  | endpoint run owner repo pr => trivial
  | slack payload =>
    unfold ApprovalRequest.target at h
    cases payload with
    | eventCallback type text =>
      simp only [TriggerDecisionEngine.processSlackEventPayload] at h
      split at h
      · rename_i run job summary hp
        split at hp
        · split at hp
          · cases hp
          · simp only [TriggerDecisionEngine.slackMessage] at hp
            split at hp
            · cases hp
            · split at hp
              · rename_i happrove
                exact happrove
              · cases hp
        · cases hp
      · cases h
    | blockActions value =>
      simp only [TriggerDecisionEngine.processSlackEventPayload] at h
      split at h
      · rename_i run job summary hp
        simp only [TriggerDecisionEngine.slackButton] at hp
        split at hp
        · split at hp
          · cases hp
          · split at hp <;> cases hp
        · split at hp
          · rename_i happrove
            exact happrove
          · cases hp
      · cases h
    | other => cases h

/-- The job a request brings along is one of the run it asks for. -/
theorem ApprovalRequest.runId_of_target {cfg : AppConfig} {request : ApprovalRequest}
    {run : RunId} {job : ReviewJob} {given : String}
    (h : request.target cfg = some (run, some job, given)) : job.runId = run := by
  cases request with
  | endpoint run' owner repo pr =>
    simp only [ApprovalRequest.target, Option.some.injEq, Prod.mk.injEq] at h
    obtain ⟨rfl, hjob, -⟩ := h
    unfold App.jobOfQuery at hjob
    split at hjob
    · rw [← Option.some.inj hjob]
    · cases hjob
  | slack payload =>
    simp only [ApprovalRequest.target] at h
    split at h
    · rename_i run' job' summary hp
      cases h
      exact (slack_approve_job hp).1
    · cases h

/-- The request `n` asked for an approval of this job, through a channel with this summary. The
job is the row of its run, for the pull request and the head the run was enqueued with, or
else what the channel makes of the request. -/
def Requested (cfg : AppConfig) (h : List AppEvent) (n : Nat) (job : ReviewJob)
    (given : String) : Prop :=
  ∃ request stored otherwise, .asked n request stored (some job) ∈ h ∧
    request.target cfg = some (job.runId, otherwise, given) ∧
    ((stored = some job ∧ ∃ job₀, .core (.inserted job₀) ∈ h ∧ SameTarget job₀ job) ∨
      stored = none ∧ otherwise = some job)

/-- What the publication of a job writes, with this summary and these findings. -/
inductive Publication (job : ReviewJob) (c : StagedReview) : GitHubWrite → Prop
  | review : Publication job c (.submitReview (reviewOf job c.summary c.findings .approve))
  /-- the comment that stands in for the review -/
  | comment : Publication job c (commentOn job.ref (c.summary ++ reviewMarker job.runId))
  | ready : Publication job c (.markReady job.ref job.runId)
  | merge (head : String) : Publication job c (.mergePr job.ref job.runId head)

/-- What the history says about a publication. -/
structure Handled (cfg : AppConfig) (h : List AppEvent) (p : Approval) : Prop where
  requested : Requested cfg h p.number p.job p.summary
  /-- the arguments that every caller gives -/
  arguments : p.findings = some [] ∧ p.isDraft = true
  fresh : p.pc = .created → ∀ e ∈ h, ¬ e.By p.number
  allowed : p.pc ≠ .created → p.pc ≠ .ended → p.blocked cfg.config = false
  started : p.pc ≠ .created → ∃ taken,
    .publishing p.number p.job p.userApproved taken ∈ h ∧
      ∀ review pc, p.pc = .submitting review pc → review = p.review taken

/-- The requests have different numbers, and every publication is for one of them. -/
structure Booked (cfg : AppConfig) (s : App) (h : List AppEvent) : Prop where
  numbered : ∀ e n, e ∈ h → e.By n ∨ e.Asks n → n < s.requests
  distinct : (s.approvals.map Approval.number).Nodup
  handled : ∀ p ∈ s.approvals, Handled cfg h p
  staged : ∀ r x, s.staged.find r = some x ↔ LastStaged h r x

variable {cfg : AppConfig} {h es : List AppEvent} {p q : Approval} {k n : Nat}

/-- A publication that was asked for stays asked for. -/
theorem Requested.mono {job : ReviewJob} {given : String} (hr : Requested cfg h n job given) :
    Requested cfg (h ++ es) n job given := by
  obtain ⟨request, stored, otherwise, hasked, htarget, hjob⟩ := hr
  refine ⟨request, stored, otherwise, List.mem_append_left _ hasked, htarget, ?_⟩
  rcases hjob with ⟨hstored, job₀, hj₀, hsame⟩ | hjob
  · exact Or.inl ⟨hstored, job₀, List.mem_append_left _ hj₀, hsame⟩
  · exact Or.inr hjob

/-- What others do does not change what the history says about a publication. -/
theorem Handled.mono (hp : Handled cfg h p) (hes : ∀ e ∈ es, ¬ e.By p.number) :
    Handled cfg (h ++ es) p := by
  constructor
  · exact hp.requested.mono
  · exact hp.arguments
  · intro hpc e he
    rcases List.mem_append.mp he with he | he
    · exact hp.fresh hpc e he
    · exact hes e he
  · exact hp.allowed
  · intro hpc
    obtain ⟨taken, htaken, hreview⟩ := hp.started hpc
    exact ⟨taken, List.mem_append_left _ htaken, hreview⟩

/-- The publications after one of them has made a step are it and those with other numbers. -/
theorem mem_set_publication {l : List Approval} (hl : (l.map Approval.number).Nodup)
    (hk : l[k]? = some p) {p' : Approval} (hq : q ∈ l.set k p') :
    q = p' ∨ q ∈ l ∧ q.number ≠ p.number := by
  obtain ⟨j, hj⟩ := List.mem_iff_getElem?.mp hq
  by_cases hjk : j = k
  · left
    subst hjk
    rw [List.getElem?_set_self'] at hj
    obtain ⟨x, -, hx⟩ := Option.map_eq_some_iff.mp hj
    exact hx.symm
  · right
    rw [List.getElem?_set_ne (Ne.symm hjk)] at hj
    refine ⟨List.mem_of_getElem? hj, fun heq => hjk ?_⟩
    have hlt : j < (l.map Approval.number).length := by
      rw [List.length_map]
      exact (List.getElem?_eq_some_iff.mp hj).1
    refine (List.getElem?_inj hlt hl).mp ?_
    rw [List.getElem?_map, List.getElem?_map, hj, hk, Option.map_some, Option.map_some, heq]

/-- A step of a publication keeps its number. -/
theorem map_number_set {l : List Approval} (hk : l[k]? = some p) {p' : Approval}
    (hn : p'.number = p.number) : (l.set k p').map Approval.number = l.map Approval.number := by
  apply List.ext_getElem?
  intro j
  rw [List.getElem?_map, List.getElem?_map]
  by_cases hjk : j = k
  · subst hjk
    rw [List.getElem?_set_self', hk]
    exact congrArg some hn
  · rw [List.getElem?_set_ne (Ne.symm hjk)]

/-! ## A publication's step -/

section Step

variable {pcfg : PipelineConfig} {staged : StagedReviews} {head : String} {inp : ApprovalInput}
  {m : ApprovalMove}

/-- Every event of a publication's step is the publication's. -/
theorem ApprovalCase.by (hm : ApprovalCase pcfg staged head p inp m) :
    ∀ e ∈ m.events, e.By p.number := by
  cases hm with
  | submitting _ _ =>
    intro e he
    obtain ⟨w, -, rfl⟩ := List.mem_map.mp he
    rfl
  | _ =>
    simp [Approval.writes, AppEvent.By]

/-- A publication that moves is no longer at its start. -/
theorem ApprovalCase.not_created (hm : ApprovalCase pcfg staged head p inp m) :
    m.pc ≠ .created := by
  cases hm with
  | finish _ _ hpc => rcases hpc with hpc | hpc | ⟨methods, hpc⟩ <;> simp [hpc]
  | _ => simp

/-- A publication takes away what is staged for its run when it starts, and nothing else. -/
theorem ApprovalCase.staged_iff (hm : ApprovalCase pcfg staged head p inp m)
    (hstaged : ∀ r x, staged.find r = some x ↔ LastStaged h r x) (r : RunId) (x : StagedReview) :
    m.staged.find r = some x ↔ LastStaged (h ++ m.events) r x := by
  have hstart : ∀ {e : AppEvent} {es : List AppEvent}, (∀ r, e.Unstages r ↔ p.job.runId = r) →
      (∀ job x, e ≠ .staged job x) → (∀ e ∈ es, ¬ e.Unstages r) →
      ((staged.drop p.job.runId).find r = some x ↔ LastStaged (h ++ e :: es) r x) := by
    intro e es he hne hes
    rw [List.append_cons, lastStaged_append hes, lastStaged_snoc, he r,
      StagedReviews.find_drop]
    by_cases hr : r = p.job.runId
    · simp [hr, hne]
    · simp [hr, hne, Ne.symm hr, hstaged]
  cases hm with
  | blocked _ _ => exact hstart (fun r => Iff.rfl) (by simp) (by simp)
  | started _ _ _ =>
    exact hstart (fun r => Iff.rfl) (by simp)
      (by simp [Approval.writes, AppEvent.Unstages])
  | submitting _ _ =>
    refine staged_append (hstaged r x) fun e he => ?_
    obtain ⟨w, -, rfl⟩ := List.mem_map.mp he
    exact id
  | _ => exact staged_append (hstaged r x) (by simp [Approval.writes, AppEvent.Unstages])

/-- What the history says about a publication after its step. -/
theorem ApprovalCase.handled (hm : ApprovalCase cfg.pipeline staged head p inp m)
    (hp : Handled cfg h p) : Handled cfg (h ++ m.events) { p with pc := m.pc } := by
  have hstarted : p.pc ≠ .created → ∃ taken,
      .publishing p.number p.job p.userApproved taken ∈ h ++ m.events ∧
        ∀ review pc, p.pc = .submitting review pc → review = p.review taken := by
    intro hpc
    obtain ⟨taken, htaken, hreview⟩ := hp.started hpc
    exact ⟨taken, List.mem_append_left _ htaken, hreview⟩
  refine ⟨hp.requested.mono, hp.arguments, fun hpc => absurd hpc hm.not_created, ?_, ?_⟩
  · intro _ hended
    have hallowed : p.pc ≠ .created → p.pc ≠ .ended → p.blocked cfg.config = false := hp.allowed
    cases hm with
    | blocked _ _ => exact absurd rfl hended
    | started _ hblocked _ => exact hblocked
    | submitting hpc _ => exact hallowed (by simp [hpc]) (by simp [hpc])
    | promote hpc _ => exact hallowed (by simp [hpc]) (by simp [hpc])
    | submitFailed _ _ => exact absurd rfl hended
    | merge _ hpc =>
      rcases hpc with ⟨review, pc, hpc⟩ | hpc
      · exact hallowed (by simp [hpc]) (by simp [hpc])
      · exact hallowed (by simp [hpc]) (by simp [hpc])
    | finish hpc hpc₀ _ => exact hallowed hpc hpc₀
  · intro _
    cases hm with
    | blocked _ _ =>
      exact ⟨_, List.mem_append_right _ (List.mem_singleton.mpr rfl), by simp⟩
    | @started review _ _ hreview =>
      refine ⟨_, List.mem_append_right _ List.mem_cons_self, fun review' pc hpc => ?_⟩
      cases hpc
      exact hreview
    | @submitting review pc pc' _ _ hpc _ =>
      obtain ⟨taken, htaken, hreview⟩ := hstarted (by simp [hpc])
      refine ⟨taken, htaken, fun review' pc'' hpc' => ?_⟩
      cases hpc'
      exact hreview review pc hpc
    | promote hpc _ =>
      obtain ⟨taken, htaken, -⟩ := hstarted (by simp [hpc])
      exact ⟨taken, htaken, by simp⟩
    | submitFailed hpc _ =>
      obtain ⟨taken, htaken, -⟩ := hstarted (by simp [hpc])
      exact ⟨taken, htaken, by simp⟩
    | merge _ hpc =>
      obtain ⟨taken, htaken, -⟩ := hstarted (by rcases hpc with ⟨_, _, hpc⟩ | hpc <;> simp [hpc])
      exact ⟨taken, htaken, by simp⟩
    | finish hpc _ hpc' =>
      obtain ⟨taken, htaken, -⟩ := hstarted hpc
      refine ⟨taken, htaken, fun review pc heq => ?_⟩
      rcases hpc' with hpc' | hpc' | ⟨methods, hpc'⟩ <;> rw [hpc'] at heq <;> cases heq

end Step

/-! ## The application's step -/

/-- The event is of no request and of no publication. -/
def AppEvent.Quiet (e : AppEvent) : Prop :=
  ∀ n, ¬ e.By n ∧ ¬ e.Asks n

/-- Chatter neither asks nor publishes. -/
theorem AppEvent.Chatter.quiet {e : AppEvent} (he : e.Chatter) : e.Quiet := by
  obtain ⟨origin, w, rfl, rfl | rfl, -⟩ := he <;> exact fun n => ⟨id, id⟩

/-- The scheduler's events neither ask, publish nor take a staged review. -/
theorem quiet_of_mem_core {ces : List SchedEvent} {e : AppEvent} (he : e ∈ ces.map AppEvent.core) :
    e.Quiet ∧ ∀ r, ¬ e.Unstages r := by
  obtain ⟨ce, -, rfl⟩ := List.mem_map.mp he
  exact ⟨fun n => ⟨id, id⟩, fun r => id⟩

section Exec

variable {pcfg : PipelineConfig} {now : Nat} {cache : Cache} {staged : StagedReviews}
  {job : ReviewJob} {pc : ExecPc} {inp : ExecInput} {m : ExecMove}

/-- A pipeline call neither asks nor publishes on behalf of an approval. -/
theorem ExecCase.quiet (hm : ExecCase pcfg now cache staged job pc inp m) :
    ∀ e ∈ m.events, e.Quiet := by
  cases hm with
  | submitting _ =>
    intro e he
    obtain ⟨w, -, rfl⟩ := List.mem_map.mp he
    exact fun n => ⟨id, id⟩
  | _ => simp [AppEvent.Quiet, AppEvent.By, AppEvent.Asks]

/-- The pipeline of a worker stages the review of its run, and leaves the others alone. -/
theorem ExecCase.staged_iff (hm : ExecCase pcfg now cache staged job pc inp m)
    (hstaged : ∀ r x, staged.find r = some x ↔ LastStaged h r x) (r : RunId) (x : StagedReview) :
    m.staged.find r = some x ↔ LastStaged (h ++ m.events) r x := by
  cases hm with
  | staged _ =>
    rw [lastStaged_snoc, StagedReviews.find_stage]
    by_cases hr : r = job.runId
    · simp [hr, AppEvent.Unstages]
    · simp [hr, Ne.symm hr, AppEvent.Unstages, hstaged]
  | submitting _ =>
    refine staged_append (hstaged r x) fun e he => ?_
    obtain ⟨w, -, rfl⟩ := List.mem_map.mp he
    exact id
  | _ => exact staged_append (hstaged r x) (by simp [AppEvent.Unstages])

end Exec

variable {s s' : App} {a : AppAction}

/-- The books are kept by a step that neither asks nor publishes. -/
theorem Booked.quiet (hb : Booked cfg s h) (hes : ∀ e ∈ es, e.Quiet)
    (hreq : s'.requests = s.requests) (happ : s'.approvals = s.approvals ∨ s'.approvals = [])
    (hstaged : ∀ r x, s'.staged.find r = some x ↔ LastStaged (h ++ es) r x) :
    Booked cfg s' (h ++ es) := by
  constructor
  · intro e n he hn
    rw [hreq]
    rcases List.mem_append.mp he with he | he
    · exact hb.numbered e n he hn
    · exact absurd hn (not_or.mpr (hes e he n))
  · rcases happ with happ | happ <;> rw [happ]
    · exact hb.distinct
    · exact List.nodup_nil
  · intro p hp
    rcases happ with happ | happ <;> rw [happ] at hp
    · exact (hb.handled p hp).mono fun e he => (hes e he p.number).1
    · exact absurd hp List.not_mem_nil
  · exact hstaged

/-- The job of an approval request is that of its row, which stems from an insertion, or the one
the request names. -/
theorem job_of_ask (hl : Sched.Lineage s.core (h.filterMap AppEvent.core?))
    {request : ApprovalRequest} {run : RunId} {otherwise : Option ReviewJob} {summary : String}
    {job : ReviewJob} (htarget : request.target cfg = some (run, otherwise, summary))
    (hjob : (s.core.table.getJob run).or otherwise = some job) :
    job.runId = run ∧
      ((s.core.table.getJob run = some job ∧
          ∃ job₀, .core (.inserted job₀) ∈ h ∧ SameTarget job₀ job) ∨
        s.core.table.getJob run = none ∧ otherwise = some job) := by
  cases hrow : s.core.table.getJob run with
  | none =>
    rw [hrow, Option.none_or] at hjob
    subst hjob
    exact ⟨ApprovalRequest.runId_of_target htarget, Or.inr ⟨rfl, rfl⟩⟩
  | some job' =>
    rw [hrow, Option.some_or] at hjob
    cases hjob
    obtain ⟨row, hrow', rfl⟩ := Option.map_eq_some_iff.mp hrow
    obtain ⟨hmem, hid⟩ := RunTable.row?_eq_some.mp hrow'
    obtain ⟨job₀, hj₀, hsame⟩ := hl.onRecord row.job (Or.inl ⟨row, hmem, rfl⟩)
    exact ⟨hid, Or.inl ⟨rfl, job₀, App.mem_core_history.mp hj₀, hsame⟩⟩

/-- The books are kept by an approval request. -/
theorem Booked.ask (hb : Booked cfg s h)
    (hl : Sched.Lineage s.core (h.filterMap AppEvent.core?)) {request : ApprovalRequest}
    {run : RunId} {otherwise : Option ReviewJob} {summary : String}
    (htarget : request.target cfg = some (run, otherwise, summary)) :
    Booked cfg (s.ask request run otherwise summary).1
      (h ++ (s.ask request run otherwise summary).2) := by
  have hnew : ∀ e ∈ h, ¬ e.By s.requests := fun e he hby =>
    absurd (hb.numbered e _ he (Or.inl hby)) (Nat.lt_irrefl _)
  have hnum : ∀ {job : Option ReviewJob} (e : AppEvent) (n : Nat),
      e ∈ h ++ [.asked s.requests request (s.core.table.getJob run) job] →
      e.By n ∨ e.Asks n → n < s.requests + 1 := by
    intro job e n he hn
    rcases List.mem_append.mp he with he | he
    · exact Nat.lt_succ_of_lt (hb.numbered e n he hn)
    · rw [List.mem_singleton.mp he] at hn
      rcases hn with hn | rfl
      · exact absurd hn id
      · exact Nat.lt_succ_self _
  have hold : ∀ {job : Option ReviewJob}, ∀ p ∈ s.approvals,
      Handled cfg (h ++ [.asked s.requests request (s.core.table.getJob run) job]) p := by
    intro job p hp
    refine (hb.handled p hp).mono fun e he => ?_
    rw [List.mem_singleton.mp he]
    exact id
  have hstaged : ∀ {job : Option ReviewJob} (r : RunId) (x : StagedReview),
      s.staged.find r = some x ↔
        LastStaged (h ++ [.asked s.requests request (s.core.table.getJob run) job]) r x := by
    intro job r x
    rw [lastStaged_append (by simp [AppEvent.Unstages])]
    exact hb.staged r x
  rcases App.ask_cases (s := s) request run otherwise summary with
    ⟨job, hjob, heq⟩ | ⟨-, heq⟩ <;> rw [heq]
  · -- the new publication
    obtain ⟨rfl, hfrom⟩ := job_of_ask hl htarget hjob
    have hrequested : Requested cfg
        (h ++ [.asked s.requests request (s.core.table.getJob job.runId) (some job)])
        s.requests job summary := by
      refine ⟨request, _, otherwise, List.mem_append_right _ (List.mem_singleton.mpr rfl), htarget, ?_⟩
      rcases hfrom with ⟨hrow, job₀, hj₀, hsame⟩ | hfrom
      · exact Or.inl ⟨hrow, job₀, List.mem_append_left _ hj₀, hsame⟩
      · exact Or.inr hfrom
    refine ⟨hnum, ?_, ?_, hstaged⟩
    · rw [List.map_append, List.nodup_append]
      refine ⟨hb.distinct, List.nodup_singleton _, ?_⟩
      rintro n hn m hm rfl
      obtain ⟨p, hp, rfl⟩ := List.mem_map.mp hn
      have heq : p.number = s.requests := List.mem_singleton.mp hm
      obtain ⟨request', stored, _, hasked, -⟩ := (hb.handled p hp).requested
      have hlt := hb.numbered _ p.number hasked (Or.inr rfl)
      omega
    · intro p hp
      rcases List.mem_append.mp hp with hp | hp
      · exact hold p hp
      · cases List.mem_singleton.mp hp
        refine ⟨hrequested, ⟨rfl, rfl⟩, ?_, fun hpc => absurd rfl hpc, fun hpc => absurd rfl hpc⟩
        intro _ e he
        rcases List.mem_append.mp he with he | he
        · exact hnew e he
        · rw [List.mem_singleton.mp he]
          exact id
  · exact ⟨hnum, hb.distinct, hold, hstaged⟩

/-- The books are kept by a publication's step. -/
theorem Booked.publish (hb : Booked cfg s h) {inp : ApprovalInput} {m : ApprovalMove}
    (hp : s.approvals[k]? = some p)
    (hm : ApprovalCase cfg.pipeline s.staged (s.head p.job.ref) p inp m) {orphans : List RunId} :
    Booked cfg
      { s with
        staged := m.staged, approvals := s.approvals.set k { p with pc := m.pc },
        orphans := orphans } (h ++ m.events) := by
  have hmem := List.mem_of_getElem? hp
  constructor
  · intro e n he hn
    rcases List.mem_append.mp he with he | he
    · exact hb.numbered e n he hn
    · have hby := hm.by e he
      obtain ⟨request, stored, _, hasked, -⟩ := (hb.handled p hmem).requested
      have hlt : p.number < s.requests := hb.numbered _ p.number hasked (Or.inr rfl)
      rw [hn.elim (AppEvent.By.unique · hby) fun hn => absurd hn hby.not_asks]
      exact hlt
  · have hnumber : ({ p with pc := m.pc } : Approval).number = p.number := rfl
    show ((s.approvals.set k { p with pc := m.pc }).map Approval.number).Nodup
    rw [map_number_set hp hnumber]
    exact hb.distinct
  · intro q hq
    rcases mem_set_publication hb.distinct hp hq with rfl | ⟨hq, hne⟩
    · exact hm.handled (hb.handled p hmem)
    · refine (hb.handled q hq).mono fun e he hby => hne ?_
      exact hby.unique (hm.by e he)
  · exact hm.staged_iff hb.staged

/-- GitHub accepts the review of a publication. -/
theorem Booked.accept (hb : Booked cfg s h) {review : Review} {pc pc' : SubmitPc}
    (hp : s.approvals[k]? = some p) (hpc : p.pc = .submitting review pc) :
    Booked cfg { s with approvals := s.approvals.set k { p with pc := .submitting review pc' } }
      (h ++ [.accepted review.run]) := by
  have hmem := List.mem_of_getElem? hp
  have hby : ∀ n, ∀ e ∈ [AppEvent.accepted review.run], ¬ e.By n := by
    intro n e he
    rw [List.mem_singleton.mp he]
    exact id
  constructor
  · intro e n he hn
    rcases List.mem_append.mp he with he | he
    · exact hb.numbered e n he hn
    · rw [List.mem_singleton.mp he] at hn
      exact absurd hn (not_or.mpr ⟨id, id⟩)
  · have hnumber : ({ p with pc := .submitting review pc' } : Approval).number = p.number := rfl
    show ((s.approvals.set k { p with pc := .submitting review pc' }).map Approval.number).Nodup
    rw [map_number_set hp hnumber]
    exact hb.distinct
  · intro q hq
    rcases mem_set_publication hb.distinct hp hq with rfl | ⟨hq, -⟩
    · have hh := (hb.handled p hmem).mono (hby p.number)
      refine ⟨hh.requested, hh.arguments, by simp, fun _ _ => ?_, fun _ => ?_⟩
      · exact hh.allowed (by simp [hpc]) (by simp [hpc])
      · obtain ⟨taken, htaken, hreview⟩ := hh.started (by simp [hpc])
        refine ⟨taken, htaken, fun review' pc'' hpc' => ?_⟩
        cases hpc'
        exact hreview review pc hpc
    · exact (hb.handled q hq).mono (hby q.number)
  · intro r x
    rw [lastStaged_append (by simp [AppEvent.Unstages])]
    exact hb.staged r x

/-- **The step lemma.** -/
theorem Booked.step (hb : Booked cfg s h)
    (hl : Sched.Lineage s.core (h.filterMap AppEvent.core?))
    (hstep : App.step cfg s a = some (s', es)) : Booked cfg s' (h ++ es) := by
  have hstaged : ∀ {es : List AppEvent}, (∀ e ∈ es, ∀ r, ¬ e.Unstages r) → ∀ r x,
      s.staged.find r = some x ↔ LastStaged (h ++ es) r x := by
    intro es hes r x
    rw [lastStaged_append fun e he => hes e he r]
    exact hb.staged r x
  cases App.step_cases hstep with
  | core _ _ =>
    exact hb.quiet (fun e he => (quiet_of_mem_core he).1) rfl (Or.inl rfl)
      (hstaged fun e he => (quiet_of_mem_core he).2)
  | enqueue _ _ =>
    exact hb.quiet (fun e he => (quiet_of_mem_core he).1) rfl (Or.inl rfl)
      (hstaged fun e he => (quiet_of_mem_core he).2)
  | chatter _ hes =>
    refine hb.quiet (fun e he => (hes e he).quiet) rfl (Or.inl rfl) (hstaged fun e he r => ?_)
    obtain ⟨origin, w, rfl, -⟩ := hes e he
    exact id
  | ask _ htarget => exact hb.ask hl htarget
  | exec _ hm _ => exact hb.quiet hm.quiet rfl (Or.inl rfl) (hm.staged_iff hb.staged)
  | publish hp hm => exact hb.publish hp hm
  | crash _ =>
    refine hb.quiet (by simp [AppEvent.Quiet, AppEvent.By, AppEvent.Asks]) rfl (Or.inr rfl) ?_
    intro r x
    rw [lastStaged_snoc]
    simp [App.crash, StagedReviews.find, AppEvent.Unstages]
  | push ref sha =>
    exact hb.quiet (by simp [AppEvent.Quiet, AppEvent.By, AppEvent.Asks]) rfl (Or.inl rfl)
      (hstaged (by simp [AppEvent.Unstages]))
  | acceptWorker _ _ _ =>
    exact hb.quiet (by simp [AppEvent.Quiet, AppEvent.By, AppEvent.Asks]) rfl (Or.inl rfl)
      (hstaged (by simp [AppEvent.Unstages]))
  | acceptApproval hp hpc _ => exact hb.accept hp hpc
  | acceptOrphan _ =>
    exact hb.quiet (by simp [AppEvent.Quiet, AppEvent.By, AppEvent.Asks]) rfl (Or.inl rfl)
      (hstaged (by simp [AppEvent.Unstages]))

/-- In every run the history books every publication. -/
theorem reaches_booked {D : Machine.Discipline App AppAction AppEvent}
    (hr : (App.machine cfg).Reaches D s h) : Booked cfg s h := by
  refine hr.invariant (I := Booked cfg) ?_ ?_
  · intro s hs
    constructor
    · exact fun e n he => absurd he List.not_mem_nil
    · rw [hs.approvals]
      exact List.nodup_nil
    · rw [hs.approvals]
      exact fun p hp => absurd hp List.not_mem_nil
    · intro r x
      rw [hs.staged]
      simp [StagedReviews.find, not_lastStaged_nil]
  · intro s h a s' es hr hb _ hstep
    exact hb.step (Sched.reaches_lineage (App.reaches_core hr)) hstep

/-- A review is staged for the job of a worker, which stems from the insertion of its run. -/
theorem inserted_of_staged {D : Machine.Discipline App AppAction AppEvent}
    (hr : (App.machine cfg).Reaches D s h) : ∀ job x, .staged job x ∈ h →
      ∃ job₀, .core (.inserted job₀) ∈ h ∧ SameRun job₀ job := by
  refine hr.invariant (I := fun _ h => ∀ job x, .staged job x ∈ h →
    ∃ job₀, .core (.inserted job₀) ∈ h ∧ SameRun job₀ job) ?_ ?_
  · intro s _ job x he
    cases he
  · intro s h a s' es hr ih _ hstep job x he
    rcases List.mem_append.mp he with he | he
    · obtain ⟨job₀, hj₀, hsame⟩ := ih job x he
      exact ⟨job₀, List.mem_append_left _ hj₀, hsame⟩
    · cases App.event_of_step hstep he with
      | @staged i _ checkout _ hw _ _ _ =>
        obtain ⟨job₀, hj₀, hsame⟩ := (Sched.reaches_lineage (App.reaches_core hr)).inHand job
          (Or.inr ⟨_, List.mem_of_getElem? hw⟩)
        exact ⟨job₀, List.mem_append_left _ (App.mem_core_history.mp hj₀), hsame⟩

end PrReviewer.Model
