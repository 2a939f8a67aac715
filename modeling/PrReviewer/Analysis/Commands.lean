import PrReviewer.Analysis.BackfillSweep
import PrReviewer.Model.Registry

/-!
# What commands in comments do

A malformed command is answered, but the decision that says so names no pull request. Every
other command is a review command, whatever its model and its words are: it deletes the rows of
its pull request and starts a run.
-/

set_option autoImplicit false

namespace PrReviewer.Model

namespace App

open PrReviewer.Library

variable {cfg : AppConfig} {s s' : App} {e : NormalizedEvent} {r : RunId} {es : List AppEvent}

/-- A comment of the self account. -/
structure OwnComment (cfg : AppConfig) (e : NormalizedEvent) : Prop where
  comment : e.event = "issue_comment"
  author : e.author = some cfg.selfAccount

/-- A malformed command of the account is answered. -/
theorem OwnComment.decide_syntaxError (h : OwnComment cfg e)
    (hparse : parseCommand cfg.unicode (orEmpty e.commentBody) = .syntaxError) :
    cfg.trigger.decide e = { action := .reply, reason := "malformed-command" } := by
  unfold TriggerDecisionEngine.decide TriggerDecisionEngine.decideComment
  rw [if_pos h.comment, if_neg fun hother => hother.2 h.author]
  simp only [AppConfig.trigger, hparse]

/-- A command of the account is answered with a run. -/
theorem OwnComment.decide_command (h : OwnComment cfg e) {cmd : Command}
    (hparse : parseCommand cfg.unicode (orEmpty e.commentBody) = .command cmd) :
    cfg.trigger.decide e =
      { action := .reply, owner := e.owner, repo := e.repo, pr := e.prNumber, head := e.headSha,
        model := cmd.model, target := some cmd } := by
  unfold TriggerDecisionEngine.decide TriggerDecisionEngine.decideComment
  rw [if_pos h.comment, if_neg fun hother => hother.2 h.author]
  simp only [AppConfig.trigger, hparse]

/-- A malformed command is answered on the pull request `None` of the repository `None/None`,
with all keys of `providers`. -/
theorem dispatchEvent_malformed (h : OwnComment cfg e)
    (hparse : parseCommand cfg.unicode (orEmpty e.commentBody) = .syntaxError) (r : RunId) :
    s.dispatchEvent cfg e r =
      some (s, [.write .reply (.postComment none none none (usage cfg.config.providers))]) := by
  unfold dispatchEvent
  simp only [h.decide_syntaxError hparse, if_true]

/-- Any other command is enqueued. -/
theorem dispatchEvent_command (h : OwnComment cfg e) {cmd : Command}
    (hparse : parseCommand cfg.unicode (orEmpty e.commentBody) = .command cmd)
    (hup : s.core.up = true) (hfresh : r ∉ s.core.issued) :
    s.dispatchEvent cfg e r =
      some ({ s with core := (s.core.enqueue r (cfg.trigger.decide e) .comment).1 },
        (s.core.enqueue r (cfg.trigger.decide e) .comment).2.map .core) := by
  unfold dispatchEvent
  simp only [h.decide_command hparse, reduceCtorEq, if_false]
  simp [coreStep, Sched.step, hup, hfresh]

/-- **A command restarts the review**: on a pull request with a number it replaces the rows by
that of one new run. -/
theorem command_restarts (h : OwnComment cfg e) {cmd : Command} {number : Int}
    (hparse : parseCommand cfg.unicode (orEmpty e.commentBody) = .command cmd)
    (hnumber : e.prNumber = some number) (hup : s.core.up = true) (hfresh : r ∉ s.core.issued)
    (hunused : ∀ row ∈ s.core.table.rows, row.runId ≠ r) :
    ∃ s' job, s.dispatchEvent cfg e r = some (s', [.core (.inserted job)]) ∧ job.runId = r ∧
      s'.core.table.rows =
        (s.core.table.rows.filter fun row => !row.isOf e.owner e.repo number) ++
          [RunTable.rowOf job number s.core.now] ∧
      s'.approvals = s.approvals ∧ s'.staged = s.staged := by
  have hdecide := h.decide_command hparse
  rcases Sched.enqueue_comment (d := cfg.trigger.decide e) hunused with
    ⟨job, pr, hj, table, hrows, heq⟩ | ⟨hcols, -⟩
  · have hrun := hj.runId
    obtain ⟨⟨owner, repo, ho, hr, rfl⟩, hpr, -⟩ := hj
    rw [hdecide] at ho hr hpr
    have howner : e.owner = owner := Option.some.inj ho
    have hrepo : e.repo = repo := Option.some.inj hr
    have hsame : number = pr := Option.some.inj (hnumber.symm.trans hpr)
    subst howner hrepo hsame
    refine ⟨{ s with core := (s.core.enqueue r (cfg.trigger.decide e) .comment).1 }, _, ?_, hrun,
      ?_, rfl, rfl⟩
    · rw [dispatchEvent_command h hparse hup hfresh, heq]
      rfl
    · show (s.core.enqueue r (cfg.trigger.decide e) .comment).1.table.rows = _
      rw [heq]
      exact hrows
  · rw [hdecide] at hcols
    simp [Decision.columns, hnumber] at hcols

/-! ## Bad commands -/

/-- A comment of the self account whose command is malformed, or names a model that the registry
does not resolve. -/
structure BadCommand (cfg : AppConfig) (reg : ModelRegistry) (e : NormalizedEvent) : Prop
    extends OwnComment cfg e where
  bad : parseCommand cfg.unicode (orEmpty e.commentBody) = .syntaxError ∨
    ∃ cmd a, parseCommand cfg.unicode (orEmpty e.commentBody) = .command cmd ∧
      cmd.model = some a ∧ ¬ reg.Accepts a

/-- All that a step does is to post one help text on the pull request of the comment, with the
aliases that the registry resolves. -/
def OnlyHelps (reg : ModelRegistry) (e : NormalizedEvent) (s s' : App) (es : List AppEvent) :
    Prop :=
  s'.core.table = s.core.table ∧
    ∃ names, (∀ a, a ∈ names ↔ a ∈ reg.config.providers ∧ reg.Accepts a) ∧
      es.filterMap AppEvent.write? =
        [(.reply, .postComment (some e.owner) (some e.repo) e.prNumber (usage names))]

/-- **No bad command is only helped**: a malformed one is answered nowhere, and a model that the
registry does not resolve is not looked at. -/
theorem bad_command_not_helped (entry : String → ProviderSpec)
    (hbad : BadCommand cfg ⟨cfg.config, entry⟩ e) (hup : s.core.up = true)
    (hfresh : r ∉ s.core.issued) :
    ∃ s' es, s.dispatchEvent cfg e r = some (s', es) ∧
      ¬ OnlyHelps ⟨cfg.config, entry⟩ e s s' es := by
  rcases hbad.bad with hparse | ⟨cmd, a, hparse, -, -⟩
  · refine ⟨_, _, dispatchEvent_malformed hbad.toOwnComment hparse r, ?_⟩
    rintro ⟨-, names, -, hwrites⟩
    simp [AppEvent.write?] at hwrites
  · refine ⟨_, _, dispatchEvent_command hbad.toOwnComment hparse hup hfresh, ?_⟩
    rintro ⟨-, names, -, hwrites⟩
    -- the scheduler stores a run, and writes nothing
    rcases Sched.enqueue_cases s.core r (cfg.trigger.decide e) .comment with
      ⟨job, table, -, -, -, -, -, heq⟩ | ⟨table, -, heq⟩
    · rw [heq] at hwrites
      cases (show ([] : List (Origin × GitHubWrite)) = [_] from hwrites)
    · rw [heq] at hwrites
      cases (show ([] : List (Origin × GitHubWrite)) = [_] from hwrites)

/-- The comment of `me` on its first pull request with this text. -/
def ownComment (body : String) : NormalizedEvent :=
  { reviewComment 7 with commentBody := some body }

/-- The comment of the example is the account's own. -/
theorem ownComment_own (body : String) : OwnComment (smallConfig true 1) (ownComment body) :=
  ⟨rfl, rfl⟩

/-- The small installation has one model, which is enabled. -/
def freeEntry (_ : String) : ProviderSpec where
  provider := "opencode"
  model := "o3-mini"

/-- An unknown flag is not merely helped. -/
theorem bad_command_not_helped_fast :
    ∃ s' es, running.dispatchEvent (smallConfig true 1) (ownComment "@review --fast") "r1" =
        some (s', es) ∧
      ¬ OnlyHelps ⟨(smallConfig true 1).config, freeEntry⟩ (ownComment "@review --fast") running s'
        es :=
  bad_command_not_helped freeEntry
    { toOwnComment := ownComment_own _, bad := Or.inl (by decide) } rfl List.not_mem_nil

/-- The answer to a malformed command is on no pull request. -/
theorem malformed_not_answered :
    BadCommand (smallConfig true 1) ⟨(smallConfig true 1).config, freeEntry⟩
        (ownComment "@review --fast") ∧
      ∃ es, running.dispatchEvent (smallConfig true 1) (ownComment "@review --fast") "r1" =
          some (running, es) ∧
        es = [.write .reply (.postComment none none none (usage ["free"]))] ∧
        ¬ OnlyHelps ⟨(smallConfig true 1).config, freeEntry⟩ (ownComment "@review --fast") running
          running es := by
  have hparse : parseCommand .ascii "@review --fast" = .syntaxError := by decide
  refine ⟨{ toOwnComment := ownComment_own _, bad := Or.inl hparse }, _,
    dispatchEvent_malformed (ownComment_own _) hparse "r1", rfl, ?_⟩
  rintro ⟨-, names, -, hwrites⟩
  simp [AppEvent.write?] at hwrites

/-! ## `@review approve` -/

/-- A step releases the staged review of a run: a publication of it is started. -/
def Releases (run : RunId) (s s' : App) : Prop :=
  ∃ p ∈ s'.approvals, p ∉ s.approvals ∧ p.job.runId = run

/-- A step deletes no row of a pull request. -/
def KeepsRows (owner repo : String) (number : Int) (s s' : App) : Prop :=
  ∀ row ∈ s.core.table.rows, row.isOf owner repo number = true → row ∈ s'.core.table.rows

/-- `@review approve` is a review command without a model. -/
theorem parseCommand_approve (u : Unicode) :
    parseCommand u "@review approve" = .command { kind := "review" } := by
  rfl

/-- The row is of a run that is staged and waits for approval. -/
structure Pending (s : App) (row : Row) : Prop where
  mem : row ∈ s.core.table.rows
  status : row.status = .pendingApproval
  staged : ∃ review, s.staged.find row.runId = some review

/-- The comment `@review approve` of the self account on the pull request of a row. -/
structure ApproveComment (cfg : AppConfig) (row : Row) (e : NormalizedEvent) : Prop
    extends OwnComment cfg e where
  body : e.commentBody = some "@review approve"
  owner : e.owner = row.owner
  repo : e.repo = row.repo
  number : e.prNumber = some row.pr

/-- **`@review approve` releases nothing.** On the pull request of a run that is staged and
pending approval it publishes nothing, deletes the row of the run and starts a new run. -/
theorem approve_comment_restarts {row : Row} (hpending : Pending s row)
    (hcomment : ApproveComment cfg row e) (hup : s.core.up = true) (hfresh : r ∉ s.core.issued)
    (hunused : ∀ row ∈ s.core.table.rows, row.runId ≠ r) :
    ∃ s' es, s.dispatchEvent cfg e r = some (s', es) ∧ ¬ Releases row.runId s s' ∧
      ¬ KeepsRows row.owner row.repo row.pr s s' ∧ ∃ job, .core (.inserted job) ∈ es := by
  have hparse : parseCommand cfg.unicode (orEmpty e.commentBody) = .command { kind := "review" } := by
    rw [hcomment.body]
    exact parseCommand_approve cfg.unicode
  obtain ⟨s', job, hrun, hid, hrows, happrovals, -⟩ :=
    command_restarts hcomment.toOwnComment hparse hcomment.number hup hfresh hunused
  refine ⟨s', _, hrun, ?_, ?_, job, List.mem_singleton.mpr rfl⟩
  · rintro ⟨p, hp, hnew, -⟩
    rw [happrovals] at hp
    exact hnew hp
  · intro hkeeps
    have hof : row.isOf row.owner row.repo row.pr = true := by simp [Row.isOf]
    have hmem := hkeeps row hpending.mem hof
    rw [hrows, hcomment.owner, hcomment.repo, List.mem_append, List.mem_filter,
      List.mem_singleton] at hmem
    rcases hmem with ⟨-, hnot⟩ | heq
    · rw [hof] at hnot
      cases hnot
    · -- the new row is of the new run
      refine hunused row hpending.mem ?_
      rw [heq]
      exact hid

/-- The row of the first pull request, when its review is staged. -/
def pendingRow : Row where
  runId := "r1"
  owner := "me"
  repo := "app"
  pr := 7
  head := "a"
  model := some ""
  status := .pendingApproval
  attempts := 0
  cause := .webhook
  createdAt := 0
  updatedAt := 0

/-- A run of the small installation whose review is staged, before the comment of `me`. -/
theorem staged_pending :
    ∃ s h, (machine (smallConfig true 1)).Reachable s h ∧ s.core.up = true ∧
      s.core.issued = ["r1"] ∧ s.core.table.rows = [pendingRow] ∧ Pending s pendingRow := by
  obtain ⟨s, h, hr, hcheck⟩ := Machine.exists_reachable_run (M := machine (smallConfig true 1))
    stagedRun
    (fun s _ => s.core.up && s.core.issued == ["r1"] && s.core.table.rows == [pendingRow] &&
      (s.staged.find "r1").isSome)
    App.small_new (by decide)
  simp only [Bool.and_eq_true, beq_iff_eq] at hcheck
  obtain ⟨⟨⟨hup, hissued⟩, hrows⟩, hstaged⟩ := hcheck
  refine ⟨s, h, hr, hup, hissued, hrows, ?_, rfl, Option.isSome_iff_exists.mp hstaged⟩
  rw [hrows]
  exact List.mem_singleton.mpr rfl

/-- An approving comment on a staged review starts a new run instead of releasing it. -/
theorem approve_comment_restarts_staged :
    ∃ s s' es, Pending s pendingRow ∧
      s.dispatchEvent (smallConfig true 1) (ownComment "@review approve") "r2" = some (s', es) ∧
      ¬ Releases "r1" s s' ∧ ¬ KeepsRows "me" "app" 7 s s' ∧ ∃ job, .core (.inserted job) ∈ es := by
  obtain ⟨s, -, -, hup, hissued, hrows, hpending⟩ := staged_pending
  obtain ⟨s', es, hrun, hreleases, hkeeps, hstarts⟩ :=
    approve_comment_restarts (r := "r2") hpending
      { toOwnComment := ownComment_own _, body := rfl, owner := rfl, repo := rfl, number := rfl }
      hup (by rw [hissued]; decide) (by rw [hrows]; decide)
  exact ⟨s, s', es, hpending, hrun, hreleases, hkeeps, hstarts⟩

/-- The staged run has lost its row, a new run has one, and nothing is being published. -/
theorem approve_comment_not_released :
    ∃ s h, (machine (smallConfig true 1)).Reachable s h ∧ Pending s pendingRow ∧
      ∃ s' es, s.dispatchEvent (smallConfig true 1) (ownComment "@review approve") "r2" =
          some (s', es) ∧
        s'.core.table.rows.map Row.runId = ["r2"] ∧ s'.approvals = [] := by
  obtain ⟨s, h, hr, hcheck⟩ := Machine.exists_reachable_run (M := machine (smallConfig true 1))
    stagedRun
    (fun s _ => s.core.table.rows == [pendingRow] && (s.staged.find "r1").isSome &&
      (s.dispatchEvent (smallConfig true 1) (ownComment "@review approve") "r2").any fun r =>
        r.1.core.table.rows.map Row.runId == ["r2"] && r.1.approvals == [])
    App.small_new (by decide)
  simp only [Bool.and_eq_true, beq_iff_eq, Option.any_eq_true] at hcheck
  obtain ⟨⟨hrows, hstaged⟩, ⟨s', es⟩, hrun, hids, happrovals⟩ := hcheck
  refine ⟨s, h, hr, ⟨?_, rfl, Option.isSome_iff_exists.mp hstaged⟩, s', es, hrun, hids, happrovals⟩
  rw [hrows]
  exact List.mem_singleton.mpr rfl

end App

end PrReviewer.Model
