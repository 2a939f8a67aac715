import PrReviewer.Analysis.PipelineSteps

/-!
# Publications that fail

`publish_approved_review` takes the staged review out of `_staged_reviews` before it looks at the
permission and before it sends anything. A call that is blocked, or whose submission raises, has
then lost the review, and the next call for the run publishes the arguments it is given.
-/

set_option autoImplicit false

namespace PrReviewer.Model

open PrReviewer.Library (Machine)

namespace Approval

/-- What happens while a call goes on: its own steps, and those of other tasks. -/
inductive CallAction
  /-- the call is resumed, with this head on GitHub -/
  | resume (head : String) (input : ApprovalInput)
  /-- other tasks leave `_staged_reviews` so -/
  | others (staged : StagedReviews)

/-- One call with the arguments of `p` on a table of staged reviews. The other tasks do not touch
the entry of its run. -/
def callMachine (cfg : PipelineConfig) (p : Approval) (table : StagedReviews) :
    Machine (Approval × StagedReviews) CallAction AppEvent where
  start := fun s => s = ({ p with pc := .created }, table)
  step := fun s a =>
    match a with
    | .resume head input =>
      (s.1.step cfg s.2 head input).map fun m => (({ s.1 with pc := m.pc }, m.staged), m.events)
    | .others staged =>
      if staged.find s.1.job.runId = s.2.find s.1.job.runId then some ((s.1, staged), []) else none

/-- The next step ends the call without an accepted review: it is blocked, or `submit_review`
raises. -/
def FailsBy (cfg : PipelineConfig) (q : Approval) (input : ApprovalInput) : Prop :=
  q.pc = .created ∧ input = .go ∧ q.blocked cfg.config = true ∨
    ∃ review pc reply, q.pc = .submitting review pc ∧ input = .submit reply ∧
      submitStep review pc reply = some .raised

/-- The staged review is still there, and the next approved call submits it. -/
def Keeps (cfg : PipelineConfig) (staged : StagedReviews) (r : RunId) (x : StagedReview) : Prop :=
  staged.find r = some x ∧
    ∀ (later : Approval) (head : String), later.job.runId = r → later.pc = .created →
      later.blocked cfg.config = false → ∃ m review, later.step cfg staged head .go = some m ∧
        m.pc = .submitting review .first ∧ review.summary = x.summary ∧
        review.inline = inlineComments x.findings

variable {cfg : PipelineConfig} {p q : Approval} {table staged : StagedReviews} {x : StagedReview}

/-- A call on a staged run that has not run yet finds the review, any other one has taken it. -/
structure Holds (p : Approval) (x : StagedReview) (q : Approval) (staged : StagedReviews) : Prop where
  job : q.job = p.job
  entry : staged.find p.job.runId = if q.pc = .created then some x else none

/-- A move of the publication keeps what it holds of the staged review. -/
theorem Holds.step {head : String} {input : ApprovalInput} {m : ApprovalMove}
    (hs : Holds p x q staged) (hm : ApprovalCase cfg staged head q input m) :
    Holds p x { q with pc := m.pc } m.staged := by
  obtain ⟨hjob, hentry⟩ := hs
  refine ⟨hjob, ?_⟩
  have hdrop : (staged.drop q.job.runId).find p.job.runId = none := by
    rw [StagedReviews.find_drop, hjob, if_pos rfl]
  -- a call that is past its first stretch of code has nothing to take
  have hgone : q.pc ≠ .created → staged.find p.job.runId = none := by
    intro hpc
    rw [hentry, if_neg hpc]
  cases hm with
  | blocked _ _ => exact hdrop
  | started _ _ _ => exact hdrop
  | submitting hpc _ => exact hgone (by simp [hpc])
  | promote hpc _ => exact hgone (by simp [hpc])
  | submitFailed hpc _ => exact hgone (by simp [hpc])
  | merge _ hpc =>
    refine hgone ?_
    rcases hpc with ⟨_, _, hpc⟩ | hpc <;> simp [hpc]
  | finish hc _ hpc =>
    rw [if_neg]
    · exact hgone hc
    · rcases hpc with hpc | hpc | ⟨methods, hpc⟩ <;> simp [hpc]

/-- **Along a call** its run is staged until the call runs for the first time, and not after. -/
theorem reaches_holds {h : List AppEvent} (hstaged : table.find p.job.runId = some x)
    (hr : (callMachine cfg p table).Reachable (q, staged) h) : Holds p x q staged := by
  refine Machine.Reaches.invariant (I := fun s _ => Holds p x s.1 s.2) ?_ ?_ hr
  · rintro s rfl
    exact ⟨rfl, hstaged⟩
  · rintro ⟨q, staged⟩ h a ⟨q', staged'⟩ es _ hs _ hstep
    cases a with
    | resume head input =>
      obtain ⟨m, hm, heq⟩ := Option.map_eq_some_iff.mp hstep
      cases heq
      exact hs.step (approvalStep_cases hm)
    | others other =>
      change (if _ then _ else _) = _ at hstep
      split at hstep
      · rename_i hsame
        cases hstep
        refine ⟨hs.job, ?_⟩
        have hjob : q.job = p.job := hs.job
        simp only [hjob] at hsame
        rw [hsame]
        exact hs.entry
      · cases hstep

/-- A call that finds nothing staged submits its own arguments. -/
theorem step_unstaged {later : Approval} {head : String} (hpc : later.pc = .created)
    (hb : later.blocked cfg.config = false) (hnone : staged.find later.job.runId = none) :
    ∃ m, later.step cfg staged head .go = some m ∧
      m.pc = .submitting (later.review none) .first := by
  unfold step
  simp only [hpc, hb, hnone, Bool.false_eq_true, if_false]
  exact ⟨_, rfl, rfl⟩

/-- **A publication that fails loses the staged review.** Whatever a call for a staged run has
done before, the step that ends it without an accepted review leaves no review staged for the
run, so the next approved call submits its own arguments. -/
theorem failed_publication_drops (cfg : PipelineConfig) (p : Approval) (table : StagedReviews)
    {x : StagedReview} (hstaged : table.find p.job.runId = some x) {q : Approval}
    {staged : StagedReviews} {h : List AppEvent}
    (hr : (callMachine cfg p table).Reachable (q, staged) h) {head : String} {input : ApprovalInput}
    (hfail : FailsBy cfg q input) {m : ApprovalMove} (hm : q.step cfg staged head input = some m) :
    m.pc = .ended ∧ ¬ Keeps cfg m.staged p.job.runId x ∧
      ∀ (later : Approval) (head : String), later.job.runId = p.job.runId → later.pc = .created →
        later.blocked cfg.config = false → ∃ m', later.step cfg m.staged head .go = some m' ∧
          m'.pc = .submitting (later.review none) .first := by
  have hholds := reaches_holds hstaged hr
  have hended : m.pc = .ended := by
    rcases hfail with ⟨hpc, rfl, hb⟩ | ⟨review, pc, reply, hpc, rfl, hraised⟩
    · simp only [step, hpc, hb, if_true, Option.some.injEq] at hm
      rw [← hm]
    · simp only [step, hpc, hraised, Option.map_some, Option.some.injEq] at hm
      rw [← hm]
  have hnone : m.staged.find p.job.runId = none := by
    have hnext := hholds.step (approvalStep_cases hm)
    rw [hnext.entry, if_neg]
    show m.pc ≠ .created
    rw [hended]
    exact fun hc => by cases hc
  refine ⟨hended, fun hkeeps => ?_, ?_⟩
  · have hkept := hkeeps.1
    rw [hnone] at hkept
    cases hkept
  · intro later head hid hpc hb
    exact step_unstaged hpc hb (by rw [hid]; exact hnone)

/-- A repository that requires approval. -/
def guardedPipeline : PipelineConfig where
  config := {
    repoConfig := [{ owner := "acme", repo := "app", requireApproval := true }]
    providers := ["free"] }
  slack := true

/-- A call without the user's approval. -/
def unapproved : Approval where
  number := 0
  job := { owner := "acme", repo := "app", pr := some 7, head := some "a", runId := "r1" }
  summary := "Approved via Slack Button"
  userApproved := false

/-- The staged review of the example. -/
def stagedOnce : StagedReviews :=
  [("r1", ⟨"Found a leak.", [{ path := "a.py" }]⟩)]

/-- A publication that may not approve ends without its staged review. -/
theorem failed_publication_drops_blocked :
    ∃ m, unapproved.step guardedPipeline stagedOnce "a" .go = some m ∧ m.pc = .ended ∧
      ¬ Keeps guardedPipeline m.staged "r1" ⟨"Found a leak.", [{ path := "a.py" }]⟩ := by
  have hstep : unapproved.step guardedPipeline stagedOnce "a" .go = some _ := rfl
  have hdrops := failed_publication_drops guardedPipeline unapproved stagedOnce
    (x := ⟨"Found a leak.", [{ path := "a.py" }]⟩) (by decide) (.start rfl)
    (Or.inl ⟨rfl, rfl, by decide⟩) hstep
  exact ⟨_, hstep, hdrops.1, hdrops.2.1⟩

/-- The blocked call leaves nothing staged, and the approved one after it submits its own summary
without the findings. -/
theorem blocked_call_loses_review :
    ∃ m m' review, unapproved.step guardedPipeline stagedOnce "a" .go = some m ∧ m.staged = [] ∧
      ({ unapproved with userApproved := true } : Approval).step guardedPipeline m.staged "a" .go =
        some m' ∧ m'.pc = .submitting review .first ∧
      review.summary = "Approved via Slack Button" ∧ review.inline = [] :=
  ⟨_, _, _, rfl, rfl, rfl, rfl, rfl, rfl⟩

end Approval

end PrReviewer.Model
