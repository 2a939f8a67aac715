import PrReviewer.Model.Gate

/-!
# `GitHubClient`: what it writes, and how `submit_review` goes on

The writes to GitHub, and the local states of the two calls that make several requests,
`submit_review` and `merge_pr`. A request is in flight from the step that sends it to the
step that delivers its answer; GitHub may accept a review in between, at a moment of its own.
-/

set_option autoImplicit false

namespace PrReviewer.Model

/-- A pull request on GitHub. -/
structure PrRef where
  owner : String
  repo : String
  pr : Option Int
  deriving DecidableEq, Repr

/-- The pull request of a job. -/
def ReviewJob.ref (job : ReviewJob) : PrRef :=
  ⟨job.owner, job.repo, job.pr⟩

/-- Filling in the head leaves the pull request. -/
@[simp] theorem ReviewJob.fillHead_ref (job : ReviewJob) (sha : Option String) :
    (job.fillHead sha).ref = job.ref := by
  unfold fillHead
  split <;> rfl

/-- An entry of the `comments` of a review. -/
structure InlineComment where
  path : String
  line : Int
  body : String
  deriving DecidableEq, Repr

/-- The `event` of a review. -/
inductive ReviewEvent
  | approve
  | comment
  deriving DecidableEq, Repr

/-- The arguments of `submit_review`. -/
structure Review where
  ref : PrRef
  head : Option String
  summary : String
  inline : List InlineComment
  run : RunId
  event : ReviewEvent := .comment
  deriving DecidableEq, Repr

/-- `marker` -/
def reviewMarker (run : RunId) : String :=
  "\n\n<!-- review-run:" ++ run ++ " -->"

/-- The `body` of a review, and of the comment that stands in for it. -/
def Review.body (r : Review) : String :=
  r.summary ++ reviewMarker r.run

/-- `f.line or 1` -/
def Finding.inlineLine (f : Finding) : Int :=
  match f.line with
  | none => 1
  | some n => if n = 0 then 1 else n

/-- The list `inline` of `_publish`. -/
def inlineComments (findings : List Finding) : List InlineComment :=
  findings.filterMap fun f =>
    if f.path = "" then none
    else some ⟨f.path, f.inlineLine, "[" ++ f.severity.value ++ "] " ++ f.title ++ "\n" ++ f.detail⟩

/-- The arguments `_publish` calls `submit_review` with. -/
def reviewOf (job : ReviewJob) (summary : String) (findings : List Finding) (event : ReviewEvent) :
    Review where
  ref := job.ref
  head := job.head
  summary := summary
  inline := inlineComments findings
  run := job.runId
  event := event

/-! ## Writes -/

/-- The calls of the client that write to GitHub. -/
inductive GitHubWrite
  /-- `submit_review` is called -/
  | submitReview (review : Review)
  /-- `mark_pr_ready_for_review` is called for a pull request of this run -/
  | markReady (ref : PrRef) (run : RunId)
  /-- `merge_pr` is called for a pull request of this run, whose head on GitHub is `head` then -/
  | mergePr (ref : PrRef) (run : RunId) (head : String)
  | postComment (owner repo : Option String) (pr : Option Int) (body : String)
  | createWebhook (owner repo url : String)
  | updateWebhook (owner repo : String) (hookId : Int) (url : String)
  deriving DecidableEq, Repr

/-- The calls that publish: a review, a promotion or a merge. -/
def GitHubWrite.publishes : GitHubWrite → Bool
  | .submitReview _ | .markReady _ _ | .mergePr _ _ _ => true
  | _ => false

/-- A comment on a pull request that is known. -/
def commentOn (ref : PrRef) (body : String) : GitHubWrite :=
  .postComment (some ref.owner) (some ref.repo) ref.pr body

/-! ## `submit_review` -/

/-- Where a call of `submit_review` is suspended. `inline` says that the request carries the
inline comments: the first one does, the second one does not. -/
inductive SubmitPc
  /-- awaiting the answer to the `attempt`-th try of a request, which GitHub has accepted or
  not -/
  | posting (inline : Bool) (attempt : Nat) (accepted : Bool)
  /-- the sleep of `_retryable` after a 403 or 429 -/
  | backoff (inline : Bool) (attempt : Nat)
  /-- awaiting `post_comment` -/
  | commenting
  /-- about to return -/
  | done
  deriving DecidableEq, Repr

/-- What resumes a call of `submit_review`. -/
inductive SubmitReply
  /-- the sleep is over, or the call returns -/
  | go
  /-- a 2xx answer whose JSON has an `id` that `int` reads -/
  | created
  /-- a 2xx answer without one -/
  | noId
  /-- 403 or 429 -/
  | limited
  /-- another error status, an answer that cannot be decoded, or no answer -/
  | failed
  /-- `post_comment` returned, or raised -/
  | commented (ok : Bool)
  deriving DecidableEq, Repr

/-- How a call of `submit_review` goes on: with the writes it makes, or back to its caller. -/
inductive SubmitNext
  | goOn (pc : SubmitPc) (writes : List GitHubWrite)
  | returned
  | raised
  deriving DecidableEq, Repr

/-- The state of a call of `submit_review` that has just sent its first request. -/
def SubmitPc.first : SubmitPc :=
  .posting true 1 false

/-- The request in flight has not been accepted. -/
def SubmitPc.unaccepted : SubmitPc → Bool
  | .posting _ _ accepted => !accepted
  | _ => false

/-- GitHub accepts the review in flight. -/
def SubmitPc.accept : SubmitPc → Option SubmitPc
  | .posting inline attempt false => some (.posting inline attempt true)
  | _ => none

/-- The fallback: the review as a comment. -/
def Review.fallBack (r : Review) : SubmitNext :=
  .goOn .commenting [commentOn r.ref r.body]

/-- A request raised: the second one is tried if the first had inline comments, and then the
comment. -/
def Review.afterFailure (r : Review) (inline : Bool) : SubmitNext :=
  if inline ∧ r.inline ≠ [] then .goOn (.posting false 1 false) [] else r.fallBack

/-- A call of `submit_review` runs to its next await. -/
def submitStep (r : Review) : SubmitPc → SubmitReply → Option SubmitNext
  | .posting _ _ _, .created => some (.goOn .done [])
  -- the first request falls out of the `try` and returns 0, the second one falls through
  | .posting true _ _, .noId => some (.goOn .done [])
  | .posting false _ _, .noId => some r.fallBack
  | .posting inline attempt _, .limited =>
    if attempt < 5 then some (.goOn (.backoff inline attempt) [])
    else some (r.afterFailure inline)
  | .posting inline _ _, .failed => some (r.afterFailure inline)
  | .backoff inline attempt, .go => some (.goOn (.posting inline (attempt + 1) false) [])
  | .commenting, .commented true => some (.goOn .done [])
  | .commenting, .commented false => some .raised
  | .done, .go => some .returned
  | _, _ => none

/-! ## `merge_pr` -/

/-- `list(dict.fromkeys([merge_method, "squash", "merge", "rebase"]))` -/
def mergeMethods (mergeMethod : String) : List String :=
  [mergeMethod, "squash", "merge", "rebase"].eraseDups

example : mergeMethods "squash" = ["squash", "merge", "rebase"] := by decide

end PrReviewer.Model
