import PrReviewer.Model.GitHubClient
import PrReviewer.Library.Dynamic

/-!
# `submit_review`, request by request

The POST requests one call of `submit_review` makes, against a script of answers: the n-th
request that is sent gets the n-th answer. A call ends with its result and with what it has
sent, each request beside its answer.
-/

set_option autoImplicit false

namespace PrReviewer.Model

open PrReviewer.Library

/-! ## Requests and answers -/

/-- The JSON of a POST request. -/
inductive PostRequest
  /-- to `/pulls/{pr}/reviews`; the summary-only payload has no `comments` -/
  | review (ref : PrRef) (commitId : Option String) (event : ReviewEvent) (body : String)
      (comments : Option (List InlineComment))
  /-- to `/issues/{pr}/comments` -/
  | comment (ref : PrRef) (body : String)
  deriving DecidableEq, Repr

/-- The text that is posted. -/
def PostRequest.body : PostRequest → String
  | review _ _ _ body _ => body
  | comment _ body => body

/-- The content of a response. -/
inductive Content
  | empty
  /-- `resp.json()` raises -/
  | undecodable
  | json (v : Value)
  deriving Repr

/-- What comes of a request. -/
inductive Answer
  /-- it fails before GitHub accepts it -/
  | failed
  | response (status : Nat) (content : Content)
  deriving Repr

/-- GitHub has accepted the write. -/
def Answer.accepted : Answer → Bool
  | response status _ => status == 200 || status == 201
  | failed => false

/-- What a request, or reading its answer, raises. -/
inductive ClientError
  | transport
  | notFound
  | rateLimited
  /-- `raise_for_status` -/
  | status (code : Nat)
  | decode
  | builtin (e : PyError)
  deriving DecidableEq, Repr

/-- `resp.json() if resp.content else {}` -/
def Content.data : Content → Except ClientError Value
  | empty => .ok .empty
  | undecodable => .error .decode
  | json v => .ok v

/-- A request that was sent, and its answer. -/
structure Sent where
  request : PostRequest
  answer : Answer
  deriving Repr

/-- The requests GitHub has accepted. -/
def acceptedOf (sent : List Sent) : List Sent :=
  sent.filter fun s => s.answer.accepted

/-- How a call ends: with its result, and with all that has been sent by then. -/
structure Ended (α : Type) where
  result : Except ClientError α
  sent : List Sent

/-! ## `_retryable` -/

/-- `_retryable` on a POST request, when `left` more tries are left after the next one and `sent`
has been sent before. -/
def retryable (answers : Nat → Answer) (req : PostRequest) : Nat → List Sent → Ended Value
  | left, sent =>
    let answer := answers sent.length
    let sent := sent ++ [⟨req, answer⟩]
    match answer with
    | .failed => ⟨.error .transport, sent⟩
    | .response status content =>
      if status = 200 ∨ status = 201 then ⟨content.data, sent⟩
      else if status = 404 then ⟨.error .notFound, sent⟩
      else if status = 403 ∨ status = 429 then
        match left with
        | 0 => ⟨.error .rateLimited, sent⟩
        | left + 1 => retryable answers req left sent
      -- `raise_for_status` lets the other 2xx pass, and `None` is returned
      else if 200 ≤ status ∧ status < 300 then ⟨.ok (.scalar .null), sent⟩
      else ⟨.error (.status status), sent⟩

/-- `attempt < 5` -/
def moreTries : Nat := 4

/-! ## `submit_review` -/

/-- `if isinstance(data, dict) and "id" in data: return int(data["id"])` -/
def readId (rules : TextRules) : Value → Except ClientError (Option Int)
  | .map entries =>
    match Value.pair? entries (.str "id") with
    | none => .ok none
    | some v =>
      match v.toInt rules with
      | .ok n => .ok (some n)
      | .error e => .error (.builtin e)
  | _ => .ok none

/-- `payload`, to `/reviews` -/
def Review.request (r : Review) : PostRequest :=
  .review r.ref r.head r.event r.body (some r.inline)

/-- `payload_no_inline` -/
def Review.requestNoInline (r : Review) : PostRequest :=
  .review r.ref r.head r.event r.body none

/-- `post_comment` -/
def postComment (answers : Nat → Answer) (ref : PrRef) (body : String) (sent : List Sent) :
    Ended Unit :=
  let tries := retryable answers (.comment ref body) moreTries sent
  ⟨tries.result.map fun _ => (), tries.sent⟩

/-- `await self.post_comment(…)` and `return 0` -/
def Review.comment (r : Review) (answers : Nat → Answer) (sent : List Sent) : Ended Int :=
  let posted := postComment answers r.ref r.body sent
  ⟨posted.result.map fun _ => 0, posted.sent⟩

/-- The second request, and the comment unless it ends with an `id`. -/
def Review.summaryOnly (rules : TextRules) (r : Review) (answers : Nat → Answer)
    (sent : List Sent) : Ended Int :=
  let second := retryable answers r.requestNoInline moreTries sent
  match second.result >>= readId rules with
  | .ok (some n) => ⟨.ok n, second.sent⟩
  -- without an id it goes on to the comment, as after an error
  | .ok none => r.comment answers second.sent
  | .error _ => r.comment answers second.sent

/-- `submit_review` -/
def submitReview (rules : TextRules) (answers : Nat → Answer) (r : Review) : Ended Int :=
  let first := retryable answers r.request moreTries []
  match first.result >>= readId rules with
  | .ok (some n) => ⟨.ok n, first.sent⟩
  | .ok none => ⟨.ok 0, first.sent⟩
  | .error _ =>
    if r.inline = [] then r.comment answers first.sent
    else r.summaryOnly rules answers first.sent

end PrReviewer.Model
