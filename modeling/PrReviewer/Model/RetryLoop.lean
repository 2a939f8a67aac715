import Mathlib.Algebra.Order.Field.Rat
import PrReviewer.Library.Loop
import PrReviewer.Model.ReviewRequests

/-!
# The loop of `_retryable`

`_retryable` with its local variables: the number of the attempt, and `retry_after`, which is
not assigned before the first answer of 403 or 429. The n-th request gets the n-th response.
How `float` reads a text and what `random.random()` returns are parameters; delays are exact
numbers.
-/

set_option autoImplicit false

namespace PrReviewer.Model

open PrReviewer.Library

/-! ## Delays -/

/-- An entry of `_BACKOFF_TABLE`. -/
structure BackoffSpec where
  baseMs : Nat
  maxMs : Nat
  deriving DecidableEq, Repr

/-- `_BACKOFF_TABLE.get(category, _BACKOFF_TABLE["github"])` -/
def backoffSpec (category : String) : BackoffSpec :=
  if category = "provider" then ⟨5000, 120000⟩ else ⟨10000, 300000⟩

/-- `schedule_retry`, in seconds, with the ratio of the jitter and what `random.random()`
returns. -/
def scheduleRetry (attempt : Nat) (category : String) (jitterRatio draw : Rat) : Rat :=
  let spec := backoffSpec category
  let delay : Rat := min (spec.baseMs * 2 ^ (attempt - 1)) spec.maxMs
  delay * (1 - jitterRatio + draw * 2 * jitterRatio) / 1000

/-- `_JITTER` -/
def jitter : Rat := 1 / 4

/-- `_parse_retry_after`; the parser of `float` has no result where it raises. -/
def parseRetryAfter (readFloat : String → Option Floating) (value : Option String) :
    Option Floating :=
  match value with
  | none => none
  | some text => if text = "" then none else readFloat text

/-- `retry_after or schedule_retry(attempt, "github")` -/
def delayFor (retryAfter : Option Floating) (attempt : Nat) (draw : Rat) : Floating :=
  match retryAfter with
  | none => .finite (scheduleRetry attempt "github" jitter draw)
  | some x =>
    if (Value.scalar (.float x)).truthy then x
    else .finite (scheduleRetry attempt "github" jitter draw)

/-! ## The loop -/

/-- An HTTP response, as far as `_retryable` reads it. -/
structure Response where
  status : Nat
  content : Content
  /-- the header `Retry-After` -/
  retryAfter : Option String := none
  deriving Repr

/-- `resp.status_code in (403, 429)` -/
def Response.limited (resp : Response) : Prop :=
  resp.status = 403 ∨ resp.status = 429

/-- Whether an answer is a rate limit can be decided. -/
instance (resp : Response) : Decidable resp.limited :=
  inferInstanceAs (Decidable (resp.status = 403 ∨ resp.status = 429))

/-- What `_retryable` raises. -/
inductive RetryError
  | client (e : ClientError)
  /-- `RateLimitError(retry_after=...)` -/
  | rateLimit (retryAfter : Floating)
  /-- `retry_after` is read and not assigned -/
  | unbound
  deriving DecidableEq, Repr

/-- The local variables, and what has been done. -/
structure RetryState where
  attempt : Nat := 1
  /-- the value of `retry_after`, once it is assigned -/
  retryAfter : Option (Option Floating) := none
  /-- the requests issued -/
  requests : Nat := 0
  /-- the delays slept -/
  slept : List Floating := []
  deriving DecidableEq, Repr

/-- How the loop is left. -/
structure RetryEnd where
  result : Except RetryError Value
  requests : Nat
  slept : List Floating

/-- What the loop runs against. -/
structure RetryEnv where
  responses : Nat → Response
  /-- `float` of a text, unless it raises -/
  readFloat : String → Option Floating
  /-- what `random.random()` returns during the n-th turn -/
  draws : Nat → Rat

/-- One turn of `while True`. -/
def RetryEnv.turn (env : RetryEnv) (st : RetryState) : Turn RetryState RetryEnd :=
  let resp := env.responses st.requests
  let draw := env.draws st.requests
  let st := { st with requests := st.requests + 1 }
  let leave (result : Except RetryError Value) : Turn RetryState RetryEnd :=
    .leave ⟨result, st.requests, st.slept⟩
  if resp.status = 200 ∨ resp.status = 201 then leave (resp.content.data.mapError .client)
  else if resp.status = 404 then leave (.error (.client .notFound))
  else if resp.limited ∧ st.attempt < 5 then
    let retryAfter := parseRetryAfter env.readFloat resp.retryAfter
    .again
      { st with
        retryAfter := some retryAfter
        slept := st.slept ++ [delayFor retryAfter st.attempt draw]
        attempt := st.attempt + 1 }
  else if resp.limited then
    match st.retryAfter with
    | none => leave (.error .unbound)
    | some retryAfter => leave (.error (.rateLimit (delayFor retryAfter st.attempt draw)))
  -- `raise_for_status` lets the other 2xx pass, and `None` is returned
  else if 200 ≤ resp.status ∧ resp.status < 300 then leave (.ok (.scalar .null))
  else leave (.error (.client (.status resp.status)))

end PrReviewer.Model
