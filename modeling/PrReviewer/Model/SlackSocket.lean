import Mathlib.Algebra.Order.Field.Rat
import PrReviewer.Library.Dynamic
import PrReviewer.Library.Machine

/-!
# `SlackSocketModeClient._loop`

The loop as a machine that stops at every `await`. An action says how the pending one ends, with
what it returns; a plain event handler runs inside a step, and the action says how it ends too.
`stop` may come at any time, and a cancellation at any `await`. What `json.loads` makes of a
frame is a parameter.
-/

set_option autoImplicit false

namespace PrReviewer.Model

open PrReviewer.Library

/-! ## The client -/

/-- `asyncio.iscoroutinefunction(self._event_handler)`, or not. -/
inductive HandlerKind
  | coroutine
  | plain
  deriving DecidableEq, Repr

/-- `SlackSocketModeClient` -/
structure SlackSocketModeClient where
  /-- `json.loads` of a frame, unless it raises -/
  loads : String → Option Value
  /-- `_event_handler` -/
  eventHandler : Option HandlerKind

/-- How an `await` or a call of the handler ends. -/
inductive Await
  | done
  /-- with `ConnectionClosed` -/
  | closed
  /-- with another `Exception` -/
  | error
  /-- with `CancelledError` -/
  | cancelled
  deriving DecidableEq, Repr

/-- Where the loop waits. -/
inductive SocketPoint
  /-- for `_get_wss_url` -/
  | opening
  /-- for `websockets.connect` -/
  | connecting
  /-- for `ws.recv` -/
  | receiving
  /-- for `ws.send`, with the message it acknowledges -/
  | acking (msg : Value)
  /-- for the end of `async with`, which a cancellation left by `return` -/
  | closing (returning : Bool)
  /-- for `asyncio.sleep` -/
  | sleeping
  | ended
  deriving Repr

/-- The state of the loop. -/
structure SlackSocket where
  /-- `_running` -/
  running : Bool := true
  backoff : Rat := 2
  point : SocketPoint := .opening
  /-- the connections made -/
  conns : Nat := 0
  /-- the frames received -/
  frames : Nat := 0
  deriving Repr

/-- What the loop does, as seen from outside. -/
inductive SocketEvent
  | connected (conn : Nat)
  /-- the n-th frame is received -/
  | received (conn frame : Nat) (text : String)
  /-- `ws.send` of the acknowledgement returns -/
  | acked (conn : Nat) (id : Value)
  /-- the handler is started for the n-th frame -/
  | started (conn frame : Nat) (payload : Value)
  | slept (seconds : Rat)
  | stopped
  | cancelled
  deriving Repr

/-- What happens to the client. -/
inductive SocketAction
  /-- `stop`, without the cancellation -/
  | stop
  /-- the pending `await` ends so -/
  | ends (o : Await)
  /-- `ws.recv` returns a frame; a plain handler that is called for it ends so -/
  | frame (text : String) (handler : Await)
  /-- `ws.send` returns; a plain handler that is called then ends so -/
  | sent (handler : Await)
  deriving Repr

namespace SlackSocket

variable (s : SlackSocket)

/-! ## Control -/

/-- `while self._running` of the connection. -/
def listen : SlackSocket :=
  if s.running then { s with point := .receiving } else { s with point := .closing false }

/-- `while self._running` around the attempts. -/
def attempt : SlackSocket :=
  if s.running then { s with point := .opening } else { s with point := .ended }

/-- `except Exception` around an attempt. -/
def retry : SlackSocket × List SocketEvent :=
  ({ s with point := .sleeping }, [.slept s.backoff])

/-- `return` after a cancellation. -/
def leave : SlackSocket × List SocketEvent :=
  ({ s with point := .ended }, [.cancelled])

/-- The `except` clauses around the handling of a frame. -/
def settle (o : Await) : SlackSocket × List SocketEvent :=
  match o with
  | .done => (s.listen, [])
  | .error => (s.listen, [])
  | .closed => ({ s with point := .closing false }, [])
  | .cancelled => ({ s with point := .closing true }, [.cancelled])

/-- What follows when the pending `await` ends. -/
def resume (o : Await) : Option (SlackSocket × List SocketEvent) :=
  match s.point, o with
  | .opening, .done => some ({ s with point := .connecting }, [])
  | .connecting, .done =>
    some ({ s with backoff := 2, conns := s.conns + 1 }.listen, [.connected (s.conns + 1)])
  | .closing true, .done => some ({ s with point := .ended }, [])
  | .closing false, .done => some (s.attempt, [])
  | .sleeping, .done => some ({ s with backoff := min (s.backoff * (3 / 2)) 30 }.attempt, [])
  | .receiving, .done => none
  | .acking _, .done => none
  | .receiving, o => some (s.settle o)
  | .acking _, o => some (s.settle o)
  | .ended, _ => none
  | _, .cancelled => some s.leave
  -- nothing else is raised by `asyncio.sleep`
  | .sleeping, _ => none
  | _, _ => some s.retry

end SlackSocket

/-! ## Messages -/

/-- `msg.get("type")` -/
def msgType (msg : Value) : Value :=
  msg.getD "type" (.scalar .null)

/-- `msg.get("envelope_id")` -/
def envelopeId (msg : Value) : Value :=
  msg.getD "envelope_id" (.scalar .null)

/-- `msg.get("payload", {})` -/
def msgPayload (msg : Value) : Value :=
  msg.getD "payload" .empty

/-- `msg_type in {"events_api", "interactive"}`, where it can be hashed. -/
def handledType : Value → Bool
  | .scalar s => decide (s = .str "events_api") || decide (s = .str "interactive")
  | _ => false

namespace SlackSocketModeClient

variable (client : SlackSocketModeClient)

/-- The handling of a message after its acknowledgement. -/
def dispatch (s : SlackSocket) (msg : Value) (handler : Await) : SlackSocket × List SocketEvent :=
  if (msgType msg).hashable = false then s.settle .error
  else if handledType (msgType msg) then
    if (msgPayload msg).isMap then
      match client.eventHandler with
      | none => s.settle .done
      | some kind =>
        let r := s.settle (if kind = .coroutine then .done else handler)
        (r.1, .started s.conns s.frames (msgPayload msg) :: r.2)
    -- `payload.get("type")` raises
    else s.settle .error
  else s.settle .done

/-- The handling of a frame up to its acknowledgement. -/
def onFrame (s : SlackSocket) (text : String) (handler : Await) :
    SlackSocket × List SocketEvent :=
  match client.loads text with
  | none => s.settle .error
  | some msg =>
    if msg.isMap then
      if (envelopeId msg).truthy then ({ s with point := .acking msg }, [])
      else client.dispatch s msg handler
    -- `msg.get` raises
    else s.settle .error

/-! ## The machine -/

/-- One step of the loop. -/
def step (s : SlackSocket) : SocketAction → Option (SlackSocket × List SocketEvent)
  | .stop => some ({ s with running := false }, [.stopped])
  | .ends o => s.resume o
  | .frame text handler =>
    match s.point with
    | .receiving =>
      let r := client.onFrame { s with frames := s.frames + 1 } text handler
      some (r.1, .received s.conns (s.frames + 1) text :: r.2)
    | _ => none
  | .sent handler =>
    match s.point with
    | .acking msg =>
      let r := client.dispatch s msg handler
      some (r.1, .acked s.conns (envelopeId msg) :: r.2)
    | _ => none

/-- The loop, from `start` on. -/
def machine : Machine SlackSocket SocketAction SocketEvent where
  start := fun s => s = {}
  step := client.step

end SlackSocketModeClient

end PrReviewer.Model
