import Mathlib.Tactic.Linarith
import PrReviewer.Model.SlackSocket

/-!
# Acknowledged before handled

What holds of every run of the Slack loop. `SocketSound` is the invariant: it says of every event so
far what it needs, and of the point where the loop waits what the next event will need. Each way
the loop moves on keeps it, and a step is made of those.
-/

set_option autoImplicit false

namespace PrReviewer.Model

open PrReviewer.Library

/-! ## What is said of the events -/

/-- The event is an acknowledgement. -/
def SocketEvent.isAck : SocketEvent → Bool
  | acked _ _ => true
  | _ => false

/-- The event is the start of a task. -/
def SocketEvent.isStart : SocketEvent → Bool
  | started _ _ _ => true
  | _ => false

/-- The number of the frame an event is about. -/
def SocketEvent.frame? : SocketEvent → Option Nat
  | received _ frame _ => some frame
  | started _ frame _ => some frame
  | _ => none

/-- What the delays remember of an event. -/
def SocketEvent.delay (d : Option Rat) : SocketEvent → Option Rat
  | connected _ => none
  | slept seconds => some seconds
  | _ => d

/-- The delay slept last, if there was one since the last connection. -/
def lastDelay (h : List SocketEvent) : Option Rat :=
  h.foldl SocketEvent.delay none

/-- The last delay after one more event. -/
@[simp] theorem lastDelay_snoc (h : List SocketEvent) (e : SocketEvent) :
    lastDelay (h ++ [e]) = e.delay (lastDelay h) := by
  rw [lastDelay, List.foldl_append]
  rfl

/-- A delay lies between 2 and 30 seconds, is 2 where none was slept since the last connection,
and is no shorter than the one before it. -/
structure DelayOk (pre : List SocketEvent) (seconds : Rat) : Prop where
  two_le : 2 ≤ seconds
  le_thirty : seconds ≤ 30
  anew : lastDelay pre = none → seconds = 2
  grows : ∀ d, lastDelay pre = some d → d ≤ seconds

/-- The frame has been received on this connection, as this message, and its acknowledgements
since are these. -/
def Received (client : SlackSocketModeClient) (conn frame : Nat) (msg : Value)
    (acks h : List SocketEvent) : Prop :=
  ∃ before text mid, h = before ++ .received conn frame text :: mid ∧
    client.loads text = some msg ∧ msg.isMap = true ∧ mid.filter SocketEvent.isAck = acks

/-- What an event needs of those before it. -/
def EventOk (client : SlackSocketModeClient) (pre : List SocketEvent) : SocketEvent → Prop
  | .received _ frame _ => ∀ conn text, .received conn frame text ∉ pre
  | .started conn frame payload =>
    (∀ conn' payload', .started conn' frame payload' ∉ pre) ∧
      ∃ msg acks, Received client conn frame msg acks pre ∧ payload = msgPayload msg ∧
        handledType (msgType msg) = true ∧
        ((envelopeId msg).truthy = true → acks = [.acked conn (envelopeId msg)])
  | .slept seconds => DelayOk pre seconds
  | _ => True

/-! ## The invariant -/

/-- The delay the loop sleeps next. -/
def nextDelay : Option Rat → Rat
  | none => 2
  | some d => min (d * (3 / 2)) 30

/-- What holds of the loop and its history. -/
structure SocketSound (client : SlackSocketModeClient) (s : SlackSocket) (h : List SocketEvent) :
    Prop where
  events : Each (EventOk client) h
  numbers : ∀ e ∈ h, ∀ n, e.frame? = some n → n ≤ s.frames
  delays : ∀ d, lastDelay h = some d → 2 ≤ d ∧ d ≤ 30
  stopped : s.running = false → .stopped ∈ h
  backoff : s.point ≠ .sleeping → s.point ≠ .ended → s.backoff = nextDelay (lastDelay h)
  sleeping : s.point = .sleeping → lastDelay h = some s.backoff
  acking : ∀ msg, s.point = .acking msg → (envelopeId msg).truthy = true ∧
    Received client s.conns s.frames msg [] h ∧ ∀ conn payload, .started conn s.frames payload ∉ h
  returning : s.point = .closing true → .cancelled ∈ h
  ended : s.point = .ended → .stopped ∈ h ∨ .cancelled ∈ h

variable {client : SlackSocketModeClient} {s : SlackSocket} {h : List SocketEvent}

/-- The next delay is within its bounds. -/
theorem delayOk_nextDelay (hdelays : ∀ d, lastDelay h = some d → 2 ≤ d ∧ d ≤ 30) :
    DelayOk h (nextDelay (lastDelay h)) := by
  cases hlast : lastDelay h with
  | none =>
    refine ⟨le_refl 2, by norm_num [nextDelay], fun _ => rfl, fun d hd => ?_⟩
    rw [hlast] at hd
    cases hd
  | some d =>
    obtain ⟨hlow, hhigh⟩ := hdelays d hlast
    have hgrow : d ≤ min (d * (3 / 2)) 30 := le_min (by linarith) hhigh
    refine ⟨le_trans hlow hgrow, min_le_right _ _, fun hnone => ?_, fun d' hd' => ?_⟩
    · rw [hlast] at hnone
      cases hnone
    · rw [hlast] at hd'
      cases hd'
      exact hgrow

/-- One more event keeps the bound on the numbers of the frames, if it meets it. -/
theorem frames_snoc {bound : Nat} (hh : ∀ x ∈ h, ∀ n, x.frame? = some n → n ≤ bound)
    {e : SocketEvent} (he : ∀ n, e.frame? = some n → n ≤ bound) :
    ∀ x ∈ h ++ [e], ∀ n, x.frame? = some n → n ≤ bound := by
  intro x hx n hn
  rcases List.mem_append.mp hx with hx | hx
  · exact hh x hx n hn
  · rw [List.mem_singleton.mp hx] at hn
    exact he n hn

/-- The frame stays unstarted where the event is no start. -/
theorem unstarted_snoc {frame : Nat} (hno : ∀ conn payload, .started conn frame payload ∉ h)
    {e : SocketEvent} (he : e.isStart = false) :
    ∀ conn payload, .started conn frame payload ∉ h ++ [e] := by
  intro conn payload hmem
  rcases List.mem_append.mp hmem with hmem | hmem
  · exact hno conn payload hmem
  · rw [← List.mem_singleton.mp hmem] at he
    cases he

/-- An event that is no acknowledgement keeps what was received. -/
theorem Received.snoc {conn frame : Nat} {msg : Value} {acks : List SocketEvent}
    (hr : Received client conn frame msg acks h) {e : SocketEvent} (he : e.isAck = false) :
    Received client conn frame msg acks (h ++ [e]) := by
  obtain ⟨before, text, mid, rfl, hloads, hmap, hacks⟩ := hr
  refine ⟨before, text, mid ++ [e], by simp, hloads, hmap, ?_⟩
  rw [List.filter_append, hacks, List.filter_singleton, he]
  simp

/-- An acknowledgement is recorded for the frame received. -/
theorem Received.ack {conn frame : Nat} {msg : Value}
    (hr : Received client conn frame msg [] h) (id : Value) :
    Received client conn frame msg [.acked conn id] (h ++ [.acked conn id]) := by
  obtain ⟨before, text, mid, rfl, hloads, hmap, hacks⟩ := hr
  refine ⟨before, text, mid ++ [.acked conn id], by simp, hloads, hmap, ?_⟩
  rw [List.filter_append, hacks]
  rfl

/-- The client is sound before its first step. -/
theorem socketSound_start : SocketSound client {} [] where
  events := each_nil
  numbers := fun e he => absurd he List.not_mem_nil
  delays := fun d hd => by cases hd
  stopped := fun hr => by cases hr
  backoff := fun _ _ => rfl
  sleeping := fun hp => by cases hp
  acking := fun msg hp => by cases hp
  returning := fun hp => by cases hp
  ended := fun hp => by cases hp

/-! ## The moves of the loop -/

/-- The loop is neither asleep nor at its end. -/
def SlackSocket.awake (s : SlackSocket) : Prop :=
  s.point ≠ .sleeping ∧ s.point ≠ .ended

/-- A client that neither sleeps nor has ended is awake. -/
theorem SlackSocket.awake_of_point {s : SlackSocket} {p : SocketPoint} (hp : s.point = p)
    (hsleep : p ≠ .sleeping) (hend : p ≠ .ended) : s.awake := by
  unfold awake
  rw [hp]
  exact ⟨hsleep, hend⟩

/-- A client that receives is awake. -/
theorem SlackSocket.awake_of_receiving {s : SlackSocket} (hp : s.point = .receiving) : s.awake :=
  awake_of_point hp (by simp) (by simp)

/-- A client that acknowledges is awake. -/
theorem SlackSocket.awake_of_acking {s : SlackSocket} {msg : Value} (hp : s.point = .acking msg) :
    s.awake :=
  awake_of_point hp (by simp) (by simp)

/-- The loop goes on to a point that asks for nothing. -/
theorem SocketSound.goto (hs : SocketSound client s h) (hawake : s.awake) {p : SocketPoint}
    (hp : p = .connecting ∨ p = .opening ∨ p = .receiving ∨ p = .closing false) :
    SocketSound client { s with point := p } h where
  events := hs.events
  numbers := hs.numbers
  delays := hs.delays
  stopped := hs.stopped
  backoff := fun _ _ => hs.backoff hawake.1 hawake.2
  sleeping := fun heq => by rcases hp with rfl | rfl | rfl | rfl <;> cases heq
  acking := fun msg heq => by rcases hp with rfl | rfl | rfl | rfl <;> cases heq
  returning := fun heq => by rcases hp with rfl | rfl | rfl | rfl <;> cases heq
  ended := fun heq => by rcases hp with rfl | rfl | rfl | rfl <;> cases heq

/-- The loop waits for the acknowledgement of a frame that has not been handled. -/
theorem SocketSound.acknowledge (hs : SocketSound client s h) (hawake : s.awake) {msg : Value}
    (hid : (envelopeId msg).truthy = true)
    (hrec : Received client s.conns s.frames msg [] h)
    (hno : ∀ conn payload, .started conn s.frames payload ∉ h) :
    SocketSound client { s with point := .acking msg } h where
  events := hs.events
  numbers := hs.numbers
  delays := hs.delays
  stopped := hs.stopped
  backoff := fun _ _ => hs.backoff hawake.1 hawake.2
  sleeping := fun heq => by cases heq
  acking := fun msg' heq => by
    cases heq
    exact ⟨hid, hrec, hno⟩
  returning := fun heq => by cases heq
  ended := fun heq => by cases heq

/-- The loop leaves a connection because of a cancellation. -/
theorem SocketSound.close (hs : SocketSound client s h) (hawake : s.awake)
    (hcancel : .cancelled ∈ h) :
    SocketSound client { s with point := .closing true } h where
  events := hs.events
  numbers := hs.numbers
  delays := hs.delays
  stopped := hs.stopped
  backoff := fun _ _ => hs.backoff hawake.1 hawake.2
  sleeping := fun heq => by cases heq
  acking := fun msg heq => by cases heq
  returning := fun _ => hcancel
  ended := fun heq => by cases heq

/-- The loop ends. -/
theorem SocketSound.finish (hs : SocketSound client s h) (hend : .stopped ∈ h ∨ .cancelled ∈ h) :
    SocketSound client { s with point := .ended } h where
  events := hs.events
  numbers := hs.numbers
  delays := hs.delays
  stopped := hs.stopped
  backoff := fun _ hne => absurd rfl hne
  sleeping := fun heq => by cases heq
  acking := fun msg heq => by cases heq
  returning := fun heq => by cases heq
  ended := fun _ => hend

/-- A stop or a cancellation asks for nothing and takes nothing away. -/
theorem SocketSound.silent (hs : SocketSound client s h) {e : SocketEvent}
    (he : e = .stopped ∨ e = .cancelled) :
    SocketSound client s (h ++ [e]) := by
  have hdelay : lastDelay (h ++ [e]) = lastDelay h := by
    rw [lastDelay_snoc]
    rcases he with rfl | rfl <;> rfl
  have hok : EventOk client h e := by rcases he with rfl | rfl <;> trivial
  have hack : e.isAck = false := by rcases he with rfl | rfl <;> rfl
  have hstart : e.isStart = false := by rcases he with rfl | rfl <;> rfl
  have hframe : e.frame? = none := by rcases he with rfl | rfl <;> rfl
  exact {
    events := each_snoc.mpr ⟨hs.events, hok⟩
    numbers := frames_snoc hs.numbers fun n hn => by rw [hframe] at hn; cases hn
    delays := hdelay ▸ hs.delays
    stopped := fun hr => List.mem_append_left _ (hs.stopped hr)
    backoff := hdelay ▸ hs.backoff
    sleeping := hdelay ▸ hs.sleeping
    acking := fun msg hp => by
      obtain ⟨hid, hrec, hno⟩ := hs.acking msg hp
      exact ⟨hid, hrec.snoc hack, unstarted_snoc hno hstart⟩
    returning := fun hp => List.mem_append_left _ (hs.returning hp)
    ended := fun hp => (hs.ended hp).imp (List.mem_append_left _) (List.mem_append_left _) }

/-- An attempt fails, and the loop goes to sleep. -/
theorem SocketSound.retry (hs : SocketSound client s h) (hawake : s.awake) :
    SocketSound client s.retry.1 (h ++ s.retry.2) := by
  have hbackoff := hs.backoff hawake.1 hawake.2
  have hdelay : DelayOk h s.backoff := hbackoff ▸ delayOk_nextDelay hs.delays
  have hlast : lastDelay (h ++ s.retry.2) = some s.backoff := lastDelay_snoc h _
  exact {
    events := each_snoc.mpr ⟨hs.events, hdelay⟩
    numbers := frames_snoc hs.numbers fun n hn => by cases hn
    delays := fun d hd => by
      rw [hlast] at hd
      cases hd
      exact ⟨hdelay.two_le, hdelay.le_thirty⟩
    stopped := fun hr => List.mem_append_left _ (hs.stopped hr)
    backoff := fun hne => absurd rfl hne
    sleeping := fun _ => hlast
    acking := fun msg heq => by cases heq
    returning := fun heq => by cases heq
    ended := fun heq => by cases heq }

/-- A cancellation ends the loop. -/
theorem SocketSound.leave (hs : SocketSound client s h) :
    SocketSound client s.leave.1 (h ++ s.leave.2) :=
  (hs.silent (Or.inr rfl)).finish (Or.inr (List.mem_append_right _ (List.mem_singleton_self _)))

/-- Connecting again keeps the client sound. -/
theorem SocketSound.attempt (hs : SocketSound client s h) (hawake : s.awake) :
    SocketSound client s.attempt h := by
  unfold SlackSocket.attempt
  by_cases hrun : s.running = true
  · rw [if_pos hrun]
    exact hs.goto hawake (Or.inr (Or.inl rfl))
  · rw [if_neg hrun]
    exact hs.finish (Or.inl (hs.stopped (Bool.eq_false_iff.mpr hrun)))

/-- Listening keeps the client sound. -/
theorem SocketSound.listen (hs : SocketSound client s h) (hawake : s.awake) :
    SocketSound client s.listen h := by
  unfold SlackSocket.listen
  by_cases hrun : s.running = true
  · rw [if_pos hrun]
    exact hs.goto hawake (Or.inr (Or.inr (Or.inl rfl)))
  · rw [if_neg hrun]
    exact hs.goto hawake (Or.inr (Or.inr (Or.inr rfl)))

/-- The handling of a frame ends. -/
theorem SocketSound.settle (hs : SocketSound client s h) (hawake : s.awake) (o : Await) :
    SocketSound client (s.settle o).1 (h ++ (s.settle o).2) := by
  cases o with
  | done =>
    rw [SlackSocket.settle, List.append_nil]
    exact hs.listen hawake
  | error =>
    rw [SlackSocket.settle, List.append_nil]
    exact hs.listen hawake
  | closed =>
    rw [SlackSocket.settle, List.append_nil]
    exact hs.goto hawake (Or.inr (Or.inr (Or.inr rfl)))
  | cancelled =>
    exact (hs.silent (Or.inr rfl)).close hawake
      (List.mem_append_right _ (List.mem_singleton_self _))

/-- A connection is made. -/
theorem SocketSound.connect (hs : SocketSound client s h) :
    SocketSound client { s with backoff := 2, conns := s.conns + 1, point := .receiving }
      (h ++ [.connected (s.conns + 1)]) := by
  have hlast : lastDelay (h ++ [.connected (s.conns + 1)]) = none := lastDelay_snoc h _
  exact {
    events := each_snoc.mpr ⟨hs.events, trivial⟩
    numbers := frames_snoc hs.numbers fun n hn => by cases hn
    delays := fun d hd => by
      rw [hlast] at hd
      cases hd
    stopped := fun hr => List.mem_append_left _ (hs.stopped hr)
    backoff := fun _ _ => by
      rw [hlast]
      rfl
    sleeping := fun heq => by cases heq
    acking := fun msg heq => by cases heq
    returning := fun heq => by cases heq
    ended := fun heq => by cases heq }

/-- The loop wakes up. -/
theorem SocketSound.wake (hs : SocketSound client s h) (hp : s.point = .sleeping) :
    SocketSound client { s with backoff := min (s.backoff * (3 / 2)) 30, point := .opening } h where
  events := hs.events
  numbers := hs.numbers
  delays := hs.delays
  stopped := hs.stopped
  backoff := fun _ _ => by
    rw [hs.sleeping hp]
    rfl
  sleeping := fun heq => by cases heq
  acking := fun msg heq => by cases heq
  returning := fun heq => by cases heq
  ended := fun heq => by cases heq

/-- A frame is received, under a new number. -/
theorem SocketSound.receive (hs : SocketSound client s h) (hp : s.point = .receiving)
    (text : String) :
    SocketSound client { s with frames := s.frames + 1 }
        (h ++ [.received s.conns (s.frames + 1) text]) ∧
      ∀ conn payload, .started conn (s.frames + 1) payload ∉
        h ++ [.received s.conns (s.frames + 1) text] := by
  have hnew : ∀ e ∈ h, e.frame? ≠ some (s.frames + 1) := by
    intro e he heq
    have hle := hs.numbers e he _ heq
    omega
  have hlast : lastDelay (h ++ [.received s.conns (s.frames + 1) text]) = lastDelay h :=
    lastDelay_snoc h _
  obtain ⟨hsleep, hend⟩ := SlackSocket.awake_of_receiving hp
  have hbackoff : s.backoff = nextDelay (lastDelay h) := hs.backoff hsleep hend
  have hsound : SocketSound client { s with frames := s.frames + 1 }
      (h ++ [.received s.conns (s.frames + 1) text]) := {
    events := each_snoc.mpr ⟨hs.events, fun conn text' hmem => hnew _ hmem rfl⟩
    numbers := by
      apply frames_snoc
      · exact fun x hx n hn => Nat.le_succ_of_le (hs.numbers x hx n hn)
      · intro n hn
        cases hn
        exact Nat.le_refl _
    delays := hlast ▸ hs.delays
    stopped := fun hr => List.mem_append_left _ (hs.stopped hr)
    backoff := fun _ _ => hlast ▸ hbackoff
    sleeping := fun heq => by rw [hp] at heq; cases heq
    acking := fun msg heq => by rw [hp] at heq; cases heq
    returning := fun heq => by rw [hp] at heq; cases heq
    ended := fun heq => by rw [hp] at heq; cases heq }
  exact ⟨hsound, unstarted_snoc (fun conn payload hmem => hnew _ hmem rfl) rfl⟩

/-- What is asked of the handling of a message, when the loop waits for nothing else. -/
structure Due (client : SlackSocketModeClient) (s : SlackSocket) (msg : Value)
    (h : List SocketEvent) : Prop where
  received : ∃ acks, Received client s.conns s.frames msg acks h ∧
    ((envelopeId msg).truthy = true → acks = [.acked s.conns (envelopeId msg)])
  unstarted : ∀ conn payload, .started conn s.frames payload ∉ h

/-- The acknowledgement is sent, and the message is due. -/
theorem SocketSound.ack (hs : SocketSound client s h) {msg : Value} (hp : s.point = .acking msg) :
    SocketSound client { s with point := .receiving } (h ++ [.acked s.conns (envelopeId msg)]) ∧
      Due client { s with point := .receiving } msg (h ++ [.acked s.conns (envelopeId msg)]) := by
  obtain ⟨-, hrec, hno⟩ := hs.acking msg hp
  have hlast : lastDelay (h ++ [.acked s.conns (envelopeId msg)]) = lastDelay h :=
    lastDelay_snoc h _
  obtain ⟨hsleep, hend⟩ := SlackSocket.awake_of_acking hp
  have hbackoff : s.backoff = nextDelay (lastDelay h) := hs.backoff hsleep hend
  have hsound : SocketSound client { s with point := .receiving }
      (h ++ [.acked s.conns (envelopeId msg)]) := {
    events := each_snoc.mpr ⟨hs.events, trivial⟩
    numbers := frames_snoc hs.numbers fun n hn => by cases hn
    delays := hlast ▸ hs.delays
    stopped := fun hr => List.mem_append_left _ (hs.stopped hr)
    backoff := fun _ _ => hlast ▸ hbackoff
    sleeping := fun heq => by cases heq
    acking := fun msg heq => by cases heq
    returning := fun heq => by cases heq
    ended := fun heq => by cases heq }
  have hdue : Due client { s with point := .receiving } msg
      (h ++ [.acked s.conns (envelopeId msg)]) := {
    received := ⟨_, hrec.ack (envelopeId msg), fun _ => rfl⟩
    unstarted := unstarted_snoc hno rfl }
  exact ⟨hsound, hdue⟩

/-- The handler is started for a message that is due. -/
theorem SocketSound.begin (hs : SocketSound client s h) (hp : s.point = .receiving) {msg : Value}
    (hdue : Due client s msg h) (htype : handledType (msgType msg) = true) :
    SocketSound client s (h ++ [.started s.conns s.frames (msgPayload msg)]) := by
  obtain ⟨acks, hrec, hacks⟩ := hdue.received
  have hlast : lastDelay (h ++ [.started s.conns s.frames (msgPayload msg)]) = lastDelay h :=
    lastDelay_snoc h _
  have hok : EventOk client h (.started s.conns s.frames (msgPayload msg)) :=
    ⟨hdue.unstarted, msg, acks, hrec, rfl, htype, hacks⟩
  exact {
    events := each_snoc.mpr ⟨hs.events, hok⟩
    numbers := by
      apply frames_snoc hs.numbers
      intro n hn
      cases hn
      exact Nat.le_refl _
    delays := hlast ▸ hs.delays
    stopped := fun hr => List.mem_append_left _ (hs.stopped hr)
    backoff := hlast ▸ hs.backoff
    sleeping := fun heq => by rw [hp] at heq; cases heq
    acking := fun msg heq => by rw [hp] at heq; cases heq
    returning := fun heq => by rw [hp] at heq; cases heq
    ended := fun heq => by rw [hp] at heq; cases heq }

/-- A message that is due is handled. -/
theorem SocketSound.dispatch (hs : SocketSound client s h) (hp : s.point = .receiving) {msg : Value}
    (hdue : Due client s msg h) (o : Await) :
    SocketSound client (client.dispatch s msg o).1 (h ++ (client.dispatch s msg o).2) := by
  have hawake : s.awake := SlackSocket.awake_of_receiving hp
  unfold SlackSocketModeClient.dispatch
  by_cases hhash : (msgType msg).hashable = false
  · rw [if_pos hhash]
    exact hs.settle hawake .error
  · rw [if_neg hhash]
    by_cases htype : handledType (msgType msg) = true
    · rw [if_pos htype]
      by_cases hpayload : (msgPayload msg).isMap = true
      · rw [if_pos hpayload]
        cases hhandler : client.eventHandler with
        | none => exact hs.settle hawake .done
        | some kind =>
          have hstarted := (hs.begin hp hdue htype).settle hawake
            (if kind = .coroutine then .done else o)
          rw [List.append_assoc] at hstarted
          exact hstarted
      · rw [if_neg hpayload]
        exact hs.settle hawake .error
    · rw [if_neg htype]
      exact hs.settle hawake .done

/-- A frame is received and handled up to its acknowledgement. -/
theorem SocketSound.frame (hs : SocketSound client s h) (hp : s.point = .receiving) (text : String)
    (o : Await) :
    SocketSound client (client.onFrame { s with frames := s.frames + 1 } text o).1
      (h ++ .received s.conns (s.frames + 1) text ::
        (client.onFrame { s with frames := s.frames + 1 } text o).2) := by
  obtain ⟨hrec, hno⟩ := hs.receive hp text
  have hawake : SlackSocket.awake { s with frames := s.frames + 1 } :=
    SlackSocket.awake_of_receiving hp
  have hsplit : ∀ es : List SocketEvent, h ++ .received s.conns (s.frames + 1) text :: es =
      (h ++ [.received s.conns (s.frames + 1) text]) ++ es := by
    intro es
    rw [List.append_assoc, List.singleton_append]
  rw [hsplit]
  unfold SlackSocketModeClient.onFrame
  cases hloads : client.loads text with
  | none => exact hrec.settle hawake .error
  | some msg =>
    by_cases hmap : msg.isMap = true
    · have hreceived : Received client s.conns (s.frames + 1) msg []
          (h ++ [.received s.conns (s.frames + 1) text]) :=
        ⟨h, text, [], rfl, hloads, hmap, rfl⟩
      by_cases hid : (envelopeId msg).truthy = true
      · simp only [if_pos hmap, if_pos hid, List.append_nil]
        exact hrec.acknowledge hawake hid hreceived hno
      · simp only [if_pos hmap, if_neg hid]
        exact hrec.dispatch hp ⟨⟨[], hreceived, fun htrue => absurd htrue hid⟩, hno⟩ o
    · simp only [if_neg hmap]
      exact hrec.settle hawake .error

/-! ## Steps and runs -/

/-- An `await` of an attempt that does not return is handled outside the connection. -/
theorem resume_attempt {o : Await} (ho : o ≠ .done)
    (hp : s.point = .opening ∨ s.point = .connecting ∨ ∃ returning, s.point = .closing returning) :
    s.resume o = some s.retry ∨ s.resume o = some s.leave := by
  unfold SlackSocket.resume
  rcases hp with hp | hp | ⟨returning, hp⟩
  · rw [hp]
    cases o with
    | done => exact absurd rfl ho
    | closed => exact Or.inl rfl
    | error => exact Or.inl rfl
    | cancelled => exact Or.inr rfl
  · rw [hp]
    cases o with
    | done => exact absurd rfl ho
    | closed => exact Or.inl rfl
    | error => exact Or.inl rfl
    | cancelled => exact Or.inr rfl
  · rw [hp]
    cases o with
    | done => exact absurd rfl ho
    | closed => cases returning <;> exact Or.inl rfl
    | error => cases returning <;> exact Or.inl rfl
    | cancelled => cases returning <;> exact Or.inr rfl

/-- An `await` of the handling of a frame that does not return is handled by its clauses. -/
theorem resume_frame {o : Await} (ho : o ≠ .done)
    (hp : s.point = .receiving ∨ ∃ msg, s.point = .acking msg) :
    s.resume o = some (s.settle o) := by
  unfold SlackSocket.resume
  rcases hp with hp | ⟨msg, hp⟩
  · rw [hp]
    cases o with
    | done => exact absurd rfl ho
    | closed => rfl
    | error => rfl
    | cancelled => rfl
  · rw [hp]
    cases o with
    | done => exact absurd rfl ho
    | closed => rfl
    | error => rfl
    | cancelled => rfl

/-- The pending `await` returns. -/
theorem SocketSound.resume_done (hs : SocketSound client s h) {s' : SlackSocket}
    {es : List SocketEvent} (hstep : s.resume .done = some (s', es)) :
    SocketSound client s' (h ++ es) := by
  unfold SlackSocket.resume at hstep
  cases hp : s.point with
  | opening =>
    rw [hp] at hstep
    cases hstep
    rw [List.append_nil]
    exact hs.goto (SlackSocket.awake_of_point hp (by simp) (by simp)) (Or.inl rfl)
  | connecting =>
    rw [hp] at hstep
    cases hstep
    exact hs.connect.listen (SlackSocket.awake_of_receiving rfl)
  | receiving =>
    rw [hp] at hstep
    cases hstep
  | acking msg =>
    rw [hp] at hstep
    cases hstep
  | closing returning =>
    rw [hp] at hstep
    cases returning with
    | true =>
      cases hstep
      rw [List.append_nil]
      exact hs.finish (Or.inr (hs.returning hp))
    | false =>
      cases hstep
      rw [List.append_nil]
      exact hs.attempt (SlackSocket.awake_of_point hp (by simp) (by simp))
  | sleeping =>
    rw [hp] at hstep
    cases hstep
    rw [List.append_nil]
    exact (hs.wake hp).attempt (SlackSocket.awake_of_point rfl (by simp) (by simp))
  | ended =>
    rw [hp] at hstep
    cases hstep

/-- The pending `await` ends. -/
theorem SocketSound.resume (hs : SocketSound client s h) {o : Await} {s' : SlackSocket}
    {es : List SocketEvent} (hstep : s.resume o = some (s', es)) :
    SocketSound client s' (h ++ es) := by
  by_cases ho : o = .done
  · rw [ho] at hstep
    exact hs.resume_done hstep
  have hattempt : s.awake →
      (s.point = .opening ∨ s.point = .connecting ∨ ∃ returning, s.point = .closing returning) →
      SocketSound client s' (h ++ es) := by
    intro hawake hp
    rcases resume_attempt ho hp with heq | heq
    · rw [heq] at hstep
      cases hstep
      exact hs.retry hawake
    · rw [heq] at hstep
      cases hstep
      exact hs.leave
  have hframe : s.awake → (s.point = .receiving ∨ ∃ msg, s.point = .acking msg) →
      SocketSound client s' (h ++ es) := by
    intro hawake hp
    rw [resume_frame ho hp] at hstep
    have hsettle := hs.settle hawake o
    rw [Option.some.inj hstep] at hsettle
    exact hsettle
  cases hp : s.point with
  | opening => exact hattempt (SlackSocket.awake_of_point hp (by simp) (by simp)) (Or.inl hp)
  | connecting =>
    exact hattempt (SlackSocket.awake_of_point hp (by simp) (by simp)) (Or.inr (Or.inl hp))
  | closing returning =>
    exact hattempt (SlackSocket.awake_of_point hp (by simp) (by simp)) (Or.inr (Or.inr ⟨_, hp⟩))
  | receiving => exact hframe (SlackSocket.awake_of_receiving hp) (Or.inl hp)
  | acking msg => exact hframe (SlackSocket.awake_of_acking hp) (Or.inr ⟨msg, hp⟩)
  | sleeping =>
    unfold SlackSocket.resume at hstep
    rw [hp] at hstep
    cases o with
    | done => exact absurd rfl ho
    | closed => cases hstep
    | error => cases hstep
    | cancelled => cases hstep; exact hs.leave
  | ended =>
    unfold SlackSocket.resume at hstep
    rw [hp] at hstep
    cases o <;> cases hstep

/-- What a frame does. -/
theorem step_frame (hp : s.point = .receiving) (text : String) (o : Await) :
    client.step s (.frame text o) = some
      ((client.onFrame { s with frames := s.frames + 1 } text o).1,
        .received s.conns (s.frames + 1) text ::
          (client.onFrame { s with frames := s.frames + 1 } text o).2) := by
  unfold SlackSocketModeClient.step
  rw [hp]

/-- What follows an acknowledgement that was sent. -/
theorem step_sent {msg : Value} (hp : s.point = .acking msg) (o : Await) :
    client.step s (.sent o) = some
      ((client.dispatch s msg o).1,
        .acked s.conns (envelopeId msg) :: (client.dispatch s msg o).2) := by
  unfold SlackSocketModeClient.step
  rw [hp]

/-- A frame comes only where the loop receives. -/
theorem receiving_of_step {text : String} {o : Await} {r : SlackSocket × List SocketEvent}
    (hstep : client.step s (.frame text o) = some r) : s.point = .receiving := by
  unfold SlackSocketModeClient.step at hstep
  cases hp : s.point with
  | receiving => rfl
  | opening => rw [hp] at hstep; cases hstep
  | connecting => rw [hp] at hstep; cases hstep
  | acking msg => rw [hp] at hstep; cases hstep
  | closing returning => rw [hp] at hstep; cases hstep
  | sleeping => rw [hp] at hstep; cases hstep
  | ended => rw [hp] at hstep; cases hstep

/-- An acknowledgement is sent only where the loop waits for it. -/
theorem acking_of_step {o : Await} {r : SlackSocket × List SocketEvent}
    (hstep : client.step s (.sent o) = some r) : ∃ msg, s.point = .acking msg := by
  unfold SlackSocketModeClient.step at hstep
  cases hp : s.point with
  | acking msg => exact ⟨msg, rfl⟩
  | opening => rw [hp] at hstep; cases hstep
  | connecting => rw [hp] at hstep; cases hstep
  | receiving => rw [hp] at hstep; cases hstep
  | closing returning => rw [hp] at hstep; cases hstep
  | sleeping => rw [hp] at hstep; cases hstep
  | ended => rw [hp] at hstep; cases hstep

/-- **A step keeps the invariant.** -/
theorem SocketSound.step (hs : SocketSound client s h) {a : SocketAction} {s' : SlackSocket}
    {es : List SocketEvent} (hstep : client.step s a = some (s', es)) :
    SocketSound client s' (h ++ es) := by
  cases a with
  | stop =>
    cases hstep
    have hsilent := hs.silent (Or.inl rfl)
    exact { hsilent with stopped := fun _ => List.mem_append_right _ (List.mem_singleton_self _) }
  | ends o => exact hs.resume hstep
  | frame text handler =>
    have hp := receiving_of_step hstep
    rw [step_frame hp] at hstep
    cases hstep
    exact hs.frame hp text handler
  | sent handler =>
    obtain ⟨msg, hp⟩ := acking_of_step hstep
    rw [step_sent hp] at hstep
    cases hstep
    obtain ⟨hack, hdue⟩ := hs.ack hp
    have hdispatch := hack.dispatch rfl hdue handler
    rw [List.append_assoc] at hdispatch
    exact hdispatch

/-- **The invariant holds in every run.** -/
theorem socketSound_of_reachable (hr : client.machine.Reachable s h) : SocketSound client s h := by
  refine hr.invariant (I := SocketSound client) ?_ fun s h a s' es _ hs _ hstep => hs.step hstep
  rintro s rfl
  exact socketSound_start

/-! ## Malformed frames -/

/-- Handling the frame raises: it is no JSON object, its type cannot be hashed, or its type is
handled and its payload is no object. -/
def Malformed (client : SlackSocketModeClient) (text : String) : Prop :=
  ∀ msg, client.loads text = some msg → msg.isMap = true →
    (msgType msg).hashable = false ∨
      handledType (msgType msg) = true ∧ (msgPayload msg).isMap = false

/-- A malformed envelope is dropped. -/
theorem dispatch_of_malformed {msg : Value} (hrun : s.running = true)
    (hbad : (msgType msg).hashable = false ∨
      handledType (msgType msg) = true ∧ (msgPayload msg).isMap = false) (o : Await) :
    client.dispatch s msg o = ({ s with point := .receiving }, []) := by
  have hsettle : s.settle .error = ({ s with point := .receiving }, []) := by
    rw [SlackSocket.settle, SlackSocket.listen, if_pos hrun]
  unfold SlackSocketModeClient.dispatch
  by_cases hhash : (msgType msg).hashable = false
  · rw [if_pos hhash, hsettle]
  · obtain ⟨htype, hpayload⟩ := hbad.resolve_left hhash
    rw [if_neg hhash, if_pos htype, if_neg (by simp [hpayload]), hsettle]

/-- A malformed frame is skipped, at once or when its acknowledgement is sent. -/
theorem onFrame_of_malformed {text : String} (hrun : s.running = true)
    (hbad : Malformed client text) (o : Await) :
    client.onFrame s text o = ({ s with point := .receiving }, []) ∨
      ∃ msg, client.onFrame s text o = ({ s with point := .acking msg }, []) ∧
        ((msgType msg).hashable = false ∨
          handledType (msgType msg) = true ∧ (msgPayload msg).isMap = false) := by
  have hskip : s.settle .error = ({ s with point := .receiving }, []) := by
    rw [SlackSocket.settle, SlackSocket.listen, if_pos hrun]
  unfold SlackSocketModeClient.onFrame
  cases hloads : client.loads text with
  | none => exact Or.inl hskip
  | some msg =>
    by_cases hmap : msg.isMap = true
    · have hraises := hbad msg hloads hmap
      by_cases hid : (envelopeId msg).truthy = true
      · simp only [if_pos hmap, if_pos hid]
        exact Or.inr ⟨msg, rfl, hraises⟩
      · simp only [if_pos hmap, if_neg hid]
        exact Or.inl (dispatch_of_malformed hrun hraises o)
    · simp only [if_neg hmap]
      exact Or.inl hskip

/-- The loop goes on receiving on its connection after a malformed frame. -/
theorem step_of_malformed (hp : s.point = .receiving) (hrun : s.running = true) {text : String}
    (hbad : Malformed client text) (handler : Await) :
    client.step s (.frame text handler) = some
        ({ s with frames := s.frames + 1, point := .receiving },
          [.received s.conns (s.frames + 1) text]) ∨
      ∃ msg, client.step s (.frame text handler) = some
          ({ s with frames := s.frames + 1, point := .acking msg },
            [.received s.conns (s.frames + 1) text]) ∧
        ∀ o, client.step { s with frames := s.frames + 1, point := .acking msg } (.sent o) = some
          ({ s with frames := s.frames + 1, point := .receiving },
            [.acked s.conns (envelopeId msg)]) := by
  have hrun' : SlackSocket.running { s with frames := s.frames + 1 } = true := hrun
  rw [step_frame hp]
  rcases onFrame_of_malformed hrun' hbad handler with heq | ⟨msg, heq, hraises⟩
  · rw [heq]
    exact Or.inl rfl
  · rw [heq]
    refine Or.inr ⟨msg, rfl, fun o => ?_⟩
    have hsent := @step_sent client { s with frames := s.frames + 1, point := .acking msg } msg
      rfl o
    rw [@dispatch_of_malformed client { s with frames := s.frames + 1, point := .acking msg } msg
      hrun hraises o] at hsent
    exact hsent

/-- **Slack envelopes are acknowledged before they are handled.** In every run of the loop, with
any frames, any failures and a stop or a cancellation at any time: the handler is started at
most once for a frame, only for a message of a handled type, and, if the message has an
`envelope_id`, after exactly one acknowledgement of it since the frame was received, on the same
connection; the delays lie between 2 and 30 seconds, do not shrink between connections, and begin
at 2 after one; the loop ends only if it is stopped or cancelled; and it goes on receiving after
a malformed frame. -/
theorem slack_envelopes_acked (client : SlackSocketModeClient) {s : SlackSocket}
    {h : List SocketEvent} (hr : client.machine.Reachable s h) :
    Each (EventOk client) h ∧ (s.point = .ended → .stopped ∈ h ∨ .cancelled ∈ h) ∧
      ∀ text handler, s.point = .receiving → s.running = true → Malformed client text →
        client.step s (.frame text handler) = some
            ({ s with frames := s.frames + 1, point := .receiving },
              [.received s.conns (s.frames + 1) text]) ∨
          ∃ msg, client.step s (.frame text handler) = some
              ({ s with frames := s.frames + 1, point := .acking msg },
                [.received s.conns (s.frames + 1) text]) ∧
            ∀ o, client.step { s with frames := s.frames + 1, point := .acking msg } (.sent o) =
              some ({ s with frames := s.frames + 1, point := .receiving },
                [.acked s.conns (envelopeId msg)]) := by
  have hs : SocketSound client s h := socketSound_of_reachable hr
  exact ⟨hs.events, hs.ended, fun text handler hp hrun hbad =>
    step_of_malformed hp hrun hbad handler⟩

/-- A client that reads one envelope, and knows no other frame. -/
def oneEnvelope : SlackSocketModeClient where
  loads := fun text =>
    if text = "envelope" then
      some (.map [(.str "type", .ofText "events_api"), (.str "envelope_id", .ofText "e1"),
        (.str "payload", .empty)])
    else none
  eventHandler := some .coroutine

/-- The first attempt fails, the second connects, and a frame that is no JSON comes before the
envelope. -/
def oneEnvelopeRun : List SocketAction :=
  [.ends .error, .ends .done, .ends .done, .ends .done, .frame "?" .done, .frame "envelope" .done,
    .sent .done]

/-- One envelope is acknowledged before its task starts. -/
theorem slack_envelopes_acked_once :
    ∃ s h, oneEnvelope.machine.Reachable s h ∧
      h.any SocketEvent.isStart = true ∧ Each (EventOk oneEnvelope) h := by
  obtain ⟨s, h, hr, hcheck⟩ := @Machine.exists_reachable_run _ _ _ oneEnvelope.machine
    oneEnvelopeRun (fun _ h => h.any SocketEvent.isStart) {} rfl
    (by decide +kernel)
  exact ⟨s, h, hr, hcheck, (slack_envelopes_acked oneEnvelope hr).1⟩

end PrReviewer.Model
