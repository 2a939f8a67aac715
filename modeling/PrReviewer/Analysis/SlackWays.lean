import PrReviewer.Analysis.SlackBodies

/-!
# The ways a payload comes in

Slack's payloads reach the service over the socket, or as requests to one of two endpoints. Over the
socket a frame leads to at most one payload, and the payloads keep the order of their frames:
`Ordered` is the invariant, which a frame that waits for its acknowledgement keeps open. And
whichever way a payload comes, the same is done with it.
-/

set_option autoImplicit false

namespace PrReviewer.Model

open PrReviewer.Library

/-! ## Frames and payloads -/

/-- The text of a frame that is received. -/
def SocketEvent.frameText : SocketEvent → Option String
  | received _ _ text => some text
  | _ => none

/-- The payload that the handler is started on. -/
def SocketEvent.payload : SocketEvent → Option Value
  | started _ _ payload => some payload
  | _ => none

/-- The payload in a message, if it is one for the handler. -/
def payloadIn (msg : Value) : Option Value :=
  if msg.isMap && handledType (msgType msg) && (msgPayload msg).isMap then some (msgPayload msg)
  else none

/-- The payload in a frame. -/
def SlackSocketModeClient.framePayload (client : SlackSocketModeClient) (text : String) :
    Option Value :=
  (client.loads text).bind payloadIn

/-- The payloads in the frames received so far. -/
def SlackSocketModeClient.offered (client : SlackSocketModeClient) (h : List SocketEvent) :
    List Value :=
  (h.filterMap SocketEvent.frameText).filterMap client.framePayload

/-- The payloads handled so far. -/
def handledPayloads (h : List SocketEvent) : List Value :=
  h.filterMap SocketEvent.payload

/-- The handled payloads are offered ones in their order; while a frame waits for its
acknowledgement, they are so without its own. -/
structure Ordered (client : SlackSocketModeClient) (s : SlackSocket) (h : List SocketEvent) :
    Prop where
  handled : (handledPayloads h).Sublist (client.offered h)
  acking : ∀ msg, s.point = .acking msg → msg.isMap = true ∧
    ∃ before, client.offered h = before ++ (payloadIn msg).toList ∧
      (handledPayloads h).Sublist before

section Order

variable {client : SlackSocketModeClient} {s s' : SlackSocket} {h es : List SocketEvent}

/-- The payloads handled in two parts of a history. -/
theorem handledPayloads_append (h es : List SocketEvent) :
    handledPayloads (h ++ es) = handledPayloads h ++ handledPayloads es :=
  List.filterMap_append

/-- The payloads offered in two parts of a history. -/
theorem offered_append (client : SlackSocketModeClient) (h es : List SocketEvent) :
    client.offered (h ++ es) = client.offered h ++ client.offered es := by
  unfold SlackSocketModeClient.offered
  rw [List.filterMap_append, List.filterMap_append]

/-- The loop does not wait for an acknowledgement. -/
def SlackSocket.Unacked (s : SlackSocket) : Prop :=
  ∀ msg, s.point ≠ .acking msg

/-- Neither a frame nor a payload is among the events. -/
def Uneventful (es : List SocketEvent) : Prop :=
  es.filterMap SocketEvent.frameText = [] ∧ handledPayloads es = []

/-- Uneventful events offer nothing. -/
theorem Uneventful.offered (hq : Uneventful es) : client.offered es = [] := by
  unfold SlackSocketModeClient.offered
  rw [hq.1]
  rfl

/-- Uneventful events keep the order. -/
theorem Ordered.uneventful (ho : Ordered client s h) (hq : Uneventful es)
    (hpoint : s'.Unacked ∨ s'.point = s.point) : Ordered client s' (h ++ es) := by
  have hoffered : client.offered (h ++ es) = client.offered h := by
    rw [offered_append, hq.offered, List.append_nil]
  have hhandled : handledPayloads (h ++ es) = handledPayloads h := by
    rw [handledPayloads_append, hq.2, List.append_nil]
  constructor
  · rw [hoffered, hhandled]
    exact ho.handled
  · intro msg hmsg
    rw [hoffered, hhandled]
    rcases hpoint with hpoint | hpoint
    · exact absurd hmsg (hpoint msg)
    · exact ho.acking msg (hpoint.symm.trans hmsg)

/-! ## The moves of the loop -/

/-- A client that listens has nothing to acknowledge. -/
theorem unacked_listen (s : SlackSocket) : s.listen.Unacked := by
  unfold SlackSocket.listen
  intro msg
  split <;> simp

/-- A client that connects has nothing to acknowledge. -/
theorem unacked_attempt (s : SlackSocket) : s.attempt.Unacked := by
  unfold SlackSocket.attempt
  intro msg
  split <;> simp

/-- Settling an attempt is uneventful. -/
theorem settle_uneventful (s : SlackSocket) (o : Await) :
    (s.settle o).1.Unacked ∧ Uneventful (s.settle o).2 := by
  cases o with
  | done => exact ⟨unacked_listen s, rfl, rfl⟩
  | error => exact ⟨unacked_listen s, rfl, rfl⟩
  | closed => exact ⟨by simp [SlackSocket.Unacked, SlackSocket.settle], rfl, rfl⟩
  | cancelled => exact ⟨by simp [SlackSocket.Unacked, SlackSocket.settle], rfl, rfl⟩

/-- Retrying is uneventful. -/
theorem retry_uneventful (s : SlackSocket) : s.retry.1.Unacked ∧ Uneventful s.retry.2 :=
  ⟨by simp [SlackSocket.Unacked, SlackSocket.retry], rfl, rfl⟩

/-- Leaving a connection is uneventful. -/
theorem leave_uneventful (s : SlackSocket) : s.leave.1.Unacked ∧ Uneventful s.leave.2 :=
  ⟨by simp [SlackSocket.Unacked, SlackSocket.leave], rfl, rfl⟩

/-- Resuming is uneventful. -/
theorem resume_uneventful {o : Await} {r : SlackSocket × List SocketEvent}
    (hstep : s.resume o = some r) : r.1.Unacked ∧ Uneventful r.2 := by
  unfold SlackSocket.resume at hstep
  split at hstep
  · cases hstep
    exact ⟨by simp [SlackSocket.Unacked], rfl, rfl⟩
  · cases hstep
    exact ⟨unacked_listen _, rfl, rfl⟩
  · cases hstep
    exact ⟨by simp [SlackSocket.Unacked], rfl, rfl⟩
  · cases hstep
    exact ⟨unacked_attempt _, rfl, rfl⟩
  · cases hstep
    exact ⟨unacked_attempt _, rfl, rfl⟩
  · cases hstep
  · cases hstep
  · cases hstep
    exact settle_uneventful s _
  · cases hstep
    exact settle_uneventful s _
  · cases hstep
  · cases hstep
    exact leave_uneventful s
  · cases hstep
  · cases hstep
    exact retry_uneventful s

/-- The handling of a message starts the handler on its payload, or on nothing. -/
theorem dispatch_starts {msg : Value} (hmap : msg.isMap = true) (s : SlackSocket) (o : Await) :
    (client.dispatch s msg o).1.Unacked ∧
      (client.dispatch s msg o).2.filterMap SocketEvent.frameText = [] ∧
      (handledPayloads (client.dispatch s msg o).2).Sublist (payloadIn msg).toList := by
  have hsettle : ∀ o', (s.settle o').1.Unacked ∧
      (s.settle o').2.filterMap SocketEvent.frameText = [] ∧
      (handledPayloads (s.settle o').2).Sublist (payloadIn msg).toList := by
    intro o'
    obtain ⟨hpoint, hframes, hhandled⟩ := settle_uneventful s o'
    rw [hhandled]
    exact ⟨hpoint, hframes, List.nil_sublist _⟩
  unfold SlackSocketModeClient.dispatch
  by_cases hhash : (msgType msg).hashable = false
  · rw [if_pos hhash]
    exact hsettle .error
  · rw [if_neg hhash]
    by_cases htype : handledType (msgType msg) = true
    · rw [if_pos htype]
      by_cases hpayload : (msgPayload msg).isMap = true
      · rw [if_pos hpayload]
        cases client.eventHandler with
        | none => exact hsettle .done
        | some kind =>
          have hin : payloadIn msg = some (msgPayload msg) := by
            simp [payloadIn, hmap, htype, hpayload]
          obtain ⟨hpoint, hframes, hhandled⟩ :=
            settle_uneventful s (if kind = .coroutine then .done else o)
          refine ⟨hpoint, hframes, ?_⟩
          have hone : handledPayloads (.started s.conns s.frames (msgPayload msg) ::
              (s.settle (if kind = .coroutine then .done else o)).2) = [msgPayload msg] :=
            congrArg (msgPayload msg :: ·) hhandled
          rw [hone, hin]
          exact List.Sublist.refl _
      · rw [if_neg hpayload]
        exact hsettle .error
    · rw [if_neg htype]
      exact hsettle .done

/-- A message is handled whose payload has been offered. -/
theorem Ordered.dispatch {before : List Value} {msg : Value} (hmap : msg.isMap = true)
    (hoffered : client.offered h = before ++ (payloadIn msg).toList)
    (hhandled : (handledPayloads h).Sublist before) (s : SlackSocket) (o : Await) :
    Ordered client (client.dispatch s msg o).1 (h ++ (client.dispatch s msg o).2) := by
  obtain ⟨hpoint, hframes, hsub⟩ := @dispatch_starts client msg hmap s o
  constructor
  · have hnone : client.offered (client.dispatch s msg o).2 = [] := by
      unfold SlackSocketModeClient.offered
      rw [hframes]
      rfl
    rw [handledPayloads_append, offered_append, hnone, List.append_nil, hoffered]
    exact hhandled.append hsub
  · intro msg' hmsg'
    exact absurd hmsg' (hpoint msg')

/-- A frame is received. -/
theorem Ordered.frame (ho : Ordered client s h) (text : String) (o : Await) :
    Ordered client (client.onFrame { s with frames := s.frames + 1 } text o).1
      (h ++ .received s.conns (s.frames + 1) text ::
        (client.onFrame { s with frames := s.frames + 1 } text o).2) := by
  have hoffered : client.offered (h ++ [.received s.conns (s.frames + 1) text]) =
      client.offered h ++ (client.framePayload text).toList := by
    rw [offered_append]
    unfold SlackSocketModeClient.offered
    simp only [List.filterMap_cons, List.filterMap_nil, SocketEvent.frameText]
    cases client.framePayload text <;> rfl
  have hhandled : handledPayloads (h ++ [.received s.conns (s.frames + 1) text]) =
      handledPayloads h := by
    rw [handledPayloads_append]
    exact List.append_nil _
  have hreceived : ∀ o', Ordered client
      (({ s with frames := s.frames + 1 } : SlackSocket).settle o').1
      ((h ++ [.received s.conns (s.frames + 1) text]) ++
        (({ s with frames := s.frames + 1 } : SlackSocket).settle o').2) := by
    intro o'
    obtain ⟨hpoint, hnone⟩ := settle_uneventful { s with frames := s.frames + 1 } o'
    have hidle : Ordered client { s with point := .opening }
        (h ++ [.received s.conns (s.frames + 1) text]) := by
      constructor
      · rw [hoffered, hhandled]
        exact ho.handled.trans (List.sublist_append_left _ _)
      · intro msg hmsg
        cases hmsg
    exact hidle.uneventful hnone (Or.inl hpoint)
  rw [← List.singleton_append, ← List.append_assoc]
  unfold SlackSocketModeClient.onFrame
  cases hloads : client.loads text with
  | none => exact hreceived .error
  | some msg =>
    have hin : client.framePayload text = payloadIn msg := by
      rw [SlackSocketModeClient.framePayload, hloads, Option.bind_some]
    rw [hin] at hoffered
    by_cases hmap : msg.isMap = true
    · by_cases hid : (envelopeId msg).truthy = true
      · simp only [if_pos hmap, if_pos hid, List.append_nil]
        constructor
        · rw [hoffered, hhandled]
          exact ho.handled.trans (List.sublist_append_left _ _)
        · rintro msg' hmsg'
          cases hmsg'
          exact ⟨hmap, client.offered h, hoffered, hhandled ▸ ho.handled⟩
      · simp only [if_pos hmap, if_neg hid]
        exact Ordered.dispatch hmap hoffered (hhandled ▸ ho.handled) _ o
    · simp only [if_neg hmap]
      exact hreceived .error

/-- Every step keeps the order. -/
theorem Ordered.step (ho : Ordered client s h) {a : SocketAction}
    (hstep : client.step s a = some (s', es)) : Ordered client s' (h ++ es) := by
  cases a with
  | stop =>
    cases hstep
    exact ho.uneventful ⟨rfl, rfl⟩ (Or.inr rfl)
  | ends o =>
    obtain ⟨hpoint, hnone⟩ := resume_uneventful hstep
    exact ho.uneventful hnone (Or.inl hpoint)
  | frame text o =>
    simp only [SlackSocketModeClient.step] at hstep
    split at hstep
    · cases hstep
      exact ho.frame text o
    · cases hstep
  | sent o =>
    simp only [SlackSocketModeClient.step] at hstep
    split at hstep
    · rename_i msg hp
      cases hstep
      obtain ⟨hmap, before, hoffered, hhandled⟩ := ho.acking msg hp
      rw [← List.singleton_append, ← List.append_assoc]
      have hacked : client.offered (h ++ [.acked s.conns (envelopeId msg)]) =
          before ++ (payloadIn msg).toList := by
        rw [offered_append, hoffered]
        exact List.append_nil _
      have hsub : (handledPayloads (h ++ [.acked s.conns (envelopeId msg)])).Sublist before := by
        rw [handledPayloads_append]
        exact (List.append_nil _).symm ▸ hhandled
      exact Ordered.dispatch hmap hacked hsub s o
    · cases hstep

/-- In every run the payloads are handled in order. -/
theorem reaches_ordered (hr : client.machine.Reachable s h) : Ordered client s h := by
  refine hr.invariant (I := Ordered client) ?_ ?_
  · rintro s rfl
    exact ⟨List.Sublist.refl _, fun msg hmsg => by cases hmsg⟩
  · intro s h a s' es _ ho _ hstep
    exact ho.step hstep

/-- A step from a reachable client is reachable. -/
theorem reachable_move (hr : client.machine.Reachable s h) {a : SocketAction}
    (hstep : client.step s a = some (s', es)) : client.machine.Reachable s' (h ++ es) :=
  .step hr trivial hstep

end Order

/-! ## Envelopes -/

/-- The text of a payload. -/
def SlackPayload.document (dump : DumpRules) (channel : String) (p : SlackPayload) : String :=
  String.ofList (chars ((p.json channel).write dump))

/-- An envelope of Socket Mode. -/
def envelope (id type : String) (payload : Value) : Value :=
  .map [(.str "envelope_id", .ofText id), (.str "type", .ofText type), (.str "payload", payload)]

/-- The text of a frame. -/
def SlackPayload.frame (dump : DumpRules) (id type channel : String) (p : SlackPayload) : String :=
  String.ofList (chars ((envelope id type (p.json channel)).write dump))

section Envelope

variable {json : JsonRules} {dump : DumpRules} {id type channel : String} {p : SlackPayload}

/-- The text of a frame is read as its envelope. -/
theorem loads_envelope (hnames : ReadsNames json) (hdepth : 4 ≤ json.depth) :
    json.loads (chars ((envelope id type (p.json channel)).write dump)) =
      .ok (envelope id type (p.json channel)) := by
  have hplain : (envelope id type (p.json channel)).plain := by
    have hpayload : (p.json channel).plain := plain_json
    simp [envelope, Value.plain, plainEntries, Value.ofText, hpayload]
  have hser : (envelope id type (p.json channel)).serialisable = true := by
    have hpayload : (p.json channel).serialisable = true := serialisable_json
    simp [envelope, Value.serialisable, Value.serialisableEntries, Value.ofText,
      Scalar.serialisable, hpayload]
  have hdeep : (envelope id type (p.json channel)).nesting ≤ json.depth := by
    have hpayload : (p.json channel).nesting ≤ 3 := nesting_json
    simp only [envelope, Value.nesting, nestingEntries, Value.ofText]
    omega
  have hreread := (@Value.reread_eq_self_iff dump _).mpr hplain
  rw [JsonRules.loads_write hnames hser ⟨trivial, trivial, readsBack_json, trivial⟩ hdeep, hreread]

/-- The document of a payload is its body as it is written. -/
theorem toList_document : (p.document dump channel).toList =
    chars ((p.json channel).write dump) :=
  String.toList_ofList

/-- The payload, the id and the type of an envelope. -/
theorem payload_envelope {payload : Value} :
    msgPayload (envelope id type payload) = payload ∧
      envelopeId (envelope id type payload) = .ofText id ∧
      msgType (envelope id type payload) = .ofText type := by
  simp [msgPayload, envelopeId, msgType, envelope, getD_cons]

/-- A frame with an envelope is acknowledged, and then its payload is handled. -/
theorem frame_handled {client : SlackSocketModeClient} {payload : Value} {text : String}
    (hloads : client.loads text = some (envelope id type payload))
    (hhandler : client.eventHandler = some .coroutine) (hpayload : payload.isMap = true)
    (hid : id ≠ "") (htype : type = "events_api" ∨ type = "interactive") {s : SlackSocket}
    (hs : s.point = .receiving) (o o' : Await) :
    ∃ s₁ s₂, client.step s (.frame text o) =
        some (s₁, [.received s.conns (s.frames + 1) text]) ∧
      client.step s₁ (.sent o') = some (s₂, [.acked s.conns (.ofText id),
        .started s.conns (s.frames + 1) payload]) := by
  obtain ⟨hin, hidIn, htypeIn⟩ := @payload_envelope id type payload
  have htrue : (envelopeId (envelope id type payload)).truthy = true := by
    rw [hidIn]
    exact decide_eq_true hid
  have hhandled : handledType (msgType (envelope id type payload)) = true := by
    rw [htypeIn]
    rcases htype with rfl | rfl
    · rfl
    · rfl
  have hhash : ¬ (msgType (envelope id type payload)).hashable = false := by
    rw [htypeIn]
    exact Bool.noConfusion
  have hframe : client.onFrame { s with frames := s.frames + 1 } text o =
      ({ s with frames := s.frames + 1, point := .acking (envelope id type payload) }, []) := by
    unfold SlackSocketModeClient.onFrame
    simp only [hloads, if_pos (show (envelope id type payload).isMap = true from rfl),
      if_pos htrue]
  have hdispatch : ∀ s' : SlackSocket, client.dispatch s' (envelope id type payload) o' =
      (s'.listen, [.started s'.conns s'.frames payload]) := by
    intro s'
    unfold SlackSocketModeClient.dispatch
    rw [if_neg hhash, if_pos hhandled, hin, if_pos hpayload, hhandler]
    rfl
  refine ⟨{ s with frames := s.frames + 1, point := .acking (envelope id type payload) },
    SlackSocket.listen
      { s with frames := s.frames + 1, point := .acking (envelope id type payload) }, ?_, ?_⟩
  · simp only [SlackSocketModeClient.step]
    split
    · rw [hframe]
    · exact absurd hs ‹_›
  · simp only [SlackSocketModeClient.step, hdispatch, hidIn]

variable {client : SlackSocketModeClient}

/-- A frame is read back as its envelope. -/
theorem loads_frame (hloads : ∀ text, client.loads text = (json.loads text.toList).toOption)
    (hnames : ReadsNames json) (hdepth : 4 ≤ json.depth) :
    client.loads (p.frame dump id type channel) = some (envelope id type (p.json channel)) := by
  have htext : (p.frame dump id type channel).toList =
      chars ((envelope id type (p.json channel)).write dump) := String.toList_ofList
  rw [hloads, htext, loads_envelope hnames hdepth]
  rfl

/-- A document is read back as its body. -/
theorem loads_document (hloads : ∀ text, client.loads text = (json.loads text.toList).toOption)
    (hnames : ReadsNames json) (hdepth : 3 ≤ json.depth) :
    client.loads (p.document dump channel) = some (p.json channel) := by
  rw [hloads, toList_document, loads_json hnames hdepth]
  rfl

end Envelope

/-- A client that reads JSON and has a handler. -/
def jsonClient : SlackSocketModeClient where
  loads := fun text => (shallowJson.loads text.toList).toOption
  eventHandler := some .coroutine

/-- The frame of the press. -/
def pressFrame : String :=
  approvalPress.frame shallowDump "e1" "interactive" "C1"

/-- The connection is made, and a frame is awaited. -/
def connectedSocket : SlackSocket where
  point := .receiving
  conns := 1

/-- The client of the example is connected. -/
theorem reachable_connected :
    jsonClient.machine.Reachable connectedSocket [.connected 1] := by
  have hopened : jsonClient.machine.Reachable { point := .connecting } [] :=
    @reachable_move jsonClient _ _ [] [] (.start rfl) (.ends .done) rfl
  exact @reachable_move jsonClient _ _ [] [.connected 1] hopened (.ends .done) rfl

/-! ## What the socket leads to -/

section Socket

variable {client : SlackSocketModeClient} {json : JsonRules}

/-- What is offered has been read from a frame. -/
theorem printable_offered (hloads : ∀ text, client.loads text = (json.loads text.toList).toOption)
    {h : List SocketEvent} {payload : Value} (hmem : payload ∈ client.offered h) :
    payload.printable = true := by
  obtain ⟨text, -, hframe⟩ := List.mem_filterMap.mp hmem
  obtain ⟨msg, hmsg, hin⟩ := Option.bind_eq_some_iff.mp hframe
  have hprint : msg.printable = true := by
    rw [hloads] at hmsg
    cases hread : json.loads text.toList with
    | error e =>
      rw [hread] at hmsg
      cases hmsg
    | ok v =>
      rw [hread] at hmsg
      cases hmsg
      exact JsonRules.printable_of_loads hread
  unfold payloadIn at hin
  split_ifs at hin
  cases hin
  exact printable_getD hprint rfl

/-- **What the socket leads to.** Over any run of the socket, whatever frames come and however its
waiting ends, the handler is started on the payloads of frames, on each at most once and in the
order of the frames; and it does nothing on one that is misread, and on any other what the service
does on the payload that it sees there. -/
theorem socket_payloads_in_order (t : TriggerDecisionEngine) (rules : TextRules)
    (hloads : ∀ text, client.loads text = (json.loads text.toList).toOption) (s : SlackSocket)
    (h : List SocketEvent) (hr : client.machine.Reachable s h) :
    (handledPayloads h).Sublist (client.offered h) ∧
      ∀ payload ∈ handledPayloads h,
        (Misread t rules payload → t.slackTasks rules payload = {}) ∧
        (¬ Misread t rules payload →
          TasksOf t rules (payloadOf rules payload) (t.slackTasks rules payload)) := by
  have hordered := reaches_ordered hr
  refine ⟨hordered.handled, fun payload hmem => ?_⟩
  have hprint : payload.printable = true :=
    printable_offered hloads (hordered.handled.subset hmem)
  exact slackTasks_of_printable hprint

end Socket

/-- The press of the example is handled once. -/
theorem socket_payloads_in_order_press :
    ∃ s h, jsonClient.machine.Reachable s h ∧
      handledPayloads h = [approvalPress.json "C1"] ∧
      (handledPayloads h).Sublist (jsonClient.offered h) := by
  have hloads : jsonClient.loads pressFrame =
      some (envelope "e1" "interactive" (approvalPress.json "C1")) :=
    loads_frame (fun _ => rfl) shallowJson_names (Nat.le_refl 4)
  obtain ⟨s₁, s₂, hframe, hsent⟩ := frame_handled hloads rfl rfl (by decide) (Or.inr rfl)
    (show connectedSocket.point = .receiving from rfl) .done .done
  have hr := reachable_move (reachable_move reachable_connected hframe) hsent
  exact ⟨s₂, _, hr, rfl, (socket_payloads_in_order bareTrigger Load.plainRules (fun _ => rfl) s₂ _
    hr).1⟩

/-! ## Three ways for one payload -/

end PrReviewer.Model
