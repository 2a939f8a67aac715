import PrReviewer.Library.JsonRoundTrip
import PrReviewer.Analysis.ButtonValues
import PrReviewer.Analysis.FailClosed
import PrReviewer.Analysis.OutputShapes
import PrReviewer.Analysis.RequestReplies
import PrReviewer.Model.SlackBodies
import PrReviewer.Model.SlackSocket

/-!
# What the service reads in Slack's payloads

`payloadOf` is the typed payload of a body. Whatever the body is, the service either raises and
starts nothing, or starts what it starts for that payload; `Misread` lists the bodies it raises
on.
-/

set_option autoImplicit false

namespace PrReviewer.Model

open PrReviewer.Library

/-! ## The payload of a body -/

/-- The `event` of a body. -/
def eventOf (body : Value) : Value :=
  body.getD "event" .empty

/-- The `actions` of a body. -/
def actionsOf (body : Value) : Value :=
  body.getD "actions" (.list [])

/-- The `text` of an event. -/
def eventText (event : Value) : Value :=
  event.getD "text" (.ofText "")

/-- The `value` of an action. -/
def actionValue (action : Value) : Value :=
  action.getD "value" (.ofText "")

/-- The payload of an event. -/
def messagePayload (type : Value) (text : Except PyError String) : SlackPayload :=
  match type, text with
  | .scalar (.str type), .ok text => .eventCallback type text
  | _, _ => .other

/-- The payload of a first action. -/
def actionPayload (rules : TextRules) : Except PyError (Option Value) → SlackPayload
  | .ok (some action) => ((actionValue action).text rules).toOption.elim .other .blockActions
  | _ => .other

/-- The payload that the service sees in a body. -/
def payloadOf (rules : TextRules) (body : Value) : SlackPayload :=
  if isText (msgType body) "event_callback" then
    messagePayload (msgType (eventOf body)) ((eventText (eventOf body)).text rules)
  else if isText (msgType body) "block_actions" then
    actionPayload rules (firstAction (actionsOf body))
  else .other

/-- The repository prompt that a payload leads to. -/
def TriggerDecisionEngine.promptOf (t : TriggerDecisionEngine) : SlackPayload → Option RepoPrompt
  | .eventCallback type text =>
    if type = "app_mention" ∨ type = "message" then
      let clean := stripMentions text.toList
      ((firstDigits t.unicode clean).bind (pyInt t.unicode)).bind fun pr =>
        if t.mentionedRepo clean = none ∧ t.config.enabledRepos.length > 1 then
          some (t.repoPrompt pr)
        else none
    else none
  | _ => none

/-- The request of a payload; an approval of a run that cannot be encoded asks for nothing. -/
def TriggerDecisionEngine.requestOf (t : TriggerDecisionEngine) (rules : TextRules) :
    SlackPayload → SlackRequest
  | .eventCallback type text => t.processSlackEventPayload (.eventCallback type text)
  | .blockActions value => if t.runUnreadable rules value then .nothing else t.slackButton value
  | .other => .nothing

/-- The tasks are those of the payload. -/
structure TasksOf (t : TriggerDecisionEngine) (rules : TextRules) (p : SlackPayload)
    (tasks : SlackTasks) : Prop where
  request : tasks.request = t.requestOf rules p
  said : tasks.said = t.sends p
  prompt : tasks.prompt = t.promptOf p

section Tasks

variable {t : TriggerDecisionEngine} {rules : TextRules} {body : Value} {tasks : SlackTasks}

/-- Where a payload asks for nothing, nothing is the right thing to do. -/
theorem tasksOf_other : TasksOf t rules .other {} :=
  ⟨rfl, rfl, rfl⟩

/-- An event that is no message starts nothing. -/
theorem tasksOf_skipped {type text : String} (h : ¬ (type = "app_mention" ∨ type = "message")) :
    TasksOf t rules (.eventCallback type text) {} where
  request := by
    rw [TriggerDecisionEngine.requestOf, TriggerDecisionEngine.processSlackEventPayload, if_neg h]
  said := by rw [TriggerDecisionEngine.sends, if_neg h]
  prompt := by rw [TriggerDecisionEngine.promptOf, if_neg h]

/-- A message whose number has no value asks for nothing. -/
theorem tasksOf_unreadable {type text : String} {digits : List Char}
    (hdigits : firstDigits t.unicode (stripMentions text.toList) = some digits)
    (hint : pyInt t.unicode digits = none) :
    TasksOf t rules (.eventCallback type text) {} := by
  by_cases htype : type = "app_mention" ∨ type = "message"
  · exact {
      request := by
        simp only [TriggerDecisionEngine.requestOf,
          TriggerDecisionEngine.processSlackEventPayload, if_pos htype, hdigits,
          Option.bind_some, hint]
      said := by simp only [TriggerDecisionEngine.sends, if_pos htype, hdigits, hint]
      prompt := by
        simp only [TriggerDecisionEngine.promptOf, if_pos htype, hdigits, Option.bind_some, hint,
          Option.bind_none] }
  · exact tasksOf_skipped htype

/-- A message starts the tasks of its text. -/
theorem tasksOf_message {type text channel : String}
    (htype : type = "app_mention" ∨ type = "message")
    (h : t.messageTasks (decide (type = "app_mention")) text channel = .ok tasks) :
    TasksOf t rules (.eventCallback type text) tasks := by
  unfold TriggerDecisionEngine.messageTasks at h
  simp only at h
  cases hdigits : firstDigits t.unicode (stripMentions text.toList) with
  | none =>
    simp only [hdigits, decide_eq_true_eq] at h
    split_ifs at h with hmention
    · cases h
      constructor
      · simp only [TriggerDecisionEngine.requestOf,
          TriggerDecisionEngine.processSlackEventPayload, if_pos htype, hdigits,
          Option.bind_none]
      · simp only [TriggerDecisionEngine.sends, if_pos htype, hdigits, if_pos hmention]
      · simp only [TriggerDecisionEngine.promptOf, if_pos htype, hdigits, Option.bind_none]
    · cases h
      constructor
      · simp only [TriggerDecisionEngine.requestOf,
          TriggerDecisionEngine.processSlackEventPayload, if_pos htype, hdigits,
          Option.bind_none]
      · simp only [TriggerDecisionEngine.sends, if_pos htype, hdigits, if_neg hmention]
      · simp only [TriggerDecisionEngine.promptOf, if_pos htype, hdigits, Option.bind_none]
  | some digits =>
    cases hint : pyInt t.unicode digits with
    | none =>
      simp only [hdigits, hint] at h
      cases h
    | some pr =>
      have hrequest : t.requestOf rules (.eventCallback type text) =
          t.slackMessage text (stripMentions text.toList) pr := by
        simp only [TriggerDecisionEngine.requestOf,
          TriggerDecisionEngine.processSlackEventPayload, if_pos htype, hdigits,
          Option.bind_some, hint]
      have hsaid : t.sends (.eventCallback type text) =
          (t.slackMessage text (stripMentions text.toList) pr).said := by
        simp only [TriggerDecisionEngine.sends, if_pos htype, hdigits, hint]
      have hprompt : t.promptOf (.eventCallback type text) =
          if t.mentionedRepo (stripMentions text.toList) = none ∧
            t.config.enabledRepos.length > 1 then some (t.repoPrompt pr) else none := by
        simp only [TriggerDecisionEngine.promptOf, if_pos htype, hdigits, Option.bind_some, hint]
      simp only [hdigits, hint] at h
      by_cases hasks : t.mentionedRepo (stripMentions text.toList) = none ∧
          t.config.enabledRepos.length > 1
      · have hnothing : t.slackMessage text (stripMentions text.toList) pr = .nothing := by
          unfold TriggerDecisionEngine.slackMessage
          simp only [if_pos hasks]
        rw [if_pos hasks] at h
        cases h
        exact ⟨by rw [hrequest, hnothing], by rw [hsaid, hnothing]; rfl,
          by rw [hprompt, if_pos hasks]⟩
      · rw [if_neg hasks] at h
        cases h
        exact ⟨hrequest.symm, hsaid.symm, by rw [hprompt, if_neg hasks]⟩

/-- A choice of a repository approves nothing. -/
theorem slackButton_ne_approve {value : String}
    (h : "select_repo_".toList.isPrefixOf value.toList = true) (run : RunId)
    (otherwise : ReviewJob) (summary : String) :
    t.slackButton value ≠ .approve run otherwise summary := by
  intro heq
  unfold TriggerDecisionEngine.slackButton at heq
  simp only [if_pos h] at heq
  split at heq
  · cases heq
  · split at heq <;> cases heq

/-- Any other button dispatches nothing. -/
theorem slackButton_ne_dispatch {value : String}
    (h : ¬ "select_repo_".toList.isPrefixOf value.toList = true) (event : NormalizedEvent) :
    t.slackButton value ≠ .dispatch event := by
  intro heq
  unfold TriggerDecisionEngine.slackButton at heq
  simp only [if_neg h] at heq
  split at heq <;> cases heq

/-- A choice of a repository reads no run. -/
theorem runUnreadable_select {value : String}
    (h : "select_repo_".toList.isPrefixOf value.toList = true) :
    t.runUnreadable rules value = false := by
  unfold TriggerDecisionEngine.runUnreadable
  split
  · rename_i run otherwise summary hbutton
    exact absurd hbutton (slackButton_ne_approve h run otherwise summary)
  · rfl

/-- A pressed selection sends what the button says. -/
theorem sends_select {value : String}
    (h : "select_repo_".toList.isPrefixOf value.toList = true) :
    t.sends (.blockActions value) = (t.slackButton value).said := by
  rw [TriggerDecisionEngine.sends]
  cases hbutton : t.slackButton value with
  | nothing => rfl
  | dispatch event => rfl
  | approve run otherwise summary =>
    exact absurd hbutton (slackButton_ne_approve h run otherwise summary)

/-- Another button sends nothing. -/
theorem sends_other {value : String}
    (h : ¬ "select_repo_".toList.isPrefixOf value.toList = true) :
    t.sends (.blockActions value) = [] := by
  rw [TriggerDecisionEngine.sends]
  cases hbutton : t.slackButton value with
  | nothing => rfl
  | dispatch event => exact absurd hbutton (slackButton_ne_dispatch h event)
  | approve run otherwise summary => rfl

/-- A choice that is dropped asks for nothing. -/
theorem tasksOf_dropped {value : String}
    (hselect : "select_repo_".toList.isPrefixOf value.toList = true)
    (h : t.slackButton value = .nothing) : TasksOf t rules (.blockActions value) {} where
  request := by
    rw [TriggerDecisionEngine.requestOf, runUnreadable_select hselect, if_neg Bool.false_ne_true, h]
  said := by
    rw [sends_select hselect, h]
    rfl
  prompt := rfl

/-- An approval of a run that cannot be encoded asks for nothing. -/
theorem tasksOf_unencodable {value : String} (h : t.runUnreadable rules value = true) :
    TasksOf t rules (.blockActions value) {} := by
  have hselect : ¬ "select_repo_".toList.isPrefixOf value.toList = true := by
    intro hselect
    rw [runUnreadable_select hselect] at h
    cases h
  exact {
    request := by rw [TriggerDecisionEngine.requestOf, if_pos h]
    said := (sends_other hselect).symm
    prompt := rfl }

/-- The number of a choice, after its last underscore. -/
def choiceNumber (value : String) : List Char :=
  ((removeAll "select_repo_".toList value.toList).reverse.takeWhile (· != '_')).reverse

/-- A selection whose number cannot be read asks for nothing. -/
theorem slackButton_unreadable {value : String}
    (hselect : "select_repo_".toList.isPrefixOf value.toList = true)
    (h : '_' ∉ removeAll "select_repo_".toList value.toList ∨
      pyInt t.unicode (choiceNumber value) = none) : t.slackButton value = .nothing := by
  unfold TriggerDecisionEngine.slackButton
  simp only [if_pos hselect]
  by_cases hunder : '_' ∉ removeAll "select_repo_".toList value.toList
  · rw [if_pos hunder]
  · have hint := h.resolve_left hunder
    unfold choiceNumber at hint
    rw [if_neg hunder]
    simp only [hint]

/-- A pressed button starts the tasks of its value. -/
theorem tasksOf_button {value : String} (h : t.buttonTasks rules body value = .ok tasks) :
    TasksOf t rules (.blockActions value) tasks := by
  unfold TriggerDecisionEngine.buttonTasks at h
  simp only at h
  by_cases hselect : "select_repo_".toList.isPrefixOf value.toList = true
  · rw [if_pos hselect] at h
    by_cases hunder : '_' ∉ removeAll "select_repo_".toList value.toList
    · rw [if_pos hunder] at h
      cases h
      exact tasksOf_dropped hselect (slackButton_unreadable hselect (Or.inl hunder))
    · rw [if_neg hunder] at h
      split at h
      · cases h
      · obtain ⟨channel, -, hret⟩ := bind_eq_ok.mp h
        cases hret
        refine ⟨?_, (sends_select hselect).symm, rfl⟩
        rw [TriggerDecisionEngine.requestOf, runUnreadable_select hselect,
          if_neg Bool.false_ne_true]
  · rw [if_neg hselect] at h
    split_ifs at h with hrun
    cases h
    refine ⟨?_, (sends_other hselect).symm, rfl⟩
    rw [TriggerDecisionEngine.requestOf, if_neg hrun]

/-- An event of the two types is a message with its text. -/
theorem messagePayload_of_same {kind : Scalar} {text : String}
    (h : (kind.same (.str "app_mention") || kind.same (.str "message")) = true) :
    ∃ type, (type = "app_mention" ∨ type = "message") ∧
      kind.same (.str "app_mention") = decide (type = "app_mention") ∧
      messagePayload (.scalar kind) (.ok text) = .eventCallback type text := by
  rcases Bool.or_eq_true_iff.mp h with h | h
  · cases Scalar.eq_str_of_same h
    exact ⟨"app_mention", Or.inl rfl, by decide, rfl⟩
  · cases Scalar.eq_str_of_same h
    exact ⟨"message", Or.inr rfl, by decide, rfl⟩

/-- An event of another kind starts nothing. -/
theorem tasksOf_otherEvent {kind : Scalar} {text : Except PyError String}
    (h : ¬ (kind.same (.str "app_mention") || kind.same (.str "message")) = true) :
    TasksOf t rules (messagePayload (.scalar kind) text) {} := by
  cases kind with
  | str type =>
    cases text with
    | error e => exact tasksOf_other
    | ok text =>
      refine tasksOf_skipped fun htype => h ?_
      rcases htype with rfl | rfl <;> simp
  | _ => cases text <;> exact tasksOf_other

/-- **What the service starts for a body** is what it starts for the payload it sees there. -/
theorem tasksOf_body (h : t.processSlackBody rules body = .ok tasks) :
    TasksOf t rules (payloadOf rules body) tasks := by
  unfold TriggerDecisionEngine.processSlackBody at h
  obtain ⟨type, htype, h⟩ := bind_eq_ok.mp h
  obtain ⟨-, rfl⟩ := Value.get_eq_ok.mp htype
  unfold payloadOf msgType
  by_cases hevent : isText (body.getD "type" (.scalar .null)) "event_callback" = true
  · rw [if_pos hevent] at h ⊢
    obtain ⟨event, hget, h⟩ := bind_eq_ok.mp h
    obtain ⟨-, rfl⟩ := Value.get_eq_ok.mp hget
    obtain ⟨kind, hkind, h⟩ := bind_eq_ok.mp h
    obtain ⟨-, hkind⟩ := Value.get_eq_ok.mp hkind
    change (eventOf body).getD "type" (.scalar .null) = kind at hkind
    rw [hkind]
    cases kind with
    | list items => cases h
    | map entries => cases h
    | scalar kind =>
      change (if (kind.same (.str "app_mention") || kind.same (.str "message")) = true then _
        else _) = _ at h
      by_cases hmessage : (kind.same (.str "app_mention") || kind.same (.str "message")) = true
      · rw [if_pos hmessage] at h
        obtain ⟨value, hget, h⟩ := bind_eq_ok.mp h
        obtain ⟨-, rfl⟩ := Value.get_eq_ok.mp hget
        obtain ⟨text, htext, h⟩ := bind_eq_ok.mp h
        obtain ⟨value, -, h⟩ := bind_eq_ok.mp h
        obtain ⟨channel, -, h⟩ := bind_eq_ok.mp h
        change (eventText (eventOf body)).text rules = .ok text at htext
        obtain ⟨type, htype, hmention, hpayload⟩ := @messagePayload_of_same kind text hmessage
        rw [hmention] at h
        rw [htext, hpayload]
        exact tasksOf_message htype h
      · rw [if_neg hmessage] at h
        cases h
        exact tasksOf_otherEvent hmessage
  · rw [if_neg hevent] at h ⊢
    by_cases haction : isText (body.getD "type" (.scalar .null)) "block_actions" = true
    · rw [if_pos haction] at h ⊢
      obtain ⟨actions, hget, h⟩ := bind_eq_ok.mp h
      obtain ⟨-, rfl⟩ := Value.get_eq_ok.mp hget
      obtain ⟨first, hfirst, h⟩ := bind_eq_ok.mp h
      change firstAction (actionsOf body) = .ok first at hfirst
      rw [hfirst]
      cases first with
      | none =>
        cases h
        exact tasksOf_other
      | some action =>
        obtain ⟨value, hget, h⟩ := bind_eq_ok.mp h
        obtain ⟨-, rfl⟩ := Value.get_eq_ok.mp hget
        obtain ⟨value, htext, h⟩ := bind_eq_ok.mp h
        change (actionValue action).text rules = .ok value at htext
        rw [actionPayload, htext]
        exact tasksOf_button h
    · rw [if_neg haction] at h ⊢
      cases h
      exact tasksOf_other

/-! ## The bodies it raises on -/

/-- What the service cannot read in a body. -/
inductive Misread (t : TriggerDecisionEngine) (rules : TextRules) (body : Value) : Prop
  /-- the body is no dictionary -/
  | body (h : body.isMap = false)
  /-- the event is none -/
  | event (htype : isText (msgType body) "event_callback" = true)
    (h : (eventOf body).isMap = false)
  /-- the type of the event has no hash -/
  | kind (htype : isText (msgType body) "event_callback" = true)
    (h : (msgType (eventOf body)).hashable = false)
  /-- the number in a message is too long -/
  | number (type text : String) (digits : List Char)
    (hpayload : payloadOf rules body = .eventCallback type text)
    (htype : type = "app_mention" ∨ type = "message")
    (hdigits : firstDigits t.unicode (stripMentions text.toList) = some digits)
    (h : pyInt t.unicode digits = none)
  /-- the actions have no first one -/
  | actions (htype : isText (msgType body) "block_actions" = true)
    (h : ¬ Runs (firstAction (actionsOf body)))
  /-- the first action is no dictionary -/
  | action (htype : isText (msgType body) "block_actions" = true) (action : Value)
    (hfirst : firstAction (actionsOf body) = .ok (some action)) (h : action.isMap = false)
  /-- the run of an approval cannot be encoded -/
  | approval (value : String) (hpayload : payloadOf rules body = .blockActions value)
    (h : t.runUnreadable rules value = true)
  /-- the number of a choice is none, or its container no dictionary -/
  | choice (value : String) (hpayload : payloadOf rules body = .blockActions value)
    (hselect : "select_repo_".toList.isPrefixOf value.toList = true)
    (hunder : '_' ∈ removeAll "select_repo_".toList value.toList)
    (h : pyInt t.unicode (choiceNumber value) = none ∨ (body.getD "container" .empty).isMap = false)

/-- A message's tasks are found exactly when its number, if any, is read. -/
theorem runs_messageTasks {mention : Bool} {text channel : String} :
    Runs (t.messageTasks mention text channel) ↔
      ∀ digits, firstDigits t.unicode (stripMentions text.toList) = some digits →
        pyInt t.unicode digits ≠ none := by
  unfold TriggerDecisionEngine.messageTasks
  simp only
  cases hdigits : firstDigits t.unicode (stripMentions text.toList) with
  | none =>
    refine iff_of_true ?_ fun digits h => by cases h
    cases mention
    · exact runs_ok _
    · exact runs_ok _
  | some digits =>
    simp only [Option.some.injEq, forall_eq']
    cases hint : pyInt t.unicode digits with
    | none => exact iff_of_false (not_runs_error _) fun h => h rfl
    | some pr =>
      refine iff_of_true ?_ (by simp)
      simp only
      split
      · exact runs_ok _
      · exact runs_ok _

/-- The channel of a press is read exactly where body and container are maps. -/
theorem runs_containerChannel (hprint : body.printable = true) :
    Runs (TriggerDecisionEngine.containerChannel rules body) ↔
      body.isMap = true ∧ (body.getD "container" .empty).isMap = true := by
  have hcontainer : (body.getD "container" .empty).printable = true := printable_getD hprint rfl
  have hchannel : ((body.getD "container" .empty).getD "channel_id" (.ofText "")).printable = true :=
    printable_getD hcontainer rfl
  unfold TriggerDecisionEngine.containerChannel
  rw [Value.runs_bind_get, Value.runs_bind_get, runs_bind_of_iff (p := True)]
  · rw [Value.runs_text, hchannel, and_true, and_iff_left rfl]
  · intro channel _
    exact iff_true_intro (runs_pure _)

/-- A button's tasks are found exactly when its run and its number are read. -/
theorem runs_buttonTasks {value : String} (hprint : body.printable = true)
    (hmap : body.isMap = true) :
    Runs (t.buttonTasks rules body value) ↔ t.runUnreadable rules value = false ∧
      ("select_repo_".toList.isPrefixOf value.toList = true →
        '_' ∈ removeAll "select_repo_".toList value.toList →
        pyInt t.unicode (choiceNumber value) ≠ none ∧
          (body.getD "container" .empty).isMap = true) := by
  unfold TriggerDecisionEngine.buttonTasks
  simp only
  by_cases hselect : "select_repo_".toList.isPrefixOf value.toList = true
  · rw [if_pos hselect, and_iff_right (runUnreadable_select hselect)]
    by_cases hunder : '_' ∈ removeAll "select_repo_".toList value.toList
    · rw [if_neg (not_not_intro hunder)]
      simp only [hselect, hunder, forall_const]
      have hnumber : ((removeAll "select_repo_".toList value.toList).reverse.takeWhile
          (· != '_')).reverse = choiceNumber value := rfl
      rw [hnumber]
      cases hint : pyInt t.unicode (choiceNumber value) with
      | none => exact iff_of_false (not_runs_error _) fun h => h.1 rfl
      | some pr =>
        simp only
        rw [runs_bind_of_iff (p := True), runs_containerChannel hprint]
        · simp [hmap]
        · intro channel _
          exact iff_true_intro (runs_pure _)
    · rw [if_pos hunder]
      exact iff_of_true (runs_ok _) fun _ h => absurd h hunder
  · rw [if_neg hselect, and_iff_left fun h => absurd h hselect]
    split_ifs with hrun
    · rw [hrun]
      exact iff_of_false (not_runs_error _) Bool.true_eq_false.mp
    · exact iff_of_true (runs_ok _) (Bool.eq_false_iff.mpr hrun)

/-- A field of an event that prints is read. -/
theorem runs_bind_text {β : Type} {v : Value} {f : String → Except PyError β} {p : Prop}
    (hv : v.printable = true) (hf : ∀ s, v.text rules = .ok s → (Runs (f s) ↔ p)) :
    Runs (v.text rules >>= f) ↔ p := by
  rw [runs_bind_of_iff hf, Value.runs_text, hv, and_iff_right rfl]

/-- A value is one text only. -/
theorem isText_unique {v : Value} {a b : String} (ha : isText v a = true)
    (hb : isText v b = true) : a = b := by
  cases v with
  | list items => cases ha
  | map entries => cases ha
  | scalar s =>
    have hsame := Scalar.eq_str_of_same ha
    rw [Scalar.eq_str_of_same hb] at hsame
    exact (Scalar.str.inj hsame).symm

/-- A message is no pressed button. -/
theorem messagePayload_ne_action {type : Value} {text : Except PyError String} {value : String} :
    messagePayload type text ≠ .blockActions value := by
  unfold messagePayload
  split
  · simp
  · simp

/-- A pressed button is no message. -/
theorem actionPayload_ne_event {first : Except PyError (Option Value)} {type text : String} :
    actionPayload rules first ≠ .eventCallback type text := by
  unfold actionPayload
  split
  · rename_i action
    cases (actionValue action).text rules <;> simp [Except.toOption]
  · simp

/-- What is misread in an event. -/
theorem misread_event (hmap : body.isMap = true)
    (htype : isText (msgType body) "event_callback" = true) :
    Misread t rules body ↔ (eventOf body).isMap = false ∨
      (msgType (eventOf body)).hashable = false ∨
      ∃ type text digits, payloadOf rules body = .eventCallback type text ∧
        (type = "app_mention" ∨ type = "message") ∧
        firstDigits t.unicode (stripMentions text.toList) = some digits ∧
        pyInt t.unicode digits = none := by
  have hblock : ¬ isText (msgType body) "block_actions" = true :=
    fun h => absurd (isText_unique htype h) (by decide)
  constructor
  · intro h
    cases h with
    | body h =>
      rw [hmap] at h
      cases h
    | event _ h => exact Or.inl h
    | kind _ h => exact Or.inr (Or.inl h)
    | number type text digits hpayload hmessage hdigits h =>
      exact Or.inr (Or.inr ⟨type, text, digits, hpayload, hmessage, hdigits, h⟩)
    | actions h _ => exact absurd h hblock
    | action h _ _ _ => exact absurd h hblock
    | approval value hpayload _ =>
      unfold payloadOf at hpayload
      rw [if_pos htype] at hpayload
      exact absurd hpayload messagePayload_ne_action
    | choice value hpayload _ _ _ =>
      unfold payloadOf at hpayload
      rw [if_pos htype] at hpayload
      exact absurd hpayload messagePayload_ne_action
  · rintro (h | h | ⟨type, text, digits, hpayload, hmessage, hdigits, h⟩)
    · exact .event htype h
    · exact .kind htype h
    · exact .number type text digits hpayload hmessage hdigits h

/-- What is misread in a press of a button. -/
theorem misread_action (hmap : body.isMap = true)
    (htype : isText (msgType body) "block_actions" = true) :
    Misread t rules body ↔ ¬ Runs (firstAction (actionsOf body)) ∨
      (∃ action, firstAction (actionsOf body) = .ok (some action) ∧ action.isMap = false) ∨
      (∃ value, payloadOf rules body = .blockActions value ∧
        t.runUnreadable rules value = true) ∨
      ∃ value, payloadOf rules body = .blockActions value ∧
        "select_repo_".toList.isPrefixOf value.toList = true ∧
        '_' ∈ removeAll "select_repo_".toList value.toList ∧
        (pyInt t.unicode (choiceNumber value) = none ∨
          (body.getD "container" .empty).isMap = false) := by
  have hevent : ¬ isText (msgType body) "event_callback" = true :=
    fun h => absurd (isText_unique htype h) (by decide)
  constructor
  · intro h
    cases h with
    | body h =>
      rw [hmap] at h
      cases h
    | event h _ => exact absurd h hevent
    | kind h _ => exact absurd h hevent
    | number type text digits hpayload _ _ _ =>
      unfold payloadOf at hpayload
      rw [if_neg hevent, if_pos htype] at hpayload
      exact absurd hpayload actionPayload_ne_event
    | actions _ h => exact Or.inl h
    | action _ action hfirst h => exact Or.inr (Or.inl ⟨action, hfirst, h⟩)
    | approval value hpayload h => exact Or.inr (Or.inr (Or.inl ⟨value, hpayload, h⟩))
    | choice value hpayload hselect hunder h =>
      exact Or.inr (Or.inr (Or.inr ⟨value, hpayload, hselect, hunder, h⟩))
  · rintro (h | ⟨action, hfirst, h⟩ | ⟨value, hpayload, h⟩ | ⟨value, hpayload, hselect, hunder, h⟩)
    · exact .actions htype h
    · exact .action htype action hfirst h
    · exact .approval value hpayload h
    · exact .choice value hpayload hselect hunder h

/-- A body of another type is read. -/
theorem not_misread_other (hmap : body.isMap = true)
    (hevent : ¬ isText (msgType body) "event_callback" = true)
    (hblock : ¬ isText (msgType body) "block_actions" = true) : ¬ Misread t rules body := by
  have hpayload : payloadOf rules body = .other := by
    rw [payloadOf, if_neg hevent, if_neg hblock]
  intro h
  cases h with
  | body h =>
    rw [hmap] at h
    cases h
  | event h _ => exact hevent h
  | kind h _ => exact hevent h
  | number _ _ _ h _ _ _ =>
    rw [hpayload] at h
    cases h
  | actions h _ => exact hblock h
  | action h _ _ _ => exact hblock h
  | approval _ h _ =>
    rw [hpayload] at h
    cases h
  | choice _ h _ _ _ =>
    rw [hpayload] at h
    cases h

/-- The tasks of a message's event are found exactly when its number, if any, is read. -/
theorem runs_messageEvent {event : Value} (hprint : event.printable = true)
    (hmap : event.isMap = true) {kind : Scalar} (hkind : msgType event = .scalar kind)
    (hmessage : (kind.same (.str "app_mention") || kind.same (.str "message")) = true) :
    Runs (do
      let text ← (← event.get "text" (.ofText "")).text rules
      let channel ← (← event.get "channel" (.ofText "")).text rules
      t.messageTasks (kind.same (.str "app_mention")) text channel) ↔
    ¬ ∃ type text digits, messagePayload (msgType event) ((eventText event).text rules) =
        .eventCallback type text ∧ (type = "app_mention" ∨ type = "message") ∧
      firstDigits t.unicode (stripMentions text.toList) = some digits ∧
      pyInt t.unicode digits = none := by
  have htext : (eventText event).printable = true := printable_getD hprint rfl
  have hchannel : (event.getD "channel" (.ofText "")).printable = true :=
    printable_getD hprint rfl
  obtain ⟨text, hread⟩ := (@Value.runs_text rules (eventText event)).mpr htext
  obtain ⟨type, htype, -, hpayload⟩ := @messagePayload_of_same kind text hmessage
  rw [Value.runs_bind_get, and_iff_right hmap]
  change Runs ((eventText event).text rules >>= _) ↔ _
  rw [hkind, hread, hpayload]
  change Runs (event.get "channel" (.ofText "") >>= _) ↔ _
  rw [Value.runs_bind_get, and_iff_right hmap,
    runs_bind_text hchannel fun channel _ => runs_messageTasks]
  constructor
  · rintro h ⟨type', text', digits, heq, -, hdigits, hint⟩
    cases heq
    exact h digits hdigits hint
  · intro h digits hdigits hint
    exact h ⟨type, text, digits, rfl, htype, hdigits, hint⟩

/-- An event of another type holds no message. -/
theorem messagePayload_of_not_same {kind : Scalar} {text : Except PyError String}
    (h : ¬ (kind.same (.str "app_mention") || kind.same (.str "message")) = true)
    {type body : String} (heq : messagePayload (.scalar kind) text = .eventCallback type body) :
    ¬ (type = "app_mention" ∨ type = "message") := by
  intro htype
  refine h ?_
  unfold messagePayload at heq
  split at heq
  · rename_i hkind
    cases heq
    cases hkind
    rcases htype with rfl | rfl <;> simp
  · cases heq

/-- The service reads an event unless its type has no hash or its number no value. -/
theorem runs_event {event : Value} (hprint : event.printable = true) (hmap : event.isMap = true) :
    Runs (do
      match ← field event "type" with
      | .scalar kind =>
        if kind.same (.str "app_mention") || kind.same (.str "message") then
          let text ← (← event.get "text" (.ofText "")).text rules
          let channel ← (← event.get "channel" (.ofText "")).text rules
          t.messageTasks (kind.same (.str "app_mention")) text channel
        else return {}
      | _ => .error .type) ↔
    ¬ ((msgType event).hashable = false ∨
      ∃ type text digits, messagePayload (msgType event) ((eventText event).text rules) =
          .eventCallback type text ∧ (type = "app_mention" ∨ type = "message") ∧
        firstDigits t.unicode (stripMentions text.toList) = some digits ∧
        pyInt t.unicode digits = none) := by
  rw [runs_bind_field, and_iff_right hmap]
  change Runs (match msgType event with
    | .scalar kind => _
    | _ => Except.error PyError.type) ↔ _
  cases htype : msgType event with
  | list items => exact iff_of_false (not_runs_error _) fun h => h (Or.inl rfl)
  | map entries => exact iff_of_false (not_runs_error _) fun h => h (Or.inl rfl)
  | scalar kind =>
    have hhash : ¬ (Value.scalar kind).hashable = false := by simp [Value.hashable]
    rw [or_iff_right hhash]
    by_cases hmessage : (kind.same (.str "app_mention") || kind.same (.str "message")) = true
    · have hruns := @runs_messageEvent t rules event hprint hmap kind htype hmessage
      rw [htype] at hruns
      simp only [if_pos hmessage]
      exact hruns
    · simp only [if_neg hmessage]
      refine iff_of_true (runs_pure _) ?_
      rintro ⟨type, text, digits, hpayload, hof, -⟩
      exact messagePayload_of_not_same hmessage hpayload hof

/-- A first action that is a dictionary is a part of the actions. -/
theorem printable_firstAction {actions action : Value} (hprint : actions.printable = true)
    (h : firstAction actions = .ok (some action)) (hmap : action.isMap = true) :
    action.printable = true := by
  unfold firstAction at h
  split at h
  · rename_i items
    cases items with
    | nil => cases h
    | cons v items =>
      cases h
      exact printable_of_mem_items hprint _ List.mem_cons_self
  · cases h
  · split at h
    · rename_i hpair
      cases h
      exact printable_of_pair? hprint hpair
    · cases h
  · simp only [Except.ok.injEq, Option.map_eq_some_iff] at h
    obtain ⟨c, -, rfl⟩ := h
    cases hmap
  · simp only [Except.ok.injEq, Option.map_eq_some_iff] at h
    obtain ⟨b, -, rfl⟩ := h
    cases hmap
  · split at h
    · cases h
    · cases h

/-- The service reads a press unless its first action is no dictionary, or its choice has no
number or no container. -/
theorem runs_actions (hprint : body.printable = true) (hmap : body.isMap = true)
    (hblock : isText (msgType body) "block_actions" = true) :
    Runs (do
      match ← firstAction (← body.get "actions" (.list [])) with
      | none => return {}
      | some action =>
        let value ← (← action.get "value" (.ofText "")).text rules
        t.buttonTasks rules body value) ↔
    ¬ Misread t rules body := by
  have hevent : ¬ isText (msgType body) "event_callback" = true :=
    fun h => absurd (isText_unique hblock h) (by decide)
  have hpayload : payloadOf rules body = actionPayload rules (firstAction (actionsOf body)) := by
    rw [payloadOf, if_neg hevent, if_pos hblock]
  rw [misread_action hmap hblock, Value.runs_bind_get, and_iff_right hmap, hpayload]
  change Runs (firstAction (actionsOf body) >>= _) ↔ _
  cases hfirst : firstAction (actionsOf body) with
  | error e =>
    exact iff_of_false (not_runs_error e) fun h => h (Or.inl (not_runs_error e))
  | ok first =>
    cases first with
    | none =>
      refine iff_of_true (runs_pure _) ?_
      rintro (h | ⟨action, h, -⟩ | ⟨value, h, -⟩ | ⟨value, h, -⟩)
      · exact h (runs_ok _)
      · cases h
      · cases h
      · cases h
    | some action =>
      change Runs (action.get "value" (.ofText "") >>= _) ↔ _
      rw [Value.runs_bind_get]
      by_cases hdict : action.isMap = true
      · have hactions : (actionsOf body).printable = true := printable_getD hprint rfl
        have hvalue : (actionValue action).printable = true :=
          printable_getD (printable_firstAction hactions hfirst hdict) rfl
        obtain ⟨value, hread⟩ := (@Value.runs_text rules (actionValue action)).mpr hvalue
        rw [and_iff_right hdict]
        change Runs ((actionValue action).text rules >>= _) ↔ _
        rw [actionPayload, hread]
        change Runs (t.buttonTasks rules body value) ↔ _
        rw [runs_buttonTasks hprint hmap]
        constructor
        · rintro ⟨hrun, h⟩
            (hno | ⟨other, heq, hno⟩ | ⟨other, heq, hno⟩ | ⟨other, heq, hselect, hunder, hno⟩)
          · exact hno (runs_ok _)
          · cases heq
            rw [hdict] at hno
            cases hno
          · cases heq
            rw [hrun] at hno
            cases hno
          · cases heq
            obtain ⟨hint, hcontainer⟩ := h hselect hunder
            rw [hcontainer] at hno
            simp [hint] at hno
        · intro h
          constructor
          · apply Bool.eq_false_of_not_eq_true
            exact fun hrun => h (Or.inr (Or.inr (Or.inl ⟨value, rfl, hrun⟩)))
          · intro hselect hunder
            constructor
            · exact fun hint =>
                h (Or.inr (Or.inr (Or.inr ⟨value, rfl, hselect, hunder, Or.inl hint⟩)))
            · apply Bool.eq_true_of_not_eq_false
              exact fun hno =>
                h (Or.inr (Or.inr (Or.inr ⟨value, rfl, hselect, hunder, Or.inr hno⟩)))
      · refine iff_of_false (fun h => hdict h.1) fun h => h (Or.inr (Or.inl ⟨action, rfl, ?_⟩))
        exact Bool.eq_false_iff.mpr hdict

/-- **When the service reads a body.** -/
theorem runs_processSlackBody (hprint : body.printable = true) :
    Runs (t.processSlackBody rules body) ↔ ¬ Misread t rules body := by
  unfold TriggerDecisionEngine.processSlackBody
  rw [runs_bind_field]
  by_cases hmap : body.isMap = true
  · rw [and_iff_right hmap]
    change Runs (if isText (msgType body) "event_callback" = true then _ else _) ↔ _
    by_cases hevent : isText (msgType body) "event_callback" = true
    · rw [if_pos hevent, Value.runs_bind_get, and_iff_right hmap, misread_event hmap hevent]
      by_cases hdict : (eventOf body).isMap = true
      · have hprintEvent : (eventOf body).printable = true := printable_getD hprint rfl
        have hruns := @runs_event t rules (eventOf body) hprintEvent hdict
        rw [payloadOf, if_pos hevent]
        simp only [hdict, Bool.true_eq_false, false_or]
        exact hruns
      · refine iff_of_false ?_ fun h => h (Or.inl (Bool.eq_false_iff.mpr hdict))
        intro h
        exact hdict (runs_bind_field.mp h).1
    · rw [if_neg hevent]
      by_cases hblock : isText (msgType body) "block_actions" = true
      · change Runs (if isText (msgType body) "block_actions" = true then _ else _) ↔ _
        rw [if_pos hblock]
        exact runs_actions hprint hmap hblock
      · refine iff_of_true ?_ (not_misread_other hmap hevent hblock)
        change Runs (if isText (msgType body) "block_actions" = true then _ else _)
        rw [if_neg hblock]
        exact runs_pure _
  · exact iff_of_false (fun h => hmap h.1) fun h => h (.body (Bool.eq_false_iff.mpr hmap))

end Tasks

/-! ## The endpoint -/

section Endpoint

variable {t : TriggerDecisionEngine} {rules : TextRules} {body : Value}

/-- What `slack_events` does with a body that is no verification. -/
theorem slackEvents_body (hmap : body.isMap = true)
    (htype : ¬ isText (msgType body) "url_verification" = true) :
    t.slackEvents rules (some body) = answered (t.processSlackBody rules body) := by
  have hfield : field body "type" = .ok (msgType body) := Value.get_eq_ok.mpr ⟨hmap, rfl⟩
  unfold TriggerDecisionEngine.slackEvents
  simp only [hfield, if_neg htype]

/-- A verification starts nothing. -/
theorem processSlackBody_verification (hmap : body.isMap = true)
    (htype : isText (msgType body) "url_verification" = true) :
    t.processSlackBody rules body = .ok {} := by
  have hevent : ¬ isText (msgType body) "event_callback" = true :=
    fun h => absurd (isText_unique htype h) (by decide)
  have hblock : ¬ isText (msgType body) "block_actions" = true :=
    fun h => absurd (isText_unique htype h) (by decide)
  have hfield : field body "type" = .ok (msgType body) := Value.get_eq_ok.mpr ⟨hmap, rfl⟩
  unfold TriggerDecisionEngine.processSlackBody
  rw [hfield]
  change (if isText (msgType body) "event_callback" = true then _ else
    if isText (msgType body) "block_actions" = true then _ else _) = _
  rw [if_neg hevent, if_neg hblock]
  rfl

/-- The endpoint raises where the processing does, and starts what the processing starts. -/
theorem slackEvents_raised_iff :
    ((t.slackEvents rules (some body)).1 = .raised ↔ ¬ Runs (t.processSlackBody rules body)) ∧
      (t.slackEvents rules (some body)).2 = t.slackTasks rules body := by
  unfold TriggerDecisionEngine.slackTasks
  by_cases hmap : body.isMap = true
  · by_cases htype : isText (msgType body) "url_verification" = true
    · have hfield : field body "type" = .ok (msgType body) := Value.get_eq_ok.mpr ⟨hmap, rfl⟩
      rw [processSlackBody_verification hmap htype]
      unfold TriggerDecisionEngine.slackEvents
      simp only [hfield, if_pos htype]
      simp [Except.toOption]
    · rw [slackEvents_body hmap htype]
      cases t.processSlackBody rules body with
      | error e => exact ⟨iff_of_true rfl (not_runs_error e), rfl⟩
      | ok tasks => exact ⟨iff_of_false (by simp [answered]) (by simp), rfl⟩
  · have hraises : ∀ e, field body "type" = .error e →
        t.processSlackBody rules body = .error e := by
      intro e he
      unfold TriggerDecisionEngine.processSlackBody
      rw [he]
      rfl
    unfold TriggerDecisionEngine.slackEvents
    cases hfield : field body "type" with
    | ok type => exact absurd (Value.get_eq_ok.mp hfield).1 hmap
    | error e =>
      rw [hraises e hfield]
      simp only [hfield]
      exact ⟨iff_of_true trivial (not_runs_error e), rfl⟩

/-- What is started for a body that prints. -/
theorem slackTasks_of_printable (hprint : body.printable = true) :
    (Misread t rules body → t.slackTasks rules body = {}) ∧
      (¬ Misread t rules body → TasksOf t rules (payloadOf rules body) (t.slackTasks rules body)) := by
  have hruns := @runs_processSlackBody t rules body hprint
  unfold TriggerDecisionEngine.slackTasks
  constructor
  · intro hmisread
    cases hbody : t.processSlackBody rules body with
    | error e => rfl
    | ok tasks => exact absurd hmisread (hruns.mp ⟨tasks, hbody⟩)
  · intro hread
    obtain ⟨tasks, hbody⟩ := hruns.mpr hread
    rw [hbody]
    exact tasksOf_body hbody

/-- **What Slack's requests do.** Whatever JSON document the body of a request is, the events
endpoint raises exactly if the document is misread, and then nothing is started; otherwise what is
said, asked back and requested is what the service does on the payload that it sees in the
document. -/
theorem slack_requests_read (t : TriggerDecisionEngine) (rules : TextRules) (json : JsonRules)
    (text : List Char) (body : Value) (h : json.loads text = .ok body) :
    ((t.slackEvents rules (some body)).1 = .raised ↔ Misread t rules body) ∧
      (t.slackEvents rules (some body)).2 = t.slackTasks rules body ∧
      (Misread t rules body → t.slackTasks rules body = {}) ∧
      (¬ Misread t rules body → TasksOf t rules (payloadOf rules body) (t.slackTasks rules body)) := by
  have hprint : body.printable = true := JsonRules.printable_of_loads h
  obtain ⟨hraised, htasks⟩ := @slackEvents_raised_iff t rules body
  refine ⟨?_, htasks, slackTasks_of_printable hprint⟩
  rw [hraised, runs_processSlackBody hprint, not_not]

end Endpoint

/-! ## Slack's own payloads -/

section Payload

variable {t : TriggerDecisionEngine} {rules : TextRules} {p : SlackPayload} {channel : String}

/-- A text is itself only. -/
theorem isText_ofText (s text : String) : isText (.ofText s) text = decide (s = text) :=
  Scalar.same_str s text

/-- The first entry of a dictionary under its own key, and the others under theirs. -/
theorem getD_cons (key name : String) (v d : Value) (entries : List (Scalar × Value)) :
    (Value.map ((.str key, v) :: entries)).getD name d =
      if key = name then v else (Value.map entries).getD name d := by
  show (Value.pair? ((.str key, v) :: entries) (.str name)).getD d = if key = name then v else
    (Value.pair? entries (.str name)).getD d
  rw [Value.pair?_cons, Scalar.same_str]
  by_cases h : key = name
  · simp [h]
  · simp [h]

/-- The body of a message is an event's callback. -/
theorem msgType_event (type text : String) :
    isText (msgType ((SlackPayload.eventCallback type text).json channel)) "event_callback" =
      true := by
  simp [msgType, SlackPayload.json, getD_cons, isText_ofText]

/-- The body of a press is that of block actions. -/
theorem msgType_action (value : String) :
    isText (msgType ((SlackPayload.blockActions value).json channel)) "block_actions" = true := by
  simp [msgType, SlackPayload.json, getD_cons, isText_ofText]

/-- The event of a message's body. -/
theorem eventOf_json (type text : String) :
    eventOf ((SlackPayload.eventCallback type text).json channel) =
      .map [(.str "type", .ofText type), (.str "text", .ofText text),
        (.str "channel", .ofText channel)] := by
  simp [eventOf, SlackPayload.json, getD_cons]

/-- The first action of a press's body. -/
theorem firstAction_json (value : String) :
    firstAction (actionsOf ((SlackPayload.blockActions value).json channel)) =
      .ok (some (.map [(.str "value", .ofText value)])) := by
  simp [actionsOf, SlackPayload.json, getD_cons, firstAction]

/-- The payload of a message or a press comes back. -/
theorem payloadOf_json : payloadOf rules (p.json channel) = p := by
  cases p with
  | eventCallback type text =>
    rw [payloadOf, if_pos (msgType_event type text), eventOf_json]
    simp only [msgType, eventText, getD_cons, reduceIte, String.reduceEq]
    rfl
  | blockActions value =>
    have hevent : ¬ isText (msgType ((SlackPayload.blockActions value).json channel))
        "event_callback" = true :=
      fun h => absurd (isText_unique (msgType_action value) h) (by decide)
    rw [payloadOf, if_neg hevent, if_pos (msgType_action value), firstAction_json]
    simp only [actionPayload, actionValue, getD_cons, reduceIte]
    rfl
  | other => rfl

/-- Slack's payloads are misread only for their numbers and the runs they approve, and then they
ask for nothing. -/
theorem tasksOf_misread (h : Misread t rules (p.json channel)) : TasksOf t rules p {} := by
  have hmap : (p.json channel).isMap = true := by cases p <;> rfl
  cases p with
  | other =>
    refine absurd h (not_misread_other hmap ?_ ?_)
    · show ¬ isText (.scalar .null) "event_callback" = true
      decide
    · show ¬ isText (.scalar .null) "block_actions" = true
      decide
  | eventCallback type text =>
    rcases (misread_event hmap (msgType_event type text)).mp h with
      h | h | ⟨type', text', digits, hpayload, -, hdigits, hint⟩
    · rw [eventOf_json] at h
      cases h
    · rw [eventOf_json, msgType, getD_cons, if_pos rfl] at h
      cases h
    · rw [payloadOf_json] at hpayload
      cases hpayload
      exact tasksOf_unreadable hdigits hint
  | blockActions value =>
    have hcontainer : (((SlackPayload.blockActions value).json channel).getD "container"
        .empty).isMap = true := by
      simp [SlackPayload.json, getD_cons, Value.isMap]
    rcases (misread_action hmap (msgType_action value)).mp h with
      h | ⟨action, hfirst, h⟩ | ⟨value', hpayload, h⟩ | ⟨value', hpayload, hselect, hunder, h⟩
    · rw [firstAction_json] at h
      exact absurd (runs_ok _) h
    · rw [firstAction_json] at hfirst
      cases hfirst
      cases h
    · rw [payloadOf_json] at hpayload
      cases hpayload
      exact tasksOf_unencodable h
    · rw [payloadOf_json] at hpayload
      cases hpayload
      rw [hcontainer] at h
      have hint := h.resolve_right (by decide)
      exact tasksOf_dropped hselect (slackButton_unreadable hselect (Or.inr hint))

/-- The service does on Slack's own documents what it does on the payloads. -/
theorem tasksOf_json (hprint : (p.json channel).printable = true) :
    TasksOf t rules p (t.slackTasks rules (p.json channel)) := by
  unfold TriggerDecisionEngine.slackTasks
  cases hbody : t.processSlackBody rules (p.json channel) with
  | ok tasks =>
    have htasks := tasksOf_body hbody
    rw [payloadOf_json] at htasks
    exact htasks
  | error e =>
    have hmisread : Misread t rules (p.json channel) := by
      by_contra hread
      obtain ⟨tasks, hok⟩ := (runs_processSlackBody hprint).mpr hread
      rw [hbody] at hok
      cases hok
    exact tasksOf_misread hmisread

/-! ## The documents -/

section Document

variable {dump : DumpRules} {json : JsonRules}

/-- The body of a payload is plain. -/
theorem plain_json : (p.json channel).plain := by
  cases p with
  | eventCallback type text =>
    simp [SlackPayload.json, Value.plain, plainEntries, Value.ofText]
  | blockActions value =>
    simp [SlackPayload.json, Value.plain, plainEntries, plainItems, Value.ofText]
  | other => simp [SlackPayload.json, Value.plain, plainEntries, Value.empty]

/-- The body of a payload is serialisable. -/
theorem serialisable_json : (p.json channel).serialisable = true := by
  cases p <;> rfl

/-- The body of a payload nests three deep at most. -/
theorem nesting_json : (p.json channel).nesting ≤ 3 := by
  cases p with
  | eventCallback type text => exact Nat.le_succ 2
  | blockActions value => exact Nat.le_refl 3
  | other => exact Nat.le_add_left 1 2

/-- The body of a payload reads back. -/
theorem readsBack_json : (p.json channel).readsBack dump json := by
  cases p with
  | eventCallback type text => exact ⟨trivial, ⟨trivial, trivial, trivial, trivial⟩, trivial⟩
  | blockActions value =>
    exact ⟨trivial, ⟨⟨trivial, trivial⟩, trivial⟩, ⟨trivial, trivial⟩, trivial⟩
  | other => trivial

/-- The text of the payload's document is read as the document. -/
theorem loads_json (hnames : ReadsNames json) (hdepth : 3 ≤ json.depth) :
    json.loads (chars ((p.json channel).write dump)) = .ok (p.json channel) := by
  have hreread : (p.json channel).reread dump = p.json channel :=
    (Value.reread_eq_self_iff _).mpr plain_json
  rw [JsonRules.loads_write hnames serialisable_json readsBack_json
    (Nat.le_trans nesting_json hdepth), hreread]

end Document

end Payload

/-- A reader of documents that nest four deep. -/
def shallowJson : JsonRules where
  lone := fun _ => '?'
  readFloat := fun text => if text = "NaN" then .nan else .infinite (decide (text = "-Infinity"))
  depth := 4

/-- The reader of the examples reads the names of the values that are no numbers. -/
theorem shallowJson_names : ReadsNames shallowJson :=
  ⟨by decide +kernel, by decide +kernel, by decide +kernel⟩

/-- The writer of the examples. -/
def shallowDump : DumpRules :=
  ⟨fun _ => "0.5"⟩

/-- The press of the button that approves a run. -/
def approvalPress : SlackPayload :=
  .blockActions (approveValue "4f2a")

/-- The press of the example is read, and starts its tasks. -/
theorem slack_requests_read_press :
    ¬ Misread bareTrigger Load.plainRules (approvalPress.json "C1") ∧
      TasksOf bareTrigger Load.plainRules approvalPress
        (bareTrigger.slackTasks Load.plainRules (approvalPress.json "C1")) := by
  obtain ⟨hraised, -, -, htasks⟩ := slack_requests_read bareTrigger Load.plainRules shallowJson
    (chars ((approvalPress.json "C1").write shallowDump)) (approvalPress.json "C1")
    (loads_json shallowJson_names (by decide))
  have hread : ¬ Misread bareTrigger Load.plainRules (approvalPress.json "C1") := by
    intro h
    have hreply : (bareTrigger.slackEvents Load.plainRules
        (some (approvalPress.json "C1"))).1 = .raised := hraised.mpr h
    revert hreply
    exact SlackReply.noConfusion
  have h := htasks hread
  rw [payloadOf_json] at h
  exact ⟨hread, h⟩

end PrReviewer.Model
