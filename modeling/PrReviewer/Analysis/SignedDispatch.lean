import PrReviewer.Model.Handler

/-!
# Signature before dispatch

An event is scheduled on the last exit of the handler only, and each exit before it has
checked one thing: that the body can be read, that the header is the signature of its bytes,
that it can be normalized, and that its action is supported.
-/

set_option autoImplicit false

namespace PrReviewer.Model

open PrReviewer.Library

/-! ## Values -/

/-- A field is read from a map, with null where it is missing. -/
theorem field_eq_ok {v r : Value} {key : String} :
    field v key = .ok r ↔ v.isMap = true ∧ v.getD key (.scalar .null) = r :=
  Value.get_eq_ok

/-- A value that gives a text other than the empty default is that text. -/
theorem orElse_eq_text {v : Value} {t : String} (ht : t ≠ "")
    (h : v.orElse (.ofText "") = .ofText t) : v = .ofText t := by
  unfold Value.orElse at h
  split at h
  · exact h
  · cases h
    exact absurd rfl ht

/-- A field of a map is its entry, or null. -/
theorem field_map (entries : List (Scalar × Value)) (key : String) :
    field (.map entries) key =
      .ok ((Value.pair? entries (.str key)).getD (.scalar .null)) := rfl

/-- An entry is found at the front or behind it. -/
theorem pair?_cons (k : String) (v : Value) (entries : List (Scalar × Value)) (key : String) :
    Value.pair? ((.str k, v) :: entries) (.str key) =
      if k = key then some v else Value.pair? entries (.str key) := by
  unfold Value.pair?
  by_cases h : k = key <;> simp [h]

/-- An optional text is truthy as a JSON value exactly when it is one. -/
theorem truthy_jsonText (s : Option String) : (jsonText s).truthy = truthy s := by
  cases s with
  | none => rfl
  | some t =>
    by_cases h : t = "" <;> simp [jsonText, Value.ofText, Value.truthy, truthy, h]

/-- An optional text as a JSON value is empty where it is missing. -/
theorem orElse_jsonText (s : Option String) :
    (jsonText s).orElse (.ofText "") = .ofText (orEmpty s) := by
  unfold Value.orElse
  rw [truthy_jsonText]
  cases s with
  | none => rfl
  | some t =>
    by_cases h : t = "" <;> simp [truthy, h, jsonText, orEmpty]

/-- An optional number is truthy as a JSON value exactly when it is one. -/
theorem truthy_jsonInt (n : Option Int) : (jsonInt n).truthy = prTruthy n := by
  cases n with
  | none => rfl
  | some n =>
    by_cases h : n = 0 <;> simp [jsonInt, Value.truthy, prTruthy, h]

/-- `v.get(key) or {}` where the value is a mapping with entries. -/
theorem object_map {entries es : List (Scalar × Value)} {key : String}
    (h : Value.pair? entries (.str key) = some (.map es)) (hne : es ≠ []) :
    object (.map entries) key = .ok (.map es) := by
  unfold object
  rw [field_map, h]
  cases es with
  | nil => exact absurd rfl hne
  | cons e es => rfl

/-- The field of an object with one field is read back. -/
theorem field_jsonField (key : String) (s : Option String) :
    field (jsonField key s) key = .ok (jsonText s) := by
  unfold jsonField
  rw [field_map, pair?_cons, if_pos rfl]
  rfl

namespace HandlerEnv

/-- A login is read back, empty where it is missing. -/
theorem loginOrEmpty_jsonField (s : Option String) :
    loginOrEmpty (jsonField "login" s) = .ok (.ofText (orEmpty s)) := by
  unfold loginOrEmpty
  rw [field_jsonField, ← orElse_jsonText]
  rfl

/-- A text that is truthy is read back. -/
theorem textIfTruthy_jsonText (env : HandlerEnv) (s : Option String) :
    env.textIfTruthy (jsonText s) = .ok (if truthy s then s else none) := by
  unfold textIfTruthy
  rw [truthy_jsonText]
  cases s with
  | none => rfl
  | some t => by_cases h : t = "" <;> simp [truthy, h, jsonText, Value.ofText, Value.text, Scalar.text,
      Scalar.printable, pure, Except.pure, bind, Except.bind]

/-- A truthy text is its own text. -/
theorem text_jsonText (rules : TextRules) {s : Option String} (h : truthy s = true) :
    (jsonText s).text rules = .ok (orEmpty s) := by
  cases s with
  | none => cases h
  | some t => rfl

/-- The status of a CI run is read back. -/
theorem runStatus_json (env : HandlerEnv) {payload : Value} {key : String} {ci : CiPayload}
    (h : object payload key = .ok ci.json) : env.runStatus payload key = .ok ci.ciStatus := by
  have hconclusion : field ci.json "conclusion" = .ok (jsonText ci.conclusion) := by
    unfold CiPayload.json
    rw [field_map, pair?_cons, if_pos rfl]
    rfl
  have hstatus : field ci.json "status" = .ok (jsonText ci.status) := by
    unfold CiPayload.json
    rw [field_map, pair?_cons, if_neg (by decide), pair?_cons, if_pos rfl]
    rfl
  unfold runStatus CiPayload.ciStatus
  simp only [h, hconclusion, hstatus, bind, Except.bind, truthy_jsonText]
  split
  · rename_i ht
    rw [text_jsonText env.rules ht]
    obtain ⟨t, heq, -⟩ := truthy_iff.mp ht
    rw [heq]
    rfl
  · exact env.textIfTruthy_jsonText ci.status

/-- The pull request of a payload, field by field. -/
theorem prPayload_fields (pr : PrPayload) :
    field pr.json "number" = .ok (jsonInt pr.number) ∧
      object pr.json "head" = .ok (jsonField "sha" pr.headSha) ∧
      object pr.json "user" = .ok (jsonField "login" pr.user) ∧
      field pr.json "requested_reviewers" =
        .ok (.list (pr.requestedReviewers.map (jsonField "login"))) ∧
      field pr.json "state" = .ok (jsonText pr.state) ∧
      field pr.json "merged" =
        .ok (pr.merged.elim (.scalar .null) fun b => .scalar (.bool b)) ∧
      field pr.json "draft" = .ok (.scalar (.bool pr.draft)) := by
  unfold PrPayload.json
  refine ⟨?_, object_map ?_ (by simp), object_map ?_ (by simp), ?_, ?_, ?_, ?_⟩
  all_goals simp [field_map, pair?_cons, jsonField]

/-- The objects of a payload. -/
theorem payload_objects (payload : WebhookPayload) :
    object payload.json "pull_request" = .ok payload.pullRequest.json ∧
      object payload.json "repository" = .ok (.map [(.str "owner", jsonField "login" payload.owner),
        (.str "name", jsonText payload.repo)]) ∧
      object payload.json "issue" = .ok (.map [(.str "number", jsonInt payload.issueNumber)]) ∧
      object payload.json "comment" = .ok (.map [(.str "body", jsonText payload.commentBody),
        (.str "user", jsonField "login" payload.commentAuthor)]) ∧
      object payload.json "check_run" = .ok payload.checkRun.json ∧
      object payload.json "workflow_run" = .ok payload.workflowRun.json ∧
      object payload.json "sender" = .ok (jsonField "login" payload.sender) := by
  unfold WebhookPayload.json
  refine ⟨object_map ?_ ?_, object_map ?_ ?_, object_map ?_ ?_, object_map ?_ ?_, object_map ?_ ?_,
    object_map ?_ ?_, object_map ?_ ?_⟩
  all_goals simp [pair?_cons, jsonField, PrPayload.json, CiPayload.json]

/-- The CI status of a payload is read back. -/
theorem ciStatus_json (env : HandlerEnv) (event : String) (payload : WebhookPayload) :
    env.ciStatus event payload.json = .ok (payload.ciStatus event) := by
  obtain ⟨-, -, -, -, hcheck, hworkflow, -⟩ := payload_objects payload
  unfold ciStatus WebhookPayload.ciStatus
  split
  · exact env.runStatus_json hcheck
  · split
    · exact env.runStatus_json hworkflow
    · rfl

/-- `_parse_bool_or_state(pr.get("state") or pr.get("merged"))` of a payload. -/
theorem parseBoolOrState_json (env : HandlerEnv) (pr : PrPayload) :
    env.parseBoolOrState ((jsonText pr.state).orElse
      (pr.merged.elim (.scalar .null) fun b => .scalar (.bool b))) = .ok pr.prState := by
  unfold Value.orElse PrPayload.prState
  rw [truthy_jsonText]
  split
  · rename_i ht
    obtain ⟨t, heq, hne⟩ := truthy_iff.mp ht
    rw [heq] at ht ⊢
    show env.textIfTruthy (jsonText (some t)) = _
    rw [textIfTruthy_jsonText, if_pos ht]
  · cases pr.merged with
    | none => rfl
    | some b => rfl

/-- The two entries of the repository or of a comment. -/
theorem pair_fields (k k' sub : String) (hne : k ≠ k') (s t : Option String) :
    object (.map [(.str k, jsonField sub s), (.str k', jsonText t)]) k = .ok (jsonField sub s) ∧
      field (.map [(.str k, jsonField sub s), (.str k', jsonText t)]) k' = .ok (jsonText t) ∧
      object (.map [(.str k', jsonText t), (.str k, jsonField sub s)]) k = .ok (jsonField sub s) ∧
      field (.map [(.str k', jsonText t), (.str k, jsonField sub s)]) k' = .ok (jsonText t) := by
  have hne' : k' ≠ k := fun h => hne h.symm
  refine ⟨object_map ?_ (by simp), ?_, object_map ?_ (by simp), ?_⟩
  all_goals simp [field_map, pair?_cons, jsonField, hne, hne']

/-- The reviewers of a pull request are read back. -/
theorem reviewers_json (l : List (Option String)) :
    (((Value.list (l.map (jsonField "login"))).orElse (.list [])).iterate >>= fun items =>
      items.mapM loginOrEmpty) = .ok (l.map fun s => .ofText (orEmpty s)) := by
  have horElse : (Value.list (l.map (jsonField "login"))).orElse (.list []) =
      .list (l.map (jsonField "login")) := by
    unfold Value.orElse
    split
    · rfl
    · cases l with
      | nil => rfl
      | cons s l => simp_all [Value.truthy]
  rw [horElse]
  show (l.map (jsonField "login")).mapM loginOrEmpty = _
  induction l with
  | nil => rfl
  | cons s l ih =>
    have hrest : (l.map (jsonField "login")).mapM loginOrEmpty =
        .ok (l.map fun s => .ofText (orEmpty s)) := by
      cases l with
      | nil => rfl
      | cons t l =>
        apply ih
        simp [Value.orElse, Value.truthy]
    rw [List.map_cons, List.mapM_cons, loginOrEmpty_jsonField, hrest]
    rfl

/-- The first number that is truthy is taken. -/
theorem orElse_jsonInt (n m : Option Int) :
    (jsonInt n).orElse (jsonInt m) = jsonInt (if prTruthy n then n else m) := by
  unfold Value.orElse
  rw [truthy_jsonInt]
  split <;> rfl

/-- **On a payload of GitHub's shape** the events are those of the typed model. -/
theorem normalizeEvent_json (env : HandlerEnv) (event action : String) (payload : WebhookPayload) :
    env.normalizeEvent event action payload.json =
      .ok (Model.normalizeEvent event action payload).raw := by
  obtain ⟨hpr, hrepo, hissue, hcomment, -, -, hsender⟩ := payload_objects payload
  obtain ⟨hnumber, hhead, huser, hreviewers, hstate, hmerged, hdraft⟩ :=
    prPayload_fields payload.pullRequest
  obtain ⟨howner, hname, -, -⟩ :=
    pair_fields "owner" "name" "login" (by decide) payload.owner payload.repo
  obtain ⟨-, -, hauthor, hbody⟩ := pair_fields "user" "body" "login" (by decide)
    payload.commentAuthor payload.commentBody
  have hissueNumber : field (.map [(.str "number", jsonInt payload.issueNumber)]) "number" =
      .ok (jsonInt payload.issueNumber) := by
    rw [field_map, pair?_cons, if_pos rfl]
    rfl
  have hlist := reviewers_json payload.pullRequest.requestedReviewers
  have hprState := env.parseBoolOrState_json payload.pullRequest
  unfold HandlerEnv.normalizeEvent Model.normalizeEvent
  simp only [hpr, hrepo, hissue, hcomment, hsender, bind, Except.bind, howner, hname, hauthor, hbody,
    hissueNumber, hnumber, hhead, huser, hreviewers, hstate, hmerged, hdraft,
    field_jsonField, loginOrEmpty_jsonField, orElse_jsonText, orElse_jsonInt, env.ciStatus_json]
  split
  · obtain ⟨items, hitems, hmapM⟩ := bind_eq_ok.mp hlist
    simp only [hitems, hmapM, hprState, NormalizedEvent.raw, List.map_map]
    rfl
  · split <;> rfl

variable {env : HandlerEnv} {secret event : String} {payload : List UInt8}
  {signature : Option String}

/-- The header is the signature of these bytes under this secret. -/
def Signed (env : HandlerEnv) (secret : String) (payload : List UInt8) (signature : Option String) :
    Prop :=
  signature = some ("sha256=" ++ env.hmac secret payload)

/-- The body is a mapping whose action is supported for the event. -/
def Supports (event : String) (body : Value) (action : String) : Prop :=
  body.isMap = true ∧ body.getD "action" (.scalar .null) = .ofText action ∧
    event ∈ supportedEvents ∧ action ∈ supportedActions event

/-- A payload that passes the check is signed. -/
theorem signed_of_verifyHmac (h : env.verifyHmac secret payload signature = .ok true) :
    env.Signed secret payload signature := by
  unfold verifyHmac at h
  split at h
  · rename_i ht
    obtain ⟨given, rfl, -⟩ := truthy_iff.mp ht
    have hgiven : orEmpty (some given) = given := rfl
    simp only at h
    rw [hgiven] at h
    by_cases hascii : given.toList.all isAscii = true
    · rw [if_pos hascii, Except.ok.injEq, decide_eq_true_eq] at h
      exact congrArg some h.symm
    · rw [if_neg hascii] at h
      cases h
  · cases h

/-- A supported action has a name. -/
theorem nonempty_of_mem_supportedActions {action : String} (h : action ∈ supportedActions event) :
    action ≠ "" := by
  rintro rfl
  unfold supportedActions at h
  split at h
  · exact absurd h (by decide)
  · split at h
    · exact absurd h (by decide)
    · split at h
      · exact absurd h (by decide)
      · exact absurd h List.not_mem_nil

/-- An event that is acted on has a supported action. -/
theorem supports_of_actionable {body : Value} (h : actionable event body = .ok true) :
    ∃ action, Supports event body action := by
  unfold actionable at h
  split at h
  · rename_i hevent
    obtain ⟨r, hr, hrest⟩ := bind_eq_ok.mp h
    obtain ⟨hmap, hget⟩ := field_eq_ok.mp hr
    split at hrest
    · rename_i action haction
      simp only [pure, Except.pure, Except.ok.injEq, List.any_eq_true] at hrest
      obtain ⟨a, ha, hsame⟩ := hrest
      rw [Scalar.eq_str_of_same hsame] at haction
      refine ⟨a, hmap, ?_, List.contains_iff_mem.mp hevent, ha⟩
      rw [hget]
      exact orElse_eq_text (nonempty_of_mem_supportedActions ha) haction
    · cases hrest
  · cases h

/-- The action a supported body is normalized with is its own. -/
theorem actionText_of_supports {body : Value} {action : String} (h : Supports event body action) :
    env.actionText body = .ok action := by
  obtain ⟨hmap, hget, -, hmem⟩ := h
  unfold actionText
  rw [if_pos hmap, hget]
  have ht : (Value.ofText action).truthy = true := by
    simp [Value.ofText, Value.truthy, nonempty_of_mem_supportedActions hmem]
  simp only [Value.orElse, ht, if_true]
  rfl

/-- A webhook that is parsed is signed, and is the event of its body. -/
theorem parseWebhook_eq_ok {normalized : RawEvent}
    (h : env.parseWebhook secret payload event signature = .ok normalized) :
    env.Signed secret payload signature ∧ ∃ body action, env.loads payload = .ok body ∧
      env.actionText body = .ok action ∧ env.normalizeEvent event action body = .ok normalized := by
  unfold parseWebhook at h
  split at h
  · cases h
  · cases h
  · rename_i hverify
    refine ⟨signed_of_verifyHmac hverify, ?_⟩
    split at h
    · cases h
    · rename_i body hloads
      split at h
      · cases h
      · rename_i r hr
        cases h
        obtain ⟨action, haction, hnormal⟩ := bind_eq_ok.mp hr
        exact ⟨body, action, hloads, haction, hnormal⟩

/-- The empty body has no action, so it is not supported. -/
theorem not_supports_empty {action : String} : ¬ Supports event .empty action := by
  rintro ⟨-, hget, -⟩
  cases hget

/-- **Signature before dispatch.** For every secret, body, event and header: the handler
schedules at most one dispatch, and only for a body whose bytes the header signs and whose
action is supported for the event; what it schedules is the body, normalized. -/
theorem handle_scheduled (env : HandlerEnv) (secret : String) (payload : List UInt8)
    (event : String) (signature : Option String) :
    (env.handle secret payload event signature).scheduled.length ≤ 1 ∧
      ∀ e ∈ (env.handle secret payload event signature).scheduled,
        env.Signed secret payload signature ∧
          ∃ body action, env.loads payload = .ok body ∧ Supports event body action ∧
            env.normalizeEvent event action body = .ok e := by
  unfold handle
  split
  · exact ⟨Nat.zero_le _, fun e he => absurd he List.not_mem_nil⟩
  · exact ⟨Nat.zero_le _, fun e he => absurd he List.not_mem_nil⟩
  · rename_i body hbody
    split
    · exact ⟨Nat.zero_le _, fun e he => absurd he List.not_mem_nil⟩
    · exact ⟨Nat.zero_le _, fun e he => absurd he List.not_mem_nil⟩
    · rename_i normalized hparse
      split
      · exact ⟨Nat.zero_le _, fun e he => absurd he List.not_mem_nil⟩
      · split <;> exact ⟨Nat.zero_le _, fun e he => absurd he List.not_mem_nil⟩
      · rename_i hact
        refine ⟨Nat.le_refl _, fun e he => ?_⟩
        rw [List.mem_singleton.mp he]
        obtain ⟨hsigned, body', action', hloads, htext, hnormal⟩ := parseWebhook_eq_ok hparse
        obtain ⟨action, hsupports⟩ := supports_of_actionable hact
        -- the body that was checked and the one that was normalized are read from the same bytes
        have hsame : body' = body := by
          split at hbody
          · cases hbody
            exact absurd hsupports not_supports_empty
          · rw [hloads] at hbody
            cases hbody
            rfl
        subst hsame
        rw [actionText_of_supports hsupports, Except.ok.injEq] at htext
        rw [← htext] at hnormal
        exact ⟨hsigned, body', action, hloads, hsupports, hnormal⟩

end HandlerEnv

end PrReviewer.Model
