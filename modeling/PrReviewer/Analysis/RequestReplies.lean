import PrReviewer.Analysis.OutputShapes
import PrReviewer.Analysis.SignedDispatch

/-!
# Replies to requests

`handle` catches a body that is not JSON and a signature that does not fit. What else a request can
hold escapes: a signature outside ASCII, and, once the signature fits, a body that is not of the
shape of GitHub's payloads.
-/

set_option autoImplicit false

namespace PrReviewer.Model

open PrReviewer.Library

/-! ## Shapes -/

/-- `v.get(key) or {}`, of a mapping. -/
def member (v : Value) (key : String) : Value :=
  (v.getD key (.scalar .null)).orElse .empty

/-- The object at the end of a path. -/
def follow (path : List String) (v : Value) : Value :=
  path.foldl member v

/-- The objects `normalize_event` reads of a payload. -/
def objectPaths (event : String) : List (List String) :=
  [["sender"], ["repository"], ["repository", "owner"], ["pull_request"],
      ["pull_request", "head"]] ++
    if event = "pull_request" then [["pull_request", "user"]]
    else if event = "issue_comment" then [["issue"], ["comment"], ["comment", "user"]]
    else if event = "check_run" then [["check_run"]]
    else if event = "workflow_run" then [["workflow_run"]]
    else []

/-- The reviewers a payload lists. -/
def reviewersOf (body : Value) : Value :=
  ((follow ["pull_request"] body).getD "requested_reviewers" (.scalar .null)).orElse (.list [])

/-- The body has the shape of GitHub's payload: it is an object, and so is what it has, if it has
anything, at each of these paths and in its list of reviewers; its action is no list or object. -/
structure GitHubShaped (event : String) (body : Value) : Prop where
  object : body.isMap = true
  objects : ∀ path ∈ objectPaths event, (follow path body).isMap = true
  reviewers : event = "pull_request" → ListsObjects (reviewersOf body)
  action : event ∈ supportedEvents →
    ((body.getD "action" (.scalar .null)).orElse (.ofText "")).hashable = true

/-! ## `normalize_event` -/

/-- The first of two printable values that is truthy is printable. -/
theorem printable_orElse {v d : Value} (hv : v.printable = true) (hd : d.printable = true) :
    (v.orElse d).printable = true := by
  unfold Value.orElse
  split
  · exact hv
  · exact hd

/-- A member of a printable value is printable. -/
theorem printable_member {v : Value} {key : String} (hv : v.printable = true) :
    (member v key).printable = true :=
  printable_orElse (printable_getD hv rfl) rfl

section Normalize

variable {β : Type} {v : Value} {key : String}

/-- A field is read exactly from a map, and what follows must run on it. -/
theorem runs_bind_field {f : Value → Except PyError β} :
    Runs (field v key >>= f) ↔ v.isMap = true ∧ Runs (f (v.getD key (.scalar .null))) :=
  Value.runs_bind_get

/-- An object's member is read exactly from a map, and what follows must run on it. -/
theorem runs_bind_object {f : Value → Except PyError β} :
    Runs (object v key >>= f) ↔ v.isMap = true ∧ Runs (f (member v key)) := by
  unfold object
  rw [bind_assoc, runs_bind_field]
  rfl

/-- A login is read exactly from a map, and what follows must run on it. -/
theorem runs_bind_login {f : Value → Except PyError β} :
    Runs (HandlerEnv.loginOrEmpty v >>= f) ↔
      v.isMap = true ∧ Runs (f ((v.getD "login" (.scalar .null)).orElse (.ofText ""))) := by
  unfold HandlerEnv.loginOrEmpty
  rw [bind_assoc, runs_bind_field]
  rfl

variable {env : HandlerEnv}

/-- Making a text of a printable value raises nothing. -/
theorem runs_textIfTruthy (hv : v.printable = true) : Runs (env.textIfTruthy v) := by
  unfold HandlerEnv.textIfTruthy
  split
  · obtain ⟨t, ht⟩ := (@Value.runs_text env.rules v).mpr hv
    exact runs_bind.mpr ⟨t, ht, runs_pure _⟩
  · exact runs_pure _

/-- Reading a state from a printable value raises nothing. -/
theorem runs_parseBoolOrState (hv : v.printable = true) : Runs (env.parseBoolOrState v) := by
  have htext : Runs (env.textIfTruthy v) := runs_textIfTruthy hv
  cases v with
  | scalar s => cases s <;> first | exact runs_pure _ | exact htext
  | list items => exact htext
  | map entries =>
    have hstate : ((Value.map entries).getD "state" (.scalar .null)).printable = true :=
      printable_getD hv rfl
    unfold HandlerEnv.parseBoolOrState
    rw [runs_bind_field, runs_bind_field]
    refine ⟨rfl, rfl, ?_⟩
    split
    · exact runs_pure _
    · split
      · obtain ⟨t, ht⟩ := (@Value.runs_text env.rules _).mpr hstate
        exact runs_bind.mpr ⟨t, ht, runs_pure _⟩
      · exact htext

/-- The status of a run is read exactly where the payload and its run are maps. -/
theorem runs_runStatus (hv : v.printable = true) :
    Runs (env.runStatus v key) ↔ v.isMap = true ∧ (member v key).isMap = true := by
  have hmember : (member v key).printable = true := printable_member hv
  unfold HandlerEnv.runStatus
  rw [runs_bind_object, runs_bind_field, runs_bind_field]
  have hconclusion : ((member v key).getD "conclusion" (.scalar .null)).printable = true :=
    printable_getD hmember rfl
  refine and_congr_right fun _ => ?_
  have hrest : Runs (if ((member v key).getD "conclusion" (.scalar .null)).truthy = true then
      (do return some (← ((member v key).getD "conclusion" (.scalar .null)).text env.rules))
      else env.textIfTruthy ((member v key).getD "status" (.scalar .null))) := by
    split
    · obtain ⟨t, ht⟩ := (@Value.runs_text env.rules _).mpr hconclusion
      exact runs_bind.mpr ⟨t, ht, runs_pure _⟩
    · exact runs_textIfTruthy (printable_getD hmember rfl)
  exact ⟨fun h => h.1, fun h => ⟨h, h, hrest⟩⟩

/-- The loop over the reviewers. -/
theorem runs_reviewers {f : List Value → Except PyError β} (hf : ∀ logins, Runs (f logins)) :
    Runs (v.iterate >>= fun items => items.mapM HandlerEnv.loginOrEmpty >>= f) ↔
      ListsObjects v := by
  have hlogin : ∀ w, Runs (HandlerEnv.loginOrEmpty w) ↔ w.isMap = true := by
    intro w
    rw [← bind_pure (HandlerEnv.loginOrEmpty w), runs_bind_login]
    exact and_iff_left (runs_pure _)
  have hloop : Runs (v.iterate >>= fun items => items.mapM HandlerEnv.loginOrEmpty) ↔
      ListsObjects v := by
    apply runs_loop_objects
    · intro s
      rw [hlogin]
      exact Bool.false_ne_true
    · exact fun items _ w _ => hlogin w
  rw [← bind_assoc, runs_bind_of_iff (p := True) fun logins _ => iff_true_intro (hf logins), and_true,
    hloop]

/-- What follows the reviewers always runs. -/
theorem runs_after_reviewers {pr : Value} (hpr : pr.isMap = true) (hprint : pr.printable = true)
    (f : Option String → Value → β) :
    Runs (do
      let state ← field pr "state"
      let merged ← field pr "merged"
      let prState ← env.parseBoolOrState (state.orElse merged)
      let draft ← field pr "draft"
      pure (f prState draft)) := by
  rw [runs_bind_field, runs_bind_field]
  refine ⟨hpr, hpr, ?_⟩
  have hvalue : ((pr.getD "state" (.scalar .null)).orElse
      (pr.getD "merged" (.scalar .null))).printable = true :=
    printable_orElse (printable_getD hprint rfl) (printable_getD hprint rfl)
  obtain ⟨state, hstate⟩ := @runs_parseBoolOrState _ env hvalue
  refine runs_bind.mpr ⟨state, hstate, ?_⟩
  rw [runs_bind_field]
  exact ⟨hpr, runs_pure _⟩

/-- The objects read whatever the event is. -/
def CommonObjects (body : Value) : Prop :=
  (member body "sender").isMap = true ∧ (member body "repository").isMap = true ∧
    (member (member body "repository") "owner").isMap = true ∧
    (member body "pull_request").isMap = true ∧
    (member (member body "pull_request") "head").isMap = true

/-- The objects that an event's payload must have, event by event. -/
theorem forall_objectPaths {event : String} {body : Value} :
    (∀ path ∈ objectPaths event, (follow path body).isMap = true) ↔ CommonObjects body ∧
      (event = "pull_request" → (member (member body "pull_request") "user").isMap = true) ∧
      (event = "issue_comment" → (member body "issue").isMap = true ∧
        (member body "comment").isMap = true ∧
        (member (member body "comment") "user").isMap = true) ∧
      (event = "check_run" → (member body "check_run").isMap = true) ∧
      (event = "workflow_run" → (member body "workflow_run").isMap = true) := by
  unfold objectPaths
  rw [List.forall_mem_append]
  apply and_congr
  · simp [CommonObjects, follow]
  · split_ifs with hpull hcomment hcheck hworkflow
    · subst hpull
      simp [follow]
    · subst hcomment
      simp [follow]
    · subst hcheck
      simp [follow]
    · subst hworkflow
      simp [follow]
    · simp [hpull, hcomment, hcheck, hworkflow]

/-- The CI status is read exactly where the run of a CI event is a map. -/
theorem runs_ciStatus {event : String} {body : Value} (hmap : body.isMap = true)
    (hbody : body.printable = true) :
    Runs (env.ciStatus event body) ↔
      (event = "check_run" → (member body "check_run").isMap = true) ∧
      (event = "workflow_run" → (member body "workflow_run").isMap = true) := by
  unfold HandlerEnv.ciStatus
  split_ifs with hcheck hworkflow
  · rw [runs_runStatus hbody]
    simp [hcheck, hmap]
  · rw [runs_runStatus hbody]
    simp [hworkflow, hmap]
  · simp [hcheck, hworkflow]

/-- **`normalize_event` returns** exactly on a payload with an object at each of its paths, and
with a list of objects for reviewers. -/
theorem runs_normalizeEvent {body : Value} (event action : String) (hbody : body.printable = true) :
    Runs (env.normalizeEvent event action body) ↔ body.isMap = true ∧
      (∀ path ∈ objectPaths event, (follow path body).isMap = true) ∧
      (event = "pull_request" → ListsObjects (reviewersOf body)) := by
  have hpr : (member body "pull_request").printable = true := printable_member hbody
  rw [forall_objectPaths]
  unfold HandlerEnv.normalizeEvent CommonObjects
  by_cases hevent : event = "pull_request"
  · subst hevent
    simp only [runs_bind_object, runs_bind_field, runs_bind_login, if_true]
    constructor
    · rintro ⟨hmap, -, -, hsender, hrepo, howner, -, hpull, -, hhead, -, huser, -, hrest⟩
      have hreviewers := (runs_reviewers fun _ => runs_after_reviewers hpull hpr _).mp hrest
      exact ⟨hmap, ⟨⟨hsender, hrepo, howner, hpull, hhead⟩, fun _ => huser, by simp, by simp, by simp⟩,
        fun _ => hreviewers⟩
    · rintro ⟨hmap, ⟨⟨hsender, hrepo, howner, hpull, hhead⟩, huser, -⟩, hreviewers⟩
      refine ⟨hmap, hmap, hmap, hsender, hrepo, howner, hrepo, hpull, hpull, hhead, hpull,
        huser trivial, hpull, ?_⟩
      exact (runs_reviewers fun _ => runs_after_reviewers hpull hpr _).mpr (hreviewers trivial)
  · by_cases hcomment : event = "issue_comment"
    · subst hcomment
      simp only [runs_bind_object, runs_bind_field, runs_bind_login, if_neg hevent, if_true,
        runs_pure]
      constructor
      · rintro ⟨hmap, -, -, hsender, -, -, hrepo, howner, -, hissue, hpull, -, hhead, hcomment, -,
          huser, -⟩
        exact ⟨hmap, ⟨⟨hsender, hrepo, howner, hpull, hhead⟩, by simp,
          fun _ => ⟨hissue, hcomment, huser⟩, by simp, by simp⟩, by simp⟩
      · rintro ⟨hmap, ⟨⟨hsender, hrepo, howner, hpull, hhead⟩, -, hfields, -⟩, -⟩
        obtain ⟨hissue, hcomment, huser⟩ := hfields trivial
        exact ⟨hmap, hmap, hmap, hsender, hmap, hmap, hrepo, howner, hrepo, hissue, hpull, hpull,
          hhead, hcomment, hcomment, huser, trivial⟩
    · simp only [runs_bind_object, runs_bind_field, runs_bind_login, if_neg hevent,
        if_neg hcomment]
      rw [runs_bind_of_iff (p := True) fun _ _ => iff_true_intro (runs_pure _), and_true]
      constructor
      · rintro ⟨hmap, -, -, hsender, hrepo, howner, -, hpull, -, hhead, hci⟩
        exact ⟨hmap, ⟨⟨hsender, hrepo, howner, hpull, hhead⟩, by simp [hevent],
          by simp [hcomment], (runs_ciStatus hmap hbody).mp hci⟩, by simp [hevent]⟩
      · rintro ⟨hmap, ⟨⟨hsender, hrepo, howner, hpull, hhead⟩, -, -, hci⟩, -⟩
        exact ⟨hmap, hmap, hmap, hsender, hrepo, howner, hrepo, hpull, hpull, hhead,
          (runs_ciStatus hmap hbody).mpr hci⟩

end Normalize

/-! ## `handle` -/

namespace HandlerEnv

section Handle

variable {env : HandlerEnv} {secret event : String} {payload : List UInt8}
  {signature : Option String}

/-- What `json.loads` does on every machine: an integer it returns has at most 4300 digits, and an
empty text is no JSON. -/
structure ReadsJson (env : HandlerEnv) : Prop where
  prints : ∀ payload v, env.loads payload = .ok v → v.printable = true
  empty : env.loads [] = .error .malformed

/-- The handler takes the body for JSON; an empty body counts as one. -/
def WellFormed (env : HandlerEnv) (payload : List UInt8) : Prop :=
  payload = [] ∨ ∃ body, env.loads payload = .ok body

/-- The signature's header is ASCII. -/
def AsciiHeader (signature : Option String) : Prop :=
  (orEmpty signature).toList.all isAscii = true

/-- The request gets one of the four responses, 401 for a well-formed body without its signature,
and a dispatch for 200. -/
structure AnswersRight (env : HandlerEnv) (secret : String) (payload : List UInt8) (event : String)
    (signature : Option String) : Prop where
  answered : ∃ code ∈ [200, 204, 400, 401],
    (env.handle secret payload event signature).reply = .status code
  unauthorized : (env.handle secret payload event signature).reply = .status 401 ↔
    env.WellFormed payload ∧ ¬ env.Signed secret payload signature
  dispatched : (env.handle secret payload event signature).scheduled ≠ [] ↔
    (env.handle secret payload event signature).reply = .status 200

/-- `json.loads` reads the body or reports it, the header is ASCII if there is a body to sign, and
what is signed is a payload of GitHub's shape. -/
structure Answerable (env : HandlerEnv) (secret : String) (payload : List UInt8) (event : String)
    (signature : Option String) : Prop where
  loads : payload ≠ [] → env.loads payload ≠ .error .raised
  header : env.WellFormed payload → AsciiHeader signature
  shape : env.WellFormed payload → env.Signed secret payload signature →
    ∃ body, env.loads payload = .ok body ∧ GitHubShaped event body

/-- On an ASCII header the check says whether the payload is signed. -/
theorem verifyHmac_of_ascii (hascii : AsciiHeader signature) :
    env.verifyHmac secret payload signature = .ok true ∧ env.Signed secret payload signature ∨
      env.verifyHmac secret payload signature = .ok false ∧
        ¬ env.Signed secret payload signature := by
  unfold verifyHmac Signed
  by_cases ht : truthy signature = true
  · obtain ⟨given, rfl, -⟩ := truthy_iff.mp ht
    have hall : (orEmpty (some given)).toList.all isAscii = true := hascii
    simp only [ht, hall, if_true]
    by_cases heq : "sha256=" ++ env.hmac secret payload = given
    · exact .inl ⟨by simp [orEmpty, heq], by rw [heq]⟩
    · refine .inr ⟨by simp [orEmpty, heq], ?_⟩
      intro h
      exact heq (Option.some.inj h).symm
  · refine .inr ⟨if_neg ht, ?_⟩
    rintro rfl
    refine ht (truthy_iff.mpr ⟨_, rfl, ?_⟩)
    intro hempty
    have hlength := congrArg String.length hempty
    simp at hlength

/-- A header that is not ASCII raises. -/
theorem verifyHmac_of_not_ascii (hascii : ¬ AsciiHeader signature) :
    env.verifyHmac secret payload signature = .error .type := by
  have ht : truthy signature = true := by
    cases signature with
    | none => exact absurd rfl hascii
    | some given =>
      refine truthy_iff.mpr ⟨given, rfl, ?_⟩
      rintro rfl
      exact hascii rfl
  unfold verifyHmac
  simp only [ht, if_true]
  exact if_neg hascii

/-- The action's text of a printable payload is read. -/
theorem runs_actionText {body : Value} (hbody : body.printable = true) :
    Runs (env.actionText body) := by
  unfold actionText
  split
  · exact Value.runs_text.mpr (printable_orElse (printable_getD hbody rfl) rfl)
  · exact runs_ok _

/-- Whether an event is acted on is decided exactly where its action is hashable. -/
theorem runs_actionable {body : Value} (hmap : body.isMap = true) :
    Runs (actionable event body) ↔ (event ∈ supportedEvents →
      ((body.getD "action" (.scalar .null)).orElse (.ofText "")).hashable = true) := by
  unfold actionable
  by_cases hevent : event ∈ supportedEvents
  · rw [if_pos (List.contains_iff_mem.mpr hevent), runs_bind_field]
    simp only [hmap, hevent, true_and, true_imp_iff]
    cases (body.getD "action" (.scalar .null)).orElse (.ofText "") with
    | scalar s => exact iff_of_true (runs_pure _) rfl
    | list items => exact iff_of_false (not_runs_error _) Bool.false_ne_true
    | map entries => exact iff_of_false (not_runs_error _) Bool.false_ne_true
  · rw [if_neg fun h => hevent (List.contains_iff_mem.mp h)]
    exact iff_of_true (runs_pure _) (fun h => absurd h hevent)

/-- The body is normalized and its action is looked up exactly if it has the shape of GitHub's. -/
theorem shaped_iff {body : Value} {action : String} (hbody : body.printable = true) :
    GitHubShaped event body ↔
      Runs (env.normalizeEvent event action body) ∧ Runs (actionable event body) := by
  rw [runs_normalizeEvent event action hbody]
  constructor
  · intro h
    exact ⟨⟨h.object, h.objects, h.reviewers⟩, (runs_actionable h.object).mpr h.action⟩
  · rintro ⟨⟨hmap, hobjects, hreviewers⟩, hact⟩
    exact ⟨hmap, hobjects, hreviewers, (runs_actionable hmap).mp hact⟩

/-- What a signed body gets. -/
theorem handle_signed {body : Value} (hne : payload ≠ []) (hloads : env.loads payload = .ok body)
    (hbody : body.printable = true) (hverify : env.verifyHmac secret payload signature = .ok true) :
    (GitHubShaped event body ∧
      (env.handle secret payload event signature = { reply := .status 204 } ∨
        ∃ e, env.handle secret payload event signature =
          { reply := .status 200, scheduled := [e] })) ∨
      (¬ GitHubShaped event body ∧
        env.handle secret payload event signature = { reply := .raised }) := by
  obtain ⟨action, haction⟩ := @runs_actionText env body hbody
  rw [@shaped_iff env event body action hbody]
  cases hnormal : env.normalizeEvent event action body with
  | error e =>
    have hparse : env.parseWebhook secret payload event signature = .error .raised := by
      simp [parseWebhook, hverify, hloads, haction, hnormal, bind, Except.bind]
    refine .inr ⟨fun h => not_runs_error e h.1, ?_⟩
    simp [handle, hne, hloads, hparse]
  | ok e =>
    have hparse : env.parseWebhook secret payload event signature = .ok e := by
      simp [parseWebhook, hverify, hloads, haction, hnormal, bind, Except.bind]
    cases hact : actionable event body with
    | error e' =>
      refine .inr ⟨fun h => not_runs_error e' h.2, ?_⟩
      simp [handle, hne, hloads, hparse, hact]
    | ok supported =>
      refine .inl ⟨⟨runs_ok _, runs_ok _⟩, ?_⟩
      cases supported with
      | true =>
        refine .inr ⟨e, ?_⟩
        simp [handle, hne, hloads, hparse, hact]
      | false =>
        have hmap := ((runs_normalizeEvent event action hbody).mp ⟨e, hnormal⟩).1
        have hfield : field body "action" = .ok (body.getD "action" (.scalar .null)) :=
          field_eq_ok.mpr ⟨hmap, rfl⟩
        refine .inl ?_
        simp [handle, hne, hloads, hparse, hact, hfield]

/-- A well-formed body that `parse_webhook` does not take. -/
theorem handle_wellFormed (hwell : env.WellFormed payload) :
    (env.parseWebhook secret payload event signature = .error .signature →
      env.handle secret payload event signature = { reply := .status 401 }) ∧
    (env.parseWebhook secret payload event signature = .error .raised →
      env.handle secret payload event signature = { reply := .raised }) := by
  have hbody : ∃ body, (if payload = [] then .ok .empty else env.loads payload) = .ok body := by
    by_cases hempty : payload = []
    · exact ⟨.empty, if_pos hempty⟩
    · rw [if_neg hempty]
      exact hwell.resolve_left hempty
  obtain ⟨body, hbody⟩ := hbody
  constructor
  · intro hparse
    simp [handle, hbody, hparse]
  · intro hparse
    simp [handle, hbody, hparse]

/-- A request that raises is not answered right. -/
theorem not_answersRight_of_raised
    (h : env.handle secret payload event signature = { reply := .raised }) :
    ¬ env.AnswersRight secret payload event signature := by
  intro hright
  obtain ⟨code, -, hcode⟩ := hright.answered
  rw [h] at hcode
  cases hcode

/-- A request that gets a status and no dispatch is answered right, 401 where it should be. -/
theorem answersRight_of_status {code : Nat} (hcode : code ∈ [204, 400, 401])
    (hreply : env.handle secret payload event signature = { reply := .status code })
    (hunauthorized : code = 401 ↔ env.WellFormed payload ∧ ¬ env.Signed secret payload signature) :
    env.AnswersRight secret payload event signature := by
  refine ⟨⟨code, List.mem_cons_of_mem 200 hcode, by rw [hreply]⟩, ?_, ?_⟩
  · rw [hreply, ← hunauthorized]
    simp
  · rw [hreply]
    refine iff_of_false (by simp) ?_
    intro h
    cases h
    simp at hcode

/-- A signed request that is dispatched is answered right. -/
theorem answersRight_of_scheduled {e : RawEvent}
    (hreply : env.handle secret payload event signature =
      { reply := .status 200, scheduled := [e] })
    (hsigned : env.Signed secret payload signature) :
    env.AnswersRight secret payload event signature := by
  refine ⟨⟨200, by simp, by rw [hreply]⟩, ?_, ?_⟩
  · rw [hreply]
    exact iff_of_false (by simp) fun h => h.2 hsigned
  · rw [hreply]
    simp

/-- Everything hangs on the shape of what is signed. -/
theorem answersRight_signed (h : env.ReadsJson)
    (hwell : env.WellFormed payload) (hverify : env.verifyHmac secret payload signature = .ok true)
    (hsigned : env.Signed secret payload signature) :
    env.AnswersRight secret payload event signature ↔
      ∃ body, env.loads payload = .ok body ∧ GitHubShaped event body := by
  cases hloads : env.loads payload with
  | error e =>
    -- an empty body is checked as `{}` and parsed as it is
    have hparse : env.parseWebhook secret payload event signature = .error .raised := by
      simp [parseWebhook, hverify, hloads]
    refine iff_of_false (not_answersRight_of_raised ((handle_wellFormed hwell).2 hparse)) ?_
    rintro ⟨body, heq, -⟩
    cases heq
  | ok body =>
    have hne : payload ≠ [] := by
      rintro rfl
      rw [h.empty] at hloads
      cases hloads
    rcases @handle_signed env secret event payload signature body hne hloads
      (h.prints payload body hloads) hverify with ⟨hshape, hreply⟩ | ⟨hshape, hreply⟩
    · refine iff_of_true ?_ ⟨body, rfl, hshape⟩
      rcases hreply with hreply | ⟨e, hreply⟩
      · exact answersRight_of_status (by simp) hreply
          (iff_of_false (by simp) fun h => h.2 hsigned)
      · exact answersRight_of_scheduled hreply hsigned
    · refine iff_of_false (not_answersRight_of_raised hreply) ?_
      rintro ⟨body', heq, hshape'⟩
      cases heq
      exact hshape hshape'

/-- **Every request is answered** exactly under these conditions. -/
theorem answersRight_iff (env : HandlerEnv) (secret : String) (payload : List UInt8)
    (event : String) (signature : Option String) (h : env.ReadsJson) :
    env.AnswersRight secret payload event signature ↔
      env.Answerable secret payload event signature := by
  by_cases hwell : env.WellFormed payload
  · have hnotRaised : payload ≠ [] → env.loads payload ≠ .error .raised := by
      intro hne
      obtain ⟨body, hbody⟩ := hwell.resolve_left hne
      rw [hbody]
      simp
    obtain ⟨h401, hraised⟩ := @handle_wellFormed env secret event payload signature hwell
    by_cases hascii : AsciiHeader signature
    · rcases @verifyHmac_of_ascii env secret payload signature hascii with
        ⟨hverify, hsigned⟩ | ⟨hverify, hsigned⟩
      · rw [answersRight_signed h hwell hverify hsigned]
        constructor
        · exact fun hshape => ⟨hnotRaised, fun _ => hascii, fun _ _ => hshape⟩
        · exact fun ha => ha.shape hwell hsigned
      · have hreply := h401 (by simp [parseWebhook, hverify])
        refine iff_of_true ?_ ⟨hnotRaised, fun _ => hascii, fun _ hs => absurd hs hsigned⟩
        exact answersRight_of_status (by simp) hreply (iff_of_true rfl ⟨hwell, hsigned⟩)
    · have hreply := hraised (by simp [parseWebhook, verifyHmac_of_not_ascii hascii])
      exact iff_of_false (not_answersRight_of_raised hreply) fun ha => hascii (ha.header hwell)
  · have hne : payload ≠ [] := fun hempty => hwell (.inl hempty)
    cases hloads : env.loads payload with
    | ok body => exact absurd (.inr ⟨body, hloads⟩) hwell
    | error e =>
      cases e with
      | malformed =>
        have hreply : env.handle secret payload event signature = { reply := .status 400 } := by
          simp [handle, hne, hloads]
        refine iff_of_true ?_ ⟨?_, fun hw => absurd hw hwell, fun hw => absurd hw hwell⟩
        · exact answersRight_of_status (by simp) hreply
            (iff_of_false (by simp) fun h => hwell h.1)
        · intro _
          rw [hloads]
          simp
      | raised =>
        have hreply : env.handle secret payload event signature = { reply := .raised } := by
          simp [handle, hne, hloads]
        exact iff_of_false (not_answersRight_of_raised hreply) fun ha => ha.loads hne hloads

end Handle

/-- A handler of bodies that are ASCII, with the signatures of two of them under its secret. -/
def plainHandler : HandlerEnv where
  rules := Load.plainRules
  hmac := fun _ payload =>
    if payload = [91, 93] then "53364a07fcc563e712f42cfc9de1e28e1e2d39f236cee430f112203e557aea3f"
    else "77325902caca812dc259733aacd046b73817372c777b8d95b402647474516e13"
  loads := fun payload =>
    if payload.all (· < 128) then
      match plainRunner.json.loads (payload.map fun b => Char.ofNat b.toNat) with
      | .ok v => .ok v
      | .error .malformed => .error .malformed
      | .error _ => .error .raised
    else .error .malformed

/-- The handler of the examples reads JSON. -/
theorem plainHandler_readsJson : plainHandler.ReadsJson where
  prints payload v h := by
    unfold plainHandler at h
    simp only at h
    split at h
    · split at h
      · rename_i hloads
        cases h
        exact Library.JsonRules.printable_of_loads hloads
      · cases h
      · cases h
    · cases h
  empty := by
    rfl

/-- The empty object, signed, is acknowledged. -/
theorem answersRight_iff_ping :
    plainHandler.AnswersRight "secret" [123, 125] "ping"
      (some "sha256=77325902caca812dc259733aacd046b73817372c777b8d95b402647474516e13") := by
  refine (answersRight_iff plainHandler _ _ _ _ plainHandler_readsJson).mpr ?_
  have hloads : plainHandler.loads [123, 125] = .ok .empty := by rfl
  refine ⟨fun _ => ?_, fun _ => ?_, fun _ _ => ⟨.empty, hloads, rfl, ?_, ?_, ?_⟩⟩
  · rw [hloads]
    simp
  · unfold AsciiHeader
    decide +kernel
  · decide
  · simp
  · exact fun h => absurd h (by decide)

/-- A signature outside ASCII raises, and so does a signed empty list. -/
theorem requests_unanswered :
    ¬ plainHandler.AnswersRight "secret" [123, 125] "pull_request" (some "sha256=é") ∧
      ¬ plainHandler.AnswersRight "secret" [91, 93] "pull_request"
        (some "sha256=53364a07fcc563e712f42cfc9de1e28e1e2d39f236cee430f112203e557aea3f") := by
  constructor
  · apply not_answersRight_of_raised
    rfl
  · apply not_answersRight_of_raised
    rfl

end HandlerEnv

end PrReviewer.Model
