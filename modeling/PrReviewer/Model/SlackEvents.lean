import PrReviewer.Model.Trigger

/-!
# `_process_slack_event_payload`

What a Slack payload makes the service do: dispatch a review command, approve a run, or
neither. Messages to Slack are left out.
-/

set_option autoImplicit false

namespace PrReviewer.Model

/-- A Slack payload, as far as the service reads it. -/
inductive SlackPayload
  /-- an `event_callback` with its event's `type` and `text` -/
  | eventCallback (type text : String)
  /-- `block_actions` with the `value` of the first action -/
  | blockActions (value : String)
  | other
  deriving DecidableEq, Repr

/-- What the payload asks for. -/
inductive SlackRequest
  | nothing
  /-- `dispatcher.dispatch(norm_event)` -/
  | dispatch (event : NormalizedEvent)
  /-- `publish_approved_review` of the job of this run, or else of the job given here, with
  the summary of the channel -/
  | approve (run : RunId) (otherwise : ReviewJob) (summary : String)
  deriving DecidableEq, Repr

namespace TriggerDecisionEngine

/-- The review command made of a Slack message. -/
def slackCommand (t : TriggerDecisionEngine) (owner repo : String) (pr : Int) (body : String) :
    NormalizedEvent where
  event := "issue_comment"
  action := "created"
  owner := owner
  repo := repo
  prNumber := some pr
  headSha := some ""
  author := some t.selfAccount
  commentBody := some body

/-- The first enabled repository that the text names. -/
def mentionedRepo (t : TriggerDecisionEngine) (clean : List Char) : Option RepoSpec :=
  let text := t.unicode.lower clean
  t.config.enabledRepos.find? fun r =>
    hasText (t.unicode.lower r.repo.toList) text ||
      hasText (t.unicode.lower (r.owner ++ "/" ++ r.repo).toList) text

/-- A message that names a pull request. -/
def slackMessage (t : TriggerDecisionEngine) (text : String) (clean : List Char) (pr : Int) :
    SlackRequest :=
  let mentioned := t.mentionedRepo clean
  -- several repositories and none named: the user is asked which one
  if mentioned = none ∧ t.config.enabledRepos.length > 1 then .nothing
  else
    let target := mentioned.or t.config.enabledRepos.head?
    let owner := (target.map RepoSpec.owner).getD t.selfAccount
    let repo := (target.map RepoSpec.repo).getD ""
    if hasText "approve".toList (t.unicode.lower text.toList) then
      let run := "slack_" ++ toString pr
      .approve run { owner := owner, repo := repo, pr := some pr, head := some "", runId := run }
        "Approved via Slack Event"
    else .dispatch (t.slackCommand owner repo pr text)

/-- A button: `select_repo_{owner}/{repo}_{pr}` or `approve_{run_id}`. -/
def slackButton (t : TriggerDecisionEngine) (value : String) : SlackRequest :=
  let text := value.toList
  if "select_repo_".toList.isPrefixOf text then
    let rest := removeAll "select_repo_".toList text
    if '_' ∉ rest then .nothing
    else
      -- `rest.rsplit("_", 1)`
      let number := (rest.reverse.takeWhile (· != '_')).reverse
      let fullRepo := rest.take (rest.length - number.length - 1)
      match pyInt t.unicode number with
      | none => .nothing
      | some pr =>
        -- `full_repo.split("/", 1) if "/" in full_repo else (self_account, full_repo)`
        let owner := if '/' ∈ fullRepo then String.ofList (fullRepo.takeWhile (· != '/'))
          else t.selfAccount
        let repo := if '/' ∈ fullRepo then String.ofList ((fullRepo.dropWhile (· != '/')).drop 1)
          else String.ofList fullRepo
        .dispatch (t.slackCommand owner repo pr ("review #" ++ toString pr))
  else if "approve_".toList.isPrefixOf text then
    let run := String.ofList (removeAll "approve_".toList text)
    .approve run { owner := t.selfAccount, repo := "", pr := some 1, head := some "", runId := run }
      "Approved via Slack Button"
  else .nothing

/-- `_process_slack_event_payload` -/
def processSlackEventPayload (t : TriggerDecisionEngine) : SlackPayload → SlackRequest
  | .eventCallback type text =>
    if type = "app_mention" ∨ type = "message" then
      let clean := stripMentions text.toList
      match (firstDigits t.unicode clean).bind (pyInt t.unicode) with
      | none => .nothing
      | some pr => t.slackMessage text clean pr
    else .nothing
  | .blockActions value => t.slackButton value
  | .other => .nothing

end TriggerDecisionEngine

/-- An approval asked for in Slack names the job of its run, and has no head. -/
theorem slack_approve_job {t : TriggerDecisionEngine} {payload : SlackPayload} {run : RunId}
    {job : ReviewJob} {summary : String}
    (h : t.processSlackEventPayload payload = .approve run job summary) :
    job.runId = run ∧ job.head = some "" ∧
      (summary = "Approved via Slack Event" ∨ summary = "Approved via Slack Button") := by
  have hmessage : ∀ text clean pr, t.slackMessage text clean pr = .approve run job summary →
      job.runId = run ∧ job.head = some "" ∧ summary = "Approved via Slack Event" := by
    intro text clean pr hm
    unfold TriggerDecisionEngine.slackMessage at hm
    simp only at hm
    split at hm
    · cases hm
    · split at hm
      · cases hm
        exact ⟨rfl, rfl, rfl⟩
      · cases hm
  have hbutton : ∀ value, t.slackButton value = .approve run job summary →
      job.runId = run ∧ job.head = some "" ∧ summary = "Approved via Slack Button" := by
    intro value hb
    unfold TriggerDecisionEngine.slackButton at hb
    simp only at hb
    split at hb
    · split at hb
      · cases hb
      · split at hb <;> cases hb
    · split at hb
      · cases hb
        exact ⟨rfl, rfl, rfl⟩
      · cases hb
  cases payload with
  | eventCallback type text =>
    unfold TriggerDecisionEngine.processSlackEventPayload at h
    simp only at h
    split at h
    · split at h
      · cases h
      · obtain ⟨hrun, hhead, hsum⟩ := hmessage _ _ _ h
        exact ⟨hrun, hhead, Or.inl hsum⟩
    · cases h
  | blockActions value =>
    obtain ⟨hrun, hhead, hsum⟩ := hbutton value h
    exact ⟨hrun, hhead, Or.inr hsum⟩
  | other => cases h

/-! ## The values of the buttons -/

/-- `f"select_repo_{r.owner}/{r.repo}_{pr_num}"`; a number of more than 4300 digits has no text. -/
def selectValue (owner repo : String) (pr : Nat) : Option String :=
  if (Nat.toDigits 10 pr).length ≤ 4300 then
    some ("select_repo_" ++ owner ++ "/" ++ repo ++ "_" ++ toString pr)
  else none

/-- `f"approve_{run_id}"` of `notify_staged_review`. -/
def approveValue (run : RunId) : String :=
  "approve_" ++ run

end PrReviewer.Model
