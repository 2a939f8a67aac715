import PrReviewer.Model.Domain
import PrReviewer.Model.Text

/-!
# Commands, configuration and the trigger decision

`parse_command` of `filter/command.py`, the part of `Config` the service decides by, and
`TriggerDecisionEngine.decide` of `filter/trigger.py`.
-/

set_option autoImplicit false

namespace PrReviewer.Model

/-! ## `filter/command.py` -/

/-- `@review` at the start of a text. -/
def atReview (text : List Char) : Bool :=
  (afterIgnoreCase "@review".toList text).isSome

/-- `\breview\b` at the start of a text, with the character before it. -/
def wordReview (u : Unicode) (before : Option Char) (text : List Char) : Bool :=
  match afterIgnoreCase "review".toList text with
  | none => false
  | some rest => !(before.any u.isWord) && !(rest.head?.any u.isWord)

/-- `<@[\w-]+>` at the start of a text. -/
def slackMention (u : Unicode) : List Char → Bool
  | '<' :: '@' :: cs =>
    let name := cs.takeWhile fun c => u.isWord c || c == '-'
    !name.isEmpty && (cs.drop name.length).head? == some '>'
  | _ => false

/-- `_HAS_TOKEN_RE.search(body)`, with the character before the text. -/
def hasToken (u : Unicode) : Option Char → List Char → Bool
  | _, [] => false
  | before, c :: cs =>
    atReview (c :: cs) || wordReview u before (c :: cs) || slackMention u (c :: cs) ||
      hasToken u (some c) cs

/-- The characters of a flag after its two hyphens. -/
def flagName (u : Unicode) (text : List Char) : List Char :=
  text.takeWhile fun c => u.isWord c || c == '-'

/-- `_FLAG_RE.findall(body)`; the first argument counts the matched characters still to be
passed. -/
def flags (u : Unicode) : Nat → List Char → List (List Char)
  | _, [] => []
  | n + 1, _ :: cs => flags u n cs
  | 0, c :: cs =>
    match c, cs with
    | '-', '-' :: rest =>
      let name := flagName u rest
      if name.isEmpty then flags u 0 cs
      else ('-' :: '-' :: name) :: flags u (name.length + 1) cs
    | _, _ => flags u 0 cs

/-- `--model\s+(\S+)` at the start of a text. -/
def modelHere (text : List Char) : Option (List Char) :=
  match afterIgnoreCase "--model".toList text with
  | none => none
  | some rest =>
    let value := rest.dropWhile isSpace
    if rest.head?.any isSpace && !value.isEmpty then some (value.takeWhile fun c => !isSpace c)
    else none

/-- `_MODEL_RE.search(body)` -/
def modelOf : List Char → Option (List Char)
  | [] => none
  | c :: cs => (modelHere (c :: cs)).or (modelOf cs)

/-- What `parse_command` does: return `None`, raise `CommandSyntaxError`, or return a command. -/
inductive ParsedCommand
  | none
  | syntaxError
  | command (c : Command)
  deriving DecidableEq, Repr

/-- `parse_command` -/
def parseCommand (u : Unicode) (body : String) : ParsedCommand :=
  let text := body.toList
  if !hasToken u none text then .none
  else if (flags u 0 text).any fun f => f != "--model".toList then .syntaxError
  else .command { kind := "review", model := (modelOf text).map String.ofList }

example : parseCommand .ascii "@review --model go" =
    .command { kind := "review", model := some "go" } := by decide

example : parseCommand .ascii "please review --fast" = .syntaxError := by decide

example : parseCommand .ascii "reviewed" = .none := by decide

/-! ## `config/load.py` -/

/-- `RepoSpec`, as far as the service decides by it. -/
structure RepoSpec where
  owner : String
  repo : String
  enabled : Bool := true
  requireApproval : Bool := false
  autoMerge : Bool := true
  deriving DecidableEq, Repr

/-- `Config`, as far as the trigger, the pipeline and the Slack events decide by it. -/
structure Config where
  repoConfig : List RepoSpec
  denylist : List String := []
  /-- the keys of `providers` -/
  providers : List String
  defaultModel : String := "free"
  diskCapBytes : Int := 10 * 1024 * 1024 * 1024
  deriving DecidableEq, Repr

/-- `is_managed` -/
def Config.isManaged (c : Config) (owner repo : String) : Bool :=
  c.repoConfig.any fun r => r.owner == owner && r.repo == repo && r.enabled

/-- `is_denied` -/
def Config.isDenied (c : Config) (owner repo : String) : Bool :=
  c.denylist.contains (owner ++ "/" ++ repo)

/-- `get_repo_spec` -/
def Config.getRepoSpec (c : Config) (owner repo : String) : Option RepoSpec :=
  c.repoConfig.find? fun r => r.owner == owner && r.repo == repo

/-- `can_auto_merge` -/
def Config.canAutoMerge (c : Config) (owner repo : String) : Bool :=
  match c.getRepoSpec owner repo with
  | some spec => if spec.requireApproval then false else spec.autoMerge
  | none => false

/-- What `validate` asks of these settings: the default model has a provider, some repositories
are listed, and each of them has an owner and a name. -/
def Config.accepted (c : Config) : Bool :=
  c.providers.contains c.defaultModel && !c.repoConfig.isEmpty &&
    c.repoConfig.all fun r => r.owner != "" && r.repo != ""

/-- `[r for r in config.repo_config if r.enabled]` -/
def Config.enabledRepos (c : Config) : List RepoSpec :=
  c.repoConfig.filter RepoSpec.enabled

/-! ## `filter/trigger.py` -/

/-- `TriggerDecisionEngine`, with the Unicode tables `parse_command` works by. -/
structure TriggerDecisionEngine where
  unicode : Unicode
  config : Config
  selfAccount : String

namespace TriggerDecisionEngine

/-- `_decide_inner` on an `issue_comment`. -/
def decideComment (t : TriggerDecisionEngine) (event : NormalizedEvent) : Decision :=
  if t.selfAccount ≠ "" ∧ event.author ≠ some t.selfAccount then
    { action := .skip, reason := "not-self" }
  else
    match parseCommand t.unicode (orEmpty event.commentBody) with
    | .syntaxError => { action := .reply, reason := "malformed-command" }
    | .none => { action := .skip, reason := "not-command" }
    | .command cmd =>
      { action := .reply, owner := event.owner, repo := event.repo, pr := event.prNumber,
        head := event.headSha, model := cmd.model, target := some cmd }

/-- `is_author or is_reviewer` -/
def concernsSelf (t : TriggerDecisionEngine) (event : NormalizedEvent) : Bool :=
  (event.author == some t.selfAccount &&
      ["opened", "ready_for_review", "synchronize"].contains event.action) ||
    (event.action == "review_requested" && event.requestedReviewers.contains t.selfAccount)

/-- `decide` -/
def decide (t : TriggerDecisionEngine) (event : NormalizedEvent) : Decision :=
  if event.event = "issue_comment" then t.decideComment event
  else if (event.event = "check_run" ∨ event.event = "workflow_run") ∧ event.action = "completed" then
    { action := .advanceCi, owner := event.owner, repo := event.repo, pr := event.prNumber,
      head := event.headSha, target := some { kind := "advance-ci" } }
  else if event.event = "pull_request" ∧
      (event.action = "closed" ∨ event.prState = some "closed" ∨ event.prState = some "merged") then
    if event.prState = some "merged" ∨ event.action = "closed" then
      { action := .notifyMerged, owner := event.owner, repo := event.repo, pr := event.prNumber,
        head := event.headSha }
    else { action := .skip, reason := "not-open" }
  else if event.draft ∧ t.selfAccount ≠ "" ∧ event.author ≠ some t.selfAccount then
    { action := .skip, reason := "draft-not-self" }
  else if t.selfAccount ≠ "" ∧ t.concernsSelf event = false then
    { action := .skip, reason := "not-self" }
  else if t.config.isManaged event.owner event.repo = false then
    { action := .skip, reason := "not-managed" }
  else if t.config.isDenied event.owner event.repo then { action := .skip, reason := "denied" }
  else
    { action := .enqueue, owner := event.owner, repo := event.repo, pr := event.prNumber,
      head := event.headSha }

end TriggerDecisionEngine

end PrReviewer.Model
