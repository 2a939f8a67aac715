import PrReviewer.Library.JsonTree
import PrReviewer.Library.Pieces
import PrReviewer.Model.Domain
import PrReviewer.Model.Text

/-!
# The output of the agent

`WorkspaceRunner._parse_result` of `runner/workspace.py`: what the runner makes of the text its
child process has written. The line of a finding is whatever value the text gives it.
-/

set_option autoImplicit false

namespace PrReviewer.Model

open Library

/-- What `_parse_result` uses of Python's library. -/
structure RunnerEnv where
  json : JsonRules
  text : TextRules

/-- What `_parse_result` raises. -/
inductive ParseError
  /-- by `json.loads`, other than a `JSONDecodeError` -/
  | loads (e : JsonError)
  | python (e : PyError)
  deriving DecidableEq, Repr

/-- A `Finding`, as `_parse_result` makes it. -/
structure ParsedFinding where
  path : String
  line : Value
  severity : Severity
  title : String
  detail : String
  type : String

/-- A `ReviewResult`, as `_parse_result` makes it. -/
structure ParsedResult where
  summary : String
  findings : List ParsedFinding := []
  exitCode : Int := 0
  retryable : Bool := false

/-! ## Text -/

/-- `text.lstrip()` -/
def lstrip (text : List Char) : List Char :=
  text.dropWhile isSpace

/-- `text.rstrip()` -/
def rstrip (text : List Char) : List Char :=
  (text.reverse.dropWhile isSpace).reverse

/-- `text.strip()` -/
def strip (text : List Char) : List Char :=
  rstrip (lstrip text)

/-- The backtick. -/
def tick : Char :=
  '\x60'

/-- Three ticks. -/
def fence : List Char :=
  [tick, tick, tick]

/-- Three ticks and the name of the format. -/
def jsonFence : List Char :=
  [tick, tick, tick, 'j', 's', 'o', 'n']

example : (String.ofList fence, String.ofList jsonFence) = ("```", "```json") := by
  decide +kernel

/-- The text `_parse_result` decodes. -/
def cleanOutput (stdout : List Char) : List Char :=
  if hasText jsonFence (strip stdout) then
    strip (firstPiece fence (lastPiece jsonFence (strip stdout)))
  else if hasText fence (strip stdout) then
    strip (firstPiece fence (lastPiece fence (strip stdout)))
  else strip stdout

/-! ## Values -/

/-- `_parse_severity`. No character outside ASCII has a letter of a severity as its lower case. -/
def parseSeverity : Value → Severity
  | .scalar (.str s) =>
    if s.toList.map Char.toLower = Severity.high.value.toList then .high
    else if s.toList.map Char.toLower = Severity.medium.value.toList then .medium
    else .low
  | _ => .low

/-- `str(v.get(key, default))` -/
def readText (rules : TextRules) (v : Value) (key default : String) : Except PyError String := do
  (← v.get key (.ofText default)).text rules

/-- One element of `findings`. -/
def parseFinding (rules : TextRules) (f : Value) : Except PyError ParsedFinding := do
  let path ← readText rules f "path" ""
  let line ← f.get "line" (.scalar .null)
  let severity ← f.get "severity" (.scalar .null)
  let title ← readText rules f "title" ""
  let detail ← readText rules f "detail" ""
  let type ← readText rules f "type" "review"
  return { path, line, severity := parseSeverity severity, title, detail, type }

/-- The summary of a document that has none. -/
def defaultSummary : String :=
  "Automated code review completed."

/-- What `_parse_result` makes of a decoded text. -/
def buildResult (rules : TextRules) (data : Value) : Except PyError ParsedResult := do
  let items ← (← data.get "findings" (.list [])).iterate
  let findings ← items.mapM (parseFinding rules)
  let summary ← readText rules data "summary" defaultSummary
  return { summary, findings }

/-- `stdout.strip() or "Automated code review completed by PR Reviewer Agent."` -/
def fallbackSummary (stdout : List Char) : String :=
  if strip stdout = [] then "Automated code review completed by PR Reviewer Agent."
  else String.ofList (strip stdout)

/-- `WorkspaceRunner._parse_result` -/
def RunnerEnv.parseResult (env : RunnerEnv) (stdout : String) :
    Except ParseError ParsedResult :=
  match env.json.loads (cleanOutput stdout.toList) with
  | .ok data => (buildResult env.text data).mapError .python
  | .error .malformed => .ok { summary := fallbackSummary stdout.toList }
  | .error e => .error (.loads e)

end PrReviewer.Model
