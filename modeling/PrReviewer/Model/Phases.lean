import PrReviewer.Library.Sweep
import PrReviewer.Model.AgentProcess
import PrReviewer.Model.Pipeline
import Mathlib.Data.String.Basic

/-!
# The phases beside the agent

`DocsLoader.load` of `docs/loader.py`, `SecurityScanRunner.scan` of `security/scanner.py`,
`ComplianceValidator.to_findings` of `tests/compliance.py`, and `_assemble_findings`, which puts
together what the agent and the last two have found.
-/

set_option autoImplicit false

namespace PrReviewer.Model

open Library

/-! ## `docs/loader.py` -/

/-- What is found when a file is read. -/
inductive FileRead
  | bytes (data : List UInt8)
  /-- reading raises an `OSError` -/
  | failed
  deriving DecidableEq, Repr

/-- The entries of a directory. -/
structure Listing where
  entries : List (String × FileRead)
  nodup : (entries.map Prod.fst).Nodup

/-- The docs folder of a repository. -/
inductive DocsFolder
  /-- it does not exist, or is no directory -/
  | absent
  /-- listing it raises an `OSError` -/
  | unlistable
  | listed (l : Listing)

/-- `Docs` -/
structure Docs where
  files : List String := []
  content : List (String × String) := []
  degraded : Bool := false
  deriving DecidableEq, Repr

/-- What reading a text raises. -/
inductive ReadError
  /-- an `OSError` -/
  | os
  /-- a `UnicodeDecodeError` -/
  | undecodable
  deriving DecidableEq, Repr

/-- `bytes.decode("utf-8")` -/
def decodeUtf8 (data : List UInt8) : Option String :=
  String.fromUTF8? (ByteArray.mk data.toArray)

/-- `read_text(encoding="utf-8")` -/
def FileRead.readText : FileRead → Except ReadError String
  | .failed => .error .os
  | .bytes data =>
    match decodeUtf8 data with
    | some text => .ok (String.ofList (translateNewlines text.toList))
    | none => .error .undecodable

/-- The name matches `*.md`. -/
def isMarkdown (name : String) : Bool :=
  ".md".toList.isSuffixOf name.toList

/-- `sorted(p.name for p in folder.glob("*.md"))`, with the files. -/
def Listing.markdown (l : Listing) : List (String × FileRead) :=
  sortedBy Prod.fst (l.entries.filter fun f => isMarkdown f.1)

/-- One item of `content`. -/
def readEntry (f : String × FileRead) : Except ReadError (String × String) :=
  f.2.readText.map fun text => (f.1, text)

/-- `DocsLoader.load` -/
def DocsFolder.load : DocsFolder → Except ReadError Docs
  | .absent => .ok { degraded := true }
  | .unlistable => .ok { degraded := true }
  | .listed l =>
    match l.markdown.mapM readEntry with
    | .ok content => .ok { files := l.markdown.map Prod.fst, content := content }
    | .error .os => .ok { degraded := true }
    | .error e => .error e

/-! ## `security/scanner.py` -/

/-- How the gitleaks process ends. -/
inductive ToolOutcome
  | ended (o : ChildOutcome)
  /-- starting it raises an `OSError` that is no `FileNotFoundError` -/
  | osError
  deriving DecidableEq, Repr

/-- A `Finding` of the scanner, as far as they differ. -/
structure Secret where
  path : String
  line : Value
  detail : String

/-- The finding of a secret. -/
def Secret.finding (s : Secret) : ParsedFinding where
  path := s.path
  line := s.line
  severity := .high
  title := "Potential secret detected"
  detail := s.detail
  type := "secrets"

/-- `SecReport` -/
structure SecReport where
  secrets : List Secret := []
  incomplete : Bool := false
  skipped : Bool := false

/-- What escapes from `scan`. -/
inductive ScanError
  | read (e : ReadError)
  /-- by `json.loads`, other than a `JSONDecodeError` -/
  | loads (e : JsonError)
  | python (e : PyError)
  deriving DecidableEq, Repr

/-- One item of the report of gitleaks. -/
def parseSecret (rules : TextRules) (item : Value) : Except PyError Secret := do
  let path ← readText rules item "File" ""
  let line ← item.get "StartLine" (.scalar .null)
  let detail ← readText rules item "Description" ""
  return { path, line, detail := String.ofList (detail.toList.take 300) }

/-- `raw if isinstance(raw, list) else []` -/
def listOrEmpty : Value → List Value
  | .list items => items
  | _ => []

namespace AgentEnv

variable (env : AgentEnv)

/-- What `scan` makes of a text on the standard output. -/
def readSecrets (stdout : String) : Except ScanError (List Secret) :=
  if strip stdout.toList = [] then .ok []
  else
    match env.json.loads stdout.toList with
    | .ok raw => ((listOrEmpty raw).mapM (parseSecret env.text)).mapError .python
    | .error .malformed => .ok []
    | .error e => .error (.loads e)

/-- `SecurityScanRunner.scan` -/
def scan : ToolOutcome → Except ScanError SecReport
  | .osError => .error (.read .os)
  | .ended o =>
    match env.subprocessRun o with
    | .error .fileNotFound => .ok { skipped := true }
    | .error .timeoutExpired => .ok { incomplete := true }
    | .error .undecodable => .error (.read .undecodable)
    | .ok proc =>
      if proc.returncode ∉ [0, 1] then .ok { incomplete := true }
      else (env.readSecrets proc.stdout).map fun secrets => { secrets := secrets }

end AgentEnv

/-! ## `tests/compliance.py` -/

/-- `ComplianceReport`, as far as `to_findings` reads it. -/
structure ComplianceReport where
  missingCoverage : List String := []
  violations : List String := []
  deriving DecidableEq, Repr

/-- `to_findings` -/
def ComplianceReport.toFindings (report : ComplianceReport) : List ParsedFinding :=
  report.missingCoverage.map (fun m =>
    { path := m, line := .scalar .null, severity := .medium,
      title := "Changed module lacks a test addition",
      detail := "A module changed in this PR has no corresponding test case added.",
      type := "compliance" }) ++
  report.violations.map fun v =>
    { path := v, line := .scalar .null, severity := .low, title := "Test compliance violation",
      detail := "", type := "compliance" }

/-! ## `_assemble_findings` -/

/-- Everything that has been found, in the order `_assemble_findings` puts it. -/
def allFindings (findings : List ParsedFinding) (sec : SecReport) (report : ComplianceReport) :
    List ParsedFinding :=
  findings ++ sec.secrets.map Secret.finding ++ report.toFindings

/-- `_assemble_findings`, after the scan. -/
def capFindings (findings : List ParsedFinding) (sec : SecReport) (report : ComplianceReport) :
    List ParsedFinding :=
  (allFindings findings sec report).take 100

/-- The pipeline's `assembleFindings` is `_assemble_findings`, in whatever view of a finding. -/
theorem map_capFindings (view : ParsedFinding → Finding) (findings : List ParsedFinding)
    (sec : SecReport) (report : ComplianceReport) :
    (capFindings findings sec report).map view =
      assembleFindings (findings.map view)
        ((sec.secrets.map Secret.finding ++ report.toFindings).map view) := by
  rw [capFindings, assembleFindings, List.map_take, allFindings, List.append_assoc,
    List.map_append]

end PrReviewer.Model
