import Mathlib.Logic.Function.Basic
import PrReviewer.Library.JsonRoundTrip
import PrReviewer.Model.Domain
import PrReviewer.Model.Text

/-!
# `RunLogger`

The line one call of `log` writes to the stream and to `run.jsonl`. What comes from the fields is
marked in it; the braces, the header and the mask come from the logger. The fields of a call are
nested no deeper than the recursion limit lets `json.dumps` go.
-/

set_option autoImplicit false

namespace PrReviewer.Model

open PrReviewer.Library

/-! ## A call -/

/-- The keyword arguments `fields`: distinct, and none of the parameters. -/
structure LogFields where
  entries : List (String × Value)
  nodup : (entries.map Prod.fst).Nodup
  fresh : ∀ f ∈ entries, f.1 ∉ ["self", "run_id", "phase", "level"]

/-- The arguments of `log`. -/
structure LogCall where
  runId : Option String
  phase : String
  level : String
  fields : LogFields

/-- What the logger runs against. -/
structure LogEnv where
  unicode : Unicode
  json : DumpRules
  /-- `_now_ms()` -/
  nowMs : Nat
  /-- `_stream` is there -/
  stream : Bool
  /-- the method of `log` with the name of the level is there and returns -/
  logs : String → Bool
  /-- `_append` meets no `OSError` -/
  appends : Bool

/-! ## Redaction -/

/-- `_REDACT_KEYS` -/
def redactKeys : List String :=
  ["token", "secret", "password", "authorization", "auth", "key", "api_key", "apikey"]

/-- A value after `_redact`. -/
inductive Redacted
  /-- `"[REDACTED]"` -/
  | masked
  | kept (v : Value)

/-- `RunLogger`, by its `_secrets`. -/
structure RunLogger where
  secrets : List String
  nonempty : ∀ s ∈ secrets, s ≠ ""

namespace RunLogger

/-- `[s for s in (secrets or []) if s]` -/
def new (secrets : Option (List String)) : RunLogger where
  secrets := (secrets.getD []).filter fun s => s ≠ ""
  nonempty := fun s hs => by simpa using (List.mem_filter.mp hs).2

variable (logger : RunLogger)

/-- `isinstance(v, str) and any(s in v for s in self._secrets)` -/
def showsSecret : Value → Bool
  | .scalar (.str text) => logger.secrets.any fun s => hasText s.toList text.toList
  | _ => false

/-- A field is masked, by its value or by its key. -/
def masks (u : Unicode) (k : String) (v : Value) : Bool :=
  logger.showsSecret v || redactKeys.any fun key => u.lower k.toList == key.toList

/-- `_redact` -/
def redact (u : Unicode) (fields : List (String × Value)) : List (String × Redacted) :=
  fields.map fun f => (f.1, if logger.masks u f.1 f.2 then .masked else .kept f.2)

/-! ## The line -/

/-- The keys of `line` before the fields. -/
def headerKeys : List String :=
  ["ts", "runId", "phase", "level"]

end RunLogger

/-- A redacted value, written. -/
def Redacted.write (rules : DumpRules) : Redacted → Marked
  | masked => quoted false "[REDACTED]".toList
  | kept v => v.write rules

/-- `json.dumps` does not raise on a redacted value. -/
def Redacted.serialisable : Redacted → Bool
  | masked => true
  | kept v => v.serialisable

/-- An entry of an object. -/
def writeEntry (key value : Marked) : Marked :=
  key ++ (mark false [':', ' '] ++ value)

/-- An entry of the header: a field of the same name replaces its value, not its key. -/
def headerEntry (rules : DumpRules) (redacted : List (String × Redacted)) (e : String × Marked) :
    Marked :=
  writeEntry (quoted false e.1.toList)
    (match redacted.find? fun f => f.1 = e.1 with
    | some f => f.2.write rules
    | none => e.2)

/-- The entry of a field that has a place of its own. -/
def fieldEntry (rules : DumpRules) (f : String × Redacted) : Marked :=
  writeEntry (quoted true f.1.toList) (f.2.write rules)

namespace RunLogger

variable (logger : RunLogger)

/-- The entries of `line` before the fields. -/
def header (env : LogEnv) (call : LogCall) : List (String × Marked) :=
  [("ts", mark false (toString env.nowMs).toList),
    ("runId",
      match call.runId with
      | some id => quoted false id.toList
      | none => mark false "null".toList),
    ("phase", quoted false call.phase.toList),
    ("level", quoted false call.level.toList)]

/-- `json.dumps(line, ensure_ascii=False)` -/
def line (env : LogEnv) (call : LogCall) : Marked :=
  let redacted := logger.redact env.unicode call.fields.entries
  let entries := (header env call).map (headerEntry env.json redacted) ++
    (redacted.filter fun f => f.1 ∉ headerKeys).map (fieldEntry env.json)
  mark false ['\x7b'] ++ (joined [',', ' '] entries ++ mark false ['\x7d'])

end RunLogger

/-- What a call of `log` writes: nothing where it raises before. -/
structure LogOutcome where
  /-- the line printed to the stream -/
  printed : Option Marked := none
  /-- the line appended to `run.jsonl` -/
  appended : Option Marked := none

/-- `log` -/
def RunLogger.log (logger : RunLogger) (env : LogEnv) (call : LogCall) : LogOutcome :=
  if (logger.redact env.unicode call.fields.entries).all fun f => f.2.serialisable then
    let text := logger.line env call
    if env.stream then
      { printed := some text
        appended := if truthy call.runId && env.appends then some text else none }
    else if env.logs call.level then
      { appended := if truthy call.runId && env.appends then some text else none }
    else {}
  else {}

/-! ## The files -/

/-- The value that is written of a field. -/
def Redacted.value : Redacted → Value
  | masked => .ofText "[REDACTED]"
  | kept v => v

namespace RunLogger

variable (logger : RunLogger)

/-- `line`: the header, and over it the redacted fields. -/
def record (env : LogEnv) (call : LogCall) : List (Scalar × Value) :=
  (logger.redact env.unicode call.fields.entries).foldl
    (fun entries f => assign entries (.str f.1) f.2.value)
    [(.str "ts", .scalar (.int env.nowMs)),
      (.str "runId", (call.runId.map Value.ofText).getD (.scalar .null)),
      (.str "phase", .ofText call.phase),
      (.str "level", .ofText call.level)]

/-- `run.jsonl` under each directory after one call; `path` is the directory of a run. -/
def append {π : Type} [DecidableEq π] (path : String → π) (files : π → List Char)
    (c : LogEnv × LogCall) : π → List Char :=
  match (logger.log c.1 c.2).appended, c.2.runId with
  | some text, some id =>
    Function.update files (path id) (files (path id) ++ (chars text ++ ['\n']))
  | _, _ => files

/-- The files after the calls. -/
def files {π : Type} [DecidableEq π] (path : String → π) (calls : List (LogEnv × LogCall)) :
    π → List Char :=
  calls.foldl (logger.append path) fun _ => []

end RunLogger

end PrReviewer.Model
