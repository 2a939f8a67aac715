import PrReviewer.Model.RunLog

/-!
# The log of the service

The two formatters of `LoggingConfigurator`, on records as `logging` makes them, and the filter
on the access log that replaces the records of the health probes by summaries. The text of a
time is a parameter, and so are the texts of bytes, dates and containers under `str` and how far
the recursion limit lets the formatters go into the attributes; the clock of the filter counts in
any unit.
-/

set_option autoImplicit false

namespace PrReviewer.Model

open PrReviewer.Library

/-! ## Records -/

/-- A `LogRecord`, with its `__dict__`. -/
structure LogRecord where
  created : Nat
  levelname : String
  name : String
  /-- `getMessage()`, which raises where the arguments do not fit the format -/
  message : Except PyError String
  attributes : List (String × Value)
  nodup : (attributes.map Prod.fst).Nodup

/-- What the formatters run against. -/
structure FormatEnv where
  unicode : Unicode
  json : DumpRules
  text : TextRules
  /-- how many levels the recursion limit leaves to `json.dumps` inside the dictionary -/
  depth : Nat
  /-- how many of them `default=str` takes on a scalar that JSON does not know -/
  strLevels : Scalar → Nat
  /-- `str` of a value stays within the recursion limit -/
  shallow : Value → Bool
  /-- `strftime('%Y-%m-%d %H:%M:%S IST')` of the time in IST -/
  time : Nat → String

/-- `_LOG_RECORD_BUILTINS` -/
def logRecordBuiltins : List String :=
  ["name", "msg", "args", "levelname", "levelno", "pathname", "filename", "module", "exc_info",
    "exc_text", "stack_info", "lineno", "funcName", "created", "msecs", "relativeCreated",
    "thread", "threadName", "processName", "process", "message"]

/-- `_REDACT_KEYS` -/
def redactParts : List String :=
  ["token", "secret", "password", "authorization", "auth", "key", "api_key", "apikey"]

/-- `_is_redacted` -/
def isRedacted (u : Unicode) (key : String) : Bool :=
  redactParts.any fun part => hasText part.toList (u.lower key.toList)

/-- `k not in _LOG_RECORD_BUILTINS and not k.startswith('_')` -/
def isExtra (key : String) : Bool :=
  !logRecordBuiltins.contains key && key.toList.head? != some '_'

/-! ## `default=str` -/

/-- A scalar that `json.dumps` does not know is replaced by its `str`. -/
def Scalar.orText (rules : TextRules) : Scalar → Scalar
  | .bytes data => .str (rules.bytesText data)
  | .stamp instant => .str (rules.stampText instant)
  | s => s

mutual

/-- A value as `json.dumps(..., default=str)` writes it; the keys stay as they are. -/
def Value.orText (rules : TextRules) : Value → Value
  | .scalar s => .scalar (Scalar.orText rules s)
  | .list items => .list (orTextItems rules items)
  | .map entries => .map (orTextEntries rules entries)

/-- The items, with the text of each that cannot be written. -/
def orTextItems (rules : TextRules) : List Value → List Value
  | [] => []
  | v :: items => Value.orText rules v :: orTextItems rules items

/-- The entries, with the text of each value that cannot be written. -/
def orTextEntries (rules : TextRules) : List (Scalar × Value) → List (Scalar × Value)
  | [] => []
  | (key, v) :: entries => (key, Value.orText rules v) :: orTextEntries rules entries

end

mutual

/-- The levels of recursion that `json.dumps(..., default=str)` takes on a value. -/
def Value.levels (strLevels : Scalar → Nat) : Value → Nat
  | .scalar (.bytes data) => strLevels (.bytes data)
  | .scalar (.stamp instant) => strLevels (.stamp instant)
  | .scalar _ => 0
  | .list items => levelsOfItems strLevels items + 1
  | .map entries => levelsOfEntries strLevels entries + 1

/-- The levels of recursion that writing the items takes. -/
def levelsOfItems (strLevels : Scalar → Nat) : List Value → Nat
  | [] => 0
  | v :: items => max (Value.levels strLevels v) (levelsOfItems strLevels items)

/-- The levels of recursion that writing the entries takes. -/
def levelsOfEntries (strLevels : Scalar → Nat) : List (Scalar × Value) → Nat
  | [] => 0
  | (_, v) :: entries => max (Value.levels strLevels v) (levelsOfEntries strLevels entries)

end

/-- `json.dumps(..., default=str)` raises on a value, or runs out of its recursion limit. -/
def undumpable (env : FormatEnv) (v : Value) : Bool :=
  !(Value.orText env.text v).serialisable || decide (env.depth < Value.levels env.strLevels v)

/-! ## The formatters -/

namespace LogRecord

variable (record : LogRecord)

/-- The attributes the loop goes through to the end, each masked by its key or not. -/
def extras (env : FormatEnv) : List (String × Redacted) :=
  (record.attributes.filter fun a => isExtra a.1).map fun a =>
    (a.1, if isRedacted env.unicode a.1 then .masked else .kept a.2)

/-- `obj`, with what is not JSON replaced. -/
def object (env : FormatEnv) (message : String) : List (Scalar × Value) :=
  (record.extras env).foldl
    (fun obj e => assign obj (.str e.1) (Value.orText env.text e.2.value))
    [(.str "ts", .ofText (env.time record.created)),
      (.str "level", .ofText record.levelname),
      (.str "service", .ofText record.name),
      (.str "event", .ofText message)]

/-- `JsonFormatter.format`; `none` where it raises -/
def formatJson (env : FormatEnv) : Option (List Char) :=
  match record.message with
  | .error _ => none
  | .ok message =>
    if (record.extras env).any fun e => undumpable env e.2.value then none
    else some (chars ((Value.map (record.object env message)).write env.json))

/-- `f"{k}={val}"` -/
def extraText (env : FormatEnv) (e : String × Redacted) : Except PyError String :=
  if env.shallow e.2.value then (e.2.value.text env.text).map fun val => e.1 ++ "=" ++ val
  else .error .recursion

/-- `f"{level:<5}"` -/
def padded (level : String) : String :=
  level ++ String.ofList (List.replicate (5 - level.length) ' ')

/-- `HumanReadableFormatter.format` -/
def formatText (env : FormatEnv) : Except PyError String := do
  let message ← record.message
  let extras ← (record.extras env).mapM (extraText env)
  let extraStr := if extras.isEmpty then "" else " | " ++ " ".intercalate extras
  pure ("[" ++ env.time record.created ++ "] [" ++ padded record.levelname ++ "] [" ++
    record.name ++ "] " ++ message ++ extraStr)

end LogRecord

/-! ## The filter -/

/-- `HealthzFilter` -/
structure HealthzFilter where
  interval : Int
  lastTs : Int
  count : Nat
  deriving DecidableEq, Repr

namespace HealthzFilter

/-- A filter before its first record. -/
def new (interval : Int) : HealthzFilter where
  interval := interval
  lastTs := 0
  count := 0

/-- `'GET /healthz' in record.getMessage()` -/
def isProbe (message : String) : Bool :=
  hasText "GET /healthz".toList message.toList

/-- What a call of `filter` does: the record is kept or not, and a summary is logged or not, with
its `probes_since_last_summary`. -/
structure Verdict where
  kept : Bool
  summary : Option Nat := none
  deriving DecidableEq, Repr

/-- `filter`, at the time `time.monotonic()` gives -/
def filter (f : HealthzFilter) (message : String) (now : Int) : HealthzFilter × Verdict :=
  if isProbe message then
    if now - f.lastTs ≥ f.interval then
      ({ f with lastTs := now, count := 0 }, { kept := false, summary := some (f.count + 1) })
    else ({ f with count := f.count + 1 }, { kept := false })
  else (f, { kept := true })

/-- The filter over the records of the access log, each at its time. -/
def run (f : HealthzFilter) : List (String × Int) → HealthzFilter × List Verdict
  | [] => (f, [])
  | (message, now) :: records =>
    let (next, verdict) := f.filter message now
    let (last, verdicts) := next.run records
    (last, verdict :: verdicts)

end HealthzFilter

end PrReviewer.Model
