import PrReviewer.Model.AgentOutput

/-!
# The agent's process

`WorkspaceRunner.run` and `WorkspaceRunner.security_step` of `runner/workspace.py`, from the
outcome of the child process on. `run` holds two implementations and chooses between them by
what it finds out about `subprocess.run`.
-/

set_option autoImplicit false

namespace PrReviewer.Model

/-- How the child process ends. -/
inductive ChildOutcome
  /-- with this exit code, negative for a signal, after writing this -/
  | exited (code : Int) (stdout stderr : List UInt8)
  /-- not within the timeout -/
  | timedOut
  /-- it never starts, there is no such binary -/
  | notFound
  deriving DecidableEq, Repr

/-- What the runner uses of Python's library. -/
structure AgentEnv extends RunnerEnv where
  /-- `bytes.decode` with the encoding of the locale; `none` where it raises -/
  decode : List UInt8 → Option (List Char)

/-- What the runner asks about the interpreter before it starts the child. -/
structure Interpreter where
  /-- `hasattr(subprocess.run, "__pytest_wrapped__")` -/
  wrapped : Bool
  /-- `type(subprocess.run).__module__` -/
  runModule : String
  deriving DecidableEq, Repr

/-- CPython: the type of a function is `builtins.function`. -/
def cpython : Interpreter where
  wrapped := false
  runModule := "builtins"

/-- What `subprocess.run` raises. -/
inductive ProcessError
  /-- `TimeoutExpired` -/
  | timeoutExpired
  /-- `FileNotFoundError` -/
  | fileNotFound
  /-- `UnicodeDecodeError` -/
  | undecodable
  deriving DecidableEq, Repr

/-- What escapes from the runner. -/
inductive RunError
  | process (e : ProcessError)
  | parse (e : ParseError)
  deriving DecidableEq, Repr

/-- A `CompletedProcess`. -/
structure CompletedProcess where
  returncode : Int
  stdout : String
  stderr : String
  deriving DecidableEq, Repr

/-- Universal newlines, of a stream that is opened with `text=True`. -/
def translateNewlines : List Char → List Char
  | '\r' :: '\n' :: cs => '\n' :: translateNewlines cs
  | '\r' :: cs => '\n' :: translateNewlines cs
  | c :: cs => c :: translateNewlines cs
  | [] => []

/-- `_is_retryable` -/
def isRetryable (exitCode : Int) : Bool :=
  exitCode ∈ [1, 124]

namespace AgentEnv

variable (env : AgentEnv)

/-- What a text stream makes of these bytes. -/
def readAll (data : List UInt8) : Option String :=
  (env.decode data).map fun cs => String.ofList (translateNewlines cs)

/-- `subprocess.run(..., capture_output=True, text=True, timeout=...)` -/
def subprocessRun : ChildOutcome → Except ProcessError CompletedProcess
  | .exited code stdout stderr =>
    match env.readAll stdout, env.readAll stderr with
    | some out, some err => .ok ⟨code, out, err⟩
    | _, _ => .error .undecodable
  | .timedOut => .error .timeoutExpired
  | .notFound => .error .fileNotFound

/-- The process is run exactly when it exits and both its streams decode. -/
theorem subprocessRun_eq_ok {env : AgentEnv} {o : ChildOutcome} {proc : CompletedProcess} :
    env.subprocessRun o = .ok proc ↔ ∃ stdout stderr,
      o = .exited proc.returncode stdout stderr ∧ env.readAll stdout = some proc.stdout ∧
        env.readAll stderr = some proc.stderr := by
  obtain ⟨code, out, err⟩ := proc
  cases o with
  | exited code' stdout stderr =>
    cases hout : env.readAll stdout <;> cases herr : env.readAll stderr <;>
      simp [subprocessRun, hout, herr, and_assoc]
  | timedOut => simp [subprocessRun]
  | notFound => simp [subprocessRun]

/-- The binary is missing exactly when it was not found. -/
theorem subprocessRun_eq_notFound {env : AgentEnv} {o : ChildOutcome} :
    env.subprocessRun o = .error .fileNotFound ↔ o = .notFound := by
  cases o with
  | exited code stdout stderr =>
    cases hout : env.readAll stdout <;> cases herr : env.readAll stderr <;>
      simp [subprocessRun, hout, herr]
  | timedOut => simp [subprocessRun]
  | notFound => simp [subprocessRun]

/-- A process that exits fails only by its streams. -/
theorem undecodable_of_exited {env : AgentEnv} {code : Int} {stdout stderr : List UInt8}
    {e : ProcessError}
    (h : env.subprocessRun (.exited code stdout stderr) = .error e) : e = .undecodable := by
  cases hout : env.readAll stdout <;> cases herr : env.readAll stderr <;>
    simp [subprocessRun, hout, herr] at h <;> exact h.symm

/-- The result of a child that has ended. -/
def completed (returncode : Int) (stdout : String) : Except RunError ParsedResult :=
  if returncode ≠ 0 then
    .ok { summary := "", exitCode := returncode, retryable := isRetryable returncode }
  else (env.parseResult stdout).mapError .parse

/-- `_exec_sync` of `run`. The reader threads of the second implementation have read `streamed`
when the runner stops waiting for them. -/
def execSync (py : Interpreter) (streamed : String) (o : ChildOutcome) :
    Except RunError ParsedResult :=
  if py.wrapped ∨ py.runModule ≠ "subprocess" then
    match env.subprocessRun o with
    | .ok proc => env.completed proc.returncode proc.stdout
    | .error .fileNotFound => .ok { summary := "", exitCode := 127, retryable := true }
    | .error e => .error (.process e)
  else
    match o with
    | .exited code _ _ => env.completed code streamed
    | .timedOut => .ok { summary := "", exitCode := 124, retryable := true }
    | .notFound => .ok { summary := "", exitCode := 127, retryable := true }

/-- `security_step` -/
def securityStep (o : ChildOutcome) : Except RunError ParsedResult :=
  match env.subprocessRun o with
  | .ok proc => env.completed proc.returncode proc.stdout
  | .error .timeoutExpired => .ok { summary := "", exitCode := 124, retryable := true }
  | .error .fileNotFound => .ok { summary := "", exitCode := 127, retryable := true }
  | .error e => .error (.process e)

end AgentEnv

end PrReviewer.Model
