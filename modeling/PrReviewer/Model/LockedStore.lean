import PrReviewer.Model.Scheduler

/-!
# `insert_run` on a locked database

`insert_run` and `_retry` with every `sqlite3.OperationalError` the statements may raise. Each
call of `insert_run` makes one attempt, and a call that fails starts `_retry`, which calls
`insert_run` again. A statement that raises leaves the transaction of the connection open, with
what was done before in it.
-/

set_option autoImplicit false

namespace PrReviewer.Model

namespace LockedStore

/-- The statement of an attempt that finds the database locked. -/
inductive Lock
  | free
  /-- the `DELETE` of a comment, before the `try` -/
  | delete
  | insert
  | commit
  deriving DecidableEq, Repr

/-- What a call to the store may raise. -/
inductive StoreError
  /-- `sqlite3.OperationalError` -/
  | operational
  /-- `RuntimeError("state DB locked; retries exhausted")` -/
  | exhausted
  /-- `RecursionError` -/
  | recursion
  deriving DecidableEq, Repr

/-- What an attempt has done. -/
structure Attempt where
  /-- its `INSERT` has added a row: `rowcount == 1` -/
  added : Bool
  /-- its `commit` has succeeded -/
  committed : Bool
  deriving DecidableEq, Repr

/-- The database, and the attempts made so far. -/
structure Db where
  /-- what is committed -/
  committed : RunTable
  /-- what the connection sees, its open transaction included -/
  view : RunTable
  attempts : List Attempt

/-- What the attempts of a call meet. -/
structure Contention where
  /-- `max_retries` -/
  maxRetries : Nat
  /-- where the `k`-th attempt fails -/
  locks : Nat → Lock
  /-- `int(time.time())` at the `k`-th attempt -/
  clock : Nat → Nat

/-- `if job.cause == "comment": DELETE ...` -/
def clearPr (t : RunTable) (job : ReviewJob) : RunTable :=
  match job.cause, job.pr with
  | .comment, some pr => t.deletePr job.owner job.repo pr
  | _, _ => t

/-- `INSERT OR IGNORE INTO review_runs ...`, with `rowcount == 1`. -/
def insertOrIgnore (t : RunTable) (job : ReviewJob) (now : Nat) : RunTable × Bool :=
  match job.pr with
  | none => (t, false)
  | some pr => t.insertRow (RunTable.rowOf job pr now)

/-- `_retry(fn)`, with `left` turns of its loop to go. -/
def retry (fn : Db → Except StoreError Bool × Db) : Nat → Db → Except StoreError Unit × Db
  | 0, db => (.error .exhausted, db)
  | left + 1, db =>
    match fn db with
    | (.ok _, db) => (.ok (), db)
    | (.error .operational, db) => retry fn left db
    | (.error e, db) => (.error e, db)

/-- `insert_run(job)`, where the stack has room for this many nested calls of it. -/
def insertRun (env : Contention) (job : ReviewJob) : Nat → Db → Except StoreError Bool × Db
  | 0, db => (.error .recursion, db)
  | depth + 1, db =>
    let k := db.attempts.length
    if env.locks k = .delete ∧ job.cause = .comment then
      (.error .operational, { db with attempts := db.attempts ++ [⟨false, false⟩] })
    else
      let cleared := clearPr db.view job
      let inserted := insertOrIgnore cleared job (env.clock k)
      match env.locks k with
      | .insert =>
        let r := retry (insertRun env job depth) env.maxRetries
          { db with view := cleared, attempts := db.attempts ++ [⟨false, false⟩] }
        -- `return False`, whatever the nested call has returned
        (r.1.map fun _ => false, r.2)
      | .commit =>
        let r := retry (insertRun env job depth) env.maxRetries
          { db with view := inserted.1, attempts := db.attempts ++ [⟨inserted.2, false⟩] }
        (r.1.map fun _ => false, r.2)
      | _ =>
        (.ok inserted.2, ⟨inserted.1, inserted.1, db.attempts ++ [⟨inserted.2, true⟩]⟩)

/-- A call of `insert_run` on a connection without an open transaction. -/
def call (env : Contention) (depth : Nat) (t : RunTable) (job : ReviewJob) :
    Except StoreError Bool × Db :=
  insertRun env job depth ⟨t, t, []⟩

/-- The rest of `enqueue`, on what `insert_run` returns or raises. -/
def enqueueRest {π : Type} (s : Sched π) (job : ReviewJob) :
    Except StoreError Bool → Except StoreError EnqueueResult × Sched π
  | .ok true =>
    (.ok { runId := job.runId }, (((s.watch job).addQueued job.runId).put job).setWaker)
  | .ok false => (.ok { runId := job.runId, duplicate := true, reason := "dedup" }, s)
  | .error e => (.error e, s)

end LockedStore

end PrReviewer.Model
