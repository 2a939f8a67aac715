import PrReviewer.Analysis.SchedulerSteps
import PrReviewer.Model.LockedStore
import Mathlib.Data.Nat.Find

/-!
# What `insert_run` reports of a locked database

`_retry` calls `insert_run`, which catches the error `_retry` waits for, so `_retry` never goes
round its loop: each failing attempt nests one more call, until an attempt succeeds or the stack
is full. What the innermost call returns is dropped on the way out.
-/

set_option autoImplicit false

namespace PrReviewer.Model

namespace LockedStore

variable {env : Contention} {job : ReviewJob}

/-! ## The key -/

/-- A row with the run id of the job, or with its dedup key, stands in the way of the insertion,
or the job has no pull request number. -/
def KeyTaken (t : RunTable) (job : ReviewJob) : Prop :=
  ∀ pr, job.pr = some pr → job.runId ∈ (clearPr t job).rows.map Row.runId ∨
    (clearPr t job).clashes (RunTable.rowOf job pr 0) = true

/-- Where the key is taken nothing is inserted. -/
theorem insertOrIgnore_of_taken {t : RunTable} (h : KeyTaken t job) (now : Nat) :
    insertOrIgnore (clearPr t job) job now = (clearPr t job, false) := by
  unfold insertOrIgnore
  cases hpr : job.pr with
  | none => rfl
  | some pr =>
    have hclash := h pr hpr
    rcases RunTable.insertRow_cases (clearPr t job) (RunTable.rowOf job pr now) with
      ⟨-, -, hid, hkey⟩ | ⟨hb, hrows, -⟩
    · rcases hclash with hclash | hclash
      · exact absurd hclash hid
      · change (clearPr t job).clashes (RunTable.rowOf job pr now) = true at hclash
        rw [hkey] at hclash
        cases hclash
    · exact Prod.ext hrows hb

/-- Where the key is free the row is inserted. -/
theorem insertOrIgnore_of_not_taken {t : RunTable} (h : ¬ KeyTaken t job) (now : Nat) :
    (insertOrIgnore (clearPr t job) job now).2 = true := by
  unfold KeyTaken at h
  simp only [not_forall, not_or] at h
  obtain ⟨pr, hpr, hid, hkey⟩ := h
  unfold insertOrIgnore
  rw [hpr]
  rcases RunTable.insertRow_cases (clearPr t job) (RunTable.rowOf job pr now) with
    ⟨hb, -⟩ | ⟨-, -, hclash⟩
  · exact hb
  · rcases hclash with hclash | hclash
    · exact absurd hclash hid
    · exact absurd hclash hkey

/-- What has been deleted once is gone. -/
theorem clearPr_clearPr (t : RunTable) (job : ReviewJob) :
    clearPr (clearPr t job) job = clearPr t job := by
  unfold clearPr
  cases job.cause with
  | webhook => rfl
  | comment =>
    cases job.pr with
    | none => rfl
    | some pr =>
      apply RunTable.ext
      show List.filter _ (List.filter _ _) = List.filter _ _
      rw [List.filter_filter]
      simp

/-- The key is taken after the rows have been cleared exactly when it was before. -/
theorem keyTaken_clearPr (t : RunTable) (job : ReviewJob) :
    KeyTaken (clearPr t job) job ↔ KeyTaken t job := by
  unfold KeyTaken
  rw [clearPr_clearPr]

/-! ## Without contention -/

/-- Clearing the rows and inserting is `insert_run`. -/
theorem insertOrIgnore_clearPr (t : RunTable) (job : ReviewJob) (now : Nat) :
    insertOrIgnore (clearPr t job) job now = t.insertRun job now := by
  unfold insertOrIgnore clearPr RunTable.insertRun
  cases job.pr with
  | none => cases job.cause <;> rfl
  | some pr => cases job.cause <;> rfl

/-- A free database stores what `RunTable.insertRun` stores, and says so. -/
theorem call_free {t : RunTable} (hfree : env.locks 0 = .free) (depth : Nat) :
    (call env (depth + 1) t job).1 = .ok (t.insertRun job (env.clock 0)).2 ∧
      (call env (depth + 1) t job).2.committed = (t.insertRun job (env.clock 0)).1 ∧
      (call env (depth + 1) t job).2.view = (t.insertRun job (env.clock 0)).1 := by
  unfold call insertRun
  simp only [List.length_nil, hfree, reduceCtorEq, false_and, if_false, insertOrIgnore_clearPr]
  exact ⟨trivial, trivial, trivial⟩

/-- **`enqueue` on a free database** is the one of the scheduler. -/
theorem enqueue_eq_enqueueRest {π : Type} (s : Sched π) (r : RunId) (d : Decision) (cause : Cause)
    {owner repo : String} (howner : d.owner = some owner) (hrepo : d.repo = some repo)
    (hfree : env.locks 0 = .free) (hclock : env.clock 0 = s.now) (depth : Nat) :
    let job := Sched.jobOf r d owner repo cause
    let stored := call env (depth + 1) s.table job
    let rest := enqueueRest { s with issued := r :: s.issued, table := stored.2.view } job stored.1
    (s.enqueue r d cause).1 = rest.2 ∧ rest.1 = .ok (s.enqueueResult r d cause) := by
  obtain ⟨hresult, -, hview⟩ :=
    @call_free env (Sched.jobOf r d owner repo cause) s.table hfree depth
  rw [hclock] at hresult hview
  simp only [hresult, hview]
  unfold Sched.enqueue Sched.enqueueResult
  simp only [howner, hrepo]
  generalize s.table.insertRun (Sched.jobOf r d owner repo cause) s.now = stored
  obtain ⟨table, inserted⟩ := stored
  cases inserted with
  | true => exact ⟨rfl, rfl⟩
  | false => exact ⟨rfl, rfl⟩

/-! ## The nested calls -/

/-- An attempt that is not free fails at the `INSERT` or at the commit. -/
def Fails (env : Contention) (k : Nat) : Prop :=
  env.locks k ≠ .free

/-- A function that does not raise `OperationalError` is called once. -/
theorem retry_once {fn : Db → Except StoreError Bool × Db} {left : Nat} {db : Db}
    (hleft : 0 < left) (h : (fn db).1 ≠ .error .operational) :
    retry fn left db = ((fn db).1.map fun _ => (), (fn db).2) := by
  obtain ⟨left, rfl⟩ := Nat.exists_eq_succ_of_ne_zero (Nat.pos_iff_ne_zero.mp hleft)
  unfold retry
  generalize fn db = r at h
  obtain ⟨result, db'⟩ := r
  cases result with
  | ok b => rfl
  | error e =>
    cases e with
    | operational => exact absurd rfl h
    | exhausted => rfl
    | recursion => rfl

/-- A failing attempt, and the state the nested call starts in. -/
theorem insertRun_fails (hlocks : ∀ k, env.locks k ≠ .delete) {depth : Nat} {db : Db}
    (hfails : Fails env db.attempts.length) :
    ∃ (a : Attempt) (view : RunTable), a.committed = false ∧
      (KeyTaken db.view job → a.added = false ∧ KeyTaken view job) ∧
      (¬ KeyTaken db.view job → a.added = true ∨ ¬ KeyTaken view job) ∧
      insertRun env job (depth + 1) db =
        let r := retry (insertRun env job depth) env.maxRetries
          { db with view := view, attempts := db.attempts ++ [a] }
        (r.1.map fun _ => false, r.2) := by
  cases hlock : env.locks db.attempts.length with
  | free => exact absurd hlock hfails
  | delete => exact absurd hlock (hlocks _)
  | insert =>
    refine ⟨⟨false, false⟩, clearPr db.view job, rfl, ?_, ?_, ?_⟩
    · exact fun htaken => ⟨rfl, (keyTaken_clearPr _ _).mpr htaken⟩
    · exact fun hfree => Or.inr (mt (keyTaken_clearPr _ _).mp hfree)
    · unfold insertRun
      simp only [hlock, reduceCtorEq, false_and, if_false]
  | commit =>
    refine ⟨⟨(insertOrIgnore (clearPr db.view job) job (env.clock db.attempts.length)).2, false⟩,
      (insertOrIgnore (clearPr db.view job) job (env.clock db.attempts.length)).1, rfl, ?_, ?_, ?_⟩
    · intro htaken
      rw [insertOrIgnore_of_taken htaken]
      exact ⟨rfl, (keyTaken_clearPr _ _).mpr htaken⟩
    · exact fun hfree => Or.inl (insertOrIgnore_of_not_taken hfree _)
    · unfold insertRun
      simp only [hlock, reduceCtorEq, false_and, if_false]

/-- Without a lock the call inserts once and reports what it did. -/
theorem insertRun_free {depth : Nat} {db : Db} (hfree : env.locks db.attempts.length = .free) :
    ∃ (added : Bool) (view : RunTable), (added = true ↔ ¬ KeyTaken db.view job) ∧
      insertRun env job (depth + 1) db =
        (.ok added, ⟨view, view, db.attempts ++ [⟨added, true⟩]⟩) := by
  refine ⟨(insertOrIgnore (clearPr db.view job) job (env.clock db.attempts.length)).2,
    (insertOrIgnore (clearPr db.view job) job (env.clock db.attempts.length)).1, ?_, ?_⟩
  · constructor
    · intro hadded htaken
      rw [insertOrIgnore_of_taken htaken] at hadded
      cases hadded
    · exact fun hfree => insertOrIgnore_of_not_taken hfree _
  · unfold insertRun
    simp only [hfree, reduceCtorEq, false_and, if_false]

/-- The retries never end with a lock's error. -/
theorem retry_ne_operational (fn : Db → Except StoreError Bool × Db) (left : Nat) (db : Db) :
    (retry fn left db).1 ≠ .error .operational := by
  induction left generalizing db with
  | zero => simp [retry]
  | succ left ih =>
    unfold retry
    generalize fn db = r
    obtain ⟨result, db'⟩ := r
    cases result with
    | ok b => simp
    | error e =>
      cases e with
      | operational => exact ih db'
      | exhausted => simp
      | recursion => simp

/-- The errors of the attempts are all caught inside. -/
theorem insertRun_ne_operational (hlocks : ∀ k, env.locks k ≠ .delete) (depth : Nat) (db : Db) :
    (insertRun env job depth db).1 ≠ .error .operational := by
  cases depth with
  | zero => simp [insertRun]
  | succ depth =>
    by_cases hfree : env.locks db.attempts.length = .free
    · obtain ⟨added, view, -, heq⟩ := @insertRun_free env job depth db hfree
      rw [heq]
      simp
    · obtain ⟨a, view, -, -, -, heq⟩ := @insertRun_fails env job hlocks depth db hfree
      rw [heq]
      have hretry := retry_ne_operational (insertRun env job depth) env.maxRetries
        { db with view := view, attempts := db.attempts ++ [a] }
      revert hretry
      generalize retry (insertRun env job depth) env.maxRetries
        { db with view := view, attempts := db.attempts ++ [a] } = r
      obtain ⟨result, db'⟩ := r
      cases result with
      | ok b => simp [Except.map]
      | error e => simp [Except.map]

/-- A failing attempt nests one call, and its result is dropped. -/
theorem insertRun_nested (hlocks : ∀ k, env.locks k ≠ .delete) (hretries : 0 < env.maxRetries)
    {depth : Nat} {db : Db} (hfails : Fails env db.attempts.length) :
    ∃ (a : Attempt) (view : RunTable), a.committed = false ∧
      (KeyTaken db.view job → a.added = false ∧ KeyTaken view job) ∧
      (¬ KeyTaken db.view job → a.added = true ∨ ¬ KeyTaken view job) ∧
      insertRun env job (depth + 1) db =
        let r := insertRun env job depth { db with view := view, attempts := db.attempts ++ [a] }
        (r.1.map fun _ => false, r.2) := by
  obtain ⟨a, view, ha, htaken, hfree, heq⟩ := @insertRun_fails env job hlocks depth db hfails
  refine ⟨a, view, ha, htaken, hfree, ?_⟩
  rw [heq, retry_once hretries (insertRun_ne_operational hlocks depth _)]
  generalize insertRun env job depth { db with view := view, attempts := db.attempts ++ [a] } = r
  obtain ⟨result, db'⟩ := r
  cases result <;> rfl

/-- After one attempt, the failures to come are one fewer. -/
theorem fails_after {k : Nat} {db : Db} {a : Attempt} {view : RunTable}
    (hfails : ∀ i < k + 1, Fails env (db.attempts.length + i)) :
    ∀ i < k, Fails env
      (({ db with view := view, attempts := db.attempts ++ [a] } : Db).attempts.length + i) := by
  intro i hi
  have hi' := hfails (i + 1) (by omega)
  have hlength : (db.attempts ++ [a]).length = db.attempts.length + 1 := by simp
  simp only [hlength]
  rwa [Nat.add_assoc, Nat.add_comm 1 i]

/-- **A call whose first `k` attempts fail** and whose next one does not. -/
theorem insertRun_after (hlocks : ∀ k, env.locks k ≠ .delete) (hretries : 0 < env.maxRetries)
    {k depth : Nat} {db : Db} (hk : k < depth) (hfails : ∀ i < k, Fails env (db.attempts.length + i))
    (hfree : env.locks (db.attempts.length + k) = .free) :
    ∃ (fails : List Attempt) (added : Bool),
      (insertRun env job depth db).1 = .ok (if k = 0 then added else false) ∧
      (insertRun env job depth db).2.attempts = db.attempts ++ fails ++ [⟨added, true⟩] ∧
      fails.length = k ∧ (∀ a ∈ fails, a.committed = false) ∧
      ((∃ a ∈ fails ++ [⟨added, true⟩], a.added = true) ↔ ¬ KeyTaken db.view job) := by
  induction depth generalizing k db with
  | zero => omega
  | succ depth ih =>
    cases k with
    | zero =>
      obtain ⟨added, view, hadded, heq⟩ := @insertRun_free env job depth db hfree
      refine ⟨[], added, by rw [heq]; rfl, by rw [heq, List.append_nil], rfl, by simp, ?_⟩
      simpa using hadded
    | succ k =>
      obtain ⟨a, view, ha, htaken, hnot, heq⟩ :=
        @insertRun_nested env job hlocks hretries depth db (hfails 0 (by omega))
      have hlength : (db.attempts ++ [a]).length = db.attempts.length + 1 := by simp
      obtain ⟨fails, added, hresult, hattempts, hcount, hun, hadd⟩ :=
        @ih k { db with view := view, attempts := db.attempts ++ [a] } (by omega)
          (fails_after hfails)
          (by
            simp only [hlength]
            rwa [Nat.add_assoc, Nat.add_comm 1 k])
      refine ⟨a :: fails, added, ?_, ?_, by simp [hcount], ?_, ?_⟩
      · rw [heq]
        simp only [hresult]
        rfl
      · rw [heq]
        simp only [hattempts]
        simp
      · intro b hb
        rcases List.mem_cons.mp hb with rfl | hb
        · exact ha
        · exact hun b hb
      · rw [List.cons_append, List.exists_mem_cons_iff, hadd]
        by_cases hkey : KeyTaken db.view job
        · obtain ⟨hno, hview⟩ := htaken hkey
          simp [hkey, hview, hno]
        · rcases hnot hkey with hyes | hview
          · simp [hkey, hyes]
          · simp [hkey, hview]

/-- **A call all of whose attempts fail** ends when the stack is full. -/
theorem insertRun_exhausts (hlocks : ∀ k, env.locks k ≠ .delete) (hretries : 0 < env.maxRetries)
    {depth : Nat} {db : Db} (hfails : ∀ i < depth, Fails env (db.attempts.length + i)) :
    (insertRun env job depth db).1 = .error .recursion ∧
      ∃ fails : List Attempt, (insertRun env job depth db).2.attempts = db.attempts ++ fails ∧
        fails.length = depth ∧ ∀ a ∈ fails, a.committed = false := by
  induction depth generalizing db with
  | zero => exact ⟨rfl, [], by simp [insertRun], rfl, by simp⟩
  | succ depth ih =>
    obtain ⟨a, view, ha, -, -, heq⟩ :=
      @insertRun_nested env job hlocks hretries depth db (hfails 0 (by omega))
    obtain ⟨hresult, fails, hattempts, hcount, hun⟩ :=
      @ih { db with view := view, attempts := db.attempts ++ [a] } (fails_after hfails)
    refine ⟨?_, a :: fails, ?_, by simp [hcount], ?_⟩
    · rw [heq]
      simp only [hresult]
      rfl
    · rw [heq]
      simp only [hattempts]
      simp
    · intro b hb
      rcases List.mem_cons.mp hb with rfl | hb
      · exact ha
      · exact hun b hb

/-! ## What is reported -/

/-- The call has stored the row of its job: one of its attempts has added it, and one has
committed. -/
def Stored (attempts : List Attempt) : Prop :=
  (∃ a ∈ attempts, a.added = true) ∧ ∃ a ∈ attempts, a.committed = true

/-- The run has a watcher and an entry in the queue, and `enqueue` does not call it a duplicate. -/
structure TakenUp {π : Type} (job : ReviewJob)
    (r : Except StoreError EnqueueResult × Sched π) : Prop where
  result : r.1 = .ok { runId := job.runId }
  watched : { job := job } ∈ r.2.watchers
  queued : job ∈ r.2.queue

/-- What `insert_run` and `enqueue` promise, with `n` retries. -/
structure Reports (n : Nat) (t : RunTable) (job : ReviewJob) (r : Except StoreError Bool × Db) :
    Prop where
  attempts : r.2.attempts.length ≤ n + 1
  inserted : r.1 = .ok true ↔ Stored r.2.attempts
  taken : r.1 = .ok false → KeyTaken t job ∧ ∀ a ∈ r.2.attempts, a.added = false
  failed : (∀ a ∈ r.2.attempts, a.committed = false) → ∃ e, r.1 = .error e
  enqueued : Stored r.2.attempts →
    ∀ {π : Type} (s : Sched π), TakenUp job (enqueueRest s job r.1)

/-- A run reported as inserted is taken up. -/
theorem takenUp_of_inserted {π : Type} (s : Sched π) (job : ReviewJob) :
    TakenUp job (enqueueRest s job (.ok true)) :=
  ⟨rfl, List.mem_append_right _ (List.mem_singleton_self _),
    List.mem_append_right _ (List.mem_singleton_self _)⟩

/-- A call that raises, and whose attempts have committed nothing. -/
theorem reports_of_error {n : Nat} {t : RunTable} {r : Except StoreError Bool × Db} {e : StoreError}
    (hr : r.1 = .error e) (hun : ∀ a ∈ r.2.attempts, a.committed = false) :
    Reports n t job r ↔ r.2.attempts.length ≤ n + 1 := by
  have hnot : ¬ Stored r.2.attempts := by
    rintro ⟨-, a, ha, hcommitted⟩
    rw [hun a ha] at hcommitted
    cases hcommitted
  constructor
  · exact fun h => h.attempts
  · intro hlength
    refine ⟨hlength, ?_, ?_, fun _ => ⟨e, hr⟩, fun h => absurd h hnot⟩
    · rw [hr]
      simp [hnot]
    · rw [hr]
      simp

/-- A call that returns after an attempt that has committed. -/
theorem reports_of_returned {n : Nat} {t : RunTable} {r : Except StoreError Bool × Db} {b : Bool}
    (hr : r.1 = .ok b) (hcommitted : ∃ a ∈ r.2.attempts, a.committed = true)
    (hadded : (∃ a ∈ r.2.attempts, a.added = true) ↔ ¬ KeyTaken t job) :
    Reports n t job r ↔ r.2.attempts.length ≤ n + 1 ∧ (b = true ↔ ¬ KeyTaken t job) := by
  have hstored : Stored r.2.attempts ↔ ¬ KeyTaken t job := by
    unfold Stored
    rw [hadded]
    exact and_iff_left hcommitted
  constructor
  · intro h
    refine ⟨h.attempts, ?_⟩
    rw [← hstored, ← h.inserted, hr]
    simp
  · rintro ⟨hlength, hb⟩
    refine ⟨hlength, ?_, ?_, ?_, ?_⟩
    · rw [hr, hstored, ← hb]
      simp
    · intro hfalse
      rw [hr] at hfalse
      cases hfalse
      have htaken : KeyTaken t job := by
        by_contra hfree
        cases hb.mpr hfree
      refine ⟨htaken, ?_⟩
      intro a ha
      by_contra hyes
      exact hadded.mp ⟨a, ha, Bool.not_eq_false _ ▸ hyes⟩ htaken
    · intro hun
      obtain ⟨a, ha, hyes⟩ := hcommitted
      rw [hun a ha] at hyes
      cases hyes
    · intro hyes π s
      rw [hr, hb.mpr (hstored.mp hyes)]
      exact takenUp_of_inserted s job

/-- The first attempt does not fail, or is the only one; or the key is taken and some attempt
succeeds within the limit; or all attempts fail until the stack is full, within the limit. -/
def Harmless (env : Contention) (depth : Nat) (t : RunTable) (job : ReviewJob) : Prop :=
  env.locks 0 = .free ∨ env.maxRetries = 0 ∨
    KeyTaken t job ∧ (∃ k ≤ env.maxRetries, k < depth ∧ (∀ i < k, Fails env i) ∧
      env.locks k = .free) ∨
    (∀ i < depth, Fails env i) ∧ depth ≤ env.maxRetries + 1

/-- Without retries the first attempt is the only one. -/
theorem reports_of_no_retries (hlocks : ∀ k, env.locks k ≠ .delete) (hretries : env.maxRetries = 0)
    (depth : Nat) (t : RunTable) : Reports env.maxRetries t job (call env depth t job) := by
  unfold call
  cases depth with
  | zero => exact (reports_of_error rfl (by simp [insertRun])).mpr (Nat.zero_le _)
  | succ depth =>
    by_cases hfree : env.locks 0 = .free
    · obtain ⟨added, view, hadded, heq⟩ := @insertRun_free env job depth ⟨t, t, []⟩ hfree
      rw [heq]
      refine (reports_of_returned rfl ⟨⟨added, true⟩, by simp, rfl⟩ ?_).mpr ⟨by simp, hadded⟩
      simpa using hadded
    · obtain ⟨a, view, ha, -, -, heq⟩ := @insertRun_fails env job hlocks depth ⟨t, t, []⟩ hfree
      rw [heq, hretries]
      refine (reports_of_error rfl ?_).mpr (by simp [retry])
      simpa [retry] using ha

/-- A call whose first `k` attempts fail. -/
theorem reports_after (hlocks : ∀ k, env.locks k ≠ .delete) (hretries : 0 < env.maxRetries)
    {k depth : Nat} (hk : k < depth) (hfails : ∀ i < k, Fails env i) (hfree : env.locks k = .free)
    (t : RunTable) :
    Reports env.maxRetries t job (call env depth t job) ↔
      k = 0 ∨ k ≤ env.maxRetries ∧ KeyTaken t job := by
  obtain ⟨fails, added, hresult, hattempts, hcount, hun, hadded⟩ :=
    @insertRun_after env job hlocks hretries k depth ⟨t, t, []⟩ hk
      (by simpa using hfails) (by simpa using hfree)
  change (call env depth t job).1 = _ at hresult
  change (call env depth t job).2.attempts = fails ++ _ at hattempts
  have hcommitted : ∃ a ∈ (call env depth t job).2.attempts, a.committed = true := by
    refine ⟨⟨added, true⟩, ?_, rfl⟩
    rw [hattempts]
    simp
  have hlength : (call env depth t job).2.attempts.length = k + 1 := by
    rw [hattempts, List.length_append, hcount, List.length_singleton]
  rw [← hattempts] at hadded
  rw [reports_of_returned hresult hcommitted hadded, hlength]
  rw [hattempts] at hadded
  by_cases hzero : k = 0
  · subst hzero
    have hnil : fails = [] := List.length_eq_zero_iff.mp hcount
    rw [hnil] at hadded
    simpa using hadded
  · simp only [hzero, if_false, false_or, Bool.false_eq_true, false_iff, not_not]
    exact and_congr_left fun _ => by omega

/-- **`insert_run` keeps its word exactly if the contention is harmless.** -/
theorem insertRun_reports_iff (env : Contention) (hlocks : ∀ k, env.locks k ≠ .delete)
    (depth : Nat) (t : RunTable) (job : ReviewJob) :
    Reports env.maxRetries t job (call env depth t job) ↔ Harmless env depth t job := by
  unfold Harmless
  rcases Nat.eq_zero_or_pos env.maxRetries with hzero | hretries
  · exact iff_of_true (reports_of_no_retries hlocks hzero depth t) (Or.inr (Or.inl hzero))
  · have hne : env.maxRetries ≠ 0 := by omega
    by_cases hex : ∃ k, k < depth ∧ env.locks k = .free
    · -- the first attempt that does not fail
      obtain ⟨hk, hfree⟩ := Nat.find_spec hex
      have hfails : ∀ i < Nat.find hex, Fails env i := by
        intro i hi hfree'
        exact Nat.find_min hex hi ⟨by omega, hfree'⟩
      generalize Nat.find hex = k at hk hfree hfails
      rw [reports_after hlocks hretries hk hfails hfree t]
      constructor
      · rintro (rfl | ⟨hle, htaken⟩)
        · exact Or.inl hfree
        · exact Or.inr (Or.inr (Or.inl ⟨htaken, k, hle, hk, hfails, hfree⟩))
      · rintro (hfirst | hzero | ⟨htaken, k', hle, -, -, hfree'⟩ | ⟨hall, -⟩)
        · refine Or.inl ?_
          by_contra hpos
          exact hfails 0 (Nat.pos_of_ne_zero hpos) hfirst
        · exact absurd hzero hne
        · refine Or.inr ⟨?_, htaken⟩
          by_contra hlt
          exact hfails k' (by omega) hfree'
        · exact absurd hfree (hall k hk)
    · have hall : ∀ i < depth, Fails env i := fun i hi hfree => hex ⟨i, hi, hfree⟩
      obtain ⟨hresult, fails, hattempts, hcount, hun⟩ :=
        @insertRun_exhausts env job hlocks hretries depth ⟨t, t, []⟩ (by simpa using hall)
      change (call env depth t job).1 = _ at hresult
      change (call env depth t job).2.attempts = fails at hattempts
      rw [← hattempts] at hcount hun
      rw [reports_of_error hresult hun, hcount]
      constructor
      · exact fun hle => Or.inr (Or.inr (Or.inr ⟨hall, hle⟩))
      · rintro (hfirst | hzero | ⟨-, k, -, hk, -, hfree⟩ | ⟨-, hle⟩)
        · rcases Nat.eq_zero_or_pos depth with hd | hd
          · omega
          · exact absurd hfirst (hall 0 hd)
        · exact absurd hzero hne
        · exact absurd hfree (hall k hk)
        · exact hle

/-- The first `INSERT` finds the database locked, the next one does not. -/
def lockedOnce : Contention where
  maxRetries := 3
  locks := fun k => if k = 0 then .insert else .free
  clock := fun _ => 0

/-- The job of the example. -/
def lockedJob : ReviewJob where
  owner := "acme"
  repo := "app"
  pr := some 1
  head := some "abc123"
  model := none
  runId := "r1"
  cause := .webhook

/-- The two sides where the database is locked once. -/
theorem insertRun_reports_iff_locked :
    Reports 3 .empty lockedJob (call lockedOnce 10 .empty lockedJob) ↔
      Harmless lockedOnce 10 .empty lockedJob := by
  refine insertRun_reports_iff lockedOnce ?_ 10 .empty lockedJob
  intro k
  unfold lockedOnce
  simp only
  split <;> simp

/-- **A row that is stored and reported as a duplicate.** -/
theorem locked_insert_lost :
    (call lockedOnce 10 .empty lockedJob).1.toOption = some false ∧
      (call lockedOnce 10 .empty lockedJob).2.committed.statusOf "r1" = some .pendingCi ∧
      ¬ ∀ (env : Contention) (depth : Nat) (t : RunTable) (job : ReviewJob),
        (∀ k, env.locks k ≠ .delete) → Reports env.maxRetries t job (call env depth t job) := by
  have hadded : (call lockedOnce 10 .empty lockedJob).2.attempts = [⟨false, false⟩, ⟨true, true⟩] := by
    decide
  refine ⟨by decide, by decide, ?_⟩
  intro hall
  have hreports := hall lockedOnce 10 .empty lockedJob (by
    intro k
    unfold lockedOnce
    simp only
    split <;> simp)
  have hstored : Stored (call lockedOnce 10 .empty lockedJob).2.attempts := by
    rw [hadded]
    exact ⟨⟨⟨true, true⟩, by simp, rfl⟩, ⟨⟨true, true⟩, by simp, rfl⟩⟩
  have htrue := hreports.inserted.mpr hstored
  have hfalse : (call lockedOnce 10 .empty lockedJob).1.toOption = some false := by decide
  rw [htrue] at hfalse
  cases hfalse

end LockedStore

end PrReviewer.Model
