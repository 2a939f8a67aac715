import Mathlib.Data.List.Nodup
import Mathlib.Tactic.ByContra
import PrReviewer.Model.Domain

/-!
# `StateRepository`: the `review_runs` table

A table is the list of its rows in insertion order (rowid order, which is the order a full
scan returns) together with the two constraints of the schema: `run_id` is the primary key,
and `(owner, repo, pr, head, model)` is unique. Every statement of `state/db.py` on the table
is a function here, and each has one lemma saying which rows its result holds.
-/

set_option autoImplicit false

namespace PrReviewer.Model

/-- A number that a column of type `INTEGER` holds; on any other `sqlite3` raises `OverflowError`
before the statement runs. -/
def Storable (n : Int) : Prop :=
  -0x8000000000000000 ≤ n ∧ n < 0x8000000000000000

/-- Whether a number fits a column can be decided. -/
instance (n : Int) : Decidable (Storable n) :=
  inferInstanceAs (Decidable (_ ∧ _))

/-- The `review_runs` table with the constraints of its schema. What is done to a table is done
with `Storable` numbers: with any other nothing is stored, and the call raises. -/
@[ext]
structure RunTable where
  rows : List Row
  /-- `run_id TEXT PRIMARY KEY` -/
  primaryKey : (rows.map Row.runId).Nodup
  /-- `UNIQUE (owner, repo, pr, head, model)` -/
  dedupKey : (rows.filterMap Row.key).Nodup

namespace RunTable

/-- The table of a new database. -/
def empty : RunTable where
  rows := []
  primaryKey := List.nodup_nil
  dedupKey := List.nodup_nil

/-- Two rows with the same id are one. -/
theorem eq_of_runId_eq {t : RunTable} {a b : Row} (ha : a ∈ t.rows) (hb : b ∈ t.rows)
    (h : a.runId = b.runId) : a = b :=
  List.inj_on_of_nodup_map t.primaryKey ha hb h

/-- An update of rows that keeps both keys of every row. -/
def update (t : RunTable) (f : Row → Row) (hid : ∀ row, (f row).runId = row.runId)
    (hkey : ∀ row, (f row).key = row.key) : RunTable where
  rows := t.rows.map f
  primaryKey := by
    have : Row.runId ∘ f = Row.runId := funext hid
    rw [List.map_map, this]
    exact t.primaryKey
  dedupKey := by
    have : Row.key ∘ f = Row.key := funext hkey
    rw [List.filterMap_map, this]
    exact t.dedupKey

/-- `UPDATE review_runs SET status=st, updated_at=now WHERE p`. -/
def stampWhere (t : RunTable) (p : Row → Bool) (st : RunStatus) (now : Nat) : RunTable :=
  t.update (fun row => if p row then row.stamp st now else row)
    (fun row => by split <;> rfl) (fun row => by split <;> rfl)

/-- The rows after an update are the stamped rows it selects and the others as they were. -/
theorem mem_stampWhere {t : RunTable} {p : Row → Bool} {st : RunStatus} {now : Nat} {row : Row} :
    row ∈ (t.stampWhere p st now).rows ↔
      (∃ old ∈ t.rows, p old = true ∧ row = old.stamp st now) ∨ (row ∈ t.rows ∧ p row = false) := by
  simp only [stampWhere, update, List.mem_map]
  constructor
  · rintro ⟨old, hold, rfl⟩
    by_cases hp : p old = true
    · exact Or.inl ⟨old, hold, hp, by simp [hp]⟩
    · exact Or.inr ⟨by simpa [hp] using hold, by simp [hp]⟩
  · rintro (⟨old, hold, hp, rfl⟩ | ⟨hrow, hp⟩)
    · exact ⟨old, hold, by simp [hp]⟩
    · exact ⟨row, hrow, by simp [hp]⟩

/-- A status write leaves the ids. -/
@[simp] theorem stampWhere_runIds (t : RunTable) (p : Row → Bool) (st : RunStatus) (now : Nat) :
    (t.stampWhere p st now).rows.map Row.runId = t.rows.map Row.runId := by
  simp only [stampWhere, update, List.map_map]
  exact List.map_congr_left fun row _ => by simp only [Function.comp]; split <;> rfl

/-- `set_status`. The assertion of the source that the status is one of `_RUN_STATES` is the
type of `st`. -/
def setStatus (t : RunTable) (r : RunId) (st : RunStatus) (now : Nat) : RunTable :=
  t.stampWhere (fun row => row.runId == r) st now

/-- The rows after a status write. -/
theorem mem_setStatus {t : RunTable} {r : RunId} {st : RunStatus} {now : Nat} {row : Row} :
    row ∈ (t.setStatus r st now).rows ↔
      (∃ old ∈ t.rows, old.runId = r ∧ row = old.stamp st now) ∨
        (row ∈ t.rows ∧ row.runId ≠ r) := by
  simp [setStatus, mem_stampWhere]

/-- `claim_run`: `UPDATE ... WHERE run_id=? AND status='queued'`, with `rowcount == 1`. -/
def claimRun (t : RunTable) (r : RunId) (now : Nat) : RunTable × Bool :=
  (t.stampWhere (fun row => row.runId == r && row.status == .queued) .running now,
    t.rows.countP (fun row => row.runId == r && row.status == .queued) == 1)

/-- A claim succeeds exactly when the run's row is queued. -/
theorem claimRun_snd {t : RunTable} {r : RunId} {now : Nat} :
    (t.claimRun r now).2 = true ↔ ∃ row ∈ t.rows, row.runId = r ∧ row.status = .queued := by
  -- at most one row carries the primary key, so the row count is 0 or 1
  have hle : t.rows.countP (fun row => row.runId == r && row.status == .queued) ≤ 1 := by
    have hcount : (t.rows.map Row.runId).count r ≤ 1 := List.nodup_iff_count_le_one.mp t.primaryKey r
    rw [List.count_eq_countP, List.countP_map] at hcount
    refine Nat.le_trans (List.countP_mono_left ?_) hcount
    intro row _ hrow
    simp only [Bool.and_eq_true, beq_iff_eq] at hrow
    simp [hrow.1]
  simp only [claimRun, beq_iff_eq]
  constructor
  · intro h
    have hpos : 0 < t.rows.countP (fun row => row.runId == r && row.status == .queued) := by omega
    obtain ⟨row, hrow, hp⟩ := List.countP_pos_iff.mp hpos
    exact ⟨row, hrow, by simpa using hp⟩
  · rintro ⟨row, hrow, hr, hs⟩
    have hpos : 0 < t.rows.countP (fun row => row.runId == r && row.status == .queued) :=
      List.countP_pos_iff.mpr ⟨row, hrow, by simp [hr, hs]⟩
    omega

/-- The rows after `claim_run`: the claimed row runs, every other row is as it was. -/
theorem mem_claimRun {t : RunTable} {r : RunId} {now : Nat} {row : Row} :
    row ∈ (t.claimRun r now).1.rows ↔
      (∃ old ∈ t.rows, old.runId = r ∧ old.status = .queued ∧ row = old.stamp .running now) ∨
        (row ∈ t.rows ∧ ¬ (row.runId = r ∧ row.status = .queued)) := by
  simp only [claimRun, mem_stampWhere, Bool.and_eq_true, beq_iff_eq, Bool.and_eq_false_imp,
    and_assoc, not_and]
  constructor
  · rintro (h | ⟨hrow, hp⟩)
    · exact Or.inl h
    · exact Or.inr ⟨hrow, fun hr hs => by simpa [hs] using hp hr⟩
  · rintro (h | ⟨hrow, hp⟩)
    · exact Or.inl h
    · exact Or.inr ⟨hrow, fun hr => by simpa using hp hr⟩

/-- A run is not claimed exactly when it is not queued. -/
theorem claimRun_snd_false {t : RunTable} {r : RunId} {now : Nat} :
    (t.claimRun r now).2 = false ↔ ∀ row ∈ t.rows, row.runId = r → row.status ≠ .queued := by
  rw [← Bool.not_eq_true, claimRun_snd]
  constructor
  · intro h row hrow hr hs
    exact h ⟨row, hrow, hr, hs⟩
  · rintro h ⟨row, hrow, hr, hs⟩
    exact h row hrow hr hs

/-- A claim that fails changes nothing. -/
theorem claimRun_of_false {t : RunTable} {r : RunId} {now : Nat}
    (h : (t.claimRun r now).2 = false) : (t.claimRun r now).1 = t := by
  rw [claimRun_snd_false] at h
  apply RunTable.ext
  simp only [claimRun, stampWhere, update]
  conv_rhs => rw [← List.map_id t.rows]
  apply List.map_congr_left
  intro row hrow
  have hne : (row.runId == r && row.status == .queued) = false := by
    rw [Bool.and_eq_false_imp]
    intro hr
    simpa using h row hrow (by simpa using hr)
  simp [hne]

/-- The rows of one pull request are deleted. -/
def deletePr (t : RunTable) (owner repo : String) (pr : Int) : RunTable where
  rows := t.rows.filter fun row => !(row.owner == owner && row.repo == repo && row.pr == pr)
  primaryKey := t.primaryKey.sublist (List.filter_sublist.map _)
  dedupKey := t.dedupKey.sublist (List.filter_sublist.filterMap _)

/-- The rows after a deletion. -/
theorem mem_deletePr {t : RunTable} {owner repo : String} {pr : Int} {row : Row} :
    row ∈ (t.deletePr owner repo pr).rows ↔
      row ∈ t.rows ∧ ¬ (row.owner = owner ∧ row.repo = repo ∧ row.pr = pr) := by
  simp only [deletePr, List.mem_filter, Bool.not_eq_true', Bool.and_eq_false_imp, Bool.and_eq_true,
    beq_iff_eq, and_imp, not_and, beq_eq_false_iff_ne]

/-- Some row of the table has the dedup key of this one. -/
def clashes (t : RunTable) (row : Row) : Bool :=
  row.key.any fun k => (t.rows.filterMap Row.key).contains k

/-- A row does not clash exactly when its key is free. -/
theorem clashes_eq_false {t : RunTable} {row : Row} :
    t.clashes row = false ↔ ∀ k, row.key = some k → k ∉ t.rows.filterMap Row.key := by
  unfold clashes
  cases row.key with
  | none => simp
  | some k => simp

/-- A row that does not clash keeps the keys distinct. -/
theorem nodup_keys_snoc {t : RunTable} {row : Row} (h : t.clashes row = false) :
    ((t.rows ++ [row]).filterMap Row.key).Nodup := by
  rw [List.filterMap_append, List.nodup_append]
  refine ⟨t.dedupKey, ?_, ?_⟩
  · cases hk : row.key <;> simp [hk]
  · intro a ha b hb hab
    have hb : row.key = some b := by simpa using hb
    exact clashes_eq_false.mp h b hb (hab ▸ ha)

/-- `INSERT OR IGNORE` of a row: ignored when it clashes with either key. -/
def insertRow (t : RunTable) (row : Row) : RunTable × Bool :=
  if h : row.runId ∉ t.rows.map Row.runId ∧ t.clashes row = false then
    ({ rows := t.rows ++ [row]
       primaryKey := by
        simpa [List.nodup_append] using ⟨t.primaryKey, by simpa using h.1⟩
       dedupKey := nodup_keys_snoc h.2 }, true)
  else (t, false)

/-- The rows after `INSERT OR IGNORE`. -/
theorem insertRow_cases (t : RunTable) (row : Row) :
    ((t.insertRow row).2 = true ∧ (t.insertRow row).1.rows = t.rows ++ [row] ∧
        row.runId ∉ t.rows.map Row.runId ∧ t.clashes row = false) ∨
      ((t.insertRow row).2 = false ∧ (t.insertRow row).1 = t ∧
        (row.runId ∈ t.rows.map Row.runId ∨ t.clashes row = true)) := by
  unfold insertRow
  split
  · rename_i h
    exact Or.inl ⟨rfl, rfl, h⟩
  · rename_i h
    refine Or.inr ⟨rfl, rfl, ?_⟩
    by_contra hc
    rw [not_or, Bool.not_eq_true] at hc
    exact h hc

/-- The row `insert_run` stores for a job with a pull request number. -/
def rowOf (job : ReviewJob) (pr : Int) (now : Nat) : Row where
  runId := job.runId
  owner := job.owner
  repo := job.repo
  pr := pr
  head := orEmpty job.head
  model := some (orEmpty job.model)
  status := job.status
  attempts := job.attempts
  cause := job.cause
  createdAt := now
  updatedAt := now

/-- The row of a job is of its run. -/
@[simp] theorem rowOf_runId (job : ReviewJob) (pr : Int) (now : Nat) :
    (rowOf job pr now).runId = job.runId := rfl

/-- The row of a job has its status. -/
@[simp] theorem rowOf_status (job : ReviewJob) (pr : Int) (now : Nat) :
    (rowOf job pr now).status = job.status := rfl

/-- The row of a job has its head, empty where there is none. -/
@[simp] theorem rowOf_head (job : ReviewJob) (pr : Int) (now : Nat) :
    (rowOf job pr now).head = orEmpty job.head := rfl

/-- The row of a job is stamped now. -/
@[simp] theorem rowOf_updatedAt (job : ReviewJob) (pr : Int) (now : Nat) :
    (rowOf job pr now).updatedAt = now := rfl

/-- `insert_run`. A comment first deletes the rows of its pull request. Without a pull request
number the `DELETE` compares with `NULL` and selects nothing, and the `INSERT OR IGNORE` is
ignored because the column is `NOT NULL`. -/
def insertRun (t : RunTable) (job : ReviewJob) (now : Nat) : RunTable × Bool :=
  match job.pr with
  | none => (t, false)
  | some pr =>
    match job.cause with
    | .comment => (t.deletePr job.owner job.repo pr).insertRow (rowOf job pr now)
    | .webhook => t.insertRow (rowOf job pr now)

/-- The rows after `insert_run`: at most the new row is added, a webhook removes none, and the
new row is there exactly when the insertion is reported. -/
theorem insertRun_spec (t : RunTable) (job : ReviewJob) (now : Nat) :
    (∀ row ∈ (t.insertRun job now).1.rows,
        row ∈ t.rows ∨
          ((t.insertRun job now).2 = true ∧ ∃ pr, job.pr = some pr ∧ row = rowOf job pr now)) ∧
      (job.cause = .webhook → ∀ row ∈ t.rows, row ∈ (t.insertRun job now).1.rows) ∧
      ((t.insertRun job now).2 = true →
        ∃ pr, job.pr = some pr ∧ rowOf job pr now ∈ (t.insertRun job now).1.rows) := by
  unfold insertRun
  cases hpr : job.pr with
  | none => simp
  | some pr =>
    cases hc : job.cause with
    | webhook =>
      rcases insertRow_cases t (rowOf job pr now) with ⟨hb, hrows, -⟩ | ⟨hb, hrows, -⟩
      · refine ⟨?_, ?_, ?_⟩ <;> simp only [hb, hrows, List.mem_append, List.mem_singleton]
        · rintro row (hrow | rfl)
          · exact Or.inl hrow
          · exact Or.inr ⟨trivial, pr, rfl, rfl⟩
        · exact fun _ row hrow => Or.inl hrow
        · exact fun _ => ⟨pr, rfl, Or.inr rfl⟩
      · refine ⟨?_, ?_, ?_⟩ <;> simp only [hb, hrows]
        · exact fun row hrow => Or.inl hrow
        · exact fun _ row hrow => hrow
        · simp
    | comment =>
      rcases insertRow_cases (t.deletePr job.owner job.repo pr) (rowOf job pr now) with
        ⟨hb, hrows, -⟩ | ⟨hb, hrows, -⟩
      · refine ⟨?_, by simp, ?_⟩ <;> simp only [hb, hrows, List.mem_append, List.mem_singleton]
        · rintro row (hrow | rfl)
          · exact Or.inl (mem_deletePr.mp hrow).1
          · exact Or.inr ⟨trivial, pr, rfl, rfl⟩
        · exact fun _ => ⟨pr, rfl, Or.inr rfl⟩
      · refine ⟨?_, by simp, ?_⟩ <;> simp only [hb, hrows]
        · exact fun row hrow => Or.inl (mem_deletePr.mp hrow).1
        · simp

/-- The row with a `run_id`, the `fetchone` of `get_job` and `get_run`. -/
def row? (t : RunTable) (r : RunId) : Option Row :=
  t.rows.find? fun row => row.runId == r

/-- `get_job`, and `get_run`, which raises `KeyError` where this is `none`. -/
def getJob (t : RunTable) (r : RunId) : Option ReviewJob :=
  (t.row? r).map Row.job

/-- The row found for a `run_id` is the row of the table that carries it. -/
theorem row?_eq_some {t : RunTable} {r : RunId} {row : Row} :
    t.row? r = some row ↔ row ∈ t.rows ∧ row.runId = r := by
  constructor
  · intro h
    exact ⟨List.mem_of_find?_eq_some h, by simpa using List.find?_some h⟩
  · rintro ⟨hrow, hr⟩
    cases h : t.row? r with
    | none =>
      have := List.find?_eq_none.mp h row hrow
      simp [hr] at this
    | some row' =>
      have hmem := List.mem_of_find?_eq_some h
      have hid : row'.runId = r := by simpa using List.find?_some h
      rw [eq_of_runId_eq hmem hrow (hid.trans hr.symm)]

/-- A run has no row exactly when no row is its own. -/
theorem row?_eq_none {t : RunTable} {r : RunId} :
    t.row? r = none ↔ ∀ row ∈ t.rows, row.runId ≠ r := by
  simp [row?]

/-- `has_run_for_head`. -/
def hasRunForHead (t : RunTable) (owner repo : String) (pr : Int) (head : String) : Bool :=
  t.rows.any fun row =>
    row.owner == owner && row.repo == repo && row.pr == pr && row.head == head

/-- `recover_orphans`: running rows not touched after the cutoff become queued; returns the
row count. -/
def recoverOrphans (t : RunTable) (leaseTtl : Int) (now : Nat) : RunTable × Nat :=
  let orphan := fun row : Row => row.status == .running && decide ((row.updatedAt : Int) ≤ now - leaseTtl)
  (t.stampWhere orphan .queued now, t.rows.countP orphan)

/-- The rows after a recovery. -/
theorem mem_recoverOrphans {t : RunTable} {leaseTtl : Int} {now : Nat} {row : Row} :
    row ∈ (t.recoverOrphans leaseTtl now).1.rows ↔
      (∃ old ∈ t.rows, old.status = .running ∧ (old.updatedAt : Int) ≤ now - leaseTtl ∧
          row = old.stamp .queued now) ∨
        (row ∈ t.rows ∧ ¬ (row.status = .running ∧ (row.updatedAt : Int) ≤ now - leaseTtl)) := by
  simp only [recoverOrphans, mem_stampWhere, Bool.and_eq_true, beq_iff_eq, decide_eq_true_eq,
    Bool.and_eq_false_imp, decide_eq_false_iff_not, and_assoc, not_and]

/-- `reconcile_open_jobs`: the pending and queued rows, as jobs. -/
def reconcileOpenJobs (t : RunTable) : List ReviewJob :=
  (t.rows.filter fun row => row.status == .pendingCi || row.status == .queued).map Row.job

/-- The open jobs are the jobs of the pending and queued rows. -/
theorem mem_reconcileOpenJobs {t : RunTable} {job : ReviewJob} :
    job ∈ t.reconcileOpenJobs ↔
      ∃ row ∈ t.rows, (row.status = .pendingCi ∨ row.status = .queued) ∧ row.job = job := by
  simp [reconcileOpenJobs, and_assoc]

/-- The open jobs are of distinct runs. -/
theorem reconcileOpenJobs_nodup (t : RunTable) :
    (t.reconcileOpenJobs.map ReviewJob.runId).Nodup := by
  rw [reconcileOpenJobs, List.map_map]
  exact t.primaryKey.sublist (List.filter_sublist.map _)

/-- An update reads as the update of the row that was there. -/
theorem row?_stampWhere (t : RunTable) (p : Row → Bool) (st : RunStatus) (now : Nat) (r : RunId) :
    (t.stampWhere p st now).row? r =
      (t.row? r).map fun row => if p row then row.stamp st now else row := by
  have hid : (fun row : Row => row.runId == r) ∘ (fun row => if p row then row.stamp st now else row) =
      fun row => row.runId == r := by
    funext row
    simp only [Function.comp]
    split <;> rfl
  rw [row?, stampWhere, update, List.find?_map, hid]
  rfl

/-! ## The status of a run -/

/-- The status of a run, if it has a row. -/
def statusOf (t : RunTable) (r : RunId) : Option RunStatus :=
  (t.row? r).map Row.status

/-- The status of a run is that of its row. -/
theorem statusOf_eq_some {t : RunTable} {r : RunId} {st : RunStatus} :
    t.statusOf r = some st ↔ ∃ row ∈ t.rows, row.runId = r ∧ row.status = st := by
  simp only [statusOf, Option.map_eq_some_iff, row?_eq_some, and_assoc]

/-- A run has no status exactly when it has no row. -/
theorem statusOf_eq_none {t : RunTable} {r : RunId} :
    t.statusOf r = none ↔ ∀ row ∈ t.rows, row.runId ≠ r := by
  rw [statusOf, Option.map_eq_none_iff, row?_eq_none]

/-- The statuses after a status write. -/
theorem statusOf_setStatus (t : RunTable) (r r' : RunId) (st : RunStatus) (now : Nat) :
    (t.setStatus r' st now).statusOf r =
      if r = r' then (t.statusOf r).map fun _ => st else t.statusOf r := by
  rw [statusOf, setStatus, row?_stampWhere, statusOf]
  cases h : t.row? r with
  | none => simp
  | some row =>
    have hr := (row?_eq_some.mp h).2
    by_cases hrr : r = r'
    · simp [hr, hrr]
    · simp [hr, hrr]

/-- A run is claimed exactly when it is queued. -/
theorem claimRun_eq_true {t : RunTable} {r : RunId} {now : Nat} :
    (t.claimRun r now).2 = true ↔ t.statusOf r = some .queued := by
  rw [claimRun_snd, statusOf_eq_some]

/-- The statuses after a claim. -/
theorem statusOf_claimRun (t : RunTable) (r r' : RunId) (now : Nat) :
    (t.claimRun r' now).1.statusOf r =
      if r = r' ∧ t.statusOf r = some .queued then some .running else t.statusOf r := by
  rw [statusOf, claimRun, row?_stampWhere, statusOf]
  cases h : t.row? r with
  | none => simp
  | some row =>
    have hr := (row?_eq_some.mp h).2
    by_cases hrr : r = r'
    · by_cases hq : row.status = .queued
      · simp [hr, hrr, hq]
      · simp [hr, hrr, hq]
    · simp [hr, hrr]

/-- With a lease of zero seconds and a clock that did not run backwards, every running row is
queued again. -/
theorem statusOf_recoverOrphans {t : RunTable} {now : Nat}
    (hstamp : ∀ row ∈ t.rows, row.updatedAt ≤ now) (r : RunId) :
    (t.recoverOrphans 0 now).1.statusOf r =
      (t.statusOf r).map fun st => if st = .running then .queued else st := by
  rw [statusOf, recoverOrphans, row?_stampWhere, statusOf]
  cases h : t.row? r with
  | none => simp
  | some row =>
    have hle : (row.updatedAt : Int) ≤ (now : Int) - 0 := by
      have := hstamp row (row?_eq_some.mp h).1
      omega
    by_cases hrun : row.status = .running
    · simp only [Option.map_some, hrun, hle, decide_true, Bool.and_true, beq_self_eq_true, if_true,
        Row.stamp_status]
    · simp [hrun]

/-- The status after `insert_run`: the new run has that of its job, any other run keeps its own
or loses its row. -/
theorem statusOf_insertRun (t : RunTable) (job : ReviewJob) (now : Nat) :
    ((t.insertRun job now).2 = true → (t.insertRun job now).1.statusOf job.runId = some job.status) ∧
      ∀ r, (t.insertRun job now).2 = false ∨ r ≠ job.runId →
        (t.insertRun job now).1.statusOf r = t.statusOf r ∨
          (t.insertRun job now).1.statusOf r = none := by
  obtain ⟨hrows, -, hnew⟩ := insertRun_spec t job now
  constructor
  · intro hb
    obtain ⟨pr, hpr, hmem⟩ := hnew hb
    exact statusOf_eq_some.mpr ⟨_, hmem, rfl, rfl⟩
  · intro r hr
    cases hst : (t.insertRun job now).1.statusOf r with
    | none => exact Or.inr rfl
    | some st =>
      obtain ⟨row, hrow, hid, hs⟩ := statusOf_eq_some.mp hst
      rcases hrows row hrow with hold | ⟨hb, pr, hpr, rfl⟩
      · exact Or.inl (statusOf_eq_some.mpr ⟨row, hold, hid, hs⟩).symm
      · rcases hr with hr | hr
        · rw [hb] at hr
          exact absurd hr (by decide)
        · exact absurd hid.symm hr

/-- A run has as many open jobs as its status says. -/
theorem countP_reconcileOpenJobs (t : RunTable) (r : RunId) :
    t.reconcileOpenJobs.countP (fun job => job.runId == r) =
      if t.statusOf r = some .pendingCi ∨ t.statusOf r = some .queued then 1 else 0 := by
  have hle : t.reconcileOpenJobs.countP (fun job => job.runId == r) ≤ 1 := by
    have h := List.nodup_iff_count_le_one.mp t.reconcileOpenJobs_nodup r
    rwa [List.count_eq_countP, List.countP_map] at h
  have hpos : 0 < t.reconcileOpenJobs.countP (fun job => job.runId == r) ↔
      (t.statusOf r = some .pendingCi ∨ t.statusOf r = some .queued) := by
    rw [List.countP_pos_iff]
    constructor
    · rintro ⟨job, hjob, hr⟩
      obtain ⟨row, hrow, hst, rfl⟩ := mem_reconcileOpenJobs.mp hjob
      have hr' : row.runId = r := by simpa using hr
      exact hst.imp (fun h => statusOf_eq_some.mpr ⟨row, hrow, hr', h⟩)
        (fun h => statusOf_eq_some.mpr ⟨row, hrow, hr', h⟩)
    · rintro (h | h) <;> obtain ⟨row, hrow, hr, hst⟩ := statusOf_eq_some.mp h
      · exact ⟨row.job, mem_reconcileOpenJobs.mpr ⟨row, hrow, Or.inl hst, rfl⟩, by simp [hr]⟩
      · exact ⟨row.job, mem_reconcileOpenJobs.mpr ⟨row, hrow, Or.inr hst, rfl⟩, by simp [hr]⟩
  split
  · rename_i h
    have := hpos.mpr h
    omega
  · rename_i h
    have : ¬ 0 < t.reconcileOpenJobs.countP (fun job => job.runId == r) := fun hc => h (hpos.mp hc)
    omega

end RunTable

end PrReviewer.Model
