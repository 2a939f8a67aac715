import PrReviewer.Library.Machine
import PrReviewer.Model.Store

/-!
# The run table as a keyed set

What the statements of `StateRepository` make of an empty table, in whatever order they come.
The `UNIQUE` index of the schema compares no row that has `NULL` in it; `insert_run` writes
`model or ''`, so no such row ever gets into the table, and then the index does compare all
rows: the table is a set keyed by `(owner, repo, pr, head, model)`. `KeyedSet` says so, and says
exactly which rows an insertion leaves.
-/

set_option autoImplicit false

namespace PrReviewer.Model

open PrReviewer.Library (Machine)

/-- `(owner, repo, pr, head, model or '')` of a row. -/
def Row.columns (row : Row) : DedupKey :=
  (row.owner, row.repo, row.pr, row.head, orEmpty row.model)

/-- `(owner, repo, pr, head or '', model or '')` of a job for this pull request number. -/
def ReviewJob.columns (job : ReviewJob) (pr : Int) : DedupKey :=
  (job.owner, job.repo, pr, orEmpty job.head, orEmpty job.model)

/-- A row is one of this pull request. -/
def Row.isOf (owner repo : String) (pr : Int) (row : Row) : Bool :=
  row.owner == owner && row.repo == repo && row.pr == pr

namespace RunTable

variable {t : RunTable} {job : ReviewJob} {pr : Int} {now : Nat}

/-! ## Rows that the index compares -/

/-- No row has `NULL` in its dedup key. -/
def Modelled (t : RunTable) : Prop :=
  ∀ row ∈ t.rows, row.model.isSome = true

/-- A row with a model has its columns as its key. -/
theorem key_of_modelled {row : Row} (h : row.model.isSome = true) : row.key = some row.columns := by
  obtain ⟨model, hmodel⟩ := Option.isSome_iff_exists.mp h
  simp [Row.key, Row.columns, orEmpty, hmodel]

/-- The row of a job has the job's columns as its key. -/
@[simp] theorem rowOf_key (job : ReviewJob) (pr : Int) (now : Nat) :
    (rowOf job pr now).key = some (job.columns pr) := rfl

/-- The row of a job has the job's columns. -/
@[simp] theorem rowOf_columns (job : ReviewJob) (pr : Int) (now : Nat) :
    (rowOf job pr now).columns = job.columns pr := rfl

/-- The index then holds the columns of every row. -/
theorem Modelled.keys (ht : t.Modelled) : t.rows.filterMap Row.key = t.rows.map Row.columns := by
  rw [← List.filterMap_eq_map]
  apply List.filterMap_congr
  intro row hrow
  exact key_of_modelled (ht row hrow)

/-- A new row clashes with the index exactly if a row with its columns is there. -/
theorem Modelled.clashes_rowOf (ht : t.Modelled) :
    t.clashes (rowOf job pr now) = false ↔ ∀ row ∈ t.rows, row.columns ≠ job.columns pr := by
  rw [clashes_eq_false, ht.keys]
  constructor
  · intro h row hrow heq
    exact h _ rfl (List.mem_map.mpr ⟨row, hrow, heq⟩)
  · intro h k hk hmem
    obtain ⟨row, hrow, heq⟩ := List.mem_map.mp hmem
    cases hk
    exact h row hrow heq

/-- Deleting rows leaves a model in each. -/
theorem Modelled.deletePr (ht : t.Modelled) (owner repo : String) (pr : Int) :
    (t.deletePr owner repo pr).Modelled :=
  fun row hrow => ht row (mem_deletePr.mp hrow).1

/-- A status write leaves a model in each row. -/
theorem Modelled.stampWhere (ht : t.Modelled) (p : Row → Bool) (st : RunStatus) (now : Nat) :
    (t.stampWhere p st now).Modelled := by
  intro row hrow
  rcases mem_stampWhere.mp hrow with ⟨old, hold, -, rfl⟩ | ⟨hrow, -⟩
  · exact ht old hold
  · exact ht row hrow

/-- An insert leaves a model in each row. -/
theorem Modelled.insertRun (ht : t.Modelled) (job : ReviewJob) (now : Nat) :
    (t.insertRun job now).1.Modelled := by
  intro row hrow
  rcases (insertRun_spec t job now).1 row hrow with hold | ⟨-, pr, -, rfl⟩
  · exact ht row hold
  · rfl

/-! ## One insertion -/

/-- Two rows with the same columns are one. -/
theorem Modelled.eq_of_columns_eq (ht : t.Modelled) {a b : Row} (ha : a ∈ t.rows) (hb : b ∈ t.rows)
    (h : a.columns = b.columns) : a = b := by
  have hnodup := t.dedupKey
  rw [ht.keys] at hnodup
  exact List.inj_on_of_nodup_map hnodup ha hb h

/-- A fresh row is stored exactly if it does not clash. -/
theorem insertRow_fresh (row : Row) (hfresh : ∀ old ∈ t.rows, old.runId ≠ row.runId) :
    ((t.insertRow row).2 = true ↔ t.clashes row = false) ∧
      ((t.insertRow row).2 = true → (t.insertRow row).1.rows = t.rows ++ [row]) ∧
      ((t.insertRow row).2 = false → (t.insertRow row).1 = t) := by
  have hid : row.runId ∉ t.rows.map Row.runId := by
    intro hmem
    obtain ⟨old, hold, heq⟩ := List.mem_map.mp hmem
    exact hfresh old hold heq
  rcases insertRow_cases t row with ⟨hb, hrows, -, hclash⟩ | ⟨hb, ht, hclash⟩
  · simp [hb, hrows, hclash]
  · have hclash := hclash.resolve_left hid
    simp [hb, ht, hclash]

/-- What an insertion for a webhook leaves. -/
theorem Modelled.insertRun_webhook (ht : t.Modelled) (now : Nat) (hcause : job.cause = .webhook)
    (hfresh : ∀ row ∈ t.rows, row.runId ≠ job.runId) :
    ((t.insertRun job now).2 = true ↔
        ∃ pr, job.pr = some pr ∧ ∀ row ∈ t.rows, row.columns ≠ job.columns pr) ∧
      (∀ pr, job.pr = some pr → (t.insertRun job now).2 = true →
        (t.insertRun job now).1.rows = t.rows ++ [rowOf job pr now]) ∧
      ((t.insertRun job now).2 = false → (t.insertRun job now).1 = t) := by
  unfold RunTable.insertRun
  cases hpr : job.pr with
  | none => simp
  | some pr =>
    obtain ⟨hiff, hrows, hsame⟩ := insertRow_fresh (rowOf job pr now) hfresh
    simp only [hcause]
    refine ⟨?_, ?_, hsame⟩
    · rw [hiff, ht.clashes_rowOf]
      simp
    · rintro _ ⟨⟩
      exact hrows

/-- What an insertion for a comment leaves. -/
theorem insertRun_comment (now : Nat) (hcause : job.cause = .comment) (hpr : job.pr = some pr)
    (hfresh : ∀ row ∈ t.rows, row.runId ≠ job.runId) :
    (t.insertRun job now).2 = true ∧ (t.insertRun job now).1.rows =
      (t.rows.filter fun row => !row.isOf job.owner job.repo pr) ++ [rowOf job pr now] := by
  have hfresh' : ∀ row ∈ (t.deletePr job.owner job.repo pr).rows,
      row.runId ≠ (rowOf job pr now).runId :=
    fun row hrow => hfresh row (mem_deletePr.mp hrow).1
  -- every row with the columns of the new one is of its pull request
  have hclash : (t.deletePr job.owner job.repo pr).clashes (rowOf job pr now) = false := by
    rw [clashes_eq_false]
    intro k hk hmem
    obtain ⟨row, hrow, hkey⟩ := List.mem_filterMap.mp hmem
    cases hk
    obtain ⟨model, -, heq⟩ := Option.map_eq_some_iff.mp hkey
    simp only [Prod.mk.injEq] at heq
    exact (mem_deletePr.mp hrow).2 ⟨heq.1, heq.2.1, heq.2.2.1⟩
  obtain ⟨hiff, hrows, -⟩ := insertRow_fresh (t := t.deletePr job.owner job.repo pr)
    (rowOf job pr now) hfresh'
  have hb := hiff.mpr hclash
  unfold RunTable.insertRun
  simp only [hpr, hcause]
  exact ⟨hb, hrows hb⟩

/-! ## Any sequence of statements -/

/-- The statements on the table. -/
inductive Statement
  | insertRun (job : ReviewJob) (now : Nat)
  | claimRun (r : RunId) (now : Nat)
  | setStatus (r : RunId) (st : RunStatus) (now : Nat)
  | recoverOrphans (leaseTtl : Int) (now : Nat)

/-- One statement; the run id of an insertion is none that the table has. -/
def execute (t : RunTable) : Statement → Option (RunTable × List Bool)
  | .insertRun job now =>
    if ∀ row ∈ t.rows, row.runId ≠ job.runId then
      some ((t.insertRun job now).1, [(t.insertRun job now).2])
    else none
  | .claimRun r now => some ((t.claimRun r now).1, [(t.claimRun r now).2])
  | .setStatus r st now => some (t.setStatus r st now, [])
  | .recoverOrphans leaseTtl now => some ((t.recoverOrphans leaseTtl now).1, [])

/-- The table of a new database under any statements, with what they return. -/
def machine : Machine RunTable Statement Bool where
  start := fun t => t = .empty
  step := execute

/-- The table is a set keyed by the dedup columns, and an insertion under a fresh run id changes
it as said. -/
structure KeyedSet (t : RunTable) : Prop where
  unique : ∀ a ∈ t.rows, ∀ b ∈ t.rows, a.columns = b.columns → a = b
  webhook : ∀ job now, job.cause = .webhook → (∀ row ∈ t.rows, row.runId ≠ job.runId) →
    ((t.insertRun job now).2 = true ↔
        ∃ pr, job.pr = some pr ∧ ∀ row ∈ t.rows, row.columns ≠ job.columns pr) ∧
      (∀ pr, job.pr = some pr → (t.insertRun job now).2 = true →
        (t.insertRun job now).1.rows = t.rows ++ [rowOf job pr now]) ∧
      ((t.insertRun job now).2 = false → (t.insertRun job now).1 = t)
  comment : ∀ job now pr, job.cause = .comment → job.pr = some pr →
    (∀ row ∈ t.rows, row.runId ≠ job.runId) →
    (t.insertRun job now).2 = true ∧ (t.insertRun job now).1.rows =
      (t.rows.filter fun row => !row.isOf job.owner job.repo pr) ++ [rowOf job pr now]

/-- No statement writes `NULL` into a dedup key. -/
theorem Modelled.execute (ht : t.Modelled) {a : Statement} {t' : RunTable} {es : List Bool}
    (h : t.execute a = some (t', es)) : t'.Modelled := by
  cases a with
  | insertRun job now =>
    simp only [RunTable.execute] at h
    split at h
    · cases h
      exact ht.insertRun job now
    · cases h
  | claimRun r now =>
    cases h
    exact ht.stampWhere _ _ _
  | setStatus r st now =>
    cases h
    exact ht.stampWhere _ _ _
  | recoverOrphans leaseTtl now =>
    cases h
    exact ht.stampWhere _ _ _

/-- In every run each row has a model. -/
theorem reaches_modelled {h : List Bool} (hr : machine.Reachable t h) : t.Modelled := by
  refine Machine.Reaches.invariant (I := fun t _ => t.Modelled) ?_ ?_ hr
  · rintro s rfl row hrow
    exact absurd hrow List.not_mem_nil
  · intro s h a s' es _ hs _ hstep
    exact hs.execute hstep

/-- **The run table is a keyed set, whatever statements made it.** -/
theorem run_table_keyed_set {h : List Bool} (hr : machine.Reachable t h) : KeyedSet t where
  unique := fun _ ha _ hb heq => (reaches_modelled hr).eq_of_columns_eq ha hb heq
  webhook := fun _ now hcause hfresh => (reaches_modelled hr).insertRun_webhook now hcause hfresh
  comment := fun _ now _ hcause hpr hfresh => insertRun_comment now hcause hpr hfresh

/-- A run for a webhook, and one for a comment that takes its place. -/
def replacedRun : List Statement :=
  let job : ReviewJob := { owner := "me", repo := "app", pr := some 7, head := none, runId := "r1" }
  [.insertRun job 0, .setStatus "r1" .queued 1, .claimRun "r1" 2,
    .insertRun { job with runId := "r2", cause := .comment } 3]

/-- Three inserts that replace each other leave a keyed set. -/
theorem run_table_keyed_set_replaced :
    ∃ t h, machine.Reachable t h ∧ h = [true, true, true] ∧ KeyedSet t := by
  obtain ⟨t, h, hr, hcheck⟩ := Machine.exists_reachable_run (M := machine) replacedRun
    (fun _ h => h == [true, true, true]) rfl (by decide)
  exact ⟨t, h, hr, beq_iff_eq.mp hcheck, run_table_keyed_set hr⟩

end RunTable

end PrReviewer.Model
