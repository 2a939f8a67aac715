import PrReviewer.Analysis.WatchTask

/-!
# How long the gate waits

A run of a watcher goes through phases: it polls, or sleeps after a poll, with all the rounds
before undecided, until a round decides and a few calls follow. Each turn leads from one phase
to the next, so the number of turns bounds the phase. A round that ends in an error never
decides, whatever has elapsed.
-/

set_option autoImplicit false

namespace PrReviewer.Model

/-! ## Polls and the cap -/

/-- The polls of the first `k` rounds. -/
def polled (g : GateConfig) (k : Nat) : List GateCall :=
  (List.range k).map fun j => .poll (g.elapsedAt j)

/-- `ceil(cap / poll)` -/
def GateConfig.capPolls (g : GateConfig) : Nat :=
  ((g.cap + g.pollIntervalSeconds - 1) / g.pollIntervalSeconds).toNat

/-- One more round is one more poll. -/
theorem polled_succ (g : GateConfig) (k : Nat) :
    polled g (k + 1) = polled g k ++ [.poll (g.elapsedAt k)] := by
  unfold polled
  rw [List.range_succ, List.map_append]
  rfl

/-- `k` rounds poll `k` times. -/
theorem polls_polled (g : GateConfig) (k : Nat) : (polled g k).countP GateCall.isPoll = k := by
  unfold polled
  rw [List.countP_map, List.countP_eq_length.mpr, List.length_range]
  exact fun _ _ => rfl

/-- Every call of the rounds is a poll at the time of its round. -/
theorem mem_polled {g : GateConfig} {k : Nat} {c : GateCall} (h : c ∈ polled g k) :
    ∃ j < k, c = .poll (g.elapsedAt j) := by
  obtain ⟨j, hj, rfl⟩ := List.mem_map.mp h
  exact ⟨j, List.mem_range.mp hj, rfl⟩

/-- The rounds consist of polls. -/
theorem filter_polled (g : GateConfig) (k : Nat) :
    (polled g k).filter GateCall.isPoll = polled g k := by
  rw [List.filter_eq_self]
  intro c hc
  obtain ⟨j, -, rfl⟩ := mem_polled hc
  rfl

/-- The rounds write no status. -/
theorem status_polled (g : GateConfig) (k : Nat) :
    (polled g k).filterMap GateCall.status? = [] := by
  rw [List.filterMap_eq_nil_iff]
  intro c hc
  obtain ⟨j, -, rfl⟩ := mem_polled hc
  rfl

/-- The rounds put nothing back. -/
theorem putBacks_polled (g : GateConfig) (k : Nat) : (polled g k).count .putBack = 0 := by
  rw [List.count_eq_zero]
  intro hc
  obtain ⟨j, -, hpoll⟩ := mem_polled hc
  cases hpoll

/-- The rounds comment nothing. -/
theorem comments_polled (g : GateConfig) (k : Nat) :
    (polled g k).countP GateCall.isComment = 0 := by
  rw [List.countP_eq_zero]
  intro c hc
  obtain ⟨j, -, rfl⟩ := mem_polled hc
  simp [GateCall.isComment]

/-- The polls below the cap are the first `ceil(cap / poll)`. -/
theorem GateConfig.lt_capPolls {g : GateConfig} (hpoll : 0 < g.pollIntervalSeconds) {k : Nat} :
    k < g.capPolls ↔ g.elapsedAt k < g.cap := by
  unfold capPolls elapsedAt
  have hquot : (k : Int) + 1 ≤ (g.cap + g.pollIntervalSeconds - 1) / g.pollIntervalSeconds ↔
      ((k : Int) + 1) * g.pollIntervalSeconds ≤ g.cap + g.pollIntervalSeconds - 1 :=
    Int.le_ediv_iff_mul_le hpoll
  rw [Int.add_mul, Int.one_mul] at hquot
  rw [Int.lt_toNat]
  constructor
  · intro h
    have := hquot.mp h
    omega
  · intro h
    exact hquot.mpr (by omega)

/-! ## After the verdict -/

/-- Comments have been posted, and only one if that works. -/
structure Posts (script : GateScript) (extra : List GateCall) : Prop where
  comments : ∀ c ∈ extra, c.isComment = true
  one : (∀ n, script.comments n = true) → extra.length = 1

/-- A single comment is one of the ways to post it. -/
theorem Posts.single (script : GateScript) (body : String) :
    Posts script [.postComment body] := by
  refine ⟨?_, fun _ => rfl⟩
  intro c hc
  rw [List.mem_singleton.mp hc]
  rfl

/-- `t` turns after this verdict the task waits at this place and has made these calls since. -/
inductive Tail (script : GateScript) : Nat → GateVerdict → WatchPc → List GateCall → Prop
  | passed {t : Nat} : Tail script t .pass .ended []
  | timing : Tail script 0 .timeout .postTimeout []
  | timedOut {t : Nat} : Tail script t .timeout .ended []
  | fetching : Tail script 0 .fail .fetchLogs []
  | diagnosing {extra : List GateCall} : Posts script extra →
      Tail script 1 .fail .postDiagnosis extra
  | excusing {t : Nat} {extra : List GateCall} : t ≤ 2 → Posts script extra →
      Tail script t .fail .postUnavailable extra
  | notifying {t : Nat} {extra : List GateCall} : t ≤ 3 → Posts script extra →
      Tail script t .fail .notifySlack extra
  | failed {t : Nat} {extra : List GateCall} : Posts script extra →
      Tail script t .fail .ended extra

/-- After a verdict the task is decided, and four turns later it has ended. -/
theorem Tail.ended {script : GateScript} {t : Nat} {v : GateVerdict} {pc : WatchPc}
    {extra : List GateCall} (h : Tail script t v pc extra) :
    pc.undecided = false ∧ (4 ≤ t → pc = .ended) := by
  cases h with
  | passed => exact ⟨rfl, fun _ => rfl⟩
  | timing => exact ⟨rfl, fun ht => absurd ht (by omega)⟩
  | timedOut => exact ⟨rfl, fun _ => rfl⟩
  | fetching => exact ⟨rfl, fun ht => absurd ht (by omega)⟩
  | diagnosing _ => exact ⟨rfl, fun ht => absurd ht (by omega)⟩
  | excusing _ _ => exact ⟨rfl, fun ht => absurd ht (by omega)⟩
  | notifying _ _ => exact ⟨rfl, fun ht => absurd ht (by omega)⟩
  | failed _ => exact ⟨rfl, fun _ => rfl⟩

/-- A verdict that ends the wait starts its tail with no call made. -/
theorem Tail.first (script : GateScript) {v : GateVerdict} (hv : v ≠ .wait) :
    Tail script 0 v v.next [] := by
  cases v with
  | pass => exact .passed
  | fail => exact .fetching
  | timeout => exact .timing
  | wait => exact absurd rfl hv

/-- What follows a verdict's own calls are comments. -/
theorem Tail.comments {script : GateScript} {t : Nat} {v : GateVerdict} {pc : WatchPc}
    {extra : List GateCall} (h : Tail script t v pc extra) : ∀ c ∈ extra, c.isComment = true := by
  cases h with
  | passed => exact fun _ hc => absurd hc List.not_mem_nil
  | timing => exact fun _ hc => absurd hc List.not_mem_nil
  | timedOut => exact fun _ hc => absurd hc List.not_mem_nil
  | fetching => exact fun _ hc => absurd hc List.not_mem_nil
  | diagnosing hposts => exact hposts.comments
  | excusing _ hposts => exact hposts.comments
  | notifying _ hposts => exact hposts.comments
  | failed hposts => exact hposts.comments

/-- A turn after the verdict posts comments at most. -/
theorem Tail.turn {script : GateScript} {t : Nat} {v : GateVerdict} {w : Watcher}
    {extra : List GateCall} (h : Tail script t v w.pc extra) (hpc : w.pc ≠ .ended)
    (cfg : GateConfig) (slack : Bool) (status : Option RunStatus) (log : List GateCall) :
    ∃ m, w.turn cfg slack status (script.input log w.pc) = some m ∧ m.1.job = w.job ∧
      Tail script (t + 1) v m.1.pc (extra ++ m.2) ∧ ∀ c ∈ m.2, c.isComment = true := by
  obtain ⟨job, elapsed, pc⟩ := w
  have hnone : ∀ c ∈ ([] : List GateCall), c.isComment = true := by simp
  have hslack : ∀ {t : Nat}, t ≤ 3 → Posts script extra →
      Tail script t .fail (if slack then .notifySlack else .ended) (extra ++ []) := by
    intro t ht hposts
    rw [List.append_nil]
    cases slack with
    | true => exact .notifying ht hposts
    | false => exact .failed hposts
  cases h with
  | passed => exact absurd rfl hpc
  | timedOut => exact absurd rfl hpc
  | failed _ => exact absurd rfl hpc
  | timing => exact ⟨_, rfl, rfl, .timedOut, hnone⟩
  | fetching =>
    cases hlogs : script.logs with
    | none =>
      refine ⟨(⟨job, elapsed, .postUnavailable⟩, [.postComment logsUnavailable]), ?_, rfl,
        .excusing (by omega) (Posts.single script _), (Posts.single script _).comments⟩
      simp only [Watcher.turn, GateScript.input, hlogs]
    | some logs =>
      refine ⟨(⟨job, elapsed, .postDiagnosis⟩, [.postComment (diagnose logs)]), ?_, rfl,
        .diagnosing (Posts.single script _), (Posts.single script _).comments⟩
      simp only [Watcher.turn, GateScript.input, hlogs]
  | diagnosing hposts =>
    cases hsent : script.comments (log.countP GateCall.isComment - 1) with
    | true =>
      refine ⟨(⟨job, elapsed, if slack then .notifySlack else .ended⟩, []), ?_, rfl,
        hslack (by omega) hposts, hnone⟩
      simp only [Watcher.turn, GateScript.input, hsent]
    | false =>
      -- the second comment follows only on a failure of the first
      have htwo : Posts script (extra ++ [.postComment logsUnavailable]) := by
        refine ⟨?_, ?_⟩
        · intro c hc
          rcases List.mem_append.mp hc with hc | hc
          · exact hposts.comments c hc
          · exact (Posts.single script _).comments c hc
        · intro hall
          rw [hall] at hsent
          cases hsent
      refine ⟨(⟨job, elapsed, .postUnavailable⟩, [.postComment logsUnavailable]), ?_, rfl,
        .excusing (by omega) htwo, (Posts.single script _).comments⟩
      simp only [Watcher.turn, GateScript.input, hsent]
  | excusing ht hposts =>
    cases hsent : script.comments (log.countP GateCall.isComment - 1) with
    | true =>
      refine ⟨(⟨job, elapsed, if slack then .notifySlack else .ended⟩, []), ?_, rfl,
        hslack (by omega) hposts, hnone⟩
      simp only [Watcher.turn, GateScript.input, hsent]
    | false =>
      refine ⟨(⟨job, elapsed, .ended⟩, []), ?_, rfl, ?_, hnone⟩
      · simp only [Watcher.turn, GateScript.input, hsent]
      · rw [List.append_nil]
        exact .failed hposts
  | notifying ht hposts =>
    refine ⟨(⟨job, elapsed, .ended⟩, []), rfl, rfl, ?_, hnone⟩
    rw [List.append_nil]
    exact .failed hposts

/-! ## Phases -/

/-- Where a task on this job is after `n` turns, and the calls it has made by then. -/
inductive Phase (cfg : GateConfig) (script : GateScript) (job : ReviewJob) :
    Nat → Watcher → List GateCall → Prop
  | created : Phase cfg script job 0 { job := job } []
  /-- without a head the gate is passed at once -/
  | headless {n : Nat} {w : Watcher} : truthy job.head = false → w.job = job → w.pc = .ended →
      Phase cfg script job n w GateVerdict.pass.calls
  /-- the run was no longer `pending_ci` at the head of the loop -/
  | left {n k : Nat} {w : Watcher} : truthy job.head = true ∨ k = 0 →
      Waits cfg script.polls k → w.job = job → w.pc = .ended →
      Phase cfg script job n w (polled cfg k)
  | polling {k : Nat} : truthy job.head = true → Waits cfg script.polls k →
      Phase cfg script job (2 * k + 1) ⟨job, cfg.elapsedAt k, .polling⟩ (polled cfg (k + 1))
  | backoff {k : Nat} : truthy job.head = true → Waits cfg script.polls k →
      script.polls k = .error →
      Phase cfg script job (2 * k + 2) ⟨job, cfg.elapsedAt k, .backoff⟩ (polled cfg (k + 1))
  | sleeping {k : Nat} {runs : List CheckRun} : truthy job.head = true →
      Waits cfg script.polls k → script.polls k = .runs runs →
      afterPoll cfg (cfg.elapsedAt k) runs = .wait →
      Phase cfg script job (2 * k + 2) ⟨job, cfg.elapsedAt k, .sleeping runs⟩ (polled cfg (k + 1))
  /-- round `k` has decided -/
  | closed {n k j t : Nat} {v : GateVerdict} {st : RunStatus} {w : Watcher}
      {extra : List GateCall} : truthy job.head = true → Waits cfg script.polls k →
      watchRound cfg k (script.polls k) = some (j, st) → v.written = some st → w.job = job →
      Tail script t v w.pc extra → n ≤ 2 * k + 3 + t →
      Phase cfg script job n w (polled cfg (k + 1) ++ v.calls ++ extra)

section Turns

variable {cfg : GateConfig} {script : GateScript} {job : ReviewJob} {n : Nat} {w : Watcher}
  {log : List GateCall}

/-- A watcher keeps its job through every phase. -/
theorem Phase.job_eq (h : Phase cfg script job n w log) : w.job = job := by
  cases h with
  | created => rfl
  | polling _ _ => rfl
  | backoff _ _ _ => rfl
  | sleeping _ _ _ _ => rfl
  | headless _ hjob _ => exact hjob
  | left _ _ hjob _ => exact hjob
  | closed _ _ _ _ hjob _ _ => exact hjob

/-- A round that fails or finds CI incomplete below the cap lets the wait go on. -/
theorem Waits.succ {reports : Nat → PollOutcome} {k : Nat} (h : Waits cfg reports k)
    (hk : reports k = .error ∨ Incomplete (reports k) ∧ cfg.elapsedAt (k + 1) < cfg.cap) :
    Waits cfg reports (k + 1) := by
  intro i hi
  rcases Nat.lt_succ_iff_lt_or_eq.mp hi with hlt | rfl
  · exact h i hlt
  · exact hk

/-- The gate waits only for CI that is incomplete. -/
theorem incomplete_of_wait {e : Int} {runs : List CheckRun} (h : afterPoll cfg e runs = .wait) :
    Incomplete (.runs runs) := by
  refine ⟨runs, rfl, ?_, Sched.allCompleted_of_wait h⟩
  unfold afterPoll at h
  cases hempty : runs.isEmpty with
  | false => rfl
  | true =>
    rw [hempty] at h
    cases h

/-- Every verdict but waiting writes a status. -/
theorem written_of_ne_wait {v : GateVerdict} (h : v ≠ .wait) : ∃ st, v.written = some st := by
  cases v with
  | pass => exact ⟨_, rfl⟩
  | fail => exact ⟨_, rfl⟩
  | timeout => exact ⟨_, rfl⟩
  | wait => exact absurd rfl h

/-- What the script answers to the next poll. -/
theorem input_polling (k : Nat) :
    script.input (polled cfg (k + 1)) .polling = .polled (script.polls k) := by
  unfold GateScript.input
  rw [polls_polled]
  rfl

/-- The head of the loop at the `k`-th poll. -/
theorem loopTop_phase {k : Nat} {status : Option RunStatus} {pc : WatchPc}
    (hhead : truthy job.head = true ∨ k = 0) (hwaits : Waits cfg script.polls k) {m : Nat}
    (hm : m = 2 * k + 1) :
    Phase cfg script job m (Watcher.loopTop ⟨job, cfg.elapsedAt k, pc⟩ status).1
      (polled cfg k ++ (Watcher.loopTop ⟨job, cfg.elapsedAt k, pc⟩ status).2) := by
  subst hm
  unfold Watcher.loopTop
  by_cases hp : status = some .pendingCi
  · rw [if_pos hp]
    cases ht : truthy job.head with
    | true =>
      simp only [if_true]
      rw [← polled_succ]
      exact .polling ht hwaits
    | false =>
      have hzero : k = 0 := by
        rcases hhead with hhead | hzero
        · rw [hhead] at ht
          cases ht
        · exact hzero
      subst hzero
      exact .headless ht rfl rfl
  · rw [if_neg hp, List.append_nil]
    exact .left hhead hwaits rfl rfl

/-- **One turn** leads from a phase to the next one. -/
theorem Phase.turn (h : Phase cfg script job n w log) (hpc : w.pc ≠ .ended) (slack : Bool)
    (status : Option RunStatus) :
    ∃ m, w.turn cfg slack status (script.input log w.pc) = some m ∧
      Phase cfg script job (n + 1) m.1 (log ++ m.2) := by
  cases h with
  | headless _ _ hended => exact absurd hended hpc
  | left _ _ _ hended => exact absurd hended hpc
  | created =>
    have hstart : (0 : Int) = cfg.elapsedAt 0 := by simp [GateConfig.elapsedAt]
    refine ⟨_, rfl, ?_⟩
    rw [hstart]
    exact @loopTop_phase cfg script job 0 status .created (.inr rfl)
      (fun i hi => absurd hi (Nat.not_lt_zero i)) 1 rfl
  | @polling k hhead hwaits =>
    rw [input_polling]
    cases ho : script.polls k with
    | error =>
      refine ⟨_, rfl, ?_⟩
      rw [List.append_nil]
      exact .backoff hhead hwaits ho
    | runs runs =>
      refine ⟨_, rfl, ?_⟩
      unfold Watcher.decide
      by_cases hv : afterPoll cfg (cfg.elapsedAt k) runs = .wait
      · rw [if_pos hv, List.append_nil]
        exact .sleeping hhead hwaits ho hv
      · obtain ⟨st, hst⟩ := written_of_ne_wait hv
        rw [if_neg hv, ← List.append_nil (polled cfg (k + 1) ++ _)]
        refine @Phase.closed cfg script job _ k k 0 _ st _ _ hhead hwaits ?_ hst rfl
          (Tail.first script hv) (by omega)
        rw [ho]
        unfold watchRound
        simp only [hst]
  | @backoff k hhead hwaits ho =>
    have hnext : cfg.elapsedAt k + cfg.pollIntervalSeconds = cfg.elapsedAt (k + 1) :=
      (elapsedAt_succ cfg k).symm
    refine ⟨_, rfl, ?_⟩
    simp only [hnext]
    exact loopTop_phase (.inl hhead) (hwaits.succ (.inl ho)) rfl
  | @sleeping k runs hhead hwaits ho hwait =>
    have hnext : cfg.elapsedAt k + cfg.pollIntervalSeconds = cfg.elapsedAt (k + 1) :=
      (elapsedAt_succ cfg k).symm
    refine ⟨_, rfl, ?_⟩
    simp only [hnext]
    have hsleep := @afterSleep_of_wait cfg _ (cfg.elapsedAt (k + 1)) _ hwait
    unfold Watcher.decide
    by_cases hcap : cfg.cap ≤ cfg.elapsedAt (k + 1)
    · -- the sleep has run into the cap
      rw [if_pos hcap] at hsleep
      rw [hsleep, if_neg (by simp), ← List.append_nil (polled cfg (k + 1) ++ _)]
      refine @Phase.closed cfg script job _ k (k + 1) 0 .timeout .skipped _ _ hhead hwaits ?_ rfl
        rfl .timing (by omega)
      rw [ho]
      unfold watchRound
      simp only [hwait, hsleep]
      rfl
    · rw [if_neg hcap] at hsleep
      rw [hsleep, if_pos rfl]
      refine loopTop_phase (.inl hhead) (hwaits.succ (.inr ⟨?_, by omega⟩)) rfl
      rw [ho]
      exact incomplete_of_wait hwait
  | @closed n k j t v st w extra hhead hwaits hround hst hjob htail hn =>
    obtain ⟨m, hm, hmjob, hmtail, -⟩ := htail.turn hpc cfg slack status
      (polled cfg (k + 1) ++ v.calls ++ extra)
    refine ⟨m, hm, ?_⟩
    rw [List.append_assoc]
    exact .closed hhead hwaits hround hst (hmjob.trans hjob) hmtail (by omega)

/-- How a task that has ended went. -/
inductive Ending (cfg : GateConfig) (script : GateScript) (job : ReviewJob) : List GateCall → Prop
  | headless : truthy job.head = false → Ending cfg script job GateVerdict.pass.calls
  | left {k : Nat} : truthy job.head = true ∨ k = 0 → Waits cfg script.polls k →
      Ending cfg script job (polled cfg k)
  | decided {k j t : Nat} {v : GateVerdict} {st : RunStatus} {extra : List GateCall} :
      truthy job.head = true → Waits cfg script.polls k →
      watchRound cfg k (script.polls k) = some (j, st) → v.written = some st →
      Tail script t v .ended extra →
      Ending cfg script job (polled cfg (k + 1) ++ v.calls ++ extra)

/-- A watcher that has ended has made the calls of one of the endings. -/
theorem Phase.ending (h : Phase cfg script job n w log) (hpc : w.pc = .ended) :
    Ending cfg script job log := by
  cases h with
  | created => cases hpc
  | polling _ _ => cases hpc
  | backoff _ _ _ => cases hpc
  | sleeping _ _ _ _ => cases hpc
  | headless hhead _ _ => exact .headless hhead
  | left hhead hwaits _ _ => exact .left hhead hwaits
  | closed hhead hwaits hround hst _ htail _ =>
    rw [hpc] at htail
    exact .decided hhead hwaits hround hst htail

/-- An ended task stays in its phase. -/
theorem Phase.later (h : Phase cfg script job n w log) (hpc : w.pc = .ended) :
    Phase cfg script job (n + 1) w log := by
  cases h with
  | created => cases hpc
  | polling _ _ => cases hpc
  | backoff _ _ _ => cases hpc
  | sleeping _ _ _ _ => cases hpc
  | headless hhead hjob _ => exact .headless hhead hjob hpc
  | left hhead hwaits hjob _ => exact .left hhead hwaits hjob hpc
  | @closed n k j t v st w extra hhead hwaits hround hst hjob htail hn =>
    have hlater : Tail script (t + 1) v w.pc extra := by
      rw [hpc] at htail ⊢
      cases htail with
      | passed => exact .passed
      | timedOut => exact .timedOut
      | failed hposts => exact .failed hposts
    exact .closed hhead hwaits hround hst hjob hlater (by omega)

end Turns

namespace Sched

variable {π : Type} {cfg : SchedConfig π} {script : GateScript} {i : Nat} {job : ReviewJob}
  {touch : Sched π → Sched π → Prop} {run : Nat → Sched π × List GateCall}

/-- The `i`-th watcher has just been created, for a run that waits for CI. -/
structure Starts (i : Nat) (job : ReviewJob) (s : Sched π) : Prop where
  task : s.watchers[i]? = some { job := job }
  pending : s.table.statusOf job.runId = some .pendingCi

/-- A watcher that has decided has written the row of its run, or found it written. -/
theorem status_of_decided {s s' : Sched π} {inp : WatchInput} {es : List SchedEvent}
    {w w' : Watcher} (hw : s.watchers[i]? = some w) (h : s.watchStep cfg i inp = some (s', es))
    (hst : w.pc.undecided = false → s.table.statusOf w.job.runId ≠ some .pendingCi)
    (hw' : s'.watchers[i]? = some w') (hdecided : w'.pc.undecided = false) :
    s'.table.statusOf w.job.runId ≠ some .pendingCi := by
  obtain ⟨hi, -⟩ := List.getElem?_eq_some_iff.mp hw
  obtain ⟨w₁, hw₁, hmove⟩ := watchStep_move h
  rw [hw] at hw₁
  cases hw₁
  have hwritten : ∀ st, st ≠ RunStatus.pendingCi →
      (s.table.setStatus w.job.runId st s.now).statusOf w.job.runId ≠ some .pendingCi := by
    intro st hne hp
    rw [RunTable.statusOf_setStatus, if_pos rfl] at hp
    obtain ⟨_, _, hst⟩ := Option.map_eq_some_iff.mp hp
    exact hne hst
  cases hmove with
  | @goOn w₂ _ hjob hu _ =>
    have hself : (s.setWatcher i w₂).watchers[i]? = some w₂ := List.getElem?_set_self hi
    rw [hself] at hw'
    cases hw'
    exact hst (hu ▸ hdecided)
  | leave _ _ hgone => exact hgone
  | @pass w₂ _ hjob _ _ =>
    obtain ⟨htable, -⟩ := putBack_frame (s.writeStatus w₂.job.runId .queued) w₂.job
    show ((s.writeStatus w₂.job.runId .queued).putBack w₂.job).table.statusOf w.job.runId ≠ _
    rw [htable, hjob]
    exact hwritten .queued (by simp)
  | @close w₂ st pc _ hjob _ hst' _ =>
    show (s.table.setStatus w₂.job.runId st s.now).statusOf w.job.runId ≠ _
    rw [hjob]
    refine hwritten st ?_
    rcases hst' with rfl | rfl <;> simp

/-- **Along a run of the watcher** its task is in a phase, and when it has decided the run is not
`pending_ci` any more. -/
theorem WatchRun.phase (hrun : WatchRun cfg script i touch run)
    (htouch : ∀ s s', touch s s' → SparesTask i job.runId s s') (hstart : Starts i job (run 0).1)
    (n : Nat) :
    ∃ w, (run n).1.watchers[i]? = some w ∧ Phase cfg.gate script job n w (run n).2 ∧
      (w.pc.undecided = false → (run n).1.table.statusOf job.runId ≠ some .pendingCi) := by
  induction n with
  | zero =>
    refine ⟨{ job := job }, hstart.task, ?_, fun h => by cases h⟩
    rw [hrun.fresh]
    exact .created
  | succ n ih =>
    obtain ⟨w, hw, hphase, hst⟩ := ih
    have hjob := hphase.job_eq
    by_cases hpc : w.pc = .ended
    · obtain ⟨hlog, hothers⟩ := hrun.rest hw hpc
      have hspares := htouch _ _ hothers
      refine ⟨w, by rw [hspares.task, hw], ?_, ?_⟩
      · rw [hlog]
        exact hphase.later hpc
      · intro hdecided hp
        exact hst hdecided (hspares.pending hp)
    · obtain ⟨m, hm, hnext⟩ :=
        hphase.turn hpc cfg.slack ((run n).1.table.statusOf w.job.runId)
      obtain ⟨hlog, hothers⟩ := hrun.turn hw hm
      have hspares := htouch _ _ hothers
      have hset := @afterCalls_watchers π (run n).1 i w m hw
      refine ⟨m.1, by rw [hspares.task, hset], ?_, ?_⟩
      · rw [hlog]
        exact hnext
      · intro hdecided hp
        have hstep : (run n).1.watchStep cfg i (script.input (run n).2 w.pc) = some
            ((run n).1.afterCalls i w.job m, inputEvents w.job (script.input (run n).2 w.pc) ++
              m.2.filterMap (callEvent w.job)) := by
          rw [watchStep_eq_turn hw, hm, Option.map_some]
        rw [← hjob] at hst hp hspares
        exact status_of_decided hw hstep hst hset hdecided (hspares.pending hp)

/-- Of the calls only those that write a status change it. -/
theorem status_calls (log : List GateCall) (v : RunView) :
    (log.foldl (RunView.act job) v).status
      = (log.filterMap GateCall.status?).foldl (fun status st => status.map fun _ => st) v.status := by
  induction log generalizing v with
  | nil => rfl
  | cons c log ih =>
    rw [List.foldl_cons, ih]
    cases c with
    | poll _ => rfl
    | postComment _ => rfl
    | setStatus st => rfl
    | putBack =>
      have hback : (v.act job .putBack).status = v.status := by
        unfold RunView.act
        cases v.marked <;> rfl
      rw [hback]
      rfl

/-- Where the other tasks may do more the runs are runs still. -/
theorem WatchRun.mono {touch' : Sched π → Sched π → Prop} (h : ∀ s s', touch s s' → touch' s s')
    (hrun : WatchRun cfg script i touch run) : WatchRun cfg script i touch' run :=
  ⟨hrun.fresh, hrun.calls, fun n => h _ _ (hrun.others n)⟩

/-- What the store and the queue hold of a run nobody else touches is what the calls of its
watcher have made of it. -/
theorem WatchRun.view (hrun : WatchRun cfg script i (LeavesRun i job.runId) run)
    (hstart : Starts i job (run 0).1) (n : Nat) :
    (run n).1.view job.runId
      = (run n).2.foldl (RunView.act job) ((run 0).1.view job.runId) := by
  induction n with
  | zero =>
    rw [hrun.fresh]
    rfl
  | succ n ih =>
    obtain ⟨w, hw, hphase, -⟩ := hrun.phase (fun _ _ h => h.spares) hstart n
    have hjob := hphase.job_eq
    by_cases hpc : w.pc = .ended
    · obtain ⟨hlog, hothers⟩ := hrun.rest hw hpc
      rw [hothers.view, hlog, ih]
    · obtain ⟨m, hm, -⟩ := hphase.turn hpc cfg.slack ((run n).1.table.statusOf w.job.runId)
      obtain ⟨hlog, hothers⟩ := hrun.turn hw hm
      have hview := afterCalls_view (run n).1 i w.job m
      rw [hjob] at hview hothers
      rw [hothers.view, hlog, hview, ih, List.foldl_append]

/-- Polls leave what can be seen of the run. -/
theorem view_polled (g : GateConfig) (k : Nat) (v : RunView) :
    (polled g k).foldl (RunView.act job) v = v := by
  induction k with
  | zero => rfl
  | succ k ih =>
    rw [polled_succ, List.foldl_append, ih]
    rfl

/-- A task whose run nobody else touches does not leave its loop without a decision. -/
theorem WatchRun.not_left (hrun : WatchRun cfg script i (LeavesRun i job.runId) run)
    (hstart : Starts i job (run 0).1) {n k : Nat} (hlog : (run n).2 = polled cfg.gate k) :
    (run n).1.table.statusOf job.runId = some .pendingCi := by
  have hview := hrun.view hstart n
  rw [hlog, view_polled] at hview
  have hstatus := congrArg RunView.status hview
  exact hstatus.trans hstart.pending

end Sched

/-! ## The bound -/

/-- The report of the `k`-th poll ends the wait: there is no CI, or all check runs are completed,
or the cap is reached when the next poll is due. -/
def Settles (g : GateConfig) (k : Nat) (o : PollOutcome) : Prop :=
  ∃ runs, o = .runs runs ∧
    (runs.isEmpty = true ∨ allCompleted runs = true ∨ g.cap ≤ g.elapsedAt (k + 1))

/-- A poll settles the wait exactly when its round leads to a verdict. -/
theorem settles_iff {g : GateConfig} (hpoll : 0 < g.pollIntervalSeconds) (k : Nat)
    (o : PollOutcome) : Settles g k o ↔ watchRound g k o ≠ none := by
  rw [ne_eq, watchRound_eq_none hpoll, not_or]
  constructor
  · rintro ⟨runs, rfl, hsettled⟩
    refine ⟨by simp, ?_⟩
    rintro ⟨⟨runs', hruns', hne, hc⟩, hlt⟩
    cases hruns'
    rcases hsettled with hempty | hall | hcap
    · rw [hempty] at hne
      cases hne
    · rw [hall] at hc
      cases hc
    · omega
  · rintro ⟨herror, hwaiting⟩
    cases o with
    | error => exact absurd rfl herror
    | runs runs =>
      refine ⟨runs, rfl, ?_⟩
      cases hempty : runs.isEmpty with
      | true => exact Or.inl rfl
      | false =>
        cases hall : allCompleted runs with
        | true => exact Or.inr (Or.inl rfl)
        | false =>
          refine Or.inr (Or.inr ?_)
          by_contra hlt
          exact hwaiting ⟨⟨runs, rfl, hempty, hall⟩, by omega⟩

/-- A round that settles the wait is the last one. -/
theorem Waits.le_of_settles {g : GateConfig} (hpoll : 0 < g.pollIntervalSeconds)
    {reports : Nat → PollOutcome} {k k' : Nat} (h : Waits g reports k)
    (hsettles : Settles g k' (reports k')) : k ≤ k' := by
  by_contra hlt
  rw [settles_iff hpoll] at hsettles
  apply hsettles
  rw [watchRound_eq_none hpoll]
  exact h k' (by omega)

namespace Sched

variable {π : Type} {cfg : SchedConfig π} {script : GateScript} {i : Nat} {job : ReviewJob}
  {touch : Sched π → Sched π → Prop} {run : Nat → Sched π × List GateCall}

/-- The watcher ends, with the row no longer `pending_ci`, after at most `ceil(cap / poll) + 1`
polls. -/
def EndsInTime (g : GateConfig) (i : Nat) (r : RunId) (run : Nat → Sched π × List GateCall) :
    Prop :=
  ∃ n w, (run n).1.watchers[i]? = some w ∧ w.pc = .ended ∧
    (run n).1.table.statusOf r ≠ some .pendingCi ∧
    (run n).2.countP GateCall.isPoll ≤ g.capPolls + 1

/-- A phase after the round that settles the wait is over. -/
theorem phase_ended (hpoll : 0 < cfg.gate.pollIntervalSeconds) {k₀ n : Nat} {w : Watcher}
    {log : List GateCall} (hsettles : Settles cfg.gate k₀ (script.polls k₀))
    (h : Phase cfg.gate script job n w log) (hn : n = 2 * k₀ + 9) : w.pc = .ended := by
  have hle : ∀ k, Waits cfg.gate script.polls k → k ≤ k₀ :=
    fun k hwaits => hwaits.le_of_settles hpoll hsettles
  cases h with
  | created => omega
  | headless _ _ hpc => exact hpc
  | left _ _ _ hpc => exact hpc
  | @polling k _ hwaits =>
    have := hle k hwaits
    omega
  | @backoff k _ hwaits _ => omega
  | @sleeping k _ _ hwaits _ _ => omega
  | @closed n k j t v st w extra _ hwaits _ _ _ htail hbound =>
    have := hle k hwaits
    exact htail.ended.2 (by omega)

/-- A watcher without a head has ended after its first turn. -/
theorem phase_ended_headless {n : Nat} {w : Watcher} {log : List GateCall}
    (hhead : truthy job.head = false) (h : Phase cfg.gate script job (n + 1) w log) :
    w.pc = .ended := by
  have hno : ¬ truthy job.head = true := by simp [hhead]
  generalize hm : n + 1 = m at h
  cases h with
  | created => omega
  | headless _ _ hpc => exact hpc
  | left _ _ _ hpc => exact hpc
  | polling hhead _ => exact absurd hhead hno
  | backoff hhead _ _ => exact absurd hhead hno
  | sleeping hhead _ _ _ => exact absurd hhead hno
  | closed hhead _ _ _ _ _ _ => exact absurd hhead hno

/-- A wait settled in round `k` has polled `k + 1` times. -/
theorem polls_closed {k : Nat} {v : GateVerdict} {pc : WatchPc} {t : Nat} {extra : List GateCall}
    (g : GateConfig) (htail : Tail script t v pc extra) :
    (polled g (k + 1) ++ v.calls ++ extra).countP GateCall.isPoll = k + 1 := by
  have hcalls : v.calls.countP GateCall.isPoll = 0 := by
    cases v <;> rfl
  have hextra : extra.countP GateCall.isPoll = 0 := by
    rw [List.countP_eq_zero]
    intro c hc hpoll
    have hcomment := htail.comments c hc
    cases c with
    | poll _ => cases hcomment
    | setStatus _ => cases hpoll
    | putBack => cases hpoll
    | postComment _ => cases hpoll
  rw [List.countP_append, List.countP_append, polls_polled, hcalls, hextra]

/-- The polls of a task that has ended, from a bound on the rounds it has waited. -/
theorem polls_of_ending {g : GateConfig} {log : List GateCall} (h : Ending g script job log)
    {m : Nat} (hle : truthy job.head = true → ∀ k, Waits g script.polls k → k ≤ m) :
    log.countP GateCall.isPoll ≤ m + 1 := by
  cases h with
  | headless _ => exact Nat.zero_le _
  | @left k hhead hwaits =>
    rw [polls_polled]
    rcases hhead with hhead | rfl
    · have := hle hhead k hwaits
      omega
    · exact Nat.zero_le _
  | @decided k j t v st extra hhead hwaits _ _ htail =>
    rw [polls_closed g htail]
    have := hle hhead k hwaits
    omega

/-- A task that nobody disturbs has ended in the round that decides. -/
theorem WatchRun.decided (hrun : WatchRun cfg script i (LeavesRun i job.runId) run)
    (hstart : Starts i job (run 0).1) (hhead : truthy job.head = true) {n : Nat} {w : Watcher}
    (hw : (run n).1.watchers[i]? = some w) (hpc : w.pc = .ended) :
    ∃ k j t v st extra, Waits cfg.gate script.polls k ∧
      watchRound cfg.gate k (script.polls k) = some (j, st) ∧ v.written = some st ∧
      Tail script t v .ended extra ∧
      (run n).2 = polled cfg.gate (k + 1) ++ v.calls ++ extra := by
  obtain ⟨w', hw', hphase, hst⟩ := hrun.phase (fun _ _ h => h.spares) hstart n
  rw [hw] at hw'
  cases hw'
  have hgone := hst (by rw [hpc]; rfl)
  have hending := hphase.ending hpc
  generalize hlog : (run n).2 = log at hending
  cases hending with
  | headless hno =>
    rw [hhead] at hno
    cases hno
  | left _ _ => exact absurd (hrun.not_left hstart hlog) hgone
  | @decided k j t v st extra _ hwaits hround hwritten htail =>
    exact ⟨k, j, t, v, st, extra, hwaits, hround, hwritten, htail, rfl⟩

/-- A task that has ended after `n` turns, within the rounds before the cap, has ended in time. -/
theorem WatchRun.endsInTime (hrun : WatchRun cfg script i (SparesTask i job.runId) run)
    (hstart : Starts i job (run 0).1) {n : Nat}
    (hended : ∀ w log, Phase cfg.gate script job n w log → w.pc = .ended)
    (hle : truthy job.head = true → ∀ k, Waits cfg.gate script.polls k → k ≤ cfg.gate.capPolls) :
    EndsInTime cfg.gate i job.runId run := by
  obtain ⟨w, hw, hphase, hst⟩ := hrun.phase (fun _ _ h => h) hstart n
  have hpc := hended w _ hphase
  exact ⟨n, w, hw, hpc, hst (by rw [hpc]; rfl), polls_of_ending (hphase.ending hpc) hle⟩

/-- **The wait is bounded exactly where a poll settles it in time**: one of the first
`ceil(cap / poll) + 1` polls returns, without check runs, or with all of them completed, or when
the next poll is due at the cap or later. Polls that raise settle nothing. -/
theorem ends_in_time_iff (cfg : SchedConfig π) (script : GateScript) (i : Nat) (job : ReviewJob)
    (s : Sched π) (hpoll : 0 < cfg.gate.pollIntervalSeconds) (hstart : Starts i job s) :
    (∀ run, WatchRun cfg script i (SparesTask i job.runId) run → (run 0).1 = s →
        EndsInTime cfg.gate i job.runId run) ↔
      (truthy job.head = true →
        ∃ k ≤ cfg.gate.capPolls, Settles cfg.gate k (script.polls k)) := by
  constructor
  · intro hall hhead
    have hrun := @ownTurns_watchRun π cfg script i (LeavesRun i job.runId)
      (fun _ => ⟨rfl, rfl⟩) s
    generalize hown : ownTurns cfg script i s = run at hrun
    have hfirst : (run 0).1 = s := by
      rw [← hown]
      rfl
    rw [← hfirst] at hstart
    obtain ⟨n, w, hw, hpc, -, hpolls⟩ := hall run (hrun.mono fun _ _ h => h.spares) hfirst
    obtain ⟨k, j, t, v, st, extra, -, hround, -, htail, hlog⟩ :=
      hrun.decided hstart hhead hw hpc
    rw [hlog, polls_closed cfg.gate htail] at hpolls
    refine ⟨k, by omega, (settles_iff hpoll k _).mpr ?_⟩
    rw [hround]
    simp
  · intro hcond run hrun hfirst
    rw [← hfirst] at hstart
    cases hhead : truthy job.head with
    | false =>
      apply hrun.endsInTime hstart
      · exact fun w log hphase => phase_ended_headless (n := 0) hhead hphase
      · intro htrue
        rw [hhead] at htrue
        cases htrue
    | true =>
      obtain ⟨k₀, hk₀, hsettles⟩ := hcond hhead
      apply hrun.endsInTime hstart
      · exact fun w log hphase => phase_ended hpoll hsettles hphase rfl
      · exact fun _ k hwaits => Nat.le_trans (hwaits.le_of_settles hpoll hsettles) hk₀

/-- A watcher whose polls all raise never ends. -/
theorem WatchRun.not_ended_of_errors (hrun : WatchRun cfg script i (LeavesRun i job.runId) run)
    (hstart : Starts i job (run 0).1) (hhead : truthy job.head = true)
    (herrors : ∀ k, script.polls k = .error) {n : Nat} {w : Watcher}
    (hw : (run n).1.watchers[i]? = some w) : w.pc ≠ .ended := by
  intro hpc
  obtain ⟨k, j, t, v, st, extra, -, hround, -⟩ := hrun.decided hstart hhead hw hpc
  rw [herrors] at hround
  cases hround

/-- A service with the default gate, one worker and no Slack. -/
def plainConfig : SchedConfig Unit :=
  ⟨{}, false, 3, 1, ()⟩

/-- The decision on a pull request that was opened. -/
def openedDecision : Decision where
  action := .enqueue
  owner := some "acme"
  repo := some "app"
  pr := some 1
  head := some "abc123"

/-- A pull request has been enqueued, and its watcher is about to run. -/
def oneWaiting : Sched Unit :=
  ((Sched.new.boot plainConfig).enqueue "r1" openedDecision .webhook).1

/-- The job that decision enqueues. -/
def waitingJob : ReviewJob :=
  jobOf "r1" openedDecision "acme" "app" .webhook

/-- Its watcher is about to start. -/
theorem oneWaiting_starts : Starts 0 waitingJob oneWaiting :=
  ⟨by decide, by decide⟩

/-- Every poll raises. -/
def allErrors : GateScript :=
  ⟨fun _ => .error, none, fun _ => true, true⟩

/-- **A watcher that waits beyond the cap**: while every poll raises it does not end. -/
theorem errors_wait_forever :
    ¬ ∀ (script : GateScript) (i : Nat) (job : ReviewJob) (s : Sched Unit)
      (run : Nat → Sched Unit × List GateCall), Starts i job s →
      WatchRun plainConfig script i (SparesTask i job.runId) run → (run 0).1 = s →
      EndsInTime plainConfig.gate i job.runId run := by
  intro hall
  have hrun := @ownTurns_watchRun Unit plainConfig allErrors 0 (LeavesRun 0 waitingJob.runId)
    (fun _ => ⟨rfl, rfl⟩) oneWaiting
  obtain ⟨n, w, hw, hpc, -⟩ := hall allErrors 0 waitingJob oneWaiting _ oneWaiting_starts
    (hrun.mono fun _ _ h => h.spares) rfl
  exact hrun.not_ended_of_errors oneWaiting_starts (by decide) (fun _ => rfl) hw hpc

/-- One check run in progress at the first poll, and no CI trouble later. -/
def greenScript : GateScript :=
  ⟨greenAtSecondPoll, none, fun _ => true, true⟩

/-- On a pull request whose CI turns green the wait ends in time. -/
theorem ends_in_time_iff_green :
    (∀ run, WatchRun plainConfig greenScript 0 (SparesTask 0 waitingJob.runId) run →
        (run 0).1 = oneWaiting → EndsInTime plainConfig.gate 0 waitingJob.runId run) ↔
      (truthy waitingJob.head = true →
        ∃ k ≤ plainConfig.gate.capPolls, Settles plainConfig.gate k (greenScript.polls k)) :=
  ends_in_time_iff plainConfig greenScript 0 waitingJob oneWaiting (by decide) oneWaiting_starts

/-- An ended task makes no more calls. -/
theorem WatchRun.calls_after (hrun : WatchRun cfg script i (LeavesRun i job.runId) run) {n : Nat}
    {w : Watcher} (hw : (run n).1.watchers[i]? = some w) (hpc : w.pc = .ended) (d : Nat) :
    (run (n + d)).1.watchers[i]? = some w ∧ (run (n + d)).2 = (run n).2 := by
  induction d with
  | zero => exact ⟨hw, rfl⟩
  | succ d ih =>
    obtain ⟨hw', hlog'⟩ := ih
    obtain ⟨hlog, hothers⟩ := hrun.rest hw' hpc
    exact ⟨hothers.task.trans hw', hlog.trans hlog'⟩

end Sched

/-! ## The outcome of a wait without errors -/

/-- The status a wait on these reports ends with: what the first poll below the cap with all check
runs completed says, or `skipped`. -/
def waitOutcome (g : GateConfig) (runs : Nat → List CheckRun) : RunStatus :=
  match (List.range g.capPolls).find? fun k => allCompleted (runs k) with
  | some k => if anyFailed (runs k) then .ciFailed else .queued
  | none => .skipped

/-- All that a watcher calls in a wait that ends with this status. -/
structure WaitResult (g : GateConfig) (st : RunStatus) (log : List GateCall) : Prop where
  polls : ∃ m ≤ g.capPolls, log.filter GateCall.isPoll = polled g m
  below : ∀ e, .poll e ∈ log → e < g.cap
  written : log.filterMap GateCall.status? = [st]
  putBacks : log.count .putBack = if st = .queued then 1 else 0
  comments : log.countP GateCall.isComment = if st = .queued then 0 else 1

/-- The calls of an ended task whose comments are all posted. -/
theorem Tail.posted {script : GateScript} (hposts : ∀ n, script.comments n = true) {t : Nat}
    {v : GateVerdict} {extra : List GateCall} (h : Tail script t v .ended extra) :
    v = .pass ∧ extra = [] ∨ v = .timeout ∧ extra = [] ∨
      v = .fail ∧ ∃ body, extra = [.postComment body] := by
  cases h with
  | passed => exact Or.inl ⟨rfl, rfl⟩
  | timedOut => exact Or.inr (Or.inl ⟨rfl, rfl⟩)
  | failed hextra =>
    refine Or.inr (Or.inr ⟨rfl, ?_⟩)
    obtain ⟨c, rfl⟩ := List.length_eq_one_iff.mp (hextra.one hposts)
    have hc := hextra.comments c (List.mem_singleton_self c)
    cases c with
    | postComment body => exact ⟨body, rfl⟩
    | poll _ => cases hc
    | setStatus _ => cases hc
    | putBack => cases hc

/-- The calls of a verdict and the comments after it, when all of them are posted. -/
theorem Tail.outcome {script : GateScript} (hposts : ∀ n, script.comments n = true) {t : Nat}
    {v : GateVerdict} {st : RunStatus} {extra : List GateCall} (hst : v.written = some st)
    (h : Tail script t v .ended extra) :
    (v.calls ++ extra).filter GateCall.isPoll = [] ∧
      (v.calls ++ extra).filterMap GateCall.status? = [st] ∧
      ((v.calls ++ extra).count .putBack = if st = .queued then 1 else 0) ∧
      (v.calls ++ extra).countP GateCall.isComment = if st = .queued then 0 else 1 := by
  rcases h.posted hposts with ⟨rfl, rfl⟩ | ⟨rfl, rfl⟩ | ⟨rfl, body, rfl⟩ <;>
    (cases hst; simp [GateVerdict.calls, GateCall.isPoll, GateCall.status?, GateCall.isComment])

/-- What a verdict and a comment after a failure add to the polls. -/
theorem waitResult_of_tail {g : GateConfig} (hpoll : 0 < g.pollIntervalSeconds)
    {script : GateScript} (hposts : ∀ n, script.comments n = true) {k t : Nat} {v : GateVerdict}
    {st : RunStatus} {extra : List GateCall} (hk : k < g.capPolls) (hst : v.written = some st)
    (h : Tail script t v .ended extra) :
    WaitResult g st (polled g (k + 1) ++ v.calls ++ extra) := by
  obtain ⟨hpolls, hstatus, hback, hcomments⟩ := h.outcome hposts hst
  rw [List.append_assoc]
  generalize v.calls ++ extra = calls at *
  refine ⟨⟨k + 1, hk, ?_⟩, ?_, ?_, ?_, ?_⟩
  · rw [List.filter_append, filter_polled, hpolls, List.append_nil]
  · intro e he
    rcases List.mem_append.mp he with he | he
    · obtain ⟨j, hj, heq⟩ := mem_polled he
      cases heq
      exact (GateConfig.lt_capPolls hpoll).mp (by omega)
    · -- after a verdict there are no more polls
      have hmem : GateCall.poll e ∈ calls.filter GateCall.isPoll := List.mem_filter.mpr ⟨he, rfl⟩
      rw [hpolls] at hmem
      cases hmem
  · rw [List.filterMap_append, status_polled, hstatus, List.nil_append]
  · rw [List.count_append, putBacks_polled, hback, Nat.zero_add]
  · rw [List.countP_append, comments_polled, hcomments, Nat.zero_add]

section Outcome

variable {g : GateConfig} {runs : Nat → List CheckRun} {k : Nat}

/-- A wait without errors has polled below the cap only. -/
theorem lt_capPolls_of_waits (hcap : 0 < g.cap) (hpoll : 0 < g.pollIntervalSeconds)
    (hwaits : Waits g (fun k => .runs (runs k)) k) : k < g.capPolls := by
  rw [GateConfig.lt_capPolls hpoll]
  cases k with
  | zero =>
    unfold GateConfig.elapsedAt
    simpa using hcap
  | succ k =>
    rcases hwaits k (Nat.lt_succ_self k) with herror | ⟨-, hlt⟩
    · cases herror
    · exact hlt

/-- **The round that decides writes the outcome.** -/
theorem written_eq_waitOutcome (hcap : 0 < g.cap) (hpoll : 0 < g.pollIntervalSeconds)
    (hruns : ∀ k, runs k ≠ []) (hwaits : Waits g (fun k => .runs (runs k)) k) {j : Nat}
    {st : RunStatus} (hround : watchRound g k (.runs (runs k)) = some (j, st)) :
    st = waitOutcome g runs := by
  have hk := lt_capPolls_of_waits hcap hpoll hwaits
  have hbefore : ∀ i < k, allCompleted (runs i) = false := by
    intro i hi
    rcases hwaits i hi with herror | ⟨⟨runs', hruns', -, hc⟩, -⟩
    · cases herror
    · cases hruns'
      exact hc
  have hempty : (runs k).isEmpty = false := by
    rw [List.isEmpty_eq_false_iff]
    exact hruns k
  cases hc : allCompleted (runs k) with
  | true =>
    have hfirst : (List.range g.capPolls).find? (fun k => allCompleted (runs k)) = some k := by
      rw [List.find?_range_eq_some]
      refine ⟨hc, List.mem_range.mpr hk, ?_⟩
      intro i hi
      rw [hbefore i hi]
      rfl
    rw [watchRound_completed k hempty hc] at hround
    unfold waitOutcome
    rw [hfirst]
    exact (Prod.mk.inj (Option.some.inj hround)).2.symm
  | false =>
    have hincomplete : Incomplete (.runs (runs k)) := ⟨runs k, rfl, hempty, hc⟩
    have hlast : g.cap ≤ g.elapsedAt (k + 1) := by
      by_contra hlt
      rw [(watchRound_eq_none hpoll k _).mpr (.inr ⟨hincomplete, by omega⟩)] at hround
      cases hround
    have hnever : (List.range g.capPolls).find? (fun k => allCompleted (runs k)) = none := by
      rw [List.find?_range_eq_none]
      intro i hi
      have hle : ¬ k + 1 < g.capPolls := by
        rw [GateConfig.lt_capPolls hpoll]
        omega
      rcases Nat.lt_or_eq_of_le (show i ≤ k by omega) with hlt | rfl
      · rw [hbefore i hlt]
        rfl
      · rw [hc]
        rfl
    unfold waitOutcome
    rw [hnever]
    rw [watchRound_incomplete k hincomplete] at hround
    split_ifs at hround
    · exact (Prod.mk.inj (Option.some.inj hround)).2.symm
    · exact (Prod.mk.inj (Option.some.inj hround)).2.symm

end Outcome

namespace Sched

variable {π : Type}

/-- The watcher ends with the outcome of these reports, its calls are those of `WaitResult`, and
the store and the queue hold of its run what these calls leave. -/
def EndsWithOutcome (g : GateConfig) (runs : Nat → List CheckRun) (i : Nat) (job : ReviewJob)
    (run : Nat → Sched π × List GateCall) : Prop :=
  ∃ n w, (run n).1.watchers[i]? = some w ∧ w.pc = .ended ∧
    (∀ d, (run (n + d)).2 = (run n).2) ∧ WaitResult g (waitOutcome g runs) (run n).2 ∧
    (run n).1.view job.runId = (run n).2.foldl (RunView.act job) ((run 0).1.view job.runId) ∧
    (run n).1.table.statusOf job.runId = some (waitOutcome g runs)

/-- **The outcome of a wait without errors.** The watcher ends; by then it has polled at `0`,
`poll`, `2 * poll`, and so on below the cap, written the outcome once, put the job back exactly
if that is `queued`, and posted one comment otherwise. -/
theorem errorFree_wait (cfg : SchedConfig π) (runs : Nat → List CheckRun) (logs : Option String)
    (slack : Bool) (i : Nat) (job : ReviewJob) (run : Nat → Sched π × List GateCall)
    (hcap : 0 < cfg.gate.cap) (hpoll : 0 < cfg.gate.pollIntervalSeconds)
    (hruns : ∀ k, runs k ≠ []) (hhead : truthy job.head = true)
    (hstart : Starts i job (run 0).1)
    (hrun : WatchRun cfg ⟨fun k => .runs (runs k), logs, fun _ => true, slack⟩ i
      (LeavesRun i job.runId) run) :
    EndsWithOutcome cfg.gate runs i job run := by
  have hpos : 0 < cfg.gate.capPolls := by
    rw [GateConfig.lt_capPolls hpoll]
    unfold GateConfig.elapsedAt
    simpa using hcap
  -- the last poll below the cap settles the wait at the latest
  have hsettles : Settles cfg.gate (cfg.gate.capPolls - 1) (.runs (runs (cfg.gate.capPolls - 1))) := by
    refine ⟨_, rfl, Or.inr (Or.inr ?_)⟩
    have hlast : ¬ cfg.gate.capPolls - 1 + 1 < cfg.gate.capPolls := by omega
    rw [GateConfig.lt_capPolls hpoll] at hlast
    omega
  obtain ⟨w, hw, hphase, -⟩ :=
    hrun.phase (fun _ _ h => h.spares) hstart (2 * (cfg.gate.capPolls - 1) + 9)
  have hpc := phase_ended hpoll hsettles hphase rfl
  refine ⟨2 * (cfg.gate.capPolls - 1) + 9, w, hw, hpc,
    fun d => (hrun.calls_after hw hpc d).2, ?_⟩
  have hview := hrun.view hstart (2 * (cfg.gate.capPolls - 1) + 9)
  obtain ⟨k, j, t, v, st, extra, hwaits, hround, hwritten, htail, hlog⟩ :=
    hrun.decided hstart hhead hw hpc
  generalize 2 * (cfg.gate.capPolls - 1) + 9 = n at *
  have hresult : WaitResult cfg.gate (waitOutcome cfg.gate runs) (run n).2 := by
    rw [hlog, ← written_eq_waitOutcome hcap hpoll hruns hwaits hround]
    exact waitResult_of_tail hpoll (fun _ => rfl)
      (lt_capPolls_of_waits hcap hpoll hwaits) hwritten htail
  refine ⟨hresult, hview, ?_⟩
  calc (run n).1.table.statusOf job.runId
      = ((run n).2.foldl (RunView.act job) ((run 0).1.view job.runId)).status :=
        congrArg RunView.status hview
    _ = ((run 0).1.table.statusOf job.runId).map fun _ => waitOutcome cfg.gate runs := by
        rw [status_calls, hresult.written]
        rfl
    _ = some (waitOutcome cfg.gate runs) := by
        rw [hstart.pending]
        rfl

/-- One check run, in progress at the first poll and successful from then on. -/
def greenRuns : Nat → List CheckRun
  | 0 => [CheckRun.ofApi "build" "in_progress" none]
  | _ + 1 => [CheckRun.ofApi "build" "completed" (some "success")]

/-- On the same pull request the error-free wait ends with its outcome. -/
theorem errorFree_wait_green :
    EndsWithOutcome plainConfig.gate greenRuns 0 waitingJob
      (ownTurns plainConfig ⟨fun k => .runs (greenRuns k), none, fun _ => true, true⟩ 0
        oneWaiting) := by
  refine errorFree_wait plainConfig greenRuns none true 0 waitingJob _ (by decide) (by decide) ?_
    (by decide) oneWaiting_starts (ownTurns_watchRun (fun _ => ⟨rfl, rfl⟩) oneWaiting)
  intro k
  cases k <;> simp [greenRuns]

end Sched

end PrReviewer.Model
