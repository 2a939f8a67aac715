import PrReviewer.Analysis.TriggerHistory
import PrReviewer.Model.Backfill

/-!
# What the backfill covers

The sweep shows the trigger every open pull request as one that has just been opened. The
trigger takes such an event from its author only: a request for review counts in an event of its
own. So a visit adds the run of its head exactly if the author is the self account.
-/

set_option autoImplicit false

namespace PrReviewer.Model

/-- The sweep does not pass over the entry: it has a number and a head, and is not closed. -/
structure OpenPr.Open (p : OpenPr) : Prop where
  number : prTruthy p.number = true
  head : truthy p.head = true
  state : p.state ≠ some "closed" ∧ p.state ≠ some "merged"

/-- There is a run for the head of this pull request. -/
def RunTable.Covers (t : RunTable) (spec : RepoSpec) (p : OpenPr) : Prop :=
  t.hasRunForHead spec.owner spec.repo (p.number.getD 0) (orEmpty p.head) = true

/-- Two entries with the same repository, number and head. -/
def SameHead (v w : RepoSpec × OpenPr) : Prop :=
  v.1.owner = w.1.owner ∧ v.1.repo = w.1.repo ∧ v.2.number.getD 0 = w.2.number.getD 0 ∧
    orEmpty v.2.head = orEmpty w.2.head

namespace App

variable {cfg : AppConfig} {s s' : App} {spec : RepoSpec} {p : OpenPr} {r : RunId}
  {es : List AppEvent}

/-- The trigger takes the event the sweep makes of this pull request. -/
def Taken (cfg : AppConfig) (v : RepoSpec × OpenPr) : Prop :=
  v.2.Open ∧ cfg.trigger.Accepts (v.2.event v.1.owner v.1.repo)

/-- Which events of the sweep the trigger takes. -/
theorem accepts_openPr_iff (hself : cfg.selfAccount ≠ "") :
    cfg.trigger.Accepts (p.event spec.owner spec.repo) ↔
      (p.state ≠ some "closed" ∧ p.state ≠ some "merged") ∧ p.author = some cfg.selfAccount ∧
        cfg.config.isManaged spec.owner spec.repo = true ∧
        cfg.config.isDenied spec.owner spec.repo = false := by
  have hopened : cfg.trigger.concernsSelf (p.event spec.owner spec.repo) = true ↔
      p.author = some cfg.selfAccount := by
    simp [TriggerDecisionEngine.concernsSelf, OpenPr.event, AppConfig.trigger]
  constructor
  · intro h
    refine ⟨?_, ?_, h.managed, h.allowed⟩
    · have hopen := h.isOpen
      simpa [NormalizedEvent.closesPr, OpenPr.event] using hopen
    · rcases h.concerns with hempty | hconcerns
      · exact absurd hempty hself
      · exact hopened.mp hconcerns
  · rintro ⟨hstate, hauthor, hmanaged, hallowed⟩
    refine ⟨?_, ?_, Or.inr (hopened.mpr hauthor), hmanaged, hallowed⟩
    · simpa [NormalizedEvent.closesPr, OpenPr.event] using hstate
    · simp [OpenPr.event]

/-- An enabled entry of the configuration is managed. -/
theorem managed_of_enabled {config : Config} (h : spec ∈ config.enabledRepos) :
    config.isManaged spec.owner spec.repo = true := by
  obtain ⟨hmem, henabled⟩ := List.mem_filter.mp h
  exact List.any_eq_true.mpr ⟨spec, hmem, by simp [henabled]⟩

/-- The decision about an event of the sweep. -/
theorem decide_openPr (cfg : AppConfig) (spec : RepoSpec) (p : OpenPr) :
    (cfg.trigger.Accepts (p.event spec.owner spec.repo) ∧
        cfg.trigger.decide (p.event spec.owner spec.repo) =
          { action := .enqueue, owner := spec.owner, repo := spec.repo, pr := p.number,
            head := p.head }) ∨
      ¬ cfg.trigger.Accepts (p.event spec.owner spec.repo) ∧
        (cfg.trigger.decide (p.event spec.owner spec.repo)).action ≠ .enqueue := by
  have hdecide := cfg.trigger.decide_cases (p.event spec.owner spec.repo)
  generalize cfg.trigger.decide (p.event spec.owner spec.repo) = d at hdecide
  cases hdecide with
  | command hc _ _ => simp [OpenPr.event] at hc
  | noCommand hc _ _ => simp [OpenPr.event] at hc
  | ci _ hci => simp [NormalizedEvent.completesCi, OpenPr.event] at hci
  | accepted _ _ haccepts => exact Or.inl ⟨haccepts, rfl⟩
  | rejected _ _ hno hcause =>
    refine Or.inr ⟨hno, fun haction => ?_⟩
    simp [Decision.cause?, haction] at hcause

/-! ## One visit -/

/-- A run for a head that has none is stored behind the others. -/
theorem enqueue_rows {c : Sched ExecPc} {d : Decision} {owner repo : String} {number : Int}
    (ho : d.owner = some owner) (hr : d.repo = some repo) (hn : d.pr = some number)
    (hfresh : ∀ row ∈ c.table.rows, row.runId ≠ r)
    (hnew : c.table.hasRunForHead owner repo number (orEmpty d.head) = false) :
    (c.enqueue r d .webhook).1.table.rows =
      c.table.rows ++
        [RunTable.rowOf (Sched.jobOf r d owner repo .webhook) number c.now] := by
  have hins : c.table.insertRun (Sched.jobOf r d owner repo .webhook) c.now =
      c.table.insertRow (RunTable.rowOf (Sched.jobOf r d owner repo .webhook) number c.now) := by
    simp only [RunTable.insertRun, Sched.jobOf, hn]
  rcases RunTable.insertRow_cases c.table
      (RunTable.rowOf (Sched.jobOf r d owner repo .webhook) number c.now) with
    ⟨hb, hrows, -⟩ | ⟨-, -, hold⟩
  · unfold Sched.enqueue
    simp only [ho, hr]
    rw [hins]
    cases hres : c.table.insertRow
        (RunTable.rowOf (Sched.jobOf r d owner repo .webhook) number c.now) with
    | mk table inserted =>
      rw [hres] at hb hrows
      cases hb
      exact hrows
  · -- neither the primary key nor the dedup key is taken
    exfalso
    rcases hold with hid | hclash
    · obtain ⟨row, hrow, heq⟩ := List.mem_map.mp hid
      exact hfresh row hrow heq
    · rw [RunTable.clashes, Option.any_eq_true] at hclash
      obtain ⟨k, hk, hmem⟩ := hclash
      rw [List.contains_iff_mem, List.mem_filterMap] at hmem
      obtain ⟨row, hrow, hrk⟩ := hmem
      obtain ⟨model, -, rfl⟩ := Option.map_eq_some_iff.mp hrk
      have hk : (owner, repo, number, orEmpty d.head, orEmpty d.model) =
          (row.owner, row.repo, row.pr, row.head, model) := Option.some.inj hk
      simp only [Prod.mk.injEq] at hk
      obtain ⟨h₁, h₂, h₃, h₄, -⟩ := hk
      rw [RunTable.hasRunForHead, List.any_eq_false] at hnew
      exact hnew row hrow (by simp [h₁, h₂, h₃, h₄])

/-- **A visit** adds the run of the head if the trigger takes its event, and no other. -/
theorem backfillPr_covers (hfresh : ∀ row ∈ s.core.table.rows, row.runId ≠ r)
    (hstep : s.backfillPr cfg spec p r = some (s', es)) (w : RepoSpec × OpenPr) :
    s'.core.table.Covers w.1 w.2 ↔
      s.core.table.Covers w.1 w.2 ∨ (Taken cfg (spec, p) ∧ SameHead (spec, p) w) := by
  by_cases hguard : backfills cfg s.core.table spec p = true
  · have hrun : s.backfillPr cfg spec p r =
        s.dispatchEvent cfg (p.event spec.owner spec.repo) r := if_pos hguard
    rw [hrun] at hstep
    simp only [backfills, Bool.and_eq_true, beq_iff_eq, Bool.not_eq_true'] at hguard
    obtain ⟨⟨⟨hnumber, hhead⟩, hnew⟩, haction⟩ := hguard
    rcases decide_openPr cfg spec p with ⟨haccepts, hdecide⟩ | ⟨-, hno⟩
    · have hnot := haccepts.isOpen
      have hstate : p.state ≠ some "closed" ∧ p.state ≠ some "merged" := by
        simpa [NormalizedEvent.closesPr, OpenPr.event] using hnot
      obtain ⟨number, hn⟩ : ∃ number, p.number = some number := by
        cases hp : p.number with
        | none => simp [hp, prTruthy] at hnumber
        | some number => exact ⟨number, rfl⟩
      cases dispatchEvent_case s.dispatches hstep with
      | @enqueue dispatches cause hcause _ _ =>
        have hweb : cause = .webhook := by
          rw [hdecide] at hcause
          exact (Option.some.inj hcause).symm
        subst hweb
        have howner : (cfg.trigger.decide (p.event spec.owner spec.repo)).owner = some spec.owner := by
          rw [hdecide]
        have hrepo : (cfg.trigger.decide (p.event spec.owner spec.repo)).repo = some spec.repo := by
          rw [hdecide]
        have hpr : (cfg.trigger.decide (p.event spec.owner spec.repo)).pr = some number := by
          rw [hdecide]
          exact hn
        have hrows := enqueue_rows (c := s.core) (r := r) howner hrepo hpr hfresh
          (by rw [hdecide]; simpa [hn] using hnew)
        simp only [RunTable.Covers, RunTable.hasRunForHead, hrows, List.any_append, List.any_cons,
          List.any_nil, Bool.or_false, Bool.or_eq_true]
        refine or_congr Iff.rfl ?_
        simp [RunTable.rowOf, Sched.jobOf, hdecide, Taken, SameHead, haccepts, hn, and_assoc,
          OpenPr.Open.mk hnumber hhead hstate]
      | drop hcause _ =>
        rw [hdecide] at hcause
        cases hcause
    · exact absurd haction hno
  · have hrun : s.backfillPr cfg spec p r = some (s, []) := if_neg hguard
    rw [hrun] at hstep
    cases hstep
    refine ⟨Or.inl, ?_⟩
    rintro (hold | ⟨⟨hopen, haccepts⟩, howner, hrepo, hnumber, hhead⟩)
    · exact hold
    · -- the trigger would take the event, so the head has a run
      rcases decide_openPr cfg spec p with ⟨-, hdecide⟩ | ⟨hno, -⟩
      · by_contra hnew
        refine hguard ?_
        unfold RunTable.Covers at hnew
        simp only at howner hrepo hnumber hhead
        rw [Bool.not_eq_true, ← howner, ← hrepo, ← hnumber, ← hhead] at hnew
        simp [backfills, hopen.number, hopen.head, hnew, hdecide]
      · exact absurd haccepts hno

/-! ## The sweep -/

/-- Run ids that `uuid4` may still draw. -/
structure FreshIds (s : App) (ids : List RunId) : Prop where
  nodup : ids.Nodup
  undrawn : ∀ r ∈ ids, r ∉ s.core.issued
  unused : ∀ r ∈ ids, ∀ row ∈ s.core.table.rows, row.runId ≠ r

/-- A visit can be made while the process is up, and uses up at most its own run id. -/
theorem exists_backfillPr (cfg : AppConfig) (spec : RepoSpec) (p : OpenPr) {ids : List RunId}
    (hup : s.core.up = true) (hids : s.FreshIds (r :: ids)) :
    ∃ s' es, s.backfillPr cfg spec p r = some (s', es) ∧ s'.core.up = true ∧ s'.FreshIds ids := by
  obtain ⟨hnodup, hundrawn, hunused⟩ := hids
  obtain ⟨hr, hnodup⟩ := List.nodup_cons.mp hnodup
  have hrest : s.FreshIds ids :=
    ⟨hnodup, fun x hx => hundrawn x (List.mem_cons_of_mem _ hx),
      fun x hx => hunused x (List.mem_cons_of_mem _ hx)⟩
  by_cases hguard : backfills cfg s.core.table spec p = true
  · have hrun : s.backfillPr cfg spec p r =
        s.dispatchEvent cfg (p.event spec.owner spec.repo) r := if_pos hguard
    obtain ⟨s', es, hstep, -, hup'⟩ := dispatchEvent_isSome cfg (p.event spec.owner spec.repo) hup
      (hundrawn r List.mem_cons_self)
    refine ⟨s', es, hrun.trans hstep, hup', ?_⟩
    cases dispatchEvent_case s.dispatches hstep with
    | drop _ _ => exact ⟨hrest.nodup, hrest.undrawn, hrest.unused⟩
    | @enqueue dispatches cause _ _ _ =>
      obtain ⟨-, hissued, -, -, -, htable⟩ :=
        Sched.enqueue_frame s.core r (cfg.trigger.decide (p.event spec.owner spec.repo)) cause
      refine ⟨hnodup, fun x hx hmem => ?_, fun x hx row hrow => ?_⟩
      · replace hmem : x ∈ r :: s.core.issued := by rw [← hissued]; exact hmem
        rcases List.mem_cons.mp hmem with rfl | hmem
        · exact hr hx
        · exact hrest.undrawn x hx hmem
      · rcases htable with hsame | ⟨job, hid, -, hins⟩
        · exact hrest.unused x hx row (hsame ▸ hrow)
        · replace hrow : row ∈ (s.core.table.insertRun job s.core.now).1.rows := by
            rw [← hins]
            exact hrow
          rcases (RunTable.insertRun_spec s.core.table job s.core.now).1 row hrow with
            hold | ⟨-, number, -, rfl⟩
          · exact hrest.unused x hx row hold
          · rw [RunTable.rowOf_runId, hid]
            rintro rfl
            exact hr hx
  · exact ⟨s, [], if_neg hguard, hup, hrest⟩

/-- **The sweep ends**, and adds the runs of the heads whose events the trigger takes. -/
theorem visitAll_covers (cfg : AppConfig) (visits : List (RepoSpec × OpenPr)) {ids : List RunId}
    (hup : s.core.up = true) (hids : s.FreshIds ids) (henough : visits.length ≤ ids.length) :
    ∃ s', s.visitAll cfg visits ids = some s' ∧ ∀ w : RepoSpec × OpenPr,
      s'.core.table.Covers w.1 w.2 ↔
        s.core.table.Covers w.1 w.2 ∨ ∃ v ∈ visits, Taken cfg v ∧ SameHead v w := by
  induction visits generalizing s ids with
  | nil => exact ⟨s, by cases ids <;> rfl, by simp⟩
  | cons v visits ih =>
    cases ids with
    | nil => simp at henough
    | cons r ids =>
      obtain ⟨t, es, hvisit, hup', hids'⟩ := exists_backfillPr cfg v.1 v.2 hup hids
      obtain ⟨s', hrun, hcovers⟩ := ih hup' hids' (by simpa using henough)
      refine ⟨s', ?_, fun w => ?_⟩
      · simp only [visitAll, hvisit]
        exact hrun
      · rw [hcovers, backfillPr_covers (hids.unused r List.mem_cons_self) hvisit w]
        simp only [List.mem_cons, exists_eq_or_imp, or_assoc]

variable {listed : RepoSpec → List ListedPr}

/-- A listed pull request that the sweep owes a run: open, not a draft, of an enabled repository
that is not denied, and written by the self account or waiting for its review. -/
structure Owed (cfg : AppConfig) (listed : RepoSpec → List ListedPr) (spec : RepoSpec)
    (p : ListedPr) : Prop where
  enabled : spec ∈ cfg.config.enabledRepos
  allowed : cfg.config.isDenied spec.owner spec.repo = false
  listed : p ∈ listed spec
  isOpen : p.Open
  ready : p.draft = false
  concerns : p.author = some cfg.selfAccount ∨ cfg.selfAccount ∈ p.requestedReviewers

/-- The pull request is listed with the self account as its author, maybe in another entry. -/
def ListedAsAuthor (cfg : AppConfig) (listed : RepoSpec → List ListedPr) (spec : RepoSpec)
    (p : ListedPr) : Prop :=
  ∃ spec' ∈ cfg.config.enabledRepos, ∃ p' ∈ listed spec', p'.Open ∧
    p'.author = some cfg.selfAccount ∧ SameHead (spec', p'.toOpenPr) (spec, p.toOpenPr)

/-- The backfill sees the open pull requests of the enabled repositories. -/
theorem mem_openPrs {v : RepoSpec × OpenPr} :
    v ∈ cfg.config.openPrs (listedPrs listed) ↔
      v.1 ∈ cfg.config.enabledRepos ∧ ∃ p ∈ listed v.1, p.toOpenPr = v.2 := by
  obtain ⟨spec, q⟩ := v
  simp only [Config.openPrs, listedPrs, Option.getD_some, List.mem_flatMap, List.mem_map,
    Prod.mk.injEq]
  constructor
  · rintro ⟨spec', hspec, x, ⟨p, hp, rfl⟩, rfl, rfl⟩
    exact ⟨hspec, p, hp, rfl⟩
  · rintro ⟨hspec, p, hp, rfl⟩
    exact ⟨spec, hspec, _, ⟨p, hp, rfl⟩, rfl, rfl⟩

/-- The visits of the sweep whose events the trigger takes, in a repository that is not denied. -/
theorem exists_taken_iff (hself : cfg.selfAccount ≠ "") {p : ListedPr}
    (hallowed : cfg.config.isDenied spec.owner spec.repo = false) :
    (∃ v ∈ cfg.config.openPrs (listedPrs listed), Taken cfg v ∧ SameHead v (spec, p.toOpenPr)) ↔
      ListedAsAuthor cfg listed spec p := by
  constructor
  · rintro ⟨⟨spec', q⟩, hv, ⟨hopen, haccepts⟩, hsame⟩
    obtain ⟨hspec, p', hp', rfl⟩ := mem_openPrs.mp hv
    exact ⟨spec', hspec, p', hp', hopen, ((accepts_openPr_iff hself).mp haccepts).2.1, hsame⟩
  · rintro ⟨spec', hspec, p', hp', hopen, hauthor, hsame⟩
    have hallowed' : cfg.config.isDenied spec'.owner spec'.repo = false := by
      rw [hsame.1, hsame.2.1]
      exact hallowed
    exact ⟨(spec', p'.toOpenPr), mem_openPrs.mpr ⟨hspec, p', hp', rfl⟩,
      ⟨hopen, (accepts_openPr_iff hself).mpr
        ⟨hopen.state, hauthor, managed_of_enabled hspec, hallowed'⟩⟩, hsame⟩

/-- **When the sweep is complete.** After it every pull request that it owes a run has one for its
head, exactly if those that only wait for a review of the self account had one before, or are
also listed as written by it. -/
theorem bootBackfill_complete_iff (hself : cfg.selfAccount ≠ "") {ids : List RunId}
    (hup : s.core.up = true) (hids : s.FreshIds ids)
    (henough : (cfg.config.openPrs (listedPrs listed)).length ≤ ids.length) :
    ∃ s', s.bootBackfill cfg listed ids = some s' ∧
      ((∀ spec p, Owed cfg listed spec p → s'.core.table.Covers spec p.toOpenPr) ↔
        ∀ spec p, Owed cfg listed spec p → p.author ≠ some cfg.selfAccount →
          s.core.table.Covers spec p.toOpenPr ∨ ListedAsAuthor cfg listed spec p) := by
  obtain ⟨s', hrun, hcovers⟩ := visitAll_covers cfg (cfg.config.openPrs (listedPrs listed)) hup hids
    henough
  have howed : ∀ spec p, Owed cfg listed spec p → (s'.core.table.Covers spec p.toOpenPr ↔
      s.core.table.Covers spec p.toOpenPr ∨ ListedAsAuthor cfg listed spec p) := by
    intro spec p h
    rw [hcovers (spec, p.toOpenPr), exists_taken_iff hself h.allowed]
  refine ⟨s', hrun, fun hall spec p h _ => (howed spec p h).mp (hall spec p h), ?_⟩
  intro hall spec p h
  rw [howed spec p h]
  by_cases hauthor : p.author = some cfg.selfAccount
  · exact Or.inr ⟨spec, h.enabled, p, h.listed, h.isOpen, hauthor, rfl, rfl, rfl, rfl⟩
  · exact hall spec p h hauthor

/-- The small installation, running. -/
def running : App :=
  { App.small with core := { Sched.new with up := true } }

/-- The service of the example has issued no id. -/
theorem running_fresh (r : RunId) : running.FreshIds [r] :=
  ⟨List.nodup_singleton r, fun _ _ => List.not_mem_nil,
    fun _ _ _ hrow => absurd hrow List.not_mem_nil⟩

/-- A pull request of somebody else that waits for a review of `me`. -/
def requestedPr : ListedPr where
  number := some 7
  head := some "a"
  author := some "you"
  requestedReviewers := ["me"]
  state := some "open"

/-- `me` has opened it. -/
def ownPr : ListedPr :=
  { requestedPr with author := some "me" }

/-- In the small configuration every open pull request that is no draft and concerns the account is
owed. -/
theorem owed_small (p : ListedPr) (hopen : p.Open) (hready : p.draft = false)
    (hconcerns : p.author = some "me" ∨ "me" ∈ p.requestedReviewers) :
    Owed (smallConfig true 1) (fun _ => [p]) { owner := "me", repo := "app" } p :=
  ⟨by decide, by decide, List.mem_singleton.mpr rfl, hopen, hready, hconcerns⟩

/-- The backfill covers the account's own pull request. -/
theorem bootBackfill_complete_iff_own :
    ∃ s', running.bootBackfill (smallConfig true 1) (fun _ => [ownPr]) ["r1"] = some s' ∧
      s'.core.table.Covers { owner := "me", repo := "app" } ownPr.toOpenPr := by
  have hself : (smallConfig true 1).selfAccount ≠ "" := by decide
  have henough : ((smallConfig true 1).config.openPrs (listedPrs fun _ => [ownPr])).length ≤ 1 := by
    decide
  obtain ⟨s', hrun, hiff⟩ :=
    bootBackfill_complete_iff hself rfl (running_fresh "r1") henough
  refine ⟨s', hrun, hiff.mpr ?_ _ _ (owed_small ownPr ⟨by decide, by decide, by decide⟩ rfl
    (Or.inl rfl))⟩
  intro spec p h hauthor
  have hp : p = ownPr := List.mem_singleton.mp h.listed
  rw [hp] at hauthor
  exact absurd rfl hauthor

/-- The pull request that waits for a review is open, and is left without a run. -/
theorem bootBackfill_misses_reviewer :
    Owed (smallConfig true 1) (fun _ => [requestedPr]) { owner := "me", repo := "app" }
        requestedPr ∧
      ∃ s', running.bootBackfill (smallConfig true 1) (fun _ => [requestedPr]) ["r1"] = some s' ∧
        ¬ s'.core.table.Covers { owner := "me", repo := "app" } requestedPr.toOpenPr := by
  refine ⟨owed_small requestedPr ⟨by decide, by decide, by decide⟩ rfl (Or.inr (by decide)), ?_⟩
  have hcheck : (running.bootBackfill (smallConfig true 1) (fun _ => [requestedPr]) ["r1"]).any
      (fun s' => !s'.core.table.hasRunForHead "me" "app" 7 "a") = true := by decide
  rw [Option.any_eq_true] at hcheck
  obtain ⟨s', hrun, hnone⟩ := hcheck
  refine ⟨s', hrun, fun hcovers => ?_⟩
  have hsome : s'.core.table.hasRunForHead "me" "app" 7 "a" = true := hcovers
  rw [hsome] at hnone
  cases hnone

end App

end PrReviewer.Model
