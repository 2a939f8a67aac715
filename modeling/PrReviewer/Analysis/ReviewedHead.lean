import PrReviewer.Analysis.Approvals
import PrReviewer.Analysis.Checkouts
import PrReviewer.Analysis.TableSteps

/-!
# Which commit an approval merges

`merge_pr` names no commit, so it merges whatever head the pull request has then. That is the
head the run has reviewed if the run is approved after its review has been staged, for its own pull
request, and nobody has pushed since the run got to know the head: when it was enqueued with one, or
when its pipeline fetched one.
-/

set_option autoImplicit false

namespace PrReviewer.Model

open PrReviewer.Library

/-! ## Heads in a history -/

namespace AppEvent

/-- The run gets to know its head: it is enqueued with one, or its pipeline has none and is told
one. -/
def ReadsHead (r : RunId) : AppEvent → Prop
  | .core (.inserted job) => job.runId = r ∧ truthy job.head = true
  | .fetched job data =>
    job.runId = r ∧ truthy job.head = false ∧ data.over = false ∧ truthy data.headSha = true
  | _ => False

/-- Whether an event reads a head of the run can be decided. -/
instance (r : RunId) : DecidablePred (ReadsHead r)
  | .core (.inserted job) => inferInstanceAs (Decidable (job.runId = r ∧ truthy job.head = true))
  | .fetched job data =>
    inferInstanceAs (Decidable (job.runId = r ∧ truthy job.head = false ∧ data.over = false ∧
      truthy data.headSha = true))
  | .core (.polled _ _) | .core (.gateComment _ _) | .pushed _ _ | .ran _ _ _ _ | .staged _ _
  | .asked _ _ _ _ | .publishing _ _ _ _ | .write _ _ | .accepted _ | .crashed => .isFalse id

/-- The head that is read is the head of the pull request. -/
def Tells (head : PrRef → String) : AppEvent → Prop
  | .core (.inserted job) => job.head = some (head job.ref)
  | .fetched job data => data.headSha = some (head job.ref)
  | _ => True

end AppEvent

/-- The run got to know its head, and nobody has pushed to the pull request since. -/
def HeadFresh (h : List AppEvent) (r : RunId) (ref : PrRef) : Prop :=
  Since (fun _ e => e.ReadsHead r) (fun e => ∀ sha, e ≠ .pushed ref sha) h

/-- The latest review of the job's run was staged for this job, and nobody has pushed to its pull
request since the run got to know the head it then had. -/
def ReviewFresh (h : List AppEvent) (job : ReviewJob) : Prop :=
  ∃ x, Since (fun before e => e = .staged job x ∧ HeadFresh before job.runId job.ref)
    (fun e => e.stages job.runId = false ∧ ∀ sha, e ≠ .pushed job.ref sha) h

/-- Nobody has pushed to the pull request since the run got to know the head that its latest review
was staged at. -/
def ReviewUnpushed (h : List AppEvent) (r : RunId) (ref : PrRef) : Prop :=
  ∀ before job x after, h = before ++ .staged job x :: after → job.runId = r →
    (∀ e ∈ after, e.stages r = false) →
    HeadFresh before r ref ∧ ∀ e ∈ after, ∀ sha, e ≠ .pushed ref sha

/-- Whatever is merged for the run is the pull request its latest review was staged for, at the
head that was reviewed. -/
def MergesReviewed (r : RunId) (h : List AppEvent) : Prop :=
  Each (fun before e => ∀ n ref head, e = .write (.approval n) (.mergePr ref r head) →
    ∃ job x, Reviewed before job x ∧ job.runId = r ∧ job.ref = ref ∧ job.head = some head) h

/-- A fresh review has been staged. -/
theorem ReviewFresh.reviewed {h : List AppEvent} {job : ReviewJob} (hf : ReviewFresh h job) :
    ∃ x, Reviewed h job x := by
  obtain ⟨x, hx⟩ := hf
  exact ⟨x, hx.mono (fun _ _ he => he.1) fun _ he => he.1⟩

variable {h es : List AppEvent} {r : RunId} {ref : PrRef} {job : ReviewJob}

/-- A head stays fresh through events that read none exactly when nobody pushes. -/
theorem headFresh_append (hes : ∀ e ∈ es, ¬ e.ReadsHead r) :
    HeadFresh (h ++ es) r ref ↔ HeadFresh h r ref ∧ ∀ e ∈ es, ∀ sha, e ≠ .pushed ref sha :=
  since_append fun _ => hes

/-- A review that is fresh after other events was fresh before, and nobody has pushed. -/
theorem reviewFresh_append (hes : ∀ e ∈ es, e.stages job.runId = false) :
    ReviewFresh (h ++ es) job →
      ReviewFresh h job ∧ ∀ e ∈ es, ∀ sha, e ≠ .pushed job.ref sha := by
  rintro ⟨x, hx⟩
  have hnone : ∀ before, ∀ e ∈ es, ¬ (e = .staged job x ∧ HeadFresh before job.runId job.ref) := by
    rintro before e he ⟨rfl, -⟩
    have hstages := hes _ he
    simp [AppEvent.stages] at hstages
  obtain ⟨hx, hafter⟩ := (since_append hnone).mp hx
  exact ⟨⟨x, hx⟩, fun e he => (hafter e he).2⟩

/-- Right after a review has been staged it is the latest one. -/
theorem reviewFresh_staged {job' : ReviewJob} {x : StagedReview}
    (hid : job'.runId = job.runId) (hf : ReviewFresh (h ++ [.staged job' x]) job) :
    job = job' ∧ HeadFresh h job.runId job.ref := by
  obtain ⟨y, hy⟩ := hf
  rcases since_snoc.mp hy with ⟨he, hfresh⟩ | ⟨-, hstages, -⟩
  · cases he
    exact ⟨rfl, hfresh⟩
  · simp [AppEvent.stages, hid] at hstages

/-- The latest review of a run is fresh if nobody has pushed to the pull request it was staged
for. -/
theorem exists_reviewFresh (hu : ReviewUnpushed h r ref) (hex : ∃ e ∈ h, e.stages r = true)
    (href : ∀ job x, .staged job x ∈ h → job.runId = r → job.ref = ref) :
    ∃ job, ReviewFresh h job ∧ job.runId = r ∧ job.ref = ref := by
  obtain ⟨before, e, after, rfl, hstages, hafter⟩ := since_last hex
  cases e with
  | staged job x =>
    have hid : job.runId = r := by simpa [AppEvent.stages] using hstages
    have hlast : ∀ e ∈ after, e.stages r = false := fun e he => Bool.eq_false_iff.mpr (hafter e he)
    have hjob : job.ref = ref := href job x (by simp) hid
    obtain ⟨hfresh, hpush⟩ := hu before job x after rfl hid hlast
    subst hid
    subst hjob
    exact ⟨job, ⟨x, before, _, after, rfl, ⟨rfl, hfresh⟩, fun e he => ⟨hlast e he, hpush e he⟩⟩, rfl,
      rfl⟩
  | _ => cases hstages

namespace App

variable {cfg : AppConfig} {s s' : App} {a : AppAction} {D : Machine.Discipline App AppAction AppEvent}

/-! ## What a step reads and pushes -/

/-- Only a push moves the head of a pull request. -/
theorem head_of_step (hstep : step cfg s a = some (s', es))
    (hpush : ∀ e ∈ es, ∀ sha, e ≠ .pushed ref sha) : s'.head ref = s.head ref := by
  cases step_cases hstep with
  | push ref' sha =>
    have hne : ref ≠ ref' := by
      rintro rfl
      exact hpush _ (List.mem_singleton.mpr rfl) sha rfl
    exact if_neg hne
  | @ask _ request run otherwise summary _ _ =>
    rcases ask_cases (s := s) request run otherwise summary with ⟨j, -, heq⟩ | ⟨-, heq⟩ <;>
      rw [heq]
  | _ => rfl

/-- A head is read when a run is enqueued, or by a worker that looks at the pull request. -/
theorem readsHead_of_step (hstep : step cfg s a = some (s', es)) {e : AppEvent} (he : e ∈ es)
    (hread : e.ReadsHead r) :
    es = [e] ∧
      ((∃ job, e = .core (.inserted job) ∧ job.runId ∉ s.core.issued) ∨
        ∃ (i : Nat) (job : ReviewJob) (data : PrData), e = .fetched job data ∧
          s.core.workers[i]? = some (.busy job .fetchPr)) := by
  cases event_of_step hstep he with
  | @core _ _ ce hcstep hce hes =>
    cases ce with
    | inserted job =>
      obtain ⟨hnew, -, hone⟩ := Sched.inserted_of_step hcstep hce
      exact ⟨by rw [hes, hone]; rfl, Or.inl ⟨job, rfl, hnew⟩⟩
    | _ => exact absurd hread id
  | fetched _ hw hes => exact ⟨hes, Or.inr ⟨_, _, _, rfl, hw⟩⟩
  | _ => exact absurd hread id

/-- **The jobs after a step** are those of before, that of the run it inserts, and one whose
pipeline has looked at the pull request. -/
theorem jobs_of_step (hstep : step cfg s a = some (s', es))
    (hj : s'.core.OnRecord job ∨ s'.core.InHand job) :
    (∃ job₀, (s.core.OnRecord job₀ ∨ s.core.InHand job₀) ∧ SameTarget job₀ job) ∨
      (∃ job₀, .core (.inserted job₀) ∈ es ∧ SameTarget job₀ job) ∨
      ∃ job₀ data, s.core.InHand job₀ ∧ es = [.fetched job₀ data] ∧ data.over = false ∧
        job = job₀.fillHead data.headSha := by
  have hsame : s.core.OnRecord job ∨ s.core.InHand job →
      ∃ job₀, (s.core.OnRecord job₀ ∨ s.core.InHand job₀) ∧ SameTarget job₀ job :=
    fun hj => ⟨job, hj, .refl job⟩
  -- a step of the scheduler in which no pipeline goes on
  have hsched : ∀ {ca : SchedAction ExecPc} {c : Sched ExecPc} {ces : List SchedEvent},
      Sched.step cfg.sched s.core ca = some (c, ces) → (∀ i sha pc, ca ≠ .advance i sha pc) →
      c.OnRecord job ∨ c.InHand job →
      (∃ job₀, (s.core.OnRecord job₀ ∨ s.core.InHand job₀) ∧ SameTarget job₀ job) ∨
        (∃ job₀, .core (.inserted job₀) ∈ ces.map AppEvent.core ∧ SameTarget job₀ job) ∨
        ∃ job₀ data, s.core.InHand job₀ ∧ ces.map AppEvent.core = [.fetched job₀ data] ∧
          data.over = false ∧ job = job₀.fillHead data.headSha := by
    intro ca c ces hcstep hadv hj
    rcases Sched.step_jobs hcstep hj with
      ⟨job₀, hj₀, hsame⟩ | ⟨i, sha, pc, _, _, ha, -⟩ | ⟨job₀, hj₀, hsame⟩
    · exact Or.inl ⟨job₀, hj₀, hsame.target⟩
    · exact absurd ha (hadv i sha pc)
    · exact Or.inr (Or.inl ⟨job₀, List.mem_map_of_mem hj₀, hsame.target⟩)
  -- a step in which the pipeline of a worker goes on or ends
  have hmove : ∀ {ca : SchedAction ExecPc} {c : Sched ExecPc},
      Sched.step cfg.sched s.core ca = some (c, []) → c.OnRecord job ∨ c.InHand job →
      (∃ job₀, (s.core.OnRecord job₀ ∨ s.core.InHand job₀) ∧ SameTarget job₀ job) ∨
        ∃ i sha pc job₀ pc₀, ca = .advance i sha pc ∧
          s.core.workers[i]? = some (Worker.busy job₀ pc₀) ∧ job = job₀.fill sha := by
    intro ca c hcstep hj
    rcases Sched.step_jobs hcstep hj with ⟨job₀, hj₀, hsame⟩ | hadv | ⟨job₀, hj₀, -⟩
    · exact Or.inl ⟨job₀, hj₀, hsame.target⟩
    · exact Or.inr hadv
    · exact absurd hj₀ List.not_mem_nil
  have hbusy : ∀ {i : Nat} {pc : ExecPc}, s.core.workers[i]? = some (Worker.busy job pc) →
      ∃ job₀, (s.core.OnRecord job₀ ∨ s.core.InHand job₀) ∧ SameTarget job₀ job :=
    fun hw => hsame (Or.inr (Or.inr ⟨_, List.mem_of_getElem? hw⟩))
  cases step_cases hstep with
  | core hb hcstep =>
    refine hsched hcstep ?_ hj
    rintro i sha pc rfl
    exact hb
  | enqueue _ hcstep => exact hsched hcstep (by simp) hj
  | chatter _ _ => exact Or.inl (hsame hj)
  | @ask _ request run otherwise summary _ _ =>
    rcases ask_cases (s := s) request run otherwise summary with ⟨j, -, heq⟩ | ⟨-, heq⟩ <;>
      rw [heq] at hj <;> exact Or.inl (hsame hj)
  | @exec i inp job₀ pc m c hw hm hcstep =>
    rcases hmove hcstep hj with hold | ⟨j, sha, pc', job₁, pc₁, ha, hw', rfl⟩
    · exact Or.inl hold
    · cases hnext : m.next with
      | finish out =>
        rw [hnext] at ha
        cases ha
      | goOn sha' pc'' =>
        rw [hnext] at ha
        cases ha
        rw [hw] at hw'
        cases hw'
        cases hm with
        | looked hover =>
          cases hnext
          exact Or.inr (Or.inr ⟨_, _, Or.inr ⟨_, List.mem_of_getElem? hw⟩, rfl, hover, rfl⟩)
        | _ =>
          cases hnext
          try exact Or.inl (hbusy hw)
  | publish _ _ => exact Or.inl (hsame hj)
  | crash hup =>
    have hcstep : Sched.step cfg.sched s.core .crash = some (s.core.crash, []) := by
      simp [Sched.step, hup]
    rcases hmove hcstep hj with hold | ⟨_, _, _, _, _, ha, -⟩
    · exact Or.inl hold
    · cases ha
  | push _ _ => exact Or.inl (hsame hj)
  | acceptWorker _ _ hcstep =>
    rcases hmove hcstep hj with hold | ⟨_, _, _, _, _, ha, hw, rfl⟩
    · exact Or.inl hold
    · cases ha
      exact Or.inl (hbusy hw)
  | acceptApproval _ _ _ => exact Or.inl (hsame hj)
  | acceptOrphan _ => exact Or.inl (hsame hj)

/-! ## Heads along a run -/

/-- A worker whose job has no head has the only job of its run: no other has one. -/
theorem headless_of_busy (hr : (machine cfg).Reaches D s h) {i : Nat} {job₁ : ReviewJob}
    {pc : ExecPc} (hw : s.core.workers[i]? = some (.busy job₁ pc)) (hfalsy : truthy job₁.head = false)
    (hj : s.core.OnRecord job ∨ s.core.InHand job) (hid : job.runId = job₁.runId) :
    truthy job.head = false := by
  have hcore := reaches_core hr
  have hl := Sched.reaches_lineage hcore
  have hsound := Sched.reaches_sound (Sched.reaches_of_new hcore) job₁.runId
  have hholds : Worker.holds job₁.runId (Worker.busy job₁ pc) = true := by simp [Worker.holds]
  have hheld : 0 < (s.core.life job₁.runId).held := countP_pos_of_getElem? hw hholds
  have hone := hsound.heldOrQueued
  rcases hj with hj | hq | ⟨pc', hmem⟩
  · -- a row or a watcher has the head its run was enqueued with
    obtain ⟨a, ha, hsame⟩ := hl.onRecord job hj
    obtain ⟨b, hb, hrun⟩ := hl.inHand job₁ (Or.inr ⟨pc, List.mem_of_getElem? hw⟩)
    have hab : a = b := hl.unique a b ha hb (by rw [← hsame.runId, ← hrun.runId, hid])
    subst hab
    cases ht : truthy job.head with
    | false => rfl
    | true =>
      have hta := hsame.truthy_iff.mp ht
      rw [hrun.head hta, hta] at hfalsy
      cases hfalsy
  · have hqueue : 0 < (s.core.life job₁.runId).inQueue :=
      List.countP_pos_iff.mpr ⟨job, hq, by simp [hid]⟩
    omega
  · obtain ⟨j, hj⟩ := List.mem_iff_getElem?.mp hmem
    have hle : s.core.workers.countP (Worker.holds job₁.runId) ≤ 1 := by
      have : (s.core.life job₁.runId).held = s.core.workers.countP (Worker.holds job₁.runId) := rfl
      omega
    have hij := eq_of_countP_le_one hle hw hj hholds (by simp [Worker.holds, hid])
    subst hij
    rw [hw] at hj
    cases hj
    exact hfalsy

/-- A request to approve the run finds its row, or names the pull request it was enqueued for. -/
def OwnRequest (cfg : AppConfig) (r : RunId) : Machine.Discipline App AppAction AppEvent :=
  fun s h a => ∀ request otherwise given, a.request = some request →
    request.target cfg = some (r, otherwise, given) →
    s.core.table.getJob r ≠ none ∨ ∀ job, otherwise = some job →
      ∃ job₀, .core (.inserted job₀) ∈ h ∧ job₀.runId = r ∧ job.ref = job₀.ref

/-- What the run is told, when it is approved, and when its pull request is pushed to. -/
structure Timely (cfg : AppConfig) (r : RunId) (s : App) (h : List AppEvent) (a : AppAction) :
    Prop where
  /-- the head it is enqueued with is that of the pull request -/
  enqueued : ∀ event cause owner repo pr head model, s.Enqueues cfg a event cause → a.runId = r →
    (cfg.trigger.decide event).columns = some (owner, repo, pr, head, model) → head ≠ "" →
    head = s.head ⟨owner, repo, some pr⟩
  /-- and so is the head its pipeline is told, if it has none -/
  fetched : ∀ i job data, a = .exec i (.pr (some data)) →
    s.core.workers[i]? = some (.busy job .fetchPr) → job.runId = r → truthy job.head = false →
    data.over = false → truthy data.headSha = true → data.headSha = some (s.head job.ref)
  /-- it is approved for its own pull request -/
  own : OwnRequest cfg r s h a
  /-- and after a review of it has been staged -/
  asked : ∀ request otherwise given, a.request = some request →
    request.target cfg = some (r, otherwise, given) → ∃ e ∈ h, e.stages r = true
  /-- when a publication of it gets to `merge_pr`, nobody has pushed to the pull request since the
  run got to know the head it has reviewed -/
  merged : ∀ k inp p, a = .publish k inp → s.approvals[k]? = some p → p.pc = .marking →
    p.job.runId = r → p.shouldAutoMerge cfg.config = true → ReviewUnpushed h r p.job.ref

/-- A run is inserted for the event that the step dispatches. -/
theorem stores_of_step (hstep : step cfg s a = some (s', es)) (hj : .core (.inserted job) ∈ es) :
    ∃ event cause pr, s.Enqueues cfg a event cause ∧
      Sched.Stores (cfg.trigger.decide event) a.runId cause job pr := by
  have hces : .inserted job ∈ es.filterMap AppEvent.core? := mem_core_history.mpr hj
  rcases (step_cases hstep).core_step with ⟨-, hnone⟩ | ⟨ca, hca, -, henqueue⟩
  · rw [hnone] at hces
    cases hces
  · rcases Sched.step_table hca with ⟨-, hno⟩ | ⟨run, d, cause, rfl, -, -, heq⟩
    · exact absurd hces (hno job)
    · obtain ⟨-, event, henq, rfl, rfl⟩ := henqueue run d cause rfl
      have hout : (s.core.enqueue a.runId (cfg.trigger.decide event) cause).2 =
          es.filterMap AppEvent.core? := by rw [heq]
      rw [← hout] at hces
      obtain ⟨pr, hstores⟩ := Sched.stores_of_inserted hces
      exact ⟨event, cause, pr, henq, hstores⟩

/-- The heads that the run reads in a timely step are those of its pull request. -/
theorem Timely.tells (hd : Timely cfg r s h a) (hstep : step cfg s a = some (s', es)) {e : AppEvent}
    (he : e ∈ es) (hread : e.ReadsHead r) : e.Tells s.head := by
  cases e with
  | core ce =>
    cases ce with
    | inserted job =>
      obtain ⟨hid, ht⟩ := hread
      obtain ⟨event, cause, pr, henq, hstores⟩ := stores_of_step hstep he
      have hhead := hd.enqueued event cause _ _ _ _ _ henq (hstores.runId.symm.trans hid)
        hstores.columns (truthy_iff_orEmpty.mp ht)
      show job.head = some (s.head ⟨job.owner, job.repo, job.pr⟩)
      rw [hstores.number, ← hhead]
      cases hjob : job.head with
      | none =>
        rw [hjob] at ht
        cases ht
      | some sha => rfl
    | _ => trivial
  | fetched job data =>
    obtain ⟨hid, hfalsy, hover, ht⟩ := hread
    cases event_of_step hstep he with
    | @fetched i _ _ ha hw hes => exact hd.fetched i job data ha hw hid hfalsy hover ht
  | _ => trivial

/-- Every request to approve the run is for the pull request it was enqueued for. -/
def AskedOwn (r : RunId) (h : List AppEvent) : Prop :=
  ∀ n request stored job, .asked n request stored (some job) ∈ h → job.runId = r →
    ∃ job₀, .core (.inserted job₀) ∈ h ∧ job₀.runId = r ∧ job.ref = job₀.ref

/-- Every request to approve the run arrived after a review of it had been staged. -/
def AskedStaged (r : RunId) (h : List AppEvent) : Prop :=
  ∀ n request stored job, .asked n request stored (some job) ∈ h → job.runId = r →
    ∃ e ∈ h, e.stages r = true

/-- What holds of the job of every request when it arrives, and is not undone by what happens
later, holds of every request that has arrived. -/
theorem reaches_asked {P : List AppEvent → ReviewJob → Prop}
    (hmono : ∀ {h es : List AppEvent} {job : ReviewJob}, P h job → P (h ++ es) job)
    (hask : ∀ {s : App} {h : List AppEvent} {a : AppAction} {request : ApprovalRequest}
      {otherwise : Option ReviewJob} {given : String} {job : ReviewJob}, D s h a →
      a.request = some request → request.target cfg = some (job.runId, otherwise, given) →
      (∃ job₀, .core (.inserted job₀) ∈ h ∧ SameTarget job₀ job) ∨
        s.core.table.getJob job.runId = none ∧ otherwise = some job → P h job)
    (hr : (machine cfg).Reaches D s h) :
    ∀ n request stored job, .asked n request stored (some job) ∈ h → P h job := by
  refine hr.invariant (I := fun _ h =>
    ∀ n request stored job, .asked n request stored (some job) ∈ h → P h job) ?_ ?_
  · intro s _ n request stored job he
    cases he
  intro s h a s' es hr ih hd hstep n request stored job he
  rcases List.mem_append.mp he with he | he
  · exact hmono (ih n request stored job he)
  · obtain ⟨-, hrequest, run, otherwise, given, htarget, hstored, hjob⟩ := asked_of_step hstep he
    obtain ⟨rfl, hfrom⟩ := job_of_ask (Sched.reaches_lineage (reaches_core hr)) htarget
      (hstored ▸ hjob.symm)
    exact hmono (hask hd hrequest htarget (hfrom.imp_left fun hrow => hrow.2))

/-- In every run whose requests are its own they name its pull request. -/
theorem reaches_askedOwn (hr : (machine cfg).Reaches (OwnRequest cfg r) s h) : AskedOwn r h := by
  intro n request stored job he
  refine reaches_asked (P := fun h job => job.runId = r →
    ∃ job₀, .core (.inserted job₀) ∈ h ∧ job₀.runId = r ∧ job.ref = job₀.ref) ?_ ?_ hr n request
      stored job he
  · intro h es job ih hid
    obtain ⟨job₀, hj₀, hrun⟩ := ih hid
    exact ⟨job₀, List.mem_append_left _ hj₀, hrun⟩
  · rintro s h a request otherwise given job hd hrequest htarget hfrom rfl
    rcases hfrom with ⟨job₀, hj₀, hsame⟩ | ⟨hnone, hotherwise⟩
    · exact ⟨job₀, hj₀, hsame.runId.symm, hsame.ref⟩
    · exact (hd request otherwise given hrequest htarget).elim (absurd hnone) fun hown =>
        hown job hotherwise

/-- In every timely run the requests come after a staged review. -/
theorem reaches_askedStaged (hr : (machine cfg).Reaches (Timely cfg r) s h) : AskedStaged r h := by
  intro n request stored job he
  refine reaches_asked (P := fun h job => job.runId = r → ∃ e ∈ h, e.stages r = true) ?_ ?_ hr n
    request stored job he
  · intro h es job ih hid
    obtain ⟨e, he, hstages⟩ := ih hid
    exact ⟨e, List.mem_append_left _ he, hstages⟩
  · rintro s h a request otherwise given job hd hrequest htarget - rfl
    exact hd.asked request otherwise given hrequest htarget

/-- A review of the run is staged for the pull request that every request to approve it is for. -/
theorem AskedOwn.ref_of_staged (hown : AskedOwn r h) (hr : (machine cfg).Reaches D s h) {n : Nat}
    {request : ApprovalRequest} {stored : Option ReviewJob} {job job' : ReviewJob} {x : StagedReview}
    (hasked : .asked n request stored (some job) ∈ h) (hid : job.runId = r)
    (hx : .staged job' x ∈ h) (hid' : job'.runId = r) : job'.ref = job.ref := by
  obtain ⟨job₀, hj₀, hid₀, href₀⟩ := hown n request stored job hasked hid
  obtain ⟨job₁, hj₁, hsame⟩ := inserted_of_staged hr job' x hx
  have hone : job₁ = job₀ := (Sched.reaches_lineage (reaches_core hr)).unique job₁ job₀
    (mem_core_history.mpr hj₁) (mem_core_history.mpr hj₀)
    (hsame.runId.symm.trans (hid'.trans hid₀.symm))
  rw [hsame.ref, hone, href₀]

/-- The invariant: as long as nobody pushes, the head the run got to know, and the one its latest
review was staged for, are the head of the pull request. -/
structure HeadsRight (r : RunId) (s : App) (h : List AppEvent) : Prop where
  jobs : ∀ job, s.core.OnRecord job ∨ s.core.InHand job → job.runId = r →
    truthy job.head = true → HeadFresh h r job.ref → job.head = some (s.head job.ref)
  staged : ∀ job, job.runId = r → ReviewFresh h job → job.head = some (s.head job.ref)

/-- The jobs after a step that reads a head of the run. -/
theorem HeadsRight.jobs_of_read (hr : (machine cfg).Reaches D s h)
    (hstep : App.step cfg s a = some (s', es)) {e : AppEvent} (he : e ∈ es)
    (hread : e.ReadsHead r) (htells : e.Tells s.head)
    (hj : s'.core.OnRecord job ∨ s'.core.InHand job) (hid : job.runId = r)
    (ht : truthy job.head = true) : job.head = some (s'.head job.ref) := by
  have hl := Sched.reaches_lineage (reaches_core hr)
  obtain ⟨hone, hsource⟩ := readsHead_of_step hstep he hread
  have hhead : s'.head job.ref = s.head job.ref := by
    refine head_of_step hstep fun e' he' sha => ?_
    rw [hone] at he'
    rw [List.mem_singleton.mp he']
    rintro rfl
    exact hread
  rw [hhead]
  rcases hsource with ⟨job₁, rfl, hnew⟩ | ⟨i, job₁, data, rfl, hw⟩
  · rcases jobs_of_step hstep hj with ⟨job₀, hj₀, hsame⟩ | ⟨job₀, hj₀, hsame⟩ | ⟨_, _, -, heq, -⟩
    · -- a new run has no job yet
      refine absurd ?_ hnew
      rw [hread.1, ← hid, hsame.runId]
      rcases hj₀ with hj₀ | hj₀
      · obtain ⟨a, ha, hrun⟩ := hl.onRecord job₀ hj₀
        exact hrun.runId ▸ hl.issued a ha
      · obtain ⟨a, ha, hrun⟩ := hl.inHand job₀ hj₀
        exact hrun.runId ▸ hl.issued a ha
    · rw [hone] at hj₀
      cases List.mem_singleton.mp hj₀
      rw [hsame.sameRun.head (hsame.truthy_iff.mp ht), hsame.ref]
      exact htells
    · rw [hone] at heq
      cases heq
  · rcases jobs_of_step hstep hj with ⟨job₀, hj₀, hsame⟩ | ⟨_, hj₀, -⟩ | ⟨job₀, data', -, heq, -, rfl⟩
    · -- no other job of the run has a head
      have hfalse := headless_of_busy hr hw hread.2.1 hj₀
        (hsame.runId.symm.trans (hid.trans hread.1.symm))
      rw [hsame.truthy_iff.mp ht] at hfalse
      cases hfalse
    · rw [hone] at hj₀
      cases List.mem_singleton.mp hj₀
    · rw [hone] at heq
      cases heq
      have htells' : data.headSha = some (s.head job₁.ref) := htells
      have hfill : (job₁.fillHead data.headSha).head = data.headSha := by
        unfold ReviewJob.fillHead
        rw [if_neg (by simp [hread.2.1]), htells']
        rfl
      rw [hfill, ReviewJob.fillHead_ref]
      exact htells

/-- **The step lemma.** -/
theorem HeadsRight.step (hp : HeadsRight r s h) (hr : (machine cfg).Reaches D s h)
    (hd : Timely cfg r s h a) (hstep : App.step cfg s a = some (s', es)) :
    HeadsRight r s' (h ++ es) := by
  constructor
  · intro job hj hid ht hfresh
    by_cases hread : ∃ e ∈ es, e.ReadsHead r
    · obtain ⟨e, he, hread⟩ := hread
      exact jobs_of_read hr hstep he hread (hd.tells hstep he hread) hj hid ht
    · -- nobody reads a head of the run, and nobody pushes
      have hnone : ∀ e ∈ es, ¬ e.ReadsHead r := fun e he h => hread ⟨e, he, h⟩
      obtain ⟨hfresh, hpush⟩ := (headFresh_append hnone).mp hfresh
      rw [head_of_step hstep hpush]
      rcases jobs_of_step hstep hj with
        ⟨job₀, hj₀, hsame⟩ | ⟨job₀, hj₀, hsame⟩ | ⟨job₀, data, hj₀, heq, hover, rfl⟩
      · have ht₀ := hsame.truthy_iff.mp ht
        rw [hsame.sameRun.head ht₀, hsame.ref]
        rw [hsame.ref] at hfresh
        exact hp.jobs job₀ hj₀ (hsame.runId.symm.trans hid) ht₀ hfresh
      · have hread₀ : (AppEvent.core (.inserted job₀)).ReadsHead r :=
          ⟨hsame.runId.symm.trans hid, hsame.truthy_iff.mp ht⟩
        exact absurd hread₀ (hnone _ hj₀)
      · cases ht₀ : truthy job₀.head with
        | true =>
          rw [ReviewJob.fillHead_of_truthy _ ht₀] at hid hfresh ⊢
          exact hp.jobs job₀ (Or.inr hj₀) hid ht₀ hfresh
        | false =>
          -- the head it has been told is not empty
          have hsha : truthy data.headSha = true := by
            unfold ReviewJob.fillHead at ht
            rw [if_neg (by simp [ht₀])] at ht
            rw [truthy_iff_orEmpty] at ht ⊢
            exact ht
          rw [ReviewJob.fillHead_runId] at hid
          have hread₀ : (AppEvent.fetched job₀ data).ReadsHead r := ⟨hid, ht₀, hover, hsha⟩
          exact absurd hread₀ (hnone _ (heq ▸ List.mem_singleton.mpr rfl))
  · intro job hid hfresh
    by_cases hstages : ∃ e ∈ es, e.stages r = true
    · obtain ⟨e, he, hstages⟩ := hstages
      cases event_of_step hstep he with
      | @staged i job' checkout x hw hes =>
        subst hes
        have hid' : job'.runId = r := by simpa [AppEvent.stages] using hstages
        obtain ⟨rfl, hjob⟩ := reviewFresh_staged (hid'.trans hid.symm) hfresh
        have hhead : s'.head job.ref = s.head job.ref := head_of_step hstep (by simp)
        rw [hhead]
        rw [hid] at hjob
        exact hp.jobs job (Or.inr (Or.inr ⟨_, List.mem_of_getElem? hw⟩)) hid
          (head_of_checkout hr i job _ checkout hw rfl) hjob
      | _ => cases hstages
    · have hnone : ∀ e ∈ es, e.stages job.runId = false := fun e he =>
        Bool.eq_false_iff.mpr fun h => hstages ⟨e, he, hid ▸ h⟩
      obtain ⟨hfresh, hpush⟩ := reviewFresh_append hnone hfresh
      rw [head_of_step hstep hpush]
      exact hp.staged job hid hfresh

/-- In every timely run the heads known are those of the pull request. -/
theorem reaches_headsRight (hr : (machine cfg).Reaches (Timely cfg r) s h) : HeadsRight r s h := by
  refine hr.invariant (I := HeadsRight r) ?_ ?_
  · intro s hs
    exact ⟨fun _ _ _ _ hfresh => absurd hfresh not_since_nil,
      fun _ _ ⟨_, hx⟩ => absurd hx not_since_nil⟩
  · intro s h a s' es hr hp hd hstep
    exact hp.step hr hd hstep

/-- `merge_pr` is called by a publication that has promoted its pull request, and merges the head
the pull request has. -/
theorem merged_of_step (hr : (machine cfg).Reaches D s h) (hstep : step cfg s a = some (s', es))
    {n : Nat} {head : String} (he : .write (.approval n) (.mergePr ref r head) ∈ es) :
    es = [.write (.approval n) (.mergePr ref r head)] ∧ head = s.head ref ∧
      ∃ k inp p, a = .publish k inp ∧ s.approvals[k]? = some p ∧ p.pc = .marking ∧
        p.job.runId = r ∧ p.job.ref = ref ∧ p.shouldAutoMerge cfg.config = true := by
  cases step_cases hstep with
  | publish hp hm =>
    have hh := (reaches_booked hr).handled _ (List.mem_of_getElem? hp)
    cases hm with
    | merge hauto hpc =>
      cases List.mem_singleton.mp he
      refine ⟨rfl, rfl, _, _, _, rfl, hp, ?_, rfl, rfl, hauto⟩
      -- a publication that is no draft would merge right after its review, but none is
      rcases hpc with ⟨review, pc, -, hdraft⟩ | hpc
      · rw [hh.arguments.2] at hdraft
        cases hdraft
      · exact hpc
    | submitting _ hs =>
      obtain ⟨w, hw, heq⟩ := List.mem_map.mp he
      cases heq
      cases submitStep_writes hs _ hw
    | _ => simp [Approval.writes] at he
  | core _ _ | enqueue _ _ =>
    obtain ⟨ce, -, heq⟩ := List.mem_map.mp he
    cases heq
  | chatter _ hes =>
    obtain ⟨origin, w, heq, horigin, -⟩ := hes _ he
    cases heq
    rcases horigin with horigin | horigin <;> cases horigin
  | @ask _ request run otherwise summary _ _ =>
    rcases ask_cases (s := s) request run otherwise summary with ⟨j, -, heq⟩ | ⟨-, heq⟩ <;>
      rw [heq] at he <;> cases List.mem_singleton.mp he
  | exec _ hm _ => exact absurd rfl (hm.quiet _ he n).1
  | _ => cases List.mem_singleton.mp he

/-- **What is merged for the run is its own pull request, whose review is fresh.** -/
theorem reviewFresh_of_merge (hr : (machine cfg).Reaches (Timely cfg r) s h)
    (hd : Timely cfg r s h a) {k : Nat} {inp : ApprovalInput} {p : Approval}
    (ha : a = .publish k inp) (hp : s.approvals[k]? = some p) (hpc : p.pc = .marking)
    (hid : p.job.runId = r) (hauto : p.shouldAutoMerge cfg.config = true) :
    ∃ job, ReviewFresh h job ∧ job.runId = r ∧ job.ref = p.job.ref := by
  obtain ⟨request, stored, _, hasked, -⟩ :=
    ((reaches_booked hr).handled _ (List.mem_of_getElem? hp)).requested
  have hown : AskedOwn r h := reaches_askedOwn (hr.mono fun _ _ _ hd => hd.own)
  refine exists_reviewFresh (hd.merged k inp p ha hp hpc hid hauto)
    (reaches_askedStaged hr p.number request stored p.job hasked hid) fun job x hx hjob => ?_
  exact hown.ref_of_staged hr hasked hid hx hjob

/-- **Only the reviewed commit is merged** for a run whose heads are told as they are, that is
approved after its review has been staged, for its own pull request, and whose pull request is not
pushed to before it is merged. -/
theorem merges_reviewed (cfg : AppConfig) (r : RunId) {s : App} {h : List AppEvent}
    (hr : (machine cfg).Reaches (Timely cfg r) s h) : MergesReviewed r h := by
  refine hr.invariant (I := fun _ h => MergesReviewed r h) (fun _ _ => each_nil) ?_
  intro s h a s' es hr hh hd hstep
  refine hh.append ?_
  rintro before e post hes n ref head rfl
  have he : .write (.approval n) (.mergePr ref r head) ∈ es := by simp [hes]
  obtain ⟨hone, rfl, k, inp, p, ha, hp, hpc, hid, rfl, hauto⟩ := merged_of_step hr hstep he
  obtain ⟨job, hfresh, hjob, href⟩ := reviewFresh_of_merge hr hd ha hp hpc hid hauto
  obtain ⟨x, hx⟩ := hfresh.reviewed
  rw [hone] at hes
  rw [eq_nil_of_alone hes, List.append_nil, ← href]
  exact ⟨job, x, hx, hjob, rfl, (reaches_headsRight hr).staged job hjob hfresh⟩

/-- A history that starts with the first pull request and has no push. -/
def startsUnpushed : List AppEvent → Bool
  | .core (.inserted job) :: h => job == firstJob && h.all fun e => !e.isPushed
  | _ => false

/-- A history that starts with the pull request and has no push is unpushed. -/
theorem reviewUnpushed_of_startsUnpushed (hcheck : startsUnpushed h = true) :
    ReviewUnpushed h "r1" ref := by
  unfold startsUnpushed at hcheck
  split at hcheck
  · rename_i job₀ rest
    simp only [Bool.and_eq_true, beq_iff_eq, List.all_eq_true] at hcheck
    obtain ⟨rfl, hpush⟩ := hcheck
    have hnopush : ∀ e ∈ rest, ∀ sha, e ≠ .pushed ref sha := by
      rintro e he sha rfl
      exact absurd (hpush _ he) Bool.false_ne_true
    intro before job x after heq _ _
    cases before with
    | nil => cases heq
    | cons e before =>
      obtain ⟨rfl, rfl⟩ := List.cons.inj heq
      refine ⟨⟨[], _, before, rfl, ⟨rfl, rfl⟩, fun e he => hnopush e ?_⟩, fun e he => hnopush e ?_⟩
      · exact List.mem_append_left _ he
      · exact List.mem_append_right _ (List.mem_cons_of_mem _ he)
  · cases hcheck

/-- The job of the worker has a head. -/
def knowsHead : Worker ExecPc → Bool
  | .busy job _ => truthy job.head
  | _ => true

/-- A check that is strong enough for `Timely` of the first pull request's run. -/
def timelyStep (cfg : AppConfig) (s : App) (h : List AppEvent) (a : AppAction) : Bool :=
  ((a.dispatched cfg s).all fun event => ((cfg.trigger.decide event).columns).all
    fun c => c.2.2.2.1 == s.head ⟨c.1, c.2.1, some c.2.2.1⟩) &&
  (match a with
    | .exec i (.pr _) => s.core.workers[i]?.all knowsHead
    | .publish _ _ => startsUnpushed h
    | _ => true) &&
  (a.request.isNone || h.any (AppEvent.stages "r1") && s.core.table.getJob "r1" != none)

/-- A step that passes the check is timely. -/
theorem timely_of_timelyStep (hcheck : timelyStep cfg s h a = true) : Timely cfg "r1" s h a := by
  simp only [timelyStep, Bool.and_eq_true] at hcheck
  obtain ⟨⟨hevent, hact⟩, hrequest⟩ := hcheck
  constructor
  · rintro event cause owner repo pr head model ⟨hdispatch, -⟩ - hcol -
    rw [hdispatch, Option.all_some, hcol, Option.all_some] at hevent
    exact eq_of_beq hevent
  · rintro i job data rfl hw - hfalsy - -
    have hknows : s.core.workers[i]?.all knowsHead = true := hact
    rw [hw, Option.all_some] at hknows
    exact absurd (hfalsy.symm.trans hknows) Bool.false_ne_true
  · intro request otherwise given ha _
    rw [ha, Option.isNone_some, Bool.false_or, Bool.and_eq_true] at hrequest
    exact Or.inl (by simpa using hrequest.2)
  · intro request otherwise given ha _
    rw [ha, Option.isNone_some, Bool.false_or, Bool.and_eq_true, List.any_eq_true] at hrequest
    exact hrequest.1
  · rintro k inp p rfl _ _ _ _
    exact reviewUnpushed_of_startsUnpushed hact

/-- A review approved without a push is merged as it was reviewed. -/
theorem merges_reviewed_approved :
    ∃ s h, .write (.approval 0) (.mergePr firstJob.ref "r1" "a") ∈ h ∧ MergesReviewed "r1" h ∧
      (machine (smallConfig true 1)).Reaches (Timely (smallConfig true 1) "r1") s h := by
  obtain ⟨s, h, hr, hmerge⟩ := Machine.exists_reaches_run (M := machine (smallConfig true 1))
    (D := Timely (smallConfig true 1) "r1") (fun _ _ _ => timely_of_timelyStep)
    (stagedRun ++ approveAndMerge)
    (fun _ h => h.contains (.write (.approval 0) (.mergePr firstJob.ref "r1" "a"))) small_new
    (by decide)
  exact ⟨s, h, List.contains_iff_mem.mp hmerge, merges_reviewed _ "r1" hr, hr⟩

/-- The webhook for a push to a pull request of `me`. -/
def pushedPr (pr : Int) (head : String) : NormalizedEvent :=
  { openedPr pr head with action := "synchronize" }

/-- What this event stages is a review of this head. -/
def stagesHead (sha : String) : AppEvent → Bool
  | .staged job _ => job.head == some sha
  | _ => true

/-- After the review of head `a` has been staged, head `b` is pushed; the approval of the review
merges `b`. -/
theorem merges_unreviewed :
    ¬ ∀ cfg s h r, (machine cfg).Reachable s h → MergesReviewed r h := by
  intro hall
  obtain ⟨s, h, hr, hcheck⟩ := Machine.exists_reachable_run (M := machine (smallConfig true 1))
    (stagedRun ++ [.push firstJob.ref "b", .webhook (pushedPr 7 "b"), .dispatch 0 "r2"] ++
      approveAndMerge)
    (fun _ h => h.contains (.write (.approval 0) (.mergePr firstJob.ref "r1" "b")) &&
      h.all (stagesHead "a")) small_new (by decide)
  rw [Bool.and_eq_true, List.all_eq_true] at hcheck
  obtain ⟨before, post, rfl, hmerges⟩ :=
    (hall _ _ _ "r1" hr).of_mem (List.contains_iff_mem.mp hcheck.1)
  obtain ⟨job, x, ⟨pre, e, post', rfl, rfl, -⟩, -, -, hhead⟩ := hmerges 0 _ _ rfl
  have ha := beq_iff_eq.mp (hcheck.2 (.staged job x) (by simp))
  rw [hhead] at ha
  exact absurd ha (by decide)

end App

end PrReviewer.Model
