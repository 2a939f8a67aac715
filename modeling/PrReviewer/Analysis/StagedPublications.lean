import PrReviewer.Analysis.Publications
import PrReviewer.Analysis.ReviewCompletions
import PrReviewer.Analysis.ReviewedHead

/-!
# Approvals that publish what was staged

The row of a run waits for an approval across restarts, and after an approval as well, while the
review itself is in the memory of one process and is taken out by the first publication. A
publication that finds nothing publishes the summary of its channel, and one whose row has no head
submits a review without one. `approvals_publish_staged` says that these are the only ways to
publish anything else than what the run has staged.
-/

set_option autoImplicit false

namespace PrReviewer.Model

open PrReviewer.Library

/-- The run that a publishing write is for. -/
def GitHubWrite.run : GitHubWrite → Option RunId
  | .submitReview review => some review.run
  | .markReady _ run | .mergePr _ run _ => some run
  | .postComment _ _ _ _ | .createWebhook _ _ _ | .updateWebhook _ _ _ _ => none

/-- Whatever an approval publishes under the run is the run's latest review, on the pull request and
at the head it was staged for, and no more reviews are submitted under it than were staged. -/
structure PublishesStaged (r : RunId) (h : List AppEvent) : Prop where
  latest : Each (fun before e => ∀ n w, e = .write (.approval n) w → w.run = some r →
    ∃ job job' x, Reviewed before job x ∧ job.runId = r ∧ SameTarget job job' ∧
      Publication job' x w) h
  submits_le : h.countP (AppEvent.submits r) ≤ h.countP (AppEvent.stages r)

/-- A publication writes under the run of its job. -/
theorem Publication.run_eq {job : ReviewJob} {c : StagedReview} {w : GitHubWrite} {r : RunId}
    (hw : Publication job c w) (hrun : w.run = some r) : job.runId = r := by
  cases hw with
  | review => exact Option.some.inj hrun
  | comment => cases hrun
  | ready => exact Option.some.inj hrun
  | merge head => exact Option.some.inj hrun

/-- A review of the run has been staged in this process. -/
def StagedHere (r : RunId) (h : List AppEvent) : Prop :=
  Since (fun _ e => e.stages r = true) (fun e => e ≠ .crashed) h

/-- The latest review of the run has been staged for this job, in this process. -/
def Standing (h : List AppEvent) (job : ReviewJob) (x : StagedReview) : Prop :=
  Since (fun _ e => e = .staged job x) (fun e => e.stages job.runId = false ∧ e ≠ .crashed) h

variable {h es : List AppEvent} {r : RunId} {job : ReviewJob} {x : StagedReview}

/-- A standing review was staged for its job. -/
theorem Standing.reviewed (hs : Standing h job x) : Reviewed h job x :=
  hs.mono (fun _ _ he => he) fun _ he => he.1

/-- A standing review was staged by this process. -/
theorem Standing.stagedHere (hs : Standing h job x) : StagedHere job.runId h := by
  refine hs.mono ?_ fun _ he => he.2
  rintro before e rfl
  simp [AppEvent.stages]

/-- A standing review is in the history. -/
theorem Standing.mem (hs : Standing h job x) : .staged job x ∈ h := by
  obtain ⟨before, e, after, rfl, rfl, -⟩ := hs
  simp

/-- A review stands as long as the run stages no other one and the process does not die. -/
theorem Standing.append (hs : Standing h job x) (hes : ∀ e ∈ es, e.stages job.runId = false)
    (hcrash : .crashed ∉ es) : Standing (h ++ es) job x := by
  have hnone : ∀ e ∈ es, e ≠ .staged job x := by
    rintro e he rfl
    have hstages := hes _ he
    simp [AppEvent.stages] at hstages
  refine (since_append fun _ => hnone).mpr ⟨hs, fun e he => ⟨hes e he, ?_⟩⟩
  rintro rfl
  exact hcrash he

/-- What is staged in memory stands. -/
theorem exists_standing (hs : LastStaged h r x) : ∃ job, Standing h job x ∧ job.runId = r := by
  obtain ⟨before, e, after, rfl, ⟨job, rfl, rfl⟩, hafter⟩ := hs
  refine ⟨job, ⟨before, _, after, rfl, rfl, fun e he => ⟨?_, ?_⟩⟩, rfl⟩
  · rw [← Bool.not_eq_true]
    intro hstages
    refine hafter e he ?_
    cases e with
    | staged job' x' => simpa [AppEvent.stages, AppEvent.Unstages] using hstages
    | _ => cases hstages
  · rintro rfl
    exact hafter _ he trivial

namespace App

variable {cfg : AppConfig} {s s' : App} {a : AppAction} {D : Machine.Discipline App AppAction AppEvent}

/-! ## One staging in the life of a process -/

/-- The death of the process is on record. -/
theorem crashed_of_crash (hstep : step cfg s .crash = some (s', es)) : .crashed ∈ es := by
  obtain ⟨c, ces, -, -, rfl⟩ := coreStep_map_eq (b := [.crashed]) hstep
  exact List.mem_cons_self

/-- No publication survives the death of the process. -/
theorem approvals_of_crashed (hstep : step cfg s a = some (s', es)) (he : .crashed ∈ es) :
    s'.approvals = [] := by
  cases step_cases hstep with
  | crash _ => rfl
  | core _ _ | enqueue _ _ =>
    obtain ⟨ce, -, heq⟩ := List.mem_map.mp he
    cases heq
  | chatter _ hes =>
    obtain ⟨origin, w, heq, -, -⟩ := hes _ he
    cases heq
  | @ask _ request run otherwise summary _ _ =>
    rcases ask_cases (s := s) request run otherwise summary with ⟨j, -, heq⟩ | ⟨-, heq⟩ <;>
      rw [heq] at he <;> cases List.mem_singleton.mp he
  | exec _ hm _ =>
    cases hm with
    | prOver _ | looked _ | ran | staged _ | publish _ _ => cases List.mem_singleton.mp he
    | submitting _ =>
      obtain ⟨w, -, heq⟩ := List.mem_map.mp he
      cases heq
    | _ => cases he
  | publish _ hm => rcases hm.start_or_write he with heq | ⟨w, heq⟩ <;> cases heq
  | _ => cases List.mem_singleton.mp he

/-- **A run whose review has been staged in this process stages no other one in it**: its worker is
at the preview, or the run is over. -/
theorem reaches_stagedHere (hr : (machine cfg).Reaches D s h) :
    StagedHere r h → RunSettled r Previewing s := by
  refine hr.invariant (I := fun s h => StagedHere r h → RunSettled r Previewing s) ?_ ?_
  · intro s _ hs
    exact absurd hs not_since_nil
  intro s h a s' es hr ih _ hstep hs
  by_cases hex : ∃ e ∈ es, e.stages r = true
  · obtain ⟨e, he, hstages⟩ := hex
    cases event_of_step hstep he with
    | @staged i job checkout x hw hes hslack hcstep =>
      have hid : job.runId = r := by simpa [AppEvent.stages] using hstages
      exact settled_of_advance hr hw hid hcstep rfl
    | _ => cases hstages
  · obtain ⟨hs, hcrash⟩ := (since_append fun _ e he hstages => hex ⟨e, he, hstages⟩).mp hs
    refine (ih hs).step hr finalFrom_previewing hstep ?_ ?_ ?_
    · intro i job pc inp m sha pc' _ hw hid hm hnext
      obtain rfl := (ih hs).closed job pc (List.mem_of_getElem? hw) hid
      cases hm with
      | notified => cases hnext
    · intro review pc pc' hpast
      cases hpast
    · rintro rfl
      exact absurd rfl (hcrash _ (crashed_of_crash hstep))

/-- A step that stages a review of the run is its first in this process. -/
theorem not_stagedHere_of_stages (hr : (machine cfg).Reaches D s h)
    (hstep : step cfg s a = some (s', es)) {e : AppEvent} (he : e ∈ es) (hstages : e.stages r = true) :
    ¬ StagedHere r h := by
  intro hs
  cases event_of_step hstep he with
  | @staged i job checkout x hw _ _ _ =>
    have hid : job.runId = r := by simpa [AppEvent.stages] using hstages
    cases (reaches_stagedHere hr hs).closed job _ (List.mem_of_getElem? hw) hid
  | _ => cases hstages

/-- A review stands as long as the process that has staged it lives. -/
theorem Standing.step {pre : List AppEvent} (hs : Standing h job x)
    (hr : (machine cfg).Reaches D s h) (hstep : App.step cfg s a = some (s', es))
    (hpre : ∀ e ∈ pre, e ∈ es) (hcrash : .crashed ∉ pre) : Standing (h ++ pre) job x := by
  refine hs.append (fun e he => ?_) hcrash
  rw [← Bool.not_eq_true]
  exact fun hstages => not_stagedHere_of_stages hr hstep (hpre e he) hstages hs.stagedHere

/-! ## Heads a run knows -/

/-- A job with a head is one of a run that has got to know a head. -/
theorem reaches_known (hr : (machine cfg).Reaches D s h) :
    ∀ job, s.core.OnRecord job ∨ s.core.InHand job → truthy job.head = true →
      ∃ e ∈ h, e.ReadsHead job.runId := by
  refine hr.invariant (I := fun s h => ∀ job, s.core.OnRecord job ∨ s.core.InHand job →
    truthy job.head = true → ∃ e ∈ h, e.ReadsHead job.runId) ?_ ?_
  · intro s hs job hj _
    rw [New.core hs] at hj
    rcases hj with (⟨row, hrow, -⟩ | ⟨w, hw, -⟩) | hq | ⟨pc, hw⟩
    · exact absurd hrow List.not_mem_nil
    · exact absurd hw List.not_mem_nil
    · exact absurd hq List.not_mem_nil
    · exact absurd hw List.not_mem_nil
  intro s h a s' es hr ih _ hstep job hj ht
  rcases jobs_of_step hstep hj with
    ⟨job₀, hj₀, hsame⟩ | ⟨job₀, hj₀, hsame⟩ | ⟨job₀, data, hj₀, rfl, hover, rfl⟩
  · obtain ⟨e, he, hread⟩ := ih job₀ hj₀ (hsame.truthy_iff.mp ht)
    exact ⟨e, List.mem_append_left _ he, hsame.runId ▸ hread⟩
  · exact ⟨_, List.mem_append_right _ hj₀, hsame.runId.symm, hsame.truthy_iff.mp ht⟩
  · rw [ReviewJob.fillHead_runId]
    cases ht₀ : truthy job₀.head with
    | true =>
      obtain ⟨e, he, hread⟩ := ih job₀ (Or.inr hj₀) ht₀
      exact ⟨e, List.mem_append_left _ he, hread⟩
    | false =>
      refine ⟨_, List.mem_append_right _ (List.mem_singleton.mpr rfl), rfl, ht₀, hover, ?_⟩
      unfold ReviewJob.fillHead at ht
      rw [if_neg (by simp [ht₀])] at ht
      rw [truthy_iff_orEmpty] at ht ⊢
      exact ht

/-- A review that is staged with a head is one of a run that has got to know a head. -/
theorem known_of_staged (hr : (machine cfg).Reaches D s h) :
    ∀ job x, .staged job x ∈ h → truthy job.head = true → ∃ e ∈ h, e.ReadsHead job.runId := by
  refine hr.invariant (I := fun _ h => ∀ job x, .staged job x ∈ h → truthy job.head = true →
    ∃ e ∈ h, e.ReadsHead job.runId) ?_ ?_
  · intro s _ job x he
    cases he
  intro s h a s' es hr ih _ hstep job x he ht
  have hknown : ∃ e ∈ h, e.ReadsHead job.runId := by
    rcases List.mem_append.mp he with he | he
    · exact ih job x he ht
    · cases event_of_step hstep he with
      | staged hw _ _ _ => exact reaches_known hr job (Or.inr (Or.inr ⟨_, List.mem_of_getElem? hw⟩)) ht
  obtain ⟨e, he, hread⟩ := hknown
  exact ⟨e, List.mem_append_left _ he, hread⟩

end App

/-- The job a request brings along has no head. -/
theorem ApprovalRequest.head_of_target {cfg : AppConfig} {request : ApprovalRequest} {run : RunId}
    {job : ReviewJob} {given : String} (h : request.target cfg = some (run, some job, given)) :
    job.head = some "" := by
  cases request with
  | endpoint run' owner repo pr =>
    simp only [ApprovalRequest.target, Option.some.injEq, Prod.mk.injEq] at h
    obtain ⟨-, hjob, -⟩ := h
    unfold App.jobOfQuery at hjob
    split at hjob
    · rw [← Option.some.inj hjob]
    · cases hjob
  | slack payload =>
    simp only [ApprovalRequest.target] at h
    split at h
    · rename_i run' job' summary hp
      cases h
      exact (slack_approve_job hp).2.1
    · cases h

namespace App

variable {cfg : AppConfig} {s s' : App} {a : AppAction} {D : Machine.Discipline App AppAction AppEvent}
  {n : Nat} {job₀ : ReviewJob} {given : String}

/-- The job that a request asks for has the pull request and the head that the review of its run was
staged for, if the run has got to know no head or its row has one. -/
theorem sameTarget_of_requested (hr : (machine cfg).Reaches D s h) (hown : AskedOwn r h)
    (hrequested : Requested cfg h n job given) (hid : job.runId = r) (hx : .staged job₀ x ∈ h)
    (hid₀ : job₀.runId = r) (hhead : truthy job.head = true ∨ ∀ e ∈ h, ¬ e.ReadsHead r) :
    SameTarget job₀ job := by
  obtain ⟨request, stored, otherwise, hasked, htarget, hfrom⟩ := hrequested
  refine ⟨hid.trans hid₀.symm, (hown.ref_of_staged hr hasked hid hx hid₀).symm, ?_⟩
  by_cases ht : truthy job.head = true
  · -- the row has the head the run was enqueued with, and so has the review
    rcases hfrom with ⟨-, job₁, hj₁, hsame⟩ | ⟨-, hotherwise⟩
    · obtain ⟨job₂, hj₂, hrun⟩ := inserted_of_staged hr job₀ x hx
      have hone : job₁ = job₂ := (Sched.reaches_lineage (reaches_core hr)).unique job₁ job₂
        (mem_core_history.mpr hj₁) (mem_core_history.mpr hj₂)
        (hsame.runId.symm.trans ((hid.trans hid₀.symm).trans hrun.runId))
      subst hone
      rw [hrun.head (hsame.truthy_iff.mp ht), hsame.head]
    · subst hotherwise
      rw [ApprovalRequest.head_of_target htarget] at ht
      exact absurd ht (by decide)
  · -- neither has one
    have hnone : ∀ e ∈ h, ¬ e.ReadsHead r := hhead.resolve_left ht
    have ht₀ : ¬ truthy job₀.head = true := fun ht₀ => by
      obtain ⟨e, he, hread⟩ := known_of_staged hr job₀ x hx ht₀
      exact hnone e he (hid₀ ▸ hread)
    rw [truthy_iff_orEmpty, not_not] at ht ht₀
    rw [ht, ht₀]

/-! ## Publications of one run -/

/-- The run is approved for its own pull request, and a publication of it starts while its review is
in memory, for a job that has the head the run has got to know. -/
structure StagedApproval (cfg : AppConfig) (r : RunId) (s : App) (h : List AppEvent) (a : AppAction) :
    Prop where
  own : OwnRequest cfg r s h a
  started : ∀ k p, a = .publish k .go → s.approvals[k]? = some p → p.pc = .created →
    p.job.runId = r →
    s.staged.find r ≠ none ∧ (truthy p.job.head = true ∨ ∀ e ∈ h, ¬ e.ReadsHead r)

/-- A publication starts with the first step of `publish_approved_review`. -/
theorem publishing_of_step (hstep : step cfg s a = some (s', es)) {userApproved : Bool}
    {taken : Option StagedReview} (he : .publishing n job userApproved taken ∈ es) :
    ∃ k p, a = .publish k .go ∧ s.approvals[k]? = some p ∧ p.pc = .created ∧ n = p.number ∧
      job = p.job ∧ taken = s.staged.find p.job.runId := by
  cases step_cases hstep with
  | @publish k inp p m hp hm =>
    rcases hm.start_or_write he with heq | ⟨w, heq⟩
    · cases heq
      cases hm with
      | blocked hpc _ => exact ⟨k, p, rfl, hp, hpc, rfl, rfl, rfl⟩
      | started hpc _ _ => exact ⟨k, p, rfl, hp, hpc, rfl, rfl, rfl⟩
      | submitting _ _ =>
        obtain ⟨w, -, heq⟩ := List.mem_map.mp he
        cases heq
      | promote _ _ | merge _ _ => cases List.mem_singleton.mp he
      | submitFailed _ _ | finish _ _ _ => cases he
    · cases heq
  | core _ _ | enqueue _ _ =>
    obtain ⟨ce, -, heq⟩ := List.mem_map.mp he
    cases heq
  | chatter _ hes =>
    obtain ⟨origin, w, heq, -, -⟩ := hes _ he
    cases heq
  | @ask _ request run otherwise summary _ _ =>
    rcases ask_cases (s := s) request run otherwise summary with ⟨j, -, heq⟩ | ⟨-, heq⟩ <;>
      rw [heq] at he <;> cases List.mem_singleton.mp he
  | exec _ hm _ => exact absurd rfl (hm.quiet _ he n).1
  | _ => cases List.mem_singleton.mp he

/-- **A publication of the run takes the review that stands**, and its job has the pull request and
the head that this was staged for. -/
theorem standing_of_publishing (hr : (machine cfg).Reaches (StagedApproval cfg r) s h)
    (hd : StagedApproval cfg r s h a) (hstep : step cfg s a = some (s', es)) {userApproved : Bool}
    {taken : Option StagedReview} (he : .publishing n job userApproved taken ∈ es)
    (hid : job.runId = r) :
    ∃ job₀ x, taken = some x ∧ Standing h job₀ x ∧ SameTarget job₀ job := by
  obtain ⟨k, p, ha, hp, hpc, rfl, rfl, rfl⟩ := publishing_of_step hstep he
  obtain ⟨hstaged, hhead⟩ := hd.started k p ha hp hpc hid
  obtain ⟨x, hx⟩ := Option.ne_none_iff_exists'.mp hstaged
  have hb := reaches_booked hr
  obtain ⟨job₀, hs, hid₀⟩ := exists_standing ((hb.staged r x).mp hx)
  exact ⟨job₀, x, by rw [hid, hx], hs,
    sameTarget_of_requested hr (reaches_askedOwn (hr.mono fun _ _ _ hd => hd.own))
      (hb.handled p (List.mem_of_getElem? hp)).requested hid hs.mem hid₀ hhead⟩

/-- A publication after a step was there before, or is the one of the request that has arrived. -/
theorem approval_of_step (hr : (machine cfg).Reaches D s h) (hstep : step cfg s a = some (s', es))
    {p : Approval} (hp : p ∈ s'.approvals) :
    (∃ p₀ ∈ s.approvals, p₀.number = p.number) ∨ p.number = s.requests := by
  have hdistinct := (reaches_booked hr).distinct
  have hset : ∀ {k : Nat} {q q' : Approval}, s.approvals[k]? = some q →
      p ∈ s.approvals.set k q' → q'.number = q.number →
      ∃ p₀ ∈ s.approvals, p₀.number = p.number := by
    intro k q q' hq hp hnumber
    rcases mem_set_publication hdistinct hq hp with rfl | ⟨hp, -⟩
    · exact ⟨q, List.mem_of_getElem? hq, hnumber.symm⟩
    · exact ⟨p, hp, rfl⟩
  cases step_cases hstep with
  | @ask _ request run otherwise summary _ _ =>
    rcases ask_cases (s := s) request run otherwise summary with ⟨j, -, heq⟩ | ⟨-, heq⟩ <;>
      rw [heq] at hp
    · rcases List.mem_append.mp hp with hp | hp
      · exact Or.inl ⟨p, hp, rfl⟩
      · rw [List.mem_singleton.mp hp]
        exact Or.inr rfl
    · exact Or.inl ⟨p, hp, rfl⟩
  | publish hq _ => exact Or.inl (hset hq hp rfl)
  | acceptApproval hq _ _ => exact Or.inl (hset hq hp rfl)
  | crash _ => exact absurd hp List.not_mem_nil
  | _ => exact Or.inl ⟨p, hp, rfl⟩

/-- Every publication of the run that has started has taken the review that stands. -/
def TakesStanding (r : RunId) (s : App) (h : List AppEvent) : Prop :=
  ∀ p ∈ s.approvals, ∀ job userApproved taken, .publishing p.number job userApproved taken ∈ h →
    job.runId = r → ∃ job₀ x, taken = some x ∧ Standing h job₀ x ∧ SameTarget job₀ job

/-- In every run with staged approvals the publications take the standing review. -/
theorem reaches_takesStanding (hr : (machine cfg).Reaches (StagedApproval cfg r) s h) :
    TakesStanding r s h := by
  refine hr.invariant (I := TakesStanding r) ?_ ?_
  · intro s _ p _ job userApproved taken he
    cases he
  intro s h a s' es hr ih hd hstep p hp job userApproved taken he hid
  have hcrash : .crashed ∉ es := by
    intro hcrash
    rw [approvals_of_crashed hstep hcrash] at hp
    cases hp
  have hbefore : ∃ job₀ x, taken = some x ∧ Standing h job₀ x ∧ SameTarget job₀ job := by
    rcases List.mem_append.mp he with he | he
    · rcases approval_of_step hr hstep hp with ⟨p₀, hp₀, hnumber⟩ | hnew
      · exact ih p₀ hp₀ job userApproved taken (hnumber ▸ he) hid
      · have hlt := (reaches_booked hr).numbered _ p.number he (Or.inl rfl)
        rw [hnew] at hlt
        exact absurd hlt (Nat.lt_irrefl _)
    · exact standing_of_publishing hr hd hstep he hid
  obtain ⟨job₀, x, htaken, hs, hsame⟩ := hbefore
  exact ⟨job₀, x, htaken, Standing.step hs hr hstep (fun _ he => he) hcrash, hsame⟩

/-- No publication of the run finds nothing. -/
theorem reaches_findsNothing (hr : (machine cfg).Reaches (StagedApproval cfg r) s h) :
    h.countP (AppEvent.findsNothing r) = 0 := by
  refine hr.invariant (I := fun _ h => h.countP (AppEvent.findsNothing r) = 0) (fun _ _ => rfl) ?_
  intro s h a s' es hr ih hd hstep
  have hes : es.countP (AppEvent.findsNothing r) = 0 := by
    rw [List.countP_eq_zero]
    intro e he hnothing
    cases e with
    | publishing n job userApproved taken =>
      obtain ⟨hid, hnone⟩ := Bool.and_eq_true_iff.mp hnothing
      obtain ⟨job₀, x, rfl, -⟩ := standing_of_publishing hr hd hstep he (eq_of_beq hid)
      cases hnone
    | _ => cases hnothing
  rw [List.countP_append, ih, hes]

/-- What a publication of the run writes is the review that stands, for its pull request and at its
head. -/
theorem latest_of_step (hr : (machine cfg).Reaches (StagedApproval cfg r) s h)
    (hd : StagedApproval cfg r s h a) (hstep : step cfg s a = some (s', es))
    {pre post : List AppEvent} {w : GitHubWrite}
    (hes : es = pre ++ .write (.approval n) w :: post) (hrun : w.run = some r) :
    ∃ job job' x, Reviewed (h ++ pre) job x ∧ job.runId = r ∧ SameTarget job job' ∧
      Publication job' x w := by
  have he : .write (.approval n) w ∈ es := by simp [hes]
  have hpre : ∀ e ∈ pre, e ∈ es := by
    intro e he
    rw [hes]
    exact List.mem_append_left _ he
  obtain ⟨job, given, userApproved, taken, -, hmem, -, hpub⟩ :=
    reaches_founded (.step hr hd hstep) (h ++ pre) _ post (by rw [hes, List.append_assoc]) n w rfl
  have hid : job.runId = r := hpub.run_eq hrun
  cases event_of_step hstep he with
  | @approval k p inp m _ hp hm hesm _ =>
    have hcrash : .crashed ∉ pre := by
      intro hcrash
      rcases hm.start_or_write (hesm ▸ hpre _ hcrash) with heq | ⟨w', heq⟩ <;> cases heq
    have htaken : ∃ job₀ x, taken = some x ∧ Standing h job₀ x ∧ SameTarget job₀ job := by
      rcases List.mem_append.mp hmem with hmem | hmem
      · exact reaches_takesStanding hr p (List.mem_of_getElem? hp) job userApproved taken hmem hid
      · exact standing_of_publishing hr hd hstep (hpre _ hmem) hid
    obtain ⟨job₀, x, rfl, hs, hsame⟩ := htaken
    exact ⟨job₀, job, x, (Standing.step hs hr hstep hpre hcrash).reviewed,
      hsame.runId.symm.trans hid, hsame, hpub⟩
  | chatter horigin _ => rcases horigin with horigin | horigin <;> cases horigin

/-- **An approval publishes exactly what its run has staged last**, no more often than it has staged
anything, if the run is approved for its own pull request, and a publication of it starts while its
review is in memory, for a job that has the head the run has got to know. -/
theorem approvals_publish_staged (cfg : AppConfig) (r : RunId) {s : App} {h : List AppEvent}
    (hr : (machine cfg).Reaches (StagedApproval cfg r) s h) : PublishesStaged r h := by
  constructor
  · refine hr.invariant (I := fun _ h => Each (fun before e => ∀ n w, e = .write (.approval n) w →
      w.run = some r → ∃ job job' x, Reviewed before job x ∧ job.runId = r ∧ SameTarget job job' ∧
        Publication job' x w) h) (fun _ _ => each_nil) ?_
    intro s h a s' es hr hh hd hstep
    refine hh.append ?_
    rintro pre e post hes n w rfl hrun
    exact latest_of_step hr hd hstep hes hrun
  · calc h.countP (AppEvent.submits r)
        ≤ h.countP (AppEvent.stages r) + h.countP (AppEvent.findsNothing r) :=
          (approvals_publish_taken cfg hr.reachable).submits_le r
      _ = h.countP (AppEvent.stages r) := by rw [reaches_findsNothing hr, Nat.add_zero]

/-- The step starts publications only while a review of the first run is staged, for a job with a
head. -/
def startsStaged (s : App) : AppAction → Bool
  | .publish k .go =>
    (s.staged.find "r1").isSome && s.approvals[k]?.all fun p => truthy p.job.head
  | _ => true

/-- A check that is strong enough for `StagedApproval` of the first run. -/
def stagedApprovalStep (s : App) (_ : List AppEvent) (a : AppAction) : Bool :=
  (a.request.isNone || (s.core.table.getJob "r1").isSome) && startsStaged s a

/-- A step that passes the check is a staged approval's. -/
theorem stagedApproval_of_step (hcheck : stagedApprovalStep s h a = true) :
    StagedApproval cfg "r1" s h a := by
  obtain ⟨hrequest, hstart⟩ := Bool.and_eq_true_iff.mp hcheck
  constructor
  · intro request otherwise given ha _
    rw [ha, Option.isNone_some, Bool.false_or] at hrequest
    exact Or.inl (Option.isSome_iff_ne_none.mp hrequest)
  · rintro k p rfl hp - -
    obtain ⟨hstaged, hhead⟩ := Bool.and_eq_true_iff.mp hstart
    rw [hp, Option.all_some] at hhead
    exact ⟨Option.isSome_iff_ne_none.mp hstaged, Or.inl hhead⟩

/-- A run approved once publishes what was staged and is merged. -/
theorem approvals_publish_staged_merged :
    ∃ s h, .write (.approval 0) (.mergePr firstJob.ref "r1" "a") ∈ h ∧ PublishesStaged "r1" h ∧
      (machine (smallConfig true 1)).Reaches (StagedApproval (smallConfig true 1) "r1") s h := by
  obtain ⟨s, h, hr, hmerge⟩ := Machine.exists_reaches_run (M := machine (smallConfig true 1))
    (D := StagedApproval (smallConfig true 1) "r1") (fun _ _ _ => stagedApproval_of_step)
    (stagedRun ++ approveAndMerge)
    (fun _ h => h.contains (.write (.approval 0) (.mergePr firstJob.ref "r1" "a"))) small_new
    (by decide)
  exact ⟨s, h, List.contains_iff_mem.mp hmerge, approvals_publish_staged _ "r1" hr, hr⟩

/-- The row of the first pull request, as a job, when its review waits for approval. -/
def storedJob : ReviewJob :=
  { firstJob with model := some "", status := .pendingApproval }

/-- What this event stages is a review with this summary. -/
def stagesSummary (summary : String) : AppEvent → Bool
  | .staged _ x => x.summary == summary
  | _ => true

/-- The process dies after a review has been staged, and the run is approved in the next one: its
row still waits for approval, and the summary of the endpoint is submitted instead of the
review. -/
theorem publishes_unstaged :
    ¬ ∀ cfg s h r, cfg.slack = true → (machine cfg).Reachable s h → PublishesStaged r h := by
  intro hall
  obtain ⟨s, h, hr, hcheck⟩ := Machine.exists_reachable_run (M := machine (smallConfig true 1))
    (stagedRun ++ [.crash, .boot, .approve "r1" none none none, .publish 0 .go])
    (fun s h => s.core.table.statusOf "r1" == some .pendingApproval &&
      h.contains (.write (.approval 0) (.submitReview
        (reviewOf storedJob "Review Approved via Agent" [] .approve))) &&
      h.all fun e => stagesSummary "" e) small_new (by decide)
  rw [Bool.and_eq_true, Bool.and_eq_true, List.all_eq_true] at hcheck
  obtain ⟨before, post, rfl, hpub⟩ :=
    (hall _ _ _ "r1" rfl hr).latest.of_mem (List.contains_iff_mem.mp hcheck.1.2)
  obtain ⟨job, job', x, ⟨pre, e, post', rfl, rfl, -⟩, -, -, hw⟩ := hpub 0 _ rfl rfl
  have hsummary : x.summary = "" := eq_of_beq (hcheck.2 (.staged job x) (by simp))
  generalize hreview : reviewOf storedJob "Review Approved via Agent" [] .approve = review at hw
  cases hw
  rw [hsummary] at hreview
  have hno : "Review Approved via Agent" = "" := congrArg Review.summary hreview
  exact absurd hno (by decide)

end App

end PrReviewer.Model
