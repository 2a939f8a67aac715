import PrReviewer.Analysis.DirectPublish

/-!
# How often the review of a run is completed

A run completes a review when it stages one, or when GitHub gets one from its worker: a review it
accepts, or the comment that stands in for one. Its worker has still to write down that the run
is over. As long as the process does not die before that, and GitHub's answers to the accepted
requests arrive, no run completes more than one review.
-/

set_option autoImplicit false

namespace PrReviewer.Model

open PrReviewer.Library

namespace AppEvent

/-- A worker submits a review of the run. -/
def sends (r : RunId) : AppEvent → Bool
  | .write (.worker run) (.submitReview _) => run == r
  | _ => false

/-- GitHub accepts a review of the run, or its worker sends the comment that stands in for one. -/
def posts (r : RunId) : AppEvent → Bool
  | .accepted run => run == r
  | .write (.worker run) (.postComment _ _ _ _) => run == r
  | _ => false

end AppEvent

/-! ## What is counted -/

/-- What GitHub gets of the review that a worker of the run has just submitted, until a worker
submits the next one. -/
def postings (r : RunId) : List AppEvent → Nat
  | [] => 0
  | e :: later => if e.sends r then 0 else (if e.posts r then 1 else 0) + postings r later

/-- The reviews of this commit of this pull request that an event completes, each by its run: the
one it stages, or what GitHub gets of the one a worker submits. -/
def AppEvent.completes (ref : PrRef) (sha : String) (later : List AppEvent) : AppEvent → List RunId
  | .staged job _ => if job.ref = ref ∧ job.head = some sha then [job.runId] else []
  | .write (.worker run) (.submitReview review) =>
    if review.ref = ref ∧ review.head = some sha then List.replicate (postings run later) run else []
  | _ => []

/-- The completed reviews of this commit of this pull request, each by its run. -/
def completions (ref : PrRef) (sha : String) : List AppEvent → List RunId
  | [] => []
  | e :: later => e.completes ref sha later ++ completions ref sha later

variable {r : RunId} {ref : PrRef} {sha : String} {e : AppEvent} {h later : List AppEvent}

/-- One event completes at most what it stages, or what GitHub gets of what it submits. -/
theorem AppEvent.count_completes (e : AppEvent) :
    (e.completes ref sha later).count r ≤
      (if e.stages r then 1 else 0) + if e.sends r then postings r later else 0 := by
  have hzero : ∀ n : Nat, (([] : List RunId)).count r ≤ n := fun n => Nat.zero_le n
  unfold completes
  split
  · split
    · simp [AppEvent.stages, AppEvent.sends, List.count_singleton]
    · exact hzero _
  · rename_i run review
    split
    · by_cases hrun : run = r
      · simp [AppEvent.stages, AppEvent.sends, hrun]
      · simp [List.count_replicate, hrun]
    · exact hzero _
  · exact hzero _

/-- **A run completes no more reviews than it stages and GitHub gets**: what GitHub gets counts for
the review submitted last. -/
theorem count_completions_le :
    (completions ref sha h).count r + postings r h ≤
      h.countP (AppEvent.stages r) + h.countP (AppEvent.posts r) := by
  induction h with
  | nil => exact Nat.zero_le _
  | cons e later ih =>
    have he : (e.completes ref sha later).count r ≤
        (if e.stages r then 1 else 0) + if e.sends r then postings r later else 0 :=
      e.count_completes
    rw [completions, List.count_append, postings, List.countP_cons, List.countP_cons]
    by_cases hsends : e.sends r = true
    · rw [if_pos hsends] at he ⊢
      omega
    · rw [if_neg hsends] at he ⊢
      omega

/-- A run of which no worker submits a review completes those it stages. -/
theorem count_completions_le_stages (hno : ∀ e ∈ h, e.sends r = false) :
    (completions ref sha h).count r ≤ h.countP (AppEvent.stages r) := by
  induction h with
  | nil => exact Nat.zero_le _
  | cons e later ih =>
    have he : (e.completes ref sha later).count r ≤
        (if e.stages r then 1 else 0) + if e.sends r then postings r later else 0 :=
      e.count_completes
    have hsends := hno e List.mem_cons_self
    have hlater := ih fun e' he' => hno e' (List.mem_cons_of_mem _ he')
    rw [completions, List.count_append, List.countP_cons]
    rw [hsends] at he
    simp only [Bool.false_eq_true, if_false] at he
    omega

/-! ## Calls that end -/

/-- A call of `submit_review` writes nothing, or answers a failure with the comment that stands in
for the review. -/
theorem submitStep_comments {review : Review} {pc pc' : SubmitPc} {reply : SubmitReply}
    {writes : List GitHubWrite} (hs : submitStep review pc reply = some (.goOn pc' writes)) :
    writes = [] ∨ writes = [commentOn review.ref review.body] ∧ pc' = .commenting ∧
      ∃ inline attempt accepted, pc = .posting inline attempt accepted ∧ reply ≠ .created ∧
        ¬ (reply = .noId ∧ inline = true) := by
  have hafter : ∀ {inline : Bool}, review.afterFailure inline = .goOn pc' writes →
      writes = [] ∨ writes = [commentOn review.ref review.body] ∧ pc' = .commenting := by
    intro inline hs
    unfold Review.afterFailure at hs
    split at hs
    · cases hs
      exact Or.inl rfl
    · cases hs
      exact Or.inr ⟨rfl, rfl⟩
  unfold submitStep at hs
  split at hs
  case h_3 =>
    cases hs
    exact Or.inr ⟨rfl, rfl, _, _, _, rfl, by simp, by simp⟩
  case h_4 =>
    split at hs
    · cases hs
      exact Or.inl rfl
    · refine (hafter (Option.some.inj hs)).imp_right fun hw => ⟨hw.1, hw.2, _, _, _, rfl, ?_, ?_⟩
      · simp
      · simp
  case h_5 =>
    refine (hafter (Option.some.inj hs)).imp_right fun hw => ⟨hw.1, hw.2, _, _, _, rfl, ?_, ?_⟩
    · simp
    · simp
  all_goals
    cases hs
    try exact Or.inl rfl

namespace App

variable {cfg : AppConfig} {s s' : App} {a : AppAction} {es : List AppEvent}
  {D : Machine.Discipline App AppAction AppEvent}

/-- The preview of a staged review is being sent. -/
def Previewing (pc : ExecPc) : Prop :=
  pc = .notify

/-- A call that has staged its review finishes its run. -/
theorem finalFrom_previewing : FinalFrom cfg Previewing := by
  rintro now cache staged job _ inp m out c st rfl hm hnext hst
  cases hm with
  | notified =>
    cases hnext
    exact @Sched.final_of_writeStatus _ _ _ .pendingApproval rfl hst

/-- Nothing comes between a completed review of the run and the record of its worker: the process
does not die in between; if the review is published directly, GitHub's answer to the accepted
request says so, and GitHub accepts no request nobody waits for any more. -/
def Recorded (cfg : AppConfig) (r : RunId) : Machine.Discipline App AppAction AppEvent
  | s, h, .crash =>
    ∀ job pc, Worker.busy job pc ∈ s.core.workers → job.runId = r →
      ∀ e ∈ h, e.stages r = false ∧ e.posts r = false
  | s, _, .exec i (.submit reply) =>
    ∀ job review inline attempt, s.core.workers[i]? =
      some (.busy job (.publishing review (.posting inline attempt true))) → job.runId = r →
      reply = .created ∨ reply = .noId ∧ inline = true
  | s, _, .acceptOrphan k => cfg.slack = false → s.orphans[k]? ≠ some r
  | _, _, _ => True

/-! ## Reviews are staged once -/

/-- **A run that is recorded stages one review at most.** -/
theorem reaches_stagedOnce (hr : (machine cfg).Reaches (Recorded cfg r) s h) :
    Once r (AppEvent.stages r) Previewing s h := by
  refine hr.invariant (I := fun s h => Once r (AppEvent.stages r) Previewing s h) ?_ ?_
  · intro s _
    exact .nil
  intro s h a s' es hr ho hd hstep
  refine ho.append ?_ ?_
  · intro e he hstages
    cases event_of_step hstep he with
    | @staged i job checkout x hw hes hslack hcstep =>
      have hid : job.runId = r := by simpa [AppEvent.stages] using hstages
      refine ⟨hes, fun hs => ?_, settled_of_advance hr hw hid hcstep rfl⟩
      cases hs.closed job _ (List.mem_of_getElem? hw) hid
    | _ => cases hstages
  · intro e he hstages _ hs
    refine hs.step hr finalFrom_previewing hstep ?_ ?_ ?_
    · intro i job pc inp m sha pc' _ hw hid hm hnext
      obtain rfl := hs.closed job pc (List.mem_of_getElem? hw) hid
      cases hm with
      | notified => cases hnext
    · intro review pc pc' hpast
      cases hpast
    · rintro rfl job pc hw hid
      have hno := (hd job pc hw hid e he).1
      rw [hstages] at hno
      cases hno

/-! ## Reviews are posted once -/

/-- The comment that stands in for a review comes from the worker that has submitted it, after an
answer that was no success. -/
theorem comment_of_step (hstep : step cfg s a = some (s', es)) {run : RunId} {w : GitHubWrite}
    (he : .write (.worker run) w ∈ es) (hw : w.publishes = false) :
    ∃ (i : Nat) (job : ReviewJob) (review : Review) (inline : Bool) (attempt : Nat) (accepted : Bool)
      (reply : SubmitReply), a = .exec i (.submit reply) ∧ job.runId = run ∧
        s.core.workers[i]? = some (.busy job (.publishing review (.posting inline attempt accepted))) ∧
        reply ≠ .created ∧ ¬ (reply = .noId ∧ inline = true) ∧
        es = [.write (.worker run) w] ∧
        Sched.step cfg.sched s.core (.advance i none (.publishing review .commenting)) =
          some (s'.core, []) := by
  have hcore : ∀ {ces : List SchedEvent}, .write (.worker run) w ∉ ces.map AppEvent.core := by
    intro ces hmem
    obtain ⟨ce, -, heq⟩ := List.mem_map.mp hmem
    cases heq
  cases step_cases hstep with
  | core _ _ => exact absurd he hcore
  | enqueue _ _ => exact absurd he hcore
  | chatter _ hes =>
    obtain ⟨origin, w', heq, horigin, -⟩ := hes _ he
    cases heq
    rcases horigin with horigin | horigin <;> cases horigin
  | @ask _ request run' otherwise summary _ _ =>
    rcases ask_cases (s := s) request run' otherwise summary with ⟨job, -, heq⟩ | ⟨-, heq⟩ <;>
      rw [heq] at he <;> cases List.mem_singleton.mp he
  | exec hw' hm hcstep =>
    cases hm with
    | prOver _ | looked _ | ran | staged _ => cases List.mem_singleton.mp he
    | publish _ _ =>
      cases List.mem_singleton.mp he
      cases hw
    | submitting hs =>
      rcases submitStep_comments hs with
        rfl | ⟨rfl, rfl, inline, attempt, accepted, rfl, hcreated, hnoId⟩
      · cases he
      · cases List.mem_singleton.mp he
        exact ⟨_, _, _, _, _, _, _, rfl, rfl, hw', hcreated, hnoId, rfl, hcstep⟩
    | _ => cases he
  | publish _ hm => rcases hm.start_or_write he with heq | ⟨w', heq⟩ <;> cases heq
  | _ => cases List.mem_singleton.mp he

/-- An event that posts is GitHub's acceptance of a review, or a worker's comment. -/
theorem AppEvent.posts_cases {e : AppEvent} (hposts : e.posts r = true) :
    e = .accepted r ∨ ∃ w, e = .write (.worker r) w ∧ w.publishes = false := by
  unfold AppEvent.posts at hposts
  split at hposts
  · exact Or.inl (congrArg AppEvent.accepted (eq_of_beq hposts))
  · obtain rfl := eq_of_beq hposts
    exact Or.inr ⟨_, rfl, rfl⟩
  · cases hposts

/-- **GitHub gets one review at most of a run that is recorded**, if reviews are published directly
and no approval request names it. -/
theorem reaches_postsOnce (hslack : cfg.slack = false)
    (hr : (machine cfg).Reaches (Recorded cfg r) s h)
    (hno : ∀ n request stored job, .asked n request stored (some job) ∈ h → job.runId ≠ r) :
    Once r (AppEvent.posts r) ClosedCall s h := by
  refine hr.invariant (I := fun s h =>
    (∀ n request stored job, .asked n request stored (some job) ∈ h → job.runId ≠ r) →
      Once r (AppEvent.posts r) ClosedCall s h) ?_ ?_ hno
  · intro s _ _
    exact .nil
  intro s h a s' es hr ih hd hstep hno
  have hno' : ∀ n request stored job, .asked n request stored (some job) ∈ h → job.runId ≠ r :=
    fun n request stored job hj => hno n request stored job (List.mem_append_left _ hj)
  refine (ih hno').append ?_ ?_
  · intro e he hposts
    rcases AppEvent.posts_cases hposts with rfl | ⟨w, rfl, hw⟩
    · rcases accepted_of_step hr hstep he with
        ⟨i, job, review, pc, pc', hw, hid, hpc, hcstep, hes⟩ | ⟨n, request, stored, job, hasked, hid⟩ |
          ⟨k, rfl, hk⟩
      · exact ⟨hes, not_settled_of_accept hw hid hpc,
          settled_of_advance hr hw hid hcstep ⟨review, pc', rfl, (closed_of_accept hpc).2⟩⟩
      · exact absurd hid (hno' n request stored job hasked)
      · exact absurd hk (hd hslack)
    · obtain ⟨i, job, review, inline, attempt, accepted, reply, rfl, hid, hbusy, hcreated, hnoId, hes,
        hcstep⟩ := comment_of_step hstep he hw
      have hopen : accepted = false := by
        cases accepted with
        | false => rfl
        | true =>
          rcases hd job review inline attempt hbusy hid with heq | heq
          · exact absurd heq hcreated
          · exact absurd heq hnoId
      subst hopen
      refine ⟨hes, fun hs => ?_, settled_of_advance hr hbusy hid hcstep ⟨review, _, rfl, rfl⟩⟩
      exact absurd (hs.closed_of_worker hbusy hid) Bool.false_ne_true
  · intro e he hposts _ hs
    refine hs.step_closed hr ?_ ?_ hstep
    · rintro i reply job review inline attempt rfl hbusy hid
      rcases hd job review inline attempt hbusy hid with rfl | ⟨rfl, -⟩ <;> rfl
    · rintro rfl job pc hbusy hid
      have hquiet := (hd job pc hbusy hid e he).2
      rw [hposts] at hquiet
      cases hquiet

/-! ## Reviews are completed once -/

/-- Workers stage reviews if there is a Slack notifier, and submit them if there is none. -/
theorem reaches_mode (hr : (machine cfg).Reaches D s h) :
    ∀ e ∈ h, (e.stages r = true → cfg.slack = true) ∧ (e.sends r = true → cfg.slack = false) := by
  refine hr.invariant (I := fun _ h =>
    ∀ e ∈ h, (e.stages r = true → cfg.slack = true) ∧ (e.sends r = true → cfg.slack = false)) ?_ ?_
  · intro s _ e he
    exact absurd he List.not_mem_nil
  intro s h a s' es _ ih _ hstep e he
  rcases List.mem_append.mp he with he | he
  · exact ih e he
  · cases event_of_step hstep he with
    | staged _ _ hslack _ => exact ⟨fun _ => hslack, fun hsends => absurd hsends Bool.false_ne_true⟩
    | @worker i job pc w _ hslack =>
      refine ⟨fun hstages => absurd hstages Bool.false_ne_true, fun hsends => hslack ?_⟩
      cases w with
      | submitReview review => rfl
      | _ => cases hsends
    | @chatter origin w horigin _ =>
      refine ⟨fun hstages => absurd hstages Bool.false_ne_true, fun hsends => ?_⟩
      rcases horigin with rfl | rfl <;> cases hsends
    | _ =>
      refine ⟨fun hstages => ?_, fun hsends => ?_⟩
      · cases hstages
      · cases hsends

/-- No approval request names a run of which a worker submits a review. -/
def Unasked (h : List AppEvent) : Prop :=
  ∀ n request stored job, .asked n request stored (some job) ∈ h →
    ∀ e ∈ h, e.sends job.runId = false

/-- **A run that is recorded completes one review at most.** -/
theorem count_completions_le_one (hr : (machine cfg).Reaches (Recorded cfg r) s h)
    (hno : Unasked h) : (completions ref sha h).count r ≤ 1 := by
  by_cases hsends : ∃ e ∈ h, e.sends r = true
  · -- the review is published directly
    obtain ⟨e, he, hsends⟩ := hsends
    have hslack : cfg.slack = false := (reaches_mode hr e he).2 hsends
    have hstages : h.countP (AppEvent.stages r) = 0 := by
      rw [List.countP_eq_zero]
      intro e' he' hstages
      exact absurd ((reaches_mode hr e' he').1 hstages) (by simp [hslack])
    have hposts := (reaches_postsOnce hslack hr fun n request stored job hasked hid => ?_).count
    · have hle : (completions ref sha h).count r + postings r h ≤
          h.countP (AppEvent.stages r) + h.countP (AppEvent.posts r) := count_completions_le
      omega
    · have hquiet := hno n request stored job hasked e he
      rw [hid, hsends] at hquiet
      cases hquiet
  · -- the reviews it completes are those it stages
    have hno : ∀ e ∈ h, e.sends r = false := fun e he =>
      Bool.eq_false_iff.mpr fun hs => hsends ⟨e, he, hs⟩
    exact (count_completions_le_stages hno).trans (reaches_stagedOnce hr).count

end App

end PrReviewer.Model
