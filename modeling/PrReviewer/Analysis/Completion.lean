import PrReviewer.Analysis.Drains
import PrReviewer.Analysis.DirectPublish
import PrReviewer.Analysis.StatusMachine
import PrReviewer.Analysis.TriggerHistory

/-!
# The whole service gets done

`Analysis.Drains` counts the work of the scheduler, for which a call of the pipeline is one step.
Here the calls are taken apart: every await of `execute`, of `submit_review` with its retries and
of `publish_approved_review` has a weight, and every task that an event has started is charged with
the run it may enqueue. `left_step` is the step lemma. So a service that nobody asks for more
answers everything it has been asked for, whatever GitHub, git, Slack and the agent answer.
-/

set_option autoImplicit false

namespace PrReviewer.Model

open PrReviewer.Library

/-! ## The awaits of `submit_review` -/

/-- What the tries of a request stand for from this one on, and what follows them. -/
def requestWeight (inline : Bool) (attempt : Nat) : Nat :=
  3 * (5 - attempt) + if inline then 17 else 3

/-- The awaits a call of `submit_review` may still come to. A review that GitHub has not accepted
stands for one more, since it may be accepted when nobody waits for it. -/
def SubmitPc.weight : SubmitPc → Nat
  | .posting inline attempt accepted => requestWeight inline attempt + if accepted then 0 else 1
  | .backoff inline attempt => requestWeight inline (attempt + 1) + 2
  | .commenting => 2
  | .done => 1

/-- The review in flight that a step leaves behind. -/
def SubmitPc.loose (pc : SubmitPc) : Nat :=
  if pc.unaccepted then 1 else 0

section Submit

variable {r : Review} {pc pc' : SubmitPc} {reply : SubmitReply} {writes : List GitHubWrite}

/-- A request that is open has at least three steps left. -/
theorem requestWeight_pos (inline : Bool) (attempt : Nat) : 3 ≤ requestWeight inline attempt := by
  unfold requestWeight
  cases inline
  · exact Nat.le_add_left _ _
  · simp only [if_true]
    omega

/-- A submission under way has a step left. -/
theorem SubmitPc.weight_pos (pc : SubmitPc) : 1 ≤ pc.weight := by
  cases pc with
  | posting inline attempt accepted =>
    have hpos := requestWeight_pos inline attempt
    simp only [weight]
    omega
  | backoff inline attempt => exact Nat.le_add_left 1 _
  | commenting => decide
  | done => decide

/-- Every request that failed has a better one after it: the next try, the request without the
inline comments, or the comment. -/
theorem afterFailure_weight {inline : Bool} (attempt : Nat)
    (h : r.afterFailure inline = .goOn pc' writes) :
    pc'.weight + 1 ≤ requestWeight inline attempt := by
  have hpos := requestWeight_pos inline attempt
  unfold Review.afterFailure at h
  split at h
  · rename_i hinline
    cases h
    rw [hinline.1]
    simp only [SubmitPc.weight, requestWeight, if_true, Bool.false_eq_true, if_false]
    omega
  · cases h
    exact hpos

/-- **An answer to `submit_review` brings it nearer to its end**, also where it leaves a review in
flight. -/
theorem submitStep_weight (h : submitStep r pc reply = some (.goOn pc' writes)) :
    pc'.weight + pc.loose + 1 ≤ pc.weight := by
  -- a posting stands for its tries, and for the review in flight
  have hposting : ∀ {inline : Bool} {attempt : Nat} {accepted : Bool},
      pc'.weight + 1 ≤ requestWeight inline attempt →
      pc'.weight + (SubmitPc.posting inline attempt accepted).loose + 1
        ≤ (SubmitPc.posting inline attempt accepted).weight := by
    intro inline attempt accepted hle
    cases accepted
    · show pc'.weight + 1 + 1 ≤ requestWeight inline attempt + 1
      exact Nat.succ_le_succ hle
    · exact hle
  unfold submitStep at h
  split at h
  case h_1 inline attempt accepted =>
    cases h
    apply hposting
    have hpos := requestWeight_pos inline attempt
    exact Nat.le_trans (by decide) hpos
  case h_2 attempt accepted =>
    cases h
    apply hposting
    exact Nat.le_trans (by decide) (requestWeight_pos true attempt)
  case h_3 attempt accepted =>
    cases h
    apply hposting
    exact requestWeight_pos false attempt
  case h_4 inline attempt accepted =>
    apply hposting
    split at h
    · cases h
      show requestWeight inline (attempt + 1) + 2 + 1 ≤ requestWeight inline attempt
      unfold requestWeight
      omega
    · exact afterFailure_weight attempt (Option.some.inj h)
  case h_5 inline attempt accepted =>
    apply hposting
    exact afterFailure_weight attempt (Option.some.inj h)
  case h_6 inline attempt =>
    cases h
    simp [SubmitPc.weight, SubmitPc.loose, SubmitPc.unaccepted]
  case h_7 =>
    cases h
    decide
  all_goals cases h

/-- Where it ends it leaves nothing in flight. -/
theorem submitStep_ends {next : SubmitNext} (h : submitStep r pc reply = some next)
    (hnext : next = .returned ∨ next = .raised) : pc.loose = 0 := by
  have hgoOn : ∀ {pc' : SubmitPc} {writes : List GitHubWrite}, next ≠ .goOn pc' writes := by
    intro pc' writes heq
    rcases hnext with rfl | rfl <;> cases heq
  have hafter : ∀ {inline : Bool}, r.afterFailure inline ≠ next := by
    intro inline heq
    unfold Review.afterFailure at heq
    split at heq
    · exact hgoOn heq.symm
    · exact hgoOn heq.symm
  cases pc with
  | posting inline attempt accepted =>
    cases reply <;> simp only [submitStep] at h
    case created => exact absurd (Option.some.inj h).symm hgoOn
    case noId =>
      cases inline <;> exact absurd (Option.some.inj h).symm hgoOn
    case limited =>
      split at h
      · exact absurd (Option.some.inj h).symm hgoOn
      · exact absurd (Option.some.inj h) hafter
    case failed => exact absurd (Option.some.inj h) hafter
    all_goals cases h
  | _ => rfl

/-- GitHub's acceptance uses up a step of the submission. -/
theorem accept_weight (h : pc.accept = some pc') : pc'.weight + 1 ≤ pc.weight := by
  cases pc with
  | posting inline attempt accepted =>
    cases accepted <;> cases h
    simp [SubmitPc.weight]
  | _ => cases h

/-- A call of `submit_review` that is awaited can go on. -/
theorem submitStep_enabled (r : Review) (pc : SubmitPc) :
    ∃ reply, (submitStep r pc reply).isSome = true := by
  cases pc with
  | posting inline attempt accepted => exact ⟨.failed, by cases inline <;> rfl⟩
  | backoff inline attempt => exact ⟨.go, rfl⟩
  | commenting => exact ⟨.commented true, rfl⟩
  | done => exact ⟨.go, rfl⟩

end Submit

/-! ## The awaits of `execute` and of `publish_approved_review` -/

/-- The awaits a call of `execute` may still come to. -/
def ExecPc.weight : ExecPc → Nat
  | .start => 37
  | .fetchPr => 36
  | .announce => 35
  | .clone => 34
  | .fetchDiff _ => 33
  | .running _ => 32
  | .notify => 1
  | .publishing _ pc => pc.weight + 1

/-- What is left of the call a worker awaits. -/
def Worker.load : Worker ExecPc → Nat
  | .busy _ pc => pc.weight
  | _ => 0

/-- The awaits a call of `publish_approved_review` may still come to. -/
def ApprovalPc.weight : ApprovalPc → Nat
  | .created => 37
  | .submitting _ pc => pc.weight + 6
  | .marking => 6
  | .merging methods => methods.length + 2
  | .notifying => 1
  | .ended => 0

/-- A publishing worker has one unanswered review or none. -/
theorem Worker.length_unaccepted (job : ReviewJob) (review : Review) (pc : SubmitPc) :
    (Worker.unaccepted (.busy job (.publishing review pc))).toList.length = pc.loose := by
  unfold Worker.unaccepted SubmitPc.loose
  dsimp only
  split <;> rfl

/-- A worker has at most one unanswered review. -/
theorem Worker.length_unaccepted_le (w : Worker ExecPc) : w.unaccepted.toList.length ≤ 1 := by
  cases w.unaccepted
  · exact Nat.zero_le _
  · exact Nat.le_refl _

/-- A submitting publication has one unanswered review or none. -/
theorem Approval.length_unaccepted {p : Approval} {review : Review} {pc : SubmitPc}
    (h : p.pc = .submitting review pc) : p.unaccepted.toList.length = pc.loose := by
  unfold Approval.unaccepted SubmitPc.loose
  rw [h]
  dsimp only
  split <;> rfl

/-- A publication that submits nothing has no unanswered review. -/
theorem Approval.unaccepted_eq_none {p : Approval} (h : ∀ review pc, p.pc ≠ .submitting review pc) :
    p.unaccepted = none := by
  unfold Approval.unaccepted
  split
  · rename_i review pc hpc
    exact absurd hpc (h review pc)
  · rfl

/-- **A step of `execute` that does not end the call brings it nearer to its end.** -/
theorem exec_weight {cfg : PipelineConfig} {now : Nat} {cache : Cache} {staged : StagedReviews}
    {job : ReviewJob} {pc pc' : ExecPc} {inp : ExecInput} {m : ExecMove}
    {sha : Option (Option String)} (h : ExecCase cfg now cache staged job pc inp m)
    (hnext : m.next = .goOn sha pc') :
    pc'.weight + (Worker.unaccepted (.busy job pc)).toList.length + 1 ≤ pc.weight := by
  have hafter : cfg.afterPr.weight ≤ 35 := by
    rcases cfg.afterPr_cases with h | h <;> rw [h] <;> decide
  cases h <;> cases hnext
  case submitting hs =>
    have hsubmit := submitStep_weight hs
    rw [Worker.length_unaccepted]
    simp only [ExecPc.weight]
    omega
  case noLook | lookFailed | looked => exact Nat.le_trans (Nat.succ_le_succ hafter) (by decide)
  all_goals simp [ExecPc.weight, Worker.unaccepted, SubmitPc.first, SubmitPc.weight, requestWeight]

/-- After the merge at most one step is left. -/
theorem Approval.afterMerge_weight (cfg : PipelineConfig) :
    (Approval.afterMerge cfg).weight ≤ 1 := by
  rcases Approval.afterMerge_cases cfg with h | h
  · rw [h]
    exact Nat.le_refl 1
  · rw [h]
    exact Nat.zero_le 1

/-- What follows the promotion is less than the promotion. -/
theorem Approval.merge_weight (p : Approval) (cfg : PipelineConfig) (staged : StagedReviews)
    (head : String) : (p.merge cfg staged head).pc.weight ≤ 5 := by
  unfold Approval.merge
  split
  · show (mergeMethods "squash").length + 2 ≤ 5
    decide
  · exact Nat.le_trans (Approval.afterMerge_weight cfg) (by decide)

/-- **A step of `publish_approved_review` brings it nearer to its end.** -/
theorem approval_weight {p : Approval} {cfg : PipelineConfig} {staged : StagedReviews}
    {head : String} {inp : ApprovalInput} {m : ApprovalMove}
    (h : p.step cfg staged head inp = some m) :
    m.pc.weight + p.unaccepted.toList.length + 1 ≤ p.pc.weight := by
  have hmerge := p.merge_weight cfg staged head
  have hafter := Approval.afterMerge_weight cfg
  -- only a submission can leave a review in flight
  have hquiet : ∀ {pc : ApprovalPc}, p.pc = pc → (∀ review spc, pc ≠ .submitting review spc) →
      m.pc.weight + 1 ≤ pc.weight →
      m.pc.weight + p.unaccepted.toList.length + 1 ≤ p.pc.weight := by
    intro pc hpc hne hle
    rw [Approval.unaccepted_eq_none (by rw [hpc]; exact hne), hpc]
    exact hle
  unfold Approval.step at h
  cases inp with
  | go =>
    simp only at h
    split at h
    · rename_i hpc
      apply hquiet hpc (by simp)
      split at h
      · cases h
        simp [ApprovalPc.weight]
      · cases h
        simp [ApprovalPc.weight, SubmitPc.first, SubmitPc.weight, requestWeight]
    · cases h
  | submit reply =>
    simp only at h
    split at h
    · rename_i review pc hpc
      obtain ⟨next, hs, hm⟩ := Option.map_eq_some_iff.mp h
      rw [Approval.length_unaccepted hpc, hpc]
      cases next with
      | goOn pc' writes =>
        have hsubmit := submitStep_weight hs
        rw [← hm]
        simp only [ApprovalPc.weight]
        omega
      | returned =>
        have hpos := pc.weight_pos
        have hnext : m.pc.weight ≤ 6 := by
          rw [← hm]
          dsimp only
          split
          · exact Nat.le_refl 6
          · omega
        rw [submitStep_ends hs (Or.inl rfl)]
        show m.pc.weight + 0 + 1 ≤ pc.weight + 6
        omega
      | raised =>
        rw [submitStep_ends hs (Or.inr rfl), ← hm]
        simp only [ApprovalPc.weight]
        omega
    · cases h
  | answered ok =>
    simp only at h
    split at h
    · rename_i hpc
      cases h
      exact hquiet hpc (by simp) (Nat.succ_le_succ hmerge)
    · rename_i first method methods hpc
      apply hquiet hpc (by simp)
      split at h
      · cases h
        exact Nat.le_trans (Nat.succ_le_succ hafter) (Nat.le_add_left 2 _)
      · cases h
        simp [ApprovalPc.weight]
    · rename_i methods hpc
      cases h
      apply hquiet hpc (by simp)
      exact Nat.le_trans (Nat.succ_le_succ hafter) (Nat.le_add_left 2 _)
    · cases h
  | slack =>
    simp only at h
    split at h
    · rename_i hpc
      cases h
      exact hquiet hpc (by simp) (Nat.le_refl 1)
    · cases h

/-- A call of `execute` that is awaited can go on. -/
theorem execStep_enabled (cfg : PipelineConfig) (now : Nat) (cache : Cache)
    (staged : StagedReviews) (job : ReviewJob) (pc : ExecPc) :
    ∃ inp, (execStep cfg now cache staged job pc inp).isSome = true := by
  cases pc with
  | start =>
    refine ⟨.go, ?_⟩
    simp only [execStep]
    split <;> rfl
  | fetchPr => exact ⟨.pr none, rfl⟩
  | announce => exact ⟨.slack, rfl⟩
  | clone =>
    refine ⟨.clone .fine false, ?_⟩
    simp only [execStep]
    split <;> rfl
  | fetchDiff checkout => exact ⟨.diff none, rfl⟩
  | running checkout => exact ⟨.reviewed none [], rfl⟩
  | notify => exact ⟨.slack, rfl⟩
  | publishing review spc =>
    obtain ⟨reply, hreply⟩ := submitStep_enabled review spc
    refine ⟨.submit reply, ?_⟩
    simp only [execStep, Option.isSome_map]
    exact hreply

/-- A publication that has not ended can go on. -/
theorem Approval.step_enabled {p : Approval} (h : p.pc ≠ .ended) (cfg : PipelineConfig)
    (staged : StagedReviews) (head : String) :
    ∃ inp, (p.step cfg staged head inp).isSome = true := by
  cases hpc : p.pc with
  | created =>
    refine ⟨.go, ?_⟩
    simp only [Approval.step, hpc]
    split <;> rfl
  | submitting review spc =>
    obtain ⟨reply, hreply⟩ := submitStep_enabled review spc
    refine ⟨.submit reply, ?_⟩
    simp only [Approval.step, hpc, Option.isSome_map]
    exact hreply
  | marking => exact ⟨.answered true, by simp [Approval.step, hpc]⟩
  | merging methods =>
    refine ⟨.answered true, ?_⟩
    simp only [Approval.step, hpc]
    split <;> simp_all
  | notifying => exact ⟨.slack, by simp [Approval.step, hpc]⟩
  | ended => exact absurd hpc h

/-! ## What is left to do in the service -/

namespace Sched

/-- What is left of the calls the workers await. -/
def callsLeft (s : Sched ExecPc) : Nat :=
  (s.workers.map Worker.load).sum

/-- Waking the workers leaves their load. -/
theorem sum_load_wake (l : List (Worker ExecPc)) :
    ((l.map Worker.wake).map Worker.load).sum = (l.map Worker.load).sum := by
  rw [List.map_map]
  refine congrArg List.sum (List.map_congr_left fun w _ => ?_)
  cases w <;> rfl

/-- A step of the scheduler starts at most one call, and no step ends one without work left. -/
theorem callsLeft_step {cfg : AppConfig} {s s' : Sched ExecPc} {a : SchedAction ExecPc}
    {es : List SchedEvent} (hstays : a.stays = true) (hgo : ∀ i sha pc, a ≠ .advance i sha pc)
    (h : Sched.step cfg.sched s a = some (s', es)) : s'.callsLeft ≤ s.callsLeft + 37 := by
  -- the content of a slot weighs 37 at most where no call goes on
  have hset : ∀ {l : List (Worker ExecPc)} {i : Nat} {w : Worker ExecPc}, w.load ≤ 37 →
      ((l.set i w).map Worker.load).sum ≤ (l.map Worker.load).sum + 37 := by
    intro l i w hw
    cases hl : l[i]? with
    | none =>
      rw [List.set_eq_of_length_le (List.getElem?_eq_none_iff.mp hl)]
      exact Nat.le_add_right _ _
    | some w' =>
      have hsum := sum_map_set_add (a := w) Worker.load hl
      omega
  have hdequeue : ∀ (t : Sched ExecPc) (i : Nat),
      (t.dequeue cfg.sched i).callsLeft ≤ t.callsLeft + 37 := by
    intro t i
    unfold callsLeft
    obtain ⟨-, -, -, -, ⟨job, -, -, -, hworkers, -⟩ | ⟨-, hworkers, -⟩, -⟩ :=
      dequeue_frame cfg.sched t i
    · rw [hworkers]
      exact hset (Nat.le_refl 37)
    · rw [hworkers]
      exact hset (Nat.zero_le 37)
  have hwoken : ∀ {l : List (Worker ExecPc)}, l = s.workers ∨ l = s.workers.map Worker.wake →
      (l.map Worker.load).sum ≤ s.callsLeft + 37 := by
    rintro l (rfl | rfl)
    · exact Nat.le_add_right _ _
    · rw [sum_load_wake]
      exact Nat.le_add_right _ _
  cases step_cases h with
  | tick d => exact Nat.le_add_right _ _
  | @enqueue r d cause _ _ => exact hwoken (enqueue_frame s r d cause).2.2.2.2.1
  | watch hw =>
    obtain ⟨w, -, hmove⟩ := watchStep_move hw
    exact hwoken hmove.frame.2.2.2.2.2
  | @wake i w _ _ => exact hdequeue s i
  | timeout _ _ => exact hset (Nat.zero_le 37)
  | advance _ => exact absurd rfl (hgo _ _ _)
  | @finish i out pc job hw =>
    -- the call that has ended leaves its slot
    refine Nat.le_trans (hdequeue _ i) (Nat.add_le_add_right ?_ 37)
    have hsum := sum_map_set_add (a := (Worker.ready : Worker ExecPc)) Worker.load hw
    show (((s.settle cfg.sched job out).workers.set i .ready).map Worker.load).sum ≤ s.callsLeft
    rw [settle_workers]
    unfold callsLeft
    have hready : (Worker.ready : Worker ExecPc).load = 0 := rfl
    omega
  | crash _ => cases hstays
  | boot _ => cases hstays

/-- A call that goes on takes the place it had. -/
theorem callsLeft_advance {cfg : AppConfig} {s s' : Sched ExecPc} {i : Nat}
    {sha : Option (Option String)} {pc pc' : ExecPc} {job : ReviewJob} {es : List SchedEvent}
    (hw : s.workers[i]? = some (.busy job pc))
    (h : Sched.step cfg.sched s (.advance i sha pc') = some (s', es)) :
    s'.callsLeft + pc.weight = s.callsLeft + pc'.weight ∧
      s'.workLeft cfg.sched = s.workLeft cfg.sched := by
  cases step_cases h with
  | @advance _ _ _ pc₀ job₀ hw₀ =>
    rw [hw] at hw₀
    cases hw₀
    have hload := sum_map_set_add (a := Worker.busy (job.fill sha) pc') Worker.load hw
    have hweight := sum_map_set_add (a := Worker.busy (job.fill sha) pc')
      (Worker.weight cfg.sched) hw
    have hsame : (Worker.busy (job.fill sha) pc').weight cfg.sched =
        (Worker.busy job pc).weight cfg.sched := by
      simp [Worker.weight, SchedConfig.entryWeight]
    refine ⟨hload, ?_⟩
    unfold workLeft
    dsimp only
    omega

end Sched

/-- What a dispatch task stands for: the run it may enqueue. -/
def AppConfig.taskWeight (cfg : AppConfig) : Nat :=
  39 * (cfg.sched.acceptWeight + 1)

/-- What a step of the service or of its environment may add to the work that is left, its own
turn included. -/
def AppAction.charge (cfg : AppConfig) : AppAction → Nat
  | .tick _ => 39
  | .watch _ (.polled .error) => 78
  | .timeout _ => 78
  | .webhook _ => cfg.taskWeight + 1
  | .slack _ => cfg.taskWeight + 38
  | .approve _ _ _ _ => 38
  | .backfill _ _ _ => cfg.taskWeight
  | .registrar _ _ _ => 1
  | .push _ _ => 1
  | _ => 0

/-- A step of a process that stays up. -/
def AppAction.stays : AppAction → Bool
  | .crash => false
  | .boot => false
  | _ => true

namespace App

/-- The work that is left in the service. -/
def left (cfg : AppConfig) (s : App) : Nat :=
  39 * s.core.workLeft cfg.sched + s.core.callsLeft +
    (s.approvals.map fun p => p.pc.weight).sum + cfg.taskWeight * s.dispatches.length +
    s.orphans.length

section Steps

variable {cfg : AppConfig} {s s' : App} {a : AppAction} {es : List AppEvent}

/-- A step of the scheduler that is none of a call uses work up, and some is over for a review it
leaves in flight. -/
theorem core_left (hpoll : 0 < cfg.gate.pollIntervalSeconds)
    (hslots : s.core.workers.length = cfg.concurrency) {ca : SchedAction ExecPc}
    {c : Sched ExecPc} {ces : List SchedEvent} (hstays : ca.stays = true)
    (hgo : ∀ i sha pc, ca ≠ .advance i sha pc)
    (h : Sched.step cfg.sched s.core ca = some (c, ces)) :
    39 * c.workLeft cfg.sched + c.callsLeft + 2 ≤
      39 * s.core.workLeft cfg.sched + s.core.callsLeft + 39 * ca.charge cfg.sched := by
  have hwork : c.workLeft cfg.sched + 1 ≤ s.core.workLeft cfg.sched + ca.charge cfg.sched :=
    Sched.workLeft_step hpoll hslots hstays h
  have hcalls := Sched.callsLeft_step hstays hgo h
  omega

/-- A scheduler's step uses work up, up to what it is charged. -/
theorem coreStep_left (hpoll : 0 < cfg.gate.pollIntervalSeconds)
    (hslots : s.core.workers.length = cfg.concurrency) {ca : SchedAction ExecPc}
    (hstays : ca.stays = true) (hgo : ∀ i sha pc, ca ≠ .advance i sha pc)
    (h : s.coreStep cfg ca = some (s', es)) :
    s'.left cfg + 2 ≤ s.left cfg + 39 * ca.charge cfg.sched := by
  obtain ⟨c, ces, hcore, rfl, -⟩ := coreStep_eq h
  have hle := core_left hpoll hslots hstays hgo hcore
  unfold left
  dsimp only
  omega

/-- A task that dispatches an event adds a run at most. -/
theorem dispatchEvent_left (hpoll : 0 < cfg.gate.pollIntervalSeconds)
    (hslots : s.core.workers.length = cfg.concurrency) {event : NormalizedEvent} {r : RunId}
    (h : s.dispatchEvent cfg event r = some (s', es)) :
    s'.left cfg + 1 ≤ s.left cfg + cfg.taskWeight := by
  have hpos : 39 ≤ cfg.taskWeight := by
    unfold AppConfig.taskWeight
    omega
  have henqueue : ∀ {cause : Cause},
      s.coreStep cfg (.enqueue r (cfg.trigger.decide event) cause) = some (s', es) →
      s'.left cfg + 1 ≤ s.left cfg + cfg.taskWeight := by
    intro cause hc
    have hle := coreStep_left hpoll hslots rfl (by simp) hc
    have hcharge : 39 * (SchedAction.enqueue r (cfg.trigger.decide event) cause).charge cfg.sched =
        cfg.taskWeight := rfl
    omega
  have hsilent : ∀ {es' : List AppEvent}, some (s, es') = some (s', es) →
      s'.left cfg + 1 ≤ s.left cfg + cfg.taskWeight := by
    intro es' heq
    cases heq
    omega
  unfold dispatchEvent at h
  simp only at h
  split at h
  · exact henqueue h
  · exact henqueue h
  · split at h
    · exact hsilent h
    · exact henqueue h
  · exact hsilent h
  · exact hsilent h

/-- Asking for a publication adds at most the steps of one. -/
theorem ask_left (request : ApprovalRequest) (run : RunId) (otherwise : Option ReviewJob)
    (summary : String) :
    (s.ask request run otherwise summary).1.left cfg ≤ s.left cfg + 37 := by
  rcases ask_cases (s := s) request run otherwise summary with ⟨job, -, heq⟩ | ⟨-, heq⟩
  · rw [heq]
    unfold left
    simp only [List.map_append, List.sum_append, List.map_cons, List.map_nil, List.sum_cons,
      List.sum_nil, ApprovalPc.weight]
    omega
  · rw [heq]
    exact Nat.le_add_right _ _

/-- The pipeline of a worker brings its call nearer to its end, or ends it. -/
theorem exec_left (hpoll : 0 < cfg.gate.pollIntervalSeconds)
    (hslots : s.core.workers.length = cfg.concurrency) {i : Nat} {job : ReviewJob} {pc : ExecPc}
    {inp : ExecInput} (hw : s.core.workers[i]? = some (.busy job pc))
    (h : s.execMove cfg i job pc inp = some (s', es)) : s'.left cfg + 1 ≤ s.left cfg := by
  unfold execMove at h
  cases hm : execStep cfg.pipeline s.core.now s.cache s.staged job pc inp with
  | none =>
    rw [hm] at h
    cases h
  | some m =>
    have hcase := execStep_cases hm
    obtain ⟨next, cache, staged, events⟩ := m
    simp only [hm] at h
    cases next with
    | goOn sha pc' =>
      obtain ⟨c, ces, hcore, rfl, -⟩ := coreStep_map_eq (b := events) h
      obtain ⟨hcalls, hwork⟩ := Sched.callsLeft_advance hw hcore
      have hexec := exec_weight hcase rfl
      unfold left orphan
      simp only [List.length_append, hwork]
      omega
    | finish out =>
      obtain ⟨c, ces, hcore, rfl, -⟩ := coreStep_map_eq (b := events) h
      have hend : Sched.step cfg.sched s.core (.finish i out) = some (c, ces) := hcore
      have hle := core_left hpoll hslots rfl (by simp) hend
      have hloose := (Worker.busy job pc).length_unaccepted_le
      have hfree : (SchedAction.finish i out : SchedAction ExecPc).charge cfg.sched = 0 := rfl
      unfold left orphan
      simp only [List.length_append]
      omega

/-- A publication that goes on takes the place it had. -/
theorem left_setApproval {k : Nat} {p q : Approval} (hp : s.approvals[k]? = some p) :
    { s with approvals := s.approvals.set k q }.left cfg + p.pc.weight
      = s.left cfg + q.pc.weight := by
  have hsum := sum_map_set_add (a := q) (fun p : Approval => p.pc.weight) hp
  unfold left
  dsimp only
  omega

/-- A publication's step uses work up. -/
theorem publish_left {k : Nat} {p : Approval} {inp : ApprovalInput}
    (hp : s.approvals[k]? = some p) (h : s.publishMove cfg k p inp = some (s', es)) :
    s'.left cfg + 1 ≤ s.left cfg := by
  unfold publishMove at h
  obtain ⟨m, hm, heq⟩ := Option.map_eq_some_iff.mp h
  have hweight := approval_weight hm
  have hset := @left_setApproval cfg s k p { p with pc := m.pc } hp
  cases heq
  unfold left orphan at *
  simp only [List.length_append] at hset ⊢
  omega

/-- One more event waits for its task. -/
theorem left_queued (event : NormalizedEvent) :
    { s with dispatches := s.dispatches ++ [event] }.left cfg = s.left cfg + cfg.taskWeight := by
  unfold left
  simp only [List.length_append, List.length_singleton, Nat.mul_add, Nat.mul_one]
  omega

/-- A Slack payload adds at most a task or a publication. -/
theorem slackPayload_left (payload : SlackPayload) :
    (s.slackPayload cfg payload).1.left cfg + 1
      ≤ s.left cfg + (AppAction.slack payload).charge cfg := by
  unfold slackPayload
  split
  · simp only [AppAction.charge]
    omega
  · rw [left_queued]
    simp only [AppAction.charge]
    omega
  · rename_i run otherwise summary _
    have hask := @ask_left cfg s (.slack payload) run (some otherwise) summary
    simp only [AppAction.charge]
    omega

/-- A task that is done is taken off, and pays for what it enqueues. -/
theorem dispatch_left (hpoll : 0 < cfg.gate.pollIntervalSeconds)
    (hslots : s.core.workers.length = cfg.concurrency) {k : Nat} {event : NormalizedEvent}
    {r : RunId} (hk : s.dispatches[k]? = some event)
    (h : { s with dispatches := s.dispatches.eraseIdx k }.dispatchEvent cfg event r =
      some (s', es)) :
    s'.left cfg + 1 ≤ s.left cfg + (AppAction.dispatch k r).charge cfg := by
  have hle := @dispatchEvent_left cfg { s with dispatches := s.dispatches.eraseIdx k } s' es
    hpoll hslots event r h
  have hlen := List.length_eraseIdx_add_one (List.getElem?_eq_some_iff.mp hk).1
  have hdone : { s with dispatches := s.dispatches.eraseIdx k }.left cfg + cfg.taskWeight
      = s.left cfg := by
    unfold left
    rw [← hlen, Nat.mul_add, Nat.mul_one]
    dsimp only
    omega
  simp only [AppAction.charge]
  omega

/-- The backfill is charged with the run it may enqueue. -/
theorem backfillPr_left (hpoll : 0 < cfg.gate.pollIntervalSeconds)
    (hslots : s.core.workers.length = cfg.concurrency) {spec : RepoSpec} {p : OpenPr} {r : RunId}
    (h : s.backfillPr cfg spec p r = some (s', es)) :
    s'.left cfg + 1 ≤ s.left cfg + (AppAction.backfill spec p r).charge cfg := by
  unfold backfillPr at h
  simp only at h
  split at h
  · exact dispatchEvent_left hpoll hslots h
  · cases h
    simp only [AppAction.charge, AppConfig.taskWeight]
    omega

/-- GitHub's acceptance of a worker's review is a step of that worker's call. -/
theorem acceptWorker_left {i : Nat} (h : s.acceptWorker cfg i = some (s', es)) :
    s'.left cfg + 1 ≤ s.left cfg + (AppAction.acceptWorker i).charge cfg := by
  unfold acceptWorker at h
  split at h
  · rename_i job review pc hw
    split at h
    · rename_i pc' hpc
      obtain ⟨c, ces, hc, rfl, -⟩ := coreStep_map_eq (b := [.accepted review.run]) h
      obtain ⟨hcalls, hwork⟩ := Sched.callsLeft_advance hw hc
      have hle := accept_weight hpc
      unfold left
      simp only [ExecPc.weight, hwork, AppAction.charge] at hcalls ⊢
      omega
    · cases h
  · cases h

/-- GitHub's acceptance of an approval's review is a step of that publication. -/
theorem acceptApproval_left {k : Nat} (h : s.acceptApproval k = some (s', es)) :
    s'.left cfg + 1 ≤ s.left cfg + (AppAction.acceptApproval k).charge cfg := by
  unfold acceptApproval at h
  split at h
  · rename_i p hp
    split at h
    · rename_i review pc hpc
      obtain ⟨pc', hpc', hres⟩ := Option.map_eq_some_iff.mp h
      have hle := accept_weight hpc'
      have hset := @left_setApproval cfg s k p { p with pc := .submitting review pc' } hp
      cases hres
      rw [hpc] at hset
      simp only [ApprovalPc.weight, AppAction.charge] at hset ⊢
      omega
    · cases h
  · cases h

/-- **Every step uses work up, up to what it is charged.** -/
theorem left_step (hpoll : 0 < cfg.gate.pollIntervalSeconds)
    (hslots : s.core.workers.length = cfg.concurrency) (hstays : a.stays = true)
    (hstep : step cfg s a = some (s', es)) :
    s'.left cfg + 1 ≤ s.left cfg + a.charge cfg := by
  have hcore : ∀ {ca : SchedAction ExecPc}, ca.stays = true → (∀ i sha pc, ca ≠ .advance i sha pc) →
      39 * ca.charge cfg.sched = a.charge cfg → s.coreStep cfg ca = some (s', es) →
      s'.left cfg + 1 ≤ s.left cfg + a.charge cfg := by
    intro ca hstays hgo hcharge h
    have hle := coreStep_left hpoll hslots hstays hgo h
    omega
  cases a with
  | tick d => exact hcore rfl (by simp) rfl hstep
  | watch i inp =>
    refine hcore rfl (by simp) ?_ hstep
    cases inp with
    | polled o => cases o <;> rfl
    | _ => rfl
  | wake i => exact hcore rfl (by simp) rfl hstep
  | timeout i => exact hcore rfl (by simp) rfl hstep
  | exec i inp =>
    simp only [step] at hstep
    split at hstep
    · exact exec_left hpoll hslots ‹_› hstep
    · cases hstep
  | webhook event =>
    simp only [step] at hstep
    split at hstep
    · cases hstep
      rw [left_queued]
      exact Nat.le_refl _
    · cases hstep
  | slack payload =>
    simp only [step] at hstep
    split at hstep
    · have hs : (s.slackPayload cfg payload).1 = s' :=
        congrArg Prod.fst (Option.some.inj hstep)
      rw [← hs]
      exact slackPayload_left payload
    · cases hstep
  | approve run owner repo pr =>
    simp only [step] at hstep
    split at hstep
    · have hs : (s.ask (.endpoint run owner repo pr) run (jobOfQuery run owner repo pr)
          "Review Approved via Agent").1 = s' := congrArg Prod.fst (Option.some.inj hstep)
      rw [← hs]
      exact Nat.succ_le_succ (ask_left _ _ _ _)
    · cases hstep
  | dispatch k r =>
    simp only [step] at hstep
    split at hstep
    · exact dispatch_left hpoll hslots ‹_› hstep
    · cases hstep
  | backfill spec p r =>
    simp only [step] at hstep
    split at hstep
    · exact backfillPr_left hpoll hslots hstep
    · cases hstep
  | publish k inp =>
    simp only [step] at hstep
    split at hstep
    · exact publish_left ‹_› hstep
    · cases hstep
  | registrar spec tunnel hooks =>
    simp only [step] at hstep
    split at hstep <;> cases hstep
    exact Nat.le_refl _
  | push ref sha =>
    cases hstep
    exact Nat.le_refl _
  | acceptWorker i => exact acceptWorker_left hstep
  | acceptApproval k => exact acceptApproval_left hstep
  | acceptOrphan k =>
    simp only [step] at hstep
    split at hstep
    · rename_i run hk
      cases hstep
      have hlen := List.length_eraseIdx_add_one (List.getElem?_eq_some_iff.mp hk).1
      unfold left
      simp only [AppAction.charge]
      omega
    · cases hstep
  | crash => cases hstays
  | boot => cases hstays

end Steps

/-! ## Coming to rest -/

/-- A step by which the service gets on with its work, or GitHub with what it has been sent. -/
def serves : AppAction → Bool
  | .watch _ inp => inp != .polled .error
  | .wake _ | .exec _ _ | .dispatch _ _ | .publish _ _ => true
  | .acceptWorker _ | .acceptApproval _ | .acceptOrphan _ => true
  | _ => false

/-- Nothing is left to do: the scheduler is at rest, every event is dispatched and every publication
has ended. -/
structure Finished (s : App) : Prop where
  core : s.core.Drained
  dispatches : s.dispatches = []
  approvals : ∀ p ∈ s.approvals, p.pc = .ended

/-- The service and GitHub get on, and nothing else happens. -/
def serving (cfg : AppConfig) : App → List AppEvent → List AppAction →
    Option (App × List AppEvent) :=
  (machine cfg).run fun _ _ a => serves a

/-- Anything happens, but the process stays up. -/
def staying (cfg : AppConfig) : App → List AppEvent → List AppAction →
    Option (App × List AppEvent) :=
  (machine cfg).run fun _ _ a => a.stays

section Rest

variable {cfg : AppConfig} {s s' t : App} {a : AppAction} {es : List AppEvent}
  {h : List AppEvent} {D : Machine.Discipline App AppAction AppEvent}

/-- A step of the service neither crashes nor boots. -/
theorem stays_of_serves (h : serves a = true) : a.stays = true := by
  cases a <;> first | rfl | cases h

/-- A step of the service is charged with nothing. -/
theorem charge_of_serves (h : serves a = true) : a.charge cfg = 0 := by
  cases a with
  | watch i inp =>
    cases inp with
    | polled o =>
      cases o with
      | error => cases h
      | runs l => rfl
    | _ => rfl
  | _ => first | rfl | cases h

/-- A step that neither crashes nor boots keeps the service up. -/
theorem up_of_stays (hup : s.core.up = true) (hstays : a.stays = true)
    (hstep : step cfg s a = some (s', es)) : s'.core.up = true := by
  have hcore : ∀ {ca : SchedAction ExecPc} {c : Sched ExecPc} {ces : List SchedEvent},
      ca.stays = true → Sched.step cfg.sched s.core ca = some (c, ces) → c.up = true :=
    fun hstays h => (Sched.up_of_stays hstays h).trans hup
  cases step_cases hstep with
  | @core _ ca c ces hb h =>
    cases ca with
    | boot =>
      cases Sched.step_cases h with
      | boot hdown => exact absurd (hdown.symm.trans hup) Bool.false_ne_true
    | crash => exact absurd hb id
    | _ => exact hcore rfl h
  | enqueue _ h => exact hcore rfl h
  | chatter _ _ => exact hup
  | @ask _ request run otherwise summary _ _ =>
    rcases ask_cases (s := s) request run otherwise summary with ⟨job, -, heq⟩ | ⟨-, heq⟩ <;>
      rw [heq] <;> exact hup
  | @exec i inp job pc m c _ _ h =>
    refine hcore ?_ h
    cases m.next <;> rfl
  | publish _ _ => exact hup
  | crash _ => cases hstays
  | push _ _ => exact hup
  | acceptWorker _ _ h => exact hcore rfl h
  | acceptApproval _ _ _ => exact hup
  | acceptOrphan _ => exact hup

/-! ## What is asked for meanwhile -/

/-- No comment command waits to be dispatched. -/
def NoCommandWaits (cfg : AppConfig) (s : App) : Prop :=
  ∀ event ∈ s.dispatches, (cfg.trigger.decide event).action ≠ .reply

/-- A run with these columns is stored, or an event waits that asks for one. -/
def Asked (cfg : AppConfig) (s : App) (k : DedupKey) : Prop :=
  k ∈ s.core.table.keys ∨
    ∃ event ∈ s.dispatches, asks cfg s.core.table.keys (.delivery event) = some k

/-- A run with these columns is over. -/
def Answered (s : App) (k : DedupKey) : Prop :=
  ∃ row ∈ s.core.table.rows, row.columns = k ∧ row.status.final = true

/-- Dispatching an event adds no task. -/
theorem dispatchEvent_dispatches {event : NormalizedEvent} {r : RunId}
    (h : s.dispatchEvent cfg event r = some (s', es)) : s'.dispatches = s.dispatches := by
  have hcore : ∀ {ca : SchedAction ExecPc}, s.coreStep cfg ca = some (s', es) →
      s'.dispatches = s.dispatches := by
    intro ca hc
    obtain ⟨c, ces, -, rfl, -⟩ := coreStep_eq hc
    rfl
  unfold dispatchEvent at h
  simp only at h
  split at h
  · exact hcore h
  · exact hcore h
  · split at h
    · cases h
      rfl
    · exact hcore h
  · cases h
    rfl
  · cases h
    rfl

/-- Tasks only go by being dispatched. -/
theorem dispatches_of_serves (ha : serves a = true) (hstep : step cfg s a = some (s', es)) :
    (∃ k r, a = .dispatch k r ∧ s'.dispatches = s.dispatches.eraseIdx k) ∨
      a.arrival s = none ∧ s'.dispatches = s.dispatches := by
  cases a with
  | dispatch k r =>
    simp only [step] at hstep
    split at hstep
    · exact Or.inl ⟨k, r, rfl, dispatchEvent_dispatches hstep⟩
    · cases hstep
  | watch i inp =>
    obtain ⟨c, ces, -, rfl, -⟩ := coreStep_eq hstep
    exact Or.inr ⟨rfl, rfl⟩
  | wake i =>
    obtain ⟨c, ces, -, rfl, -⟩ := coreStep_eq hstep
    exact Or.inr ⟨rfl, rfl⟩
  | exec i inp =>
    simp only [step] at hstep
    split at hstep
    · unfold execMove at hstep
      split at hstep
      · cases hstep
      · rename_i m _
        obtain ⟨c, ces, -, rfl, -⟩ := coreStep_map_eq (b := m.events) hstep
        exact Or.inr ⟨rfl, rfl⟩
    · cases hstep
  | publish k inp =>
    simp only [step] at hstep
    split at hstep
    · obtain ⟨m, -, heq⟩ := Option.map_eq_some_iff.mp hstep
      cases heq
      exact Or.inr ⟨rfl, rfl⟩
    · cases hstep
  | acceptWorker i =>
    simp only [step, acceptWorker] at hstep
    split at hstep
    · rename_i job review pc _
      split at hstep
      · obtain ⟨c, ces, -, rfl, -⟩ := coreStep_map_eq (b := [.accepted review.run]) hstep
        exact Or.inr ⟨rfl, rfl⟩
      · cases hstep
    · cases hstep
  | acceptApproval k =>
    simp only [step, acceptApproval] at hstep
    split at hstep
    · split at hstep
      · obtain ⟨pc', -, heq⟩ := Option.map_eq_some_iff.mp hstep
        cases heq
        exact Or.inr ⟨rfl, rfl⟩
      · cases hstep
    · cases hstep
  | acceptOrphan k =>
    simp only [step] at hstep
    split at hstep <;> cases hstep
    exact Or.inr ⟨rfl, rfl⟩
  | _ => cases ha

/-- A step of the service starts no run for a comment if no command waits. -/
theorem noCommand_of_serves (ha : serves a = true) (hno : NoCommandWaits cfg s)
    (hstep : step cfg s a = some (s', es)) : NoCommand es := by
  cases hd : a.dispatched cfg s with
  | none => exact fun job hjob => absurd hjob ((step_table_of_not_dispatched hstep hd).2 job)
  | some event =>
    refine noCommand_of_cause ?_ hstep hd
    intro cause hcause
    cases cause with
    | webhook => rfl
    | comment =>
      have haction := Decision.action_of_comment hcause
      cases a with
      | dispatch k r => exact absurd haction (hno event (List.mem_of_getElem? hd))
      | backfill spec p r => cases ha
      | _ => cases hd

/-- What holds all along a stretch of service that starts in `s`. -/
structure InService (cfg : AppConfig) (s t : App) (h : List AppEvent) : Prop where
  reachable : (machine cfg).Reachable t h
  up : t.core.up = true
  /-- the tasks of `s` are there yet or have run, unless there are commands among them -/
  handled : NoCommandWaits cfg s → ∃ l, Sweeps cfg s l t ∧
    (∀ event ∈ t.dispatches, event ∈ s.dispatches) ∧
    ∀ event ∈ s.dispatches, event ∈ t.dispatches ∨ .delivery event ∈ l.map Receipt.arrival

/-- A step of the service stays in service. -/
theorem InService.step {t t' : App} (ht : InService cfg s t h) (ha : serves a = true)
    (hstep : App.step cfg t a = some (t', es)) : InService cfg s t' (h ++ es) where
  reachable := .step ht.reachable trivial hstep
  up := up_of_stays ht.up (stays_of_serves ha) hstep
  handled := by
    intro hno
    obtain ⟨l, hsweeps, hold, htasks⟩ := ht.handled hno
    have hwaits : NoCommandWaits cfg t := fun event hevent => hno event (hold event hevent)
    refine ⟨_, .step hsweeps hstep (noCommand_of_serves ha hwaits hstep), ?_, ?_⟩
    · intro event hevent
      rcases dispatches_of_serves ha hstep with ⟨k, r, -, heq⟩ | ⟨-, heq⟩
      · rw [heq] at hevent
        exact hold event (List.mem_of_mem_eraseIdx hevent)
      · rw [heq] at hevent
        exact hold event hevent
    · intro event hevent
      rw [List.map_append, List.mem_append]
      rcases htasks event hevent with hwaiting | hdone
      · rcases dispatches_of_serves ha hstep with ⟨k, r, rfl, heq⟩ | ⟨-, heq⟩
        · -- it is the task that runs, or one of the others
          obtain ⟨j, hj⟩ := List.mem_iff_getElem?.mp hwaiting
          by_cases hjk : j = k
          · subst hjk
            right
            right
            simp [AppAction.arrival, hj]
          · left
            rw [heq]
            exact List.mem_eraseIdx_iff_getElem?.mpr ⟨j, hjk, hj⟩
        · rw [heq]
          exact Or.inl hwaiting
      · exact Or.inr (Or.inl hdone)

/-- Whatever was asked for has its run when no task waits any more, and the run is over when the
table is at rest. -/
theorem InService.answered {t : App} (ht : InService cfg s t h) {h₀ : List AppEvent}
    (hr : (machine cfg).Reachable s h₀) (hdone : t.Finished) (hno : NoCommandWaits cfg s)
    {k : DedupKey} (hk : Asked cfg s k) : Answered t k := by
  obtain ⟨l, hsweeps, -, htasks⟩ := ht.handled hno
  have hmem : k ∈ t.core.table.keys := by
    rw [hsweeps.keys hr, mem_foldl_grow (asks_settled cfg)]
    rcases hk with hk | ⟨event, hevent, hasks⟩
    · exact Or.inl hk
    · refine Or.inr ⟨_, (htasks event hevent).resolve_left ?_, hasks⟩
      rw [hdone.dispatches]
      exact List.not_mem_nil
  obtain ⟨row, hrow, hcolumns⟩ := List.mem_map.mp hmem
  exact ⟨row, hrow, hcolumns, hdone.core.rows row hrow⟩

/-- A call of `execute` that is awaited can make its next step. -/
theorem exec_enabled {i : Nat} {job : ReviewJob} {pc : ExecPc}
    (hw : s.core.workers[i]? = some (.busy job pc)) :
    ∃ inp, (step cfg s (.exec i inp)).isSome = true := by
  obtain ⟨inp, hinp⟩ := execStep_enabled cfg.pipeline s.core.now s.cache s.staged job pc
  obtain ⟨m, hm⟩ := Option.isSome_iff_exists.mp hinp
  refine ⟨inp, ?_⟩
  simp only [step, hw, execMove, hm, Option.isSome_map, coreStep]
  cases m.next with
  | goOn sha pc' => simp [Sched.step, orphan, hw]
  | finish out => simp [Sched.step, orphan, hw]

/-- **The service is never stuck**: unless everything is done, it can get on. -/
theorem finished_or_enabled (hslots : 0 < cfg.concurrency) (hr : (machine cfg).Reaches D s h)
    (hup : s.core.up = true) :
    s.Finished ∨ ∃ a s' es, serves a = true ∧ step cfg s a = some (s', es) := by
  have hgo : ∀ {a : AppAction}, serves a = true → (step cfg s a).isSome = true →
      ∃ a s' es, serves a = true ∧ step cfg s a = some (s', es) := by
    intro a ha hsome
    obtain ⟨⟨s', es⟩, hstep⟩ := Option.isSome_iff_exists.mp hsome
    exact ⟨a, s', es, ha, hstep⟩
  rcases Sched.drained_or_enabled hslots (completes_core hr) hup with
    hcore | ⟨ca, c, ces, ha, hstep⟩
  · cases hd : s.dispatches with
    | cons event rest =>
      obtain ⟨r, hfresh⟩ := exists_fresh s.core.issued
      obtain ⟨s', es, hrun, -⟩ := dispatchEvent_isSome cfg
        (s := { s with dispatches := s.dispatches.eraseIdx 0 }) event hup hfresh
      right
      apply @hgo (.dispatch 0 r) rfl
      simp only [step, hd, List.getElem?_cons_zero]
      rw [hd] at hrun
      rw [hrun]
      rfl
    | nil =>
      by_cases happrovals : ∀ p ∈ s.approvals, p.pc = .ended
      · exact Or.inl ⟨hcore, hd, happrovals⟩
      · push Not at happrovals
        obtain ⟨p, hp, hne⟩ := happrovals
        obtain ⟨k, hk⟩ := List.getElem?_of_mem hp
        obtain ⟨inp, hinp⟩ := Approval.step_enabled hne cfg.pipeline s.staged (s.head p.job.ref)
        right
        apply @hgo (.publish k inp) rfl
        simp only [step, hk, publishMove, Option.isSome_map]
        exact hinp
  · right
    cases ca with
    | watch i inp =>
      apply @hgo (.watch i inp) ha
      simp [step, coreStep, hstep]
    | wake i =>
      apply @hgo (.wake i) rfl
      simp [step, coreStep, hstep]
    | finish i out =>
      -- the call that is awaited makes its own next step
      cases Sched.step_cases hstep with
      | finish hw =>
        obtain ⟨inp, hinp⟩ := exec_enabled hw
        exact @hgo (.exec i inp) rfl hinp
    | _ => cases ha

/-- **The service comes to rest.** In a process that is up, in whatever state an execution has left
it, let the service and GitHub get on and nothing else happen: however the steps interleave and
whatever is answered, they are bounded in number, the service can stop only where it has finished,
and it can finish. Every run that is stored or asked for at the start is over then. And whatever
happens to a process that stays up, its steps are paid for. -/
theorem comes_to_rest (cfg : AppConfig) (hpoll : 0 < cfg.gate.pollIntervalSeconds)
    (hslots : 0 < cfg.concurrency) (s : App) (h : List AppEvent)
    (hr : (machine cfg).Reaches D s h) (hup : s.core.up = true) :
    (∀ as t h', serving cfg s h as = some (t, h') → as.length ≤ s.left cfg ∧
        (t.Finished ∨ ∃ a t' h'', serving cfg s h (as ++ [a]) = some (t', h'')) ∧
        (t.Finished → NoCommandWaits cfg s → ∀ k, Asked cfg s k → Answered t k)) ∧
      (∃ as t h', serving cfg s h as = some (t, h') ∧ t.Finished) ∧
      ∀ as t h', staying cfg s h as = some (t, h') →
        as.length ≤ s.left cfg + (as.map (AppAction.charge cfg)).sum := by
  have hreach := hr.reachable
  have hstart : InService cfg s s h := by
    refine ⟨hreach, hup, fun _ => ⟨[], .start, fun _ hevent => hevent, ?_⟩⟩
    exact fun _ hevent => Or.inl hevent
  -- the step lemma, for a process that is up
  have hleft : ∀ {t t' : App} {h : List AppEvent} {a : AppAction} {es : List AppEvent},
      (machine cfg).Reachable t h → t.core.up = true → a.stays = true →
      step cfg t a = some (t', es) → t'.left cfg + 1 ≤ t.left cfg + a.charge cfg := by
    intro t t' h a es hr hup hstays hstep
    exact left_step hpoll ((Sched.reaches_grounded (completes_core hr)).slots hup) hstays hstep
  have hserves : ∀ t h a t' es, InService cfg s t h → serves a = true →
      step cfg t a = some (t', es) →
      InService cfg s t' (h ++ es) ∧ t'.left cfg + 1 ≤ t.left cfg := by
    intro t h a t' es ht ha hstep
    have hle := hleft ht.reachable ht.up (stays_of_serves ha) hstep
    rw [charge_of_serves ha] at hle
    exact ⟨ht.step ha hstep, hle⟩
  refine ⟨?_, ?_, ?_⟩
  · intro as t h' hrun
    have ht : InService cfg s t h' := Machine.run_invariant (I := fun t h => InService cfg s t h)
      (fun t h a t' es ht ha hstep => (hserves t h a t' es ht ha hstep).1) hstart hrun
    have hbound := Machine.run_charged (I := fun t h => InService cfg s t h) (left cfg)
      (fun _ => 0) hserves hstart hrun
    have hfree : (as.map fun _ : AppAction => 0).sum = 0 := by simp
    refine ⟨by omega, ?_, fun hdone hno k hk => ht.answered hreach hdone hno hk⟩
    rcases finished_or_enabled hslots ht.reachable ht.up with hdone | ⟨a, t', es, ha, hstep⟩
    · exact Or.inl hdone
    · exact Or.inr ⟨a, t', h' ++ es, Machine.run_snoc hrun ha hstep⟩
  · apply Machine.exists_run_of_variant (I := fun t h => InService cfg s t h) (left cfg) hserves ?_
      hstart
    exact fun _ _ ht => finished_or_enabled hslots ht.reachable ht.up
  · intro as t h' hrun
    have hbound := Machine.run_charged
      (I := fun t h => (machine cfg).Reachable t h ∧ t.core.up = true) (left cfg)
      (AppAction.charge cfg) ?_ ⟨hreach, hup⟩ hrun
    · omega
    · rintro t h a t' es ⟨hr, hup⟩ hstays hstep
      exact ⟨⟨.step hr trivial hstep, up_of_stays hup hstays hstep⟩, hleft hr hup hstays hstep⟩

/-- A publication has sent its review, and another pull request has been opened. -/
def publishingRun : List AppAction :=
  stagedRun ++ [.approve "r1" none none none, .publish 0 .go, .webhook (openedPr 8 "b")]

/-- The review of the first run may still fail and be tried again, and the second run is only asked
for. -/
theorem comes_to_rest_publishing :
    ∃ (s : App) (h : List AppEvent), Asked (smallConfig true 1) s ("me", "app", 8, "b", "") ∧
      (∀ as t h', serving (smallConfig true 1) s h as = some (t, h') →
        as.length ≤ s.left (smallConfig true 1) ∧
        (t.Finished ∨ ∃ a t' h'', serving (smallConfig true 1) s h (as ++ [a]) = some (t', h'')) ∧
        (t.Finished → NoCommandWaits (smallConfig true 1) s → ∀ k, Asked (smallConfig true 1) s k →
          Answered t k)) ∧
      (∃ as t h', serving (smallConfig true 1) s h as = some (t, h') ∧ t.Finished) ∧
      ∀ as t h', staying (smallConfig true 1) s h as = some (t, h') →
        as.length ≤ s.left (smallConfig true 1) +
          (as.map (AppAction.charge (smallConfig true 1))).sum := by
  obtain ⟨s, h, hr, hcheck⟩ := Machine.exists_reachable_run (M := machine (smallConfig true 1))
    publishingRun (fun s _ => s.core.up && decide (s.dispatches = [openedPr 8 "b"])) small_new
    (by decide +kernel)
  rw [Bool.and_eq_true, decide_eq_true_eq] at hcheck
  refine ⟨s, h, Or.inr ⟨openedPr 8 "b", ?_, ?_⟩,
    comes_to_rest (smallConfig true 1) (by decide) (by decide) s h hr hcheck.1⟩
  · rw [hcheck.2]
    exact List.mem_cons_self
  · rfl

end Rest

end App

end PrReviewer.Model
