import PrReviewer.Analysis.Approvals

/-!
# What an approval publishes

With the books of `Booked`: nothing is published without an approval, and an approval publishes
what was staged for its run, if anything was, on the pull request its request names.
-/

set_option autoImplicit false

namespace PrReviewer.Model

open PrReviewer.Library

namespace AppEvent

/-- A publication takes the review staged for the run. -/
def takes (r : RunId) : AppEvent → Bool
  | .publishing _ job _ taken => job.runId == r && taken.isSome
  | _ => false

/-- A publication of the run finds nothing staged. -/
def findsNothing (r : RunId) : AppEvent → Bool
  | .publishing _ job _ taken => job.runId == r && taken.isNone
  | _ => false

/-- A publication submits a review under the run. -/
def submits (r : RunId) : AppEvent → Bool
  | .write (.approval _) (.submitReview review) => review.run == r
  | _ => false

end AppEvent

variable {cfg : AppConfig} {s s' : App} {a : AppAction} {h es : List AppEvent} {p : Approval}
  {k n : Nat}

/-! ## What is published -/

/-- The write belongs to the publication for the request `n`: the job requested, what was taken
or else what the channel gave, and the consent that the repository asks for. -/
def Founded (cfg : AppConfig) (before : List AppEvent) (n : Nat) (w : GitHubWrite) : Prop :=
  ∃ job given userApproved taken, Requested cfg before n job given ∧
    .publishing n job userApproved taken ∈ before ∧
    (∀ spec, cfg.config.getRepoSpec job.owner job.repo = some spec → spec.requireApproval = true →
      userApproved = true) ∧
    Publication job (taken.getD ⟨given, []⟩) w

/-- A founded write stays founded. -/
theorem Founded.mono {w : GitHubWrite} (hw : Founded cfg h n w) : Founded cfg (h ++ es) n w := by
  obtain ⟨job, given, userApproved, taken, hrequested, hmem, hallowed, hpub⟩ := hw
  exact ⟨job, given, userApproved, taken, hrequested.mono, List.mem_append_left _ hmem, hallowed,
    hpub⟩

/-- The write is one of the publication for the genuine approval request `n`, which has started,
on the pull request of its job; the repository did not ask for a consent that is missing. -/
def Approved (cfg : AppConfig) (before : List AppEvent) (n : Nat) (w : GitHubWrite) : Prop :=
  ∃ request stored job userApproved taken,
    .asked n request stored (some job) ∈ before ∧ request.Genuine cfg ∧
    .publishing n job userApproved taken ∈ before ∧ (∃ c, Publication job c w) ∧
    ∀ spec, cfg.config.getRepoSpec job.owner job.repo = some spec → spec.requireApproval = true →
      userApproved = true

/-- A founded write has been approved. -/
theorem Founded.approved {w : GitHubWrite} (hw : Founded cfg h n w) : Approved cfg h n w := by
  obtain ⟨job, given, userApproved, taken, hrequested, hmem, hallowed, hpub⟩ := hw
  obtain ⟨request, stored, otherwise, hasked, htarget, -⟩ := hrequested
  exact ⟨request, stored, job, userApproved, taken, hasked,
    ApprovalRequest.genuine_of_target htarget, hmem, ⟨_, hpub⟩, hallowed⟩

/-- With the arguments every caller gives, what was staged is published, or the summary of the
channel. -/
theorem Handled.content (hp : Handled cfg h p) (taken : Option StagedReview) :
    p.content taken = taken.getD ⟨p.summary, []⟩ := by
  unfold Approval.content
  cases taken with
  | some x => rfl
  | none => simp [hp.arguments.1]

/-- The review of a handled publication is that of its own job. -/
theorem Handled.review (hp : Handled cfg h p) (taken : Option StagedReview) :
    p.review taken = reviewOf p.job (taken.getD ⟨p.summary, []⟩).summary
      (taken.getD ⟨p.summary, []⟩).findings .approve := by
  unfold Approval.review
  rw [hp.content, if_pos hp.arguments.2]

/-- A publication that is not blocked respects the approval it requires. -/
theorem Approval.allowed_of_not_blocked {config : Config} (hp : p.blocked config = false)
    (spec : RepoSpec) (hspec : config.getRepoSpec p.job.owner p.job.repo = some spec)
    (happrove : spec.requireApproval = true) : p.userApproved = true := by
  unfold Approval.blocked at hp
  simpa [hspec, happrove] using hp

/-- The writes of a publication's step are founded. -/
theorem ApprovalCase.founded {staged : StagedReviews} {head : String} {inp : ApprovalInput}
    {m : ApprovalMove} (hm : ApprovalCase cfg.pipeline staged head p inp m)
    (hp : Handled cfg h p) :
    Each (fun before e => ∀ n w, e = .write (.approval n) w → Founded cfg (h ++ before) n w)
      m.events := by
  have hgoes : ∀ {w : GitHubWrite}, p.pc ≠ .created → p.pc ≠ .ended →
      (∀ taken, (∀ review pc, p.pc = .submitting review pc → review = p.review taken) →
        Publication p.job (taken.getD ⟨p.summary, []⟩) w) → Founded cfg h p.number w := by
    intro w hpc hended hw
    obtain ⟨taken, htaken, hreview⟩ := hp.started hpc
    exact ⟨p.job, p.summary, p.userApproved, taken, hp.requested, htaken,
      Approval.allowed_of_not_blocked (hp.allowed hpc hended), hw taken hreview⟩
  have hall : ∀ ws : List GitHubWrite, (∀ w ∈ ws, Founded cfg h p.number w) →
      Each (fun before e => ∀ n w, e = .write (.approval n) w → Founded cfg (h ++ before) n w)
        (ws.map p.writes) := by
    rintro ws hws before e post heq n w rfl
    have he : .write (.approval n) w ∈ ws.map p.writes := by simp [heq]
    obtain ⟨w', hw', heq'⟩ := List.mem_map.mp he
    cases heq'
    exact (hws w hw').mono
  cases hm with
  | blocked _ _ =>
    refine each_snoc.mpr ⟨each_nil, ?_⟩
    rintro n w heq
    cases heq
  | @started review hpc hblocked hreview =>
    refine each_snoc.mpr ⟨each_snoc.mpr ⟨each_nil, ?_⟩, ?_⟩
    · rintro n w heq
      cases heq
    · rintro n w heq
      cases heq
      refine ⟨p.job, p.summary, p.userApproved, _, hp.requested.mono,
        List.mem_append_right _ (List.mem_singleton.mpr rfl),
        Approval.allowed_of_not_blocked hblocked, ?_⟩
      rw [hreview, hp.review]
      exact .review
  | @submitting review pc pc' reply writes hpc hs =>
    refine hall _ fun w hw => hgoes (by simp [hpc]) (by simp [hpc]) fun taken hreview => ?_
    rw [submitStep_writes hs w hw, hreview review pc hpc, hp.review]
    exact .comment
  | promote hpc _ =>
    refine hall [_] fun w hw => ?_
    rw [List.mem_singleton.mp hw]
    exact hgoes (by simp [hpc]) (by simp [hpc]) fun _ _ => .ready
  | submitFailed _ _ => exact each_nil
  | merge _ hpc =>
    refine hall [_] fun w hw => ?_
    rw [List.mem_singleton.mp hw]
    refine hgoes ?_ ?_ fun _ _ => .merge _ <;>
      rcases hpc with ⟨review, pc, hpc⟩ | hpc <;> simp [hpc]
  | finish _ _ _ => exact each_nil

/-- The start of a publication: it answers its request for the first time, and takes what is
staged for its run. -/
def Starts (cfg : AppConfig) (before : List AppEvent) (n : Nat) (job : ReviewJob)
    (taken : Option StagedReview) : Prop :=
  (∃ given, Requested cfg before n job given) ∧ (∀ e ∈ before, ¬ e.By n) ∧
    ∀ x, taken = some x ↔ LastStaged before job.runId x

/-- The start in a publication's step is one. -/
theorem ApprovalCase.starts {head : String} {inp : ApprovalInput} {m : ApprovalMove}
    (hm : ApprovalCase cfg.pipeline s.staged head p inp m) (hb : Booked cfg s h)
    (hp : p ∈ s.approvals) :
    Each (fun before e => ∀ n job userApproved taken, e = .publishing n job userApproved taken →
      Starts cfg (h ++ before) n job taken) m.events := by
  have hh := hb.handled p hp
  have hnew : p.pc = .created → Starts cfg h p.number p.job (s.staged.find p.job.runId) :=
    fun hpc => ⟨⟨_, hh.requested⟩, hh.fresh hpc, hb.staged _⟩
  cases hm with
  | blocked hpc _ =>
    refine each_snoc.mpr ⟨each_nil, ?_⟩
    rintro n job userApproved taken heq
    cases heq
    rw [List.append_nil]
    exact hnew hpc
  | started hpc _ _ =>
    refine each_snoc.mpr ⟨each_snoc.mpr ⟨each_nil, ?_⟩, ?_⟩
    · rintro n job userApproved taken heq
      cases heq
      rw [List.append_nil]
      exact hnew hpc
    · rintro n job userApproved taken heq
      cases heq
  | _ =>
    rintro before e post heq n job userApproved taken rfl
    have he := heq ▸ List.mem_append_right before (List.mem_cons_self (l := post))
    simp [Approval.writes] at he

/-- A publication submits its review when it starts, and only then. -/
theorem ApprovalCase.submits {staged : StagedReviews} {head : String} {inp : ApprovalInput}
    {m : ApprovalMove} (hm : ApprovalCase cfg.pipeline staged head p inp m)
    (hp : Handled cfg h p) :
    Each (fun before e => ∀ n r, e = .write (.approval n) (.submitReview r) →
      ∀ r', .write (.approval n) (.submitReview r') ∉ h ++ before) m.events := by
  cases hm with
  | started hpc _ _ =>
    refine each_snoc.mpr ⟨each_snoc.mpr ⟨each_nil, ?_⟩, ?_⟩
    · rintro n r heq
      cases heq
    · rintro n r heq r' hmem
      cases heq
      rcases List.mem_append.mp hmem with hmem | hmem
      · exact hp.fresh hpc _ hmem rfl
      · cases List.mem_singleton.mp hmem
  | submitting _ hs =>
    rintro before e post heq n r rfl
    have he := heq ▸ List.mem_append_right before (List.mem_cons_self (l := post))
    obtain ⟨w, hw, heq'⟩ := List.mem_map.mp he
    cases heq'
    cases submitStep_writes hs _ hw
  | _ =>
    rintro before e post heq n r rfl
    have he := heq ▸ List.mem_append_right before (List.mem_cons_self (l := post))
    simp [Approval.writes] at he

/-- It submits no more reviews of a run than it starts. -/
theorem ApprovalCase.submits_le {staged : StagedReviews} {head : String} {inp : ApprovalInput}
    {m : ApprovalMove} (hm : ApprovalCase cfg.pipeline staged head p inp m) (r : RunId) :
    m.events.countP (AppEvent.submits r) ≤
      m.events.countP (AppEvent.takes r) + m.events.countP (AppEvent.findsNothing r) := by
  cases hm with
  | started _ _ hreview =>
    subst hreview
    cases staged.find p.job.runId <;>
      simp [List.countP_cons, AppEvent.submits, AppEvent.takes, AppEvent.findsNothing,
        Approval.writes, Approval.review, reviewOf]
  | submitting _ hs =>
    rename_i review pc pc' reply writes _
    have hzero : (writes.map p.writes).countP (AppEvent.submits r) = 0 := by
      rw [List.countP_eq_zero]
      intro e he
      obtain ⟨w, hw, rfl⟩ := List.mem_map.mp he
      rw [submitStep_writes hs w hw]
      exact Bool.false_ne_true
    rw [hzero]
    exact Nat.zero_le _
  | _ => simp [AppEvent.submits, Approval.writes]

/-! ## Over a run -/

namespace App

/-- Only the step of a publication has events of a publication. -/
theorem by_of_step (hstep : step cfg s a = some (s', es)) :
    (∀ e ∈ es, ∀ n, ¬ e.By n) ∨
      ∃ (k : Nat) (inp : ApprovalInput) (p : Approval) (m : ApprovalMove),
        s.approvals[k]? = some p ∧
          ApprovalCase cfg.pipeline s.staged (s.head p.job.ref) p inp m ∧ es = m.events := by
  by_cases hby : ∃ e ∈ es, ∃ n, e.By n
  · obtain ⟨e, he, n, hn⟩ := hby
    right
    cases event_of_step hstep he with
    | publishing hp hm hes => exact ⟨_, _, _, _, hp, hm, hes⟩
    | approval hp hm hes _ => exact ⟨_, _, _, _, hp, hm, hes⟩
    | chatter horigin _ => rcases horigin with rfl | rfl <;> exact absurd hn id
    | _ => exact absurd hn id
  · exact Or.inl fun e he n hn => hby ⟨e, he, n, hn⟩

/-- What holds of each event of a publication, over the history before it, holds of a run if it
is so of the publications' steps. -/
theorem reaches_each {D : Machine.Discipline App AppAction AppEvent}
    {P : List AppEvent → AppEvent → Prop} (hby : ∀ before e, (∀ n, ¬ e.By n) → P before e)
    (hpublish : ∀ (s : App) (h : List AppEvent) (p : Approval) (inp : ApprovalInput)
      (m : ApprovalMove), Booked cfg s h → p ∈ s.approvals →
      ApprovalCase cfg.pipeline s.staged (s.head p.job.ref) p inp m →
      Each (fun before e => P (h ++ before) e) m.events)
    (hr : (machine cfg).Reaches D s h) : Each P h := by
  refine hr.invariant (I := fun _ h => Each P h) (fun _ _ => each_nil) ?_
  intro s h a s' es hr hh _ hstep
  refine hh.append ?_
  rintro before e post rfl
  rcases by_of_step hstep with hquiet | ⟨k, inp, p, m, hp, hm, heq⟩
  · exact hby _ _ (hquiet e (List.mem_append_right _ List.mem_cons_self))
  · exact hpublish s h p inp m (reaches_booked hr) (List.mem_of_getElem? hp) hm before e post heq.symm

variable {D : Machine.Discipline App AppAction AppEvent}

/-- **Every write of a publication is founded.** -/
theorem reaches_founded (hr : (machine cfg).Reaches D s h) :
    Each (fun before e => ∀ n w, e = .write (.approval n) w → Founded cfg before n w) h := by
  refine reaches_each ?_ ?_ hr
  · rintro before e hby n w rfl
    exact absurd rfl (hby n)
  · intro s h p inp m hb hp hm
    exact hm.founded (hb.handled p hp)

/-- Every start of a publication is the first for its request. -/
theorem reaches_starts (hr : (machine cfg).Reaches D s h) :
    Each (fun before e => ∀ n job userApproved taken, e = .publishing n job userApproved taken →
      Starts cfg before n job taken) h := by
  refine reaches_each ?_ ?_ hr
  · rintro before e hby n job userApproved taken rfl
    exact absurd rfl (hby n)
  · intro s h p inp m hb hp hm
    exact hm.starts hb hp

/-- In every run each publication submits once. -/
theorem reaches_submits_once (hr : (machine cfg).Reaches D s h) :
    Each (fun before e => ∀ n r, e = .write (.approval n) (.submitReview r) →
      ∀ r', .write (.approval n) (.submitReview r') ∉ before) h := by
  refine reaches_each ?_ ?_ hr
  · rintro before e hby n r rfl
    exact absurd rfl (hby n)
  · intro s h p inp m hb hp hm
    exact hm.submits (hb.handled p hp)

/-- A request arrives once. -/
theorem reaches_asks_once (hr : (machine cfg).Reaches D s h) :
    Each (fun before e => ∀ n, e.Asks n → ∀ e' ∈ before, ¬ e'.Asks n) h := by
  refine hr.invariant (I := fun _ h => Each _ h) (fun _ _ => each_nil) ?_
  intro s h a s' es hr hh _ hstep
  have hb := reaches_booked hr
  have hquiet : ∀ {es : List AppEvent}, (∀ e ∈ es, ∀ n, ¬ e.Asks n) →
      Each (fun before e => ∀ n, e.Asks n → ∀ e' ∈ before, ¬ e'.Asks n) (h ++ es) := by
    intro es hes
    refine hh.append ?_
    rintro before e post rfl n hn
    exact absurd hn (hes e (List.mem_append_right _ List.mem_cons_self) n)
  cases step_cases hstep with
  | core _ _ => exact hquiet fun e he n => ((quiet_of_mem_core he).1 n).2
  | enqueue _ _ => exact hquiet fun e he n => ((quiet_of_mem_core he).1 n).2
  | chatter _ hes => exact hquiet fun e he n => ((hes e he).quiet n).2
  | @ask _ request run otherwise summary _ _ =>
    rcases ask_cases (s := s) request run otherwise summary with ⟨job, -, heq⟩ | ⟨-, heq⟩ <;>
      rw [heq] <;> refine each_snoc.mpr ⟨hh, ?_⟩ <;> rintro n rfl e he hn <;>
      exact absurd (hb.numbered e _ he (Or.inr hn)) (Nat.lt_irrefl _)
  | exec _ hm _ => exact hquiet fun e he n => (hm.quiet e he n).2
  | publish _ hm => exact hquiet fun e he n => (hm.by e he).not_asks
  | crash _ => exact hquiet (by simp [AppEvent.Asks])
  | push _ _ => exact hquiet (by simp [AppEvent.Asks])
  | acceptWorker _ _ _ => exact hquiet (by simp [AppEvent.Asks])
  | acceptApproval _ _ _ => exact hquiet (by simp [AppEvent.Asks])
  | acceptOrphan _ => exact hquiet (by simp [AppEvent.Asks])

/-- **A staged review is taken at most once**: over a history whose publications take what is
staged last, the reviews taken, and the one still there, are not more than those staged. -/
theorem takes_le_stages {r : RunId} (hh : Each (fun before e => ∀ n job userApproved taken,
      e = .publishing n job userApproved taken → ∀ x, taken = some x ↔ LastStaged before job.runId x) h) :
    h.countP (AppEvent.takes r) ≤ h.countP (AppEvent.stages r) ∧
      ∀ x, LastStaged h r x → h.countP (AppEvent.takes r) < h.countP (AppEvent.stages r) := by
  induction h using List.reverseRecOn with
  | nil => exact ⟨Nat.le_refl _, fun x hx => absurd hx not_lastStaged_nil⟩
  | append_singleton h e ih =>
    obtain ⟨hh, he⟩ := each_snoc.mp hh
    obtain ⟨hle, hlt⟩ := ih hh
    simp only [List.countP_append, List.countP_singleton, lastStaged_snoc]
    cases e with
    | staged job x =>
      by_cases hid : job.runId = r
      · have hstages : AppEvent.stages r (.staged job x) = true := by simp [AppEvent.stages, hid]
        have htakes : AppEvent.takes r (.staged job x) = false := rfl
        rw [hstages, htakes]
        simp only [if_true, Bool.false_eq_true, if_false]
        exact ⟨by omega, fun _ _ => by omega⟩
      · simpa [AppEvent.stages, AppEvent.takes, AppEvent.Unstages, hid] using ⟨hle, hlt⟩
    | publishing n job userApproved taken =>
      by_cases hid : job.runId = r
      · cases taken with
        | none => simpa [AppEvent.stages, AppEvent.takes, AppEvent.Unstages, hid] using hle
        | some x =>
          have hx := hlt x (hid ▸ (he n job userApproved _ rfl x).mp rfl)
          simp [AppEvent.stages, AppEvent.takes, AppEvent.Unstages, hid]
          omega
      · simpa [AppEvent.stages, AppEvent.takes, AppEvent.Unstages, hid] using ⟨hle, hlt⟩
    | crashed => simpa [AppEvent.stages, AppEvent.takes, AppEvent.Unstages] using hle
    | _ => simpa [AppEvent.stages, AppEvent.takes, AppEvent.Unstages] using ⟨hle, hlt⟩

/-- The publications submit no more reviews of a run than they start. -/
theorem reaches_submits_le (hr : (machine cfg).Reaches D s h) (r : RunId) :
    h.countP (AppEvent.submits r) ≤
      h.countP (AppEvent.takes r) + h.countP (AppEvent.findsNothing r) := by
  refine hr.invariant (I := fun _ h => h.countP (AppEvent.submits r) ≤
    h.countP (AppEvent.takes r) + h.countP (AppEvent.findsNothing r))
    (fun _ _ => Nat.zero_le _) ?_
  intro s h a s' es _ hh _ hstep
  have hes : es.countP (AppEvent.submits r) ≤
      es.countP (AppEvent.takes r) + es.countP (AppEvent.findsNothing r) := by
    rcases by_of_step hstep with hquiet | ⟨k, inp, p, m, -, hm, rfl⟩
    · have hzero : es.countP (AppEvent.submits r) = 0 := by
        rw [List.countP_eq_zero]
        intro e he hsub
        have hby := hquiet e he
        unfold AppEvent.submits at hsub
        split at hsub
        · exact hby _ rfl
        · exact Bool.false_ne_true hsub
      rw [hzero]
      exact Nat.zero_le _
    · exact hm.submits_le r
  simp only [List.countP_append]
  omega

/-- With a Slack notifier only a publication publishes. -/
theorem approval_of_publishes (hstep : step cfg s a = some (s', es)) (hslack : cfg.slack = true)
    {e : AppEvent} (he : e ∈ es) {origin : Origin} {w : GitHubWrite}
    (hw : e.write? = some (origin, w)) (hpub : w.publishes = true) : ∃ n, origin = .approval n := by
  cases event_of_step hstep he with
  | @core _ _ ce _ _ _ =>
    cases ce <;> cases hw
    exact absurd hpub Bool.false_ne_true
  | chatter _ hno =>
    cases hw
    rw [hpub] at hno
    cases hno
  | worker _ hdirect =>
    cases hw
    rw [hdirect hpub] at hslack
    cases hslack
  | approval _ _ _ _ =>
    cases hw
    exact ⟨_, rfl⟩
  | _ => cases hw

/-! ## Nothing is published without an approval -/

/-- Whatever is published is published for an approval request, and every write made for one is
approved. -/
def OnlyApproved (cfg : AppConfig) (h : List AppEvent) : Prop :=
  Each (fun before e => ∀ origin w, e.write? = some (origin, w) →
    (w.publishes = true → ∃ n, origin = .approval n) ∧
      ∀ n, origin = .approval n → Approved cfg before n w) h

/-- Every publication is for a request that has arrived, the only one for it, and the numbers of
the requests are different. -/
def AnsweredOnce (h : List AppEvent) : Prop :=
  Each (fun before e => ∀ n job userApproved taken, e = .publishing n job userApproved taken →
    (∃ request stored, .asked n request stored (some job) ∈ before) ∧
      ∀ job' userApproved' taken', .publishing n job' userApproved' taken' ∉ before) h ∧
  Each (fun before e => ∀ n, e.Asks n → ∀ e' ∈ before, ¬ e'.Asks n) h

/-- **Nothing is published without an approval**, if there is a Slack notifier. -/
theorem nothing_published_unapproved (cfg : AppConfig) (hslack : cfg.slack = true) {s : App}
    {h : List AppEvent} (hr : (machine cfg).Reachable s h) : OnlyApproved cfg h ∧ AnsweredOnce h := by
  have hpub : ∀ e ∈ h, ∀ origin w, e.write? = some (origin, w) → w.publishes = true →
      ∃ n, origin = .approval n := by
    refine hr.invariant (I := fun _ h => ∀ e ∈ h, ∀ origin w, e.write? = some (origin, w) →
      w.publishes = true → ∃ n, origin = .approval n) (fun _ _ e he => absurd he List.not_mem_nil) ?_
    intro s h a s' es _ hh _ hstep e he origin w
    rcases List.mem_append.mp he with he | he
    · exact hh e he origin w
    · exact approval_of_publishes hstep hslack he
  refine ⟨?_, ?_, reaches_asks_once hr⟩
  · rintro before e post rfl origin w hw
    refine ⟨hpub e (List.mem_append_right _ List.mem_cons_self) origin w hw, ?_⟩
    rintro n rfl
    have he : e = .write (.approval n) w := by
      cases e with
      | core ce => cases ce <;> cases hw
      | write origin' w' => cases hw; rfl
      | _ => cases hw
    exact (reaches_founded hr before e post rfl n w he).approved
  · rintro before e post rfl n job userApproved taken he
    obtain ⟨⟨given, request, stored, _, hasked, -⟩, hnew, -⟩ :=
      reaches_starts hr before e post rfl n job userApproved taken he
    exact ⟨⟨request, stored, hasked⟩, fun _ _ _ hmem => hnew _ hmem rfl⟩

/-- A merged review was approved, and every request answered once. -/
theorem nothing_published_unapproved_merged :
    ∃ s h, .write (.approval 0) (.mergePr firstJob.ref "r1" "a") ∈ h ∧
      OnlyApproved (smallConfig true 1) h ∧ AnsweredOnce h ∧
      (machine (smallConfig true 1)).Reachable s h := by
  obtain ⟨s, h, hr, hmerge⟩ := Machine.exists_reachable_run (M := machine (smallConfig true 1))
    (stagedRun ++ approveAndMerge)
    (fun _ h => h.contains (.write (.approval 0) (.mergePr firstJob.ref "r1" "a")))
    small_new (by decide)
  obtain ⟨happroved, honce⟩ := nothing_published_unapproved _ rfl hr
  exact ⟨s, h, List.contains_iff_mem.mp hmerge, happroved, honce, hr⟩

/-! ## What an approval publishes -/

/-- An approval takes what is staged for its run, and publishes that, or what the channel gives. -/
structure PublishesTaken (cfg : AppConfig) (h : List AppEvent) : Prop where
  /-- every write is the publication's, for the job its request names -/
  founded : Each (fun before e => ∀ n w, e = .write (.approval n) w → Founded cfg before n w) h
  /-- what it takes is what the run has staged last in this process, if nobody has taken it -/
  taken : Each (fun before e => ∀ n job userApproved taken,
    e = .publishing n job userApproved taken →
      ∀ x, taken = some x ↔ LastStaged before job.runId x) h
  /-- it submits one review at most -/
  once : Each (fun before e => ∀ n r, e = .write (.approval n) (.submitReview r) →
    ∀ r', .write (.approval n) (.submitReview r') ∉ before) h
  takes_le : ∀ r, h.countP (AppEvent.takes r) ≤ h.countP (AppEvent.stages r)
  submits_le : ∀ r, h.countP (AppEvent.submits r) ≤
    h.countP (AppEvent.stages r) + h.countP (AppEvent.findsNothing r)

/-- **An approval publishes what was staged, if anything was.** -/
theorem approvals_publish_taken (cfg : AppConfig) {s : App} {h : List AppEvent}
    (hr : (machine cfg).Reachable s h) : PublishesTaken cfg h := by
  have htaken : Each (fun before e => ∀ n job userApproved taken,
      e = .publishing n job userApproved taken →
        ∀ x, taken = some x ↔ LastStaged before job.runId x) h :=
    fun before e post heq n job userApproved taken he =>
      (reaches_starts hr before e post heq n job userApproved taken he).2.2
  have hle : ∀ r, h.countP (AppEvent.takes r) ≤ h.countP (AppEvent.stages r) :=
    fun r => (takes_le_stages htaken).1
  refine ⟨reaches_founded hr, htaken, reaches_submits_once hr, hle, fun r => ?_⟩
  calc h.countP (AppEvent.submits r)
      ≤ h.countP (AppEvent.takes r) + h.countP (AppEvent.findsNothing r) := reaches_submits_le hr r
    _ ≤ h.countP (AppEvent.stages r) + h.countP (AppEvent.findsNothing r) :=
        Nat.add_le_add_right (hle r) _

end App

end PrReviewer.Model
