import PrReviewer.Analysis.PipelineSteps

/-!
# The merge policy, computed twice

`Config.can_auto_merge` says whether a repository may be merged automatically;
`publish_approved_review` decides it for itself. The two differ on a repository that is not
listed, and on one that requires approval and still has `auto_merge`: `Approval.overrides` is the
exact case in which the call may merge what the configuration forbids.
-/

set_option autoImplicit false

namespace PrReviewer.Model

open PrReviewer.Library (Machine)

/-- What a call of `publish_approved_review` meets at one of its steps. -/
structure ApprovalInstant where
  input : ApprovalInput
  staged : StagedReviews
  /-- the head of its pull request on GitHub -/
  head : String

namespace Approval

/-- One call with the arguments of `p`, on its own: everything it meets is the environment's. -/
def machine (cfg : PipelineConfig) (p : Approval) : Machine Approval ApprovalInstant AppEvent where
  start := fun q => q = { p with pc := .created }
  step := fun q now => (q.step cfg now.staged now.head now.input).map fun m =>
    ({ q with pc := m.pc }, m.events)

/-- `merge_pr` is called only if `can_auto_merge` allows it. -/
def RespectsPolicy (cfg : PipelineConfig) (p : Approval) : Prop :=
  ∀ q h, (machine cfg p).Reachable q h →
    (∃ ref run head, p.writes (.mergePr ref run head) ∈ h) →
      cfg.config.canAutoMerge p.job.owner p.job.repo = true

/-- The call asks for a merge that its own reading of the configuration allows and
`can_auto_merge` does not: the repository is not listed, or it has `auto_merge`, requires
approval, and the user has approved. -/
def overrides (p : Approval) (config : Config) : Bool :=
  p.autoMerge &&
    match config.getRepoSpec p.job.owner p.job.repo with
    | none => true
    | some spec => spec.autoMerge && spec.requireApproval && p.userApproved

variable {cfg : PipelineConfig} {p q : Approval}

/-- A call that goes on merges against the policy exactly if it overrides it. -/
theorem overrides_iff : p.overrides cfg.config = true ↔
    p.blocked cfg.config = false ∧ p.shouldAutoMerge cfg.config = true ∧
      cfg.config.canAutoMerge p.job.owner p.job.repo = false := by
  unfold overrides blocked shouldAutoMerge Config.canAutoMerge
  cases cfg.config.getRepoSpec p.job.owner p.job.repo with
  | none => simp
  | some spec =>
    obtain ⟨_, _, _, requireApproval, autoMerge⟩ := spec
    cases p.autoMerge <;> cases p.userApproved <;> cases requireApproval <;>
      cases autoMerge <;> simp

/-! ## What a call does -/

/-- The call `q` is `p` some steps on: it has passed the check for approval if it goes on, and
its policy if it has merged. -/
structure Stage (cfg : PipelineConfig) (p q : Approval) (h : List AppEvent) : Prop where
  args : q = { p with pc := q.pc }
  passed : q.pc = .created ∨ q.pc = .ended ∨ p.blocked cfg.config = false
  merged : (∃ ref run head, p.writes (.mergePr ref run head) ∈ h) →
    p.blocked cfg.config = false ∧ p.shouldAutoMerge cfg.config = true

/-- A move of the publication goes on to the next stage. -/
theorem Stage.step {h : List AppEvent} (hs : Stage cfg p q h) {staged : StagedReviews}
    {head : String} {inp : ApprovalInput} {m : ApprovalMove}
    (hm : ApprovalCase cfg staged head q inp m) :
    Stage cfg p { q with pc := m.pc } (h ++ m.events) := by
  obtain ⟨hargs, hpassed, hmerged⟩ := hs
  have hblocked : q.blocked cfg.config = p.blocked cfg.config := by rw [hargs]; rfl
  -- a step that writes no merge keeps the last clause
  have hquiet : (∀ ref run head, p.writes (.mergePr ref run head) ∉ m.events) →
      (∃ ref run head, p.writes (.mergePr ref run head) ∈ h ++ m.events) →
      p.blocked cfg.config = false ∧ p.shouldAutoMerge cfg.config = true := by
    rintro hno ⟨ref, run, head, he⟩
    rcases List.mem_append.mp he with he | he
    · exact hmerged ⟨ref, run, head, he⟩
    · exact absurd he (hno ref run head)
  have hgone : q.pc ≠ .created → q.pc ≠ .ended → p.blocked cfg.config = false :=
    fun hc he => (hpassed.resolve_left hc).resolve_left he
  have hargs' : ∀ pc, { q with pc := pc } = { p with pc := pc } := by
    intro pc
    rw [hargs]
  cases hm with
  | blocked _ _ => exact ⟨hargs' _, Or.inr (Or.inl rfl), hquiet (by simp [writes])⟩
  | started _ hb _ =>
    exact ⟨hargs' _, Or.inr (Or.inr (hblocked ▸ hb)), hquiet (by simp [writes])⟩
  | submitting hpc hstep =>
    refine ⟨hargs' _, Or.inr (Or.inr (hgone (by simp [hpc]) (by simp [hpc]))), hquiet ?_⟩
    intro ref run head he
    obtain ⟨w, hw, heq⟩ := List.mem_map.mp he
    rw [submitStep_writes hstep w hw] at heq
    simp [writes, commentOn] at heq
  | promote hpc _ =>
    have hb := hgone (by simp [hpc]) (by simp [hpc])
    exact ⟨hargs' _, Or.inr (Or.inr hb), hquiet (by simp [writes])⟩
  | submitFailed _ _ => exact ⟨hargs' _, Or.inr (Or.inl rfl), hquiet (by simp)⟩
  | merge hmerge hpc =>
    have hb : p.blocked cfg.config = false := by
      apply hgone <;> rcases hpc with ⟨_, _, hpc⟩ | hpc <;> simp [hpc]
    refine ⟨hargs' _, Or.inr (Or.inr hb), fun _ => ⟨hb, ?_⟩⟩
    rw [hargs] at hmerge
    exact hmerge
  | finish hc he _ => exact ⟨hargs' _, Or.inr (Or.inr (hgone hc he)), hquiet (by simp)⟩

/-- In every run the publication is at one of the stages. -/
theorem reaches_stage {h : List AppEvent} (hr : (machine cfg p).Reachable q h) :
    Stage cfg p q h := by
  refine Machine.Reaches.invariant (I := Stage cfg p) ?_ ?_ hr
  · rintro q rfl
    exact ⟨rfl, Or.inl rfl, by simp⟩
  · intro q h now q' es _ hs _ hstep
    obtain ⟨m, hm, heq⟩ := Option.map_eq_some_iff.mp hstep
    cases heq
    exact hs.step (approvalStep_cases hm)

/-! ## The policy -/

/-- A move from a reachable publication is reachable. -/
theorem reachable_step {h : List AppEvent} (hr : (machine cfg p).Reachable q h)
    (now : ApprovalInstant) {m : ApprovalMove}
    (hm : q.step cfg now.staged now.head now.input = some m) :
    (machine cfg p).Reachable { q with pc := m.pc } (h ++ m.events) := by
  refine .step (a := now) hr trivial ?_
  show (q.step cfg now.staged now.head now.input).map _ = _
  rw [hm]
  rfl

/-- A call that is past the submission and the promotion, and wants to merge, asks for it. -/
theorem merge_of_shouldAutoMerge (hmerge : p.shouldAutoMerge cfg.config = true) (head : String) :
    p.merge cfg [] head =
      ⟨.merging (mergeMethods "squash"), [], [p.writes (.mergePr p.job.ref p.job.runId head)]⟩ :=
  if_pos hmerge

/-- A call that is not blocked and wants to merge does so, if its review is accepted and the
promotion, if there is one, is answered. -/
theorem merges_of_not_blocked (hb : p.blocked cfg.config = false)
    (hmerge : p.shouldAutoMerge cfg.config = true) :
    ∃ q h, (machine cfg p).Reachable q h ∧
      p.writes (.mergePr p.job.ref p.job.runId "") ∈ h := by
  have hmerge' : ∀ pc, ({ p with pc := pc } : Approval).merge cfg [] "" =
      ⟨.merging (mergeMethods "squash"), [], [p.writes (.mergePr p.job.ref p.job.runId "")]⟩ :=
    fun pc => merge_of_shouldAutoMerge (p := { p with pc := pc }) hmerge ""
  have hstart : (machine cfg p).Reachable { p with pc := .created } [] := .start rfl
  -- it takes the staged review, which is not there, and submits what it was given
  have hgo : ({ p with pc := .created } : Approval).step cfg [] "" .go =
      some ⟨.submitting (p.review none) .first, [], [.publishing p.number p.job p.userApproved none,
        p.writes (.submitReview (p.review none))]⟩ :=
    if_neg (ne_of_eq_of_ne hb Bool.false_ne_true)
  have hsubmitting := reachable_step hstart ⟨.go, [], ""⟩ hgo
  have hsubmitted := reachable_step hsubmitting ⟨.submit .created, [], ""⟩
    (m := ⟨.submitting (p.review none) .done, [], []⟩) rfl
  cases hdraft : p.isDraft with
  | true =>
    have hreturned : ({ p with pc := .submitting (p.review none) .done } : Approval).step cfg [] ""
        (.submit .go) =
          some ⟨.marking, [], [p.writes (.markReady p.job.ref p.job.runId)]⟩ := by
      show some (if p.isDraft then _ else _) = _
      rw [if_pos hdraft]
      rfl
    have hmarking := reachable_step hsubmitted ⟨.submit .go, [], ""⟩ hreturned
    have hasked := reachable_step hmarking ⟨.answered true, [], ""⟩ (congrArg some (hmerge' .marking))
    exact ⟨_, _, hasked, List.mem_append_right _ List.mem_cons_self⟩
  | false =>
    have hreturned : ({ p with pc := .submitting (p.review none) .done } : Approval).step cfg [] ""
        (.submit .go) = some (p.merge cfg [] "") := by
      show some (if p.isDraft then _ else _) = _
      rw [if_neg (ne_of_eq_of_ne hdraft Bool.false_ne_true)]
      rfl
    rw [merge_of_shouldAutoMerge hmerge] at hreturned
    have hasked := reachable_step hsubmitted ⟨.submit .go, [], ""⟩ hreturned
    exact ⟨_, _, hasked, List.mem_append_right _ List.mem_cons_self⟩

/-- **A call merges only what `can_auto_merge` allows, exactly if it does not override the
policy.** -/
theorem respects_policy_iff (cfg : PipelineConfig) (p : Approval) :
    RespectsPolicy cfg p ↔ p.overrides cfg.config = false := by
  rw [← Bool.not_eq_true, overrides_iff]
  constructor
  · rintro hpolicy ⟨hb, hmerge, hforbidden⟩
    obtain ⟨q, h, hr, hmem⟩ := merges_of_not_blocked hb hmerge
    have hallowed := hpolicy q h hr ⟨_, _, _, hmem⟩
    rw [hforbidden] at hallowed
    exact Bool.false_ne_true hallowed
  · intro hno q h hr hmem
    obtain ⟨hb, hmerge⟩ := (reaches_stage hr).merged hmem
    by_contra hforbidden
    exact hno ⟨hb, hmerge, Bool.not_eq_true _ |>.mp hforbidden⟩

/-- One repository is listed; it requires approval, and `auto_merge` is left at its default. -/
def guardedConfig : Config where
  repoConfig := [{ owner := "me", repo := "app", requireApproval := true }]
  providers := ["free"]

/-- An approved review of the guarded repository is merged. -/
theorem policy_overridden :
    ¬ ∀ cfg p, cfg.config.accepted = true → RespectsPolicy cfg p := by
  intro hall
  let p : Approval :=
    { number := 0
      job := { owner := "me", repo := "app", pr := some 7, head := some "a", runId := "r1" }
      summary := "" }
  let cfg : PipelineConfig := ⟨guardedConfig, true⟩
  have hallowed : cfg.config.canAutoMerge "me" "app" = true := by
    obtain ⟨q, h, hr, hcheck⟩ := Machine.exists_reachable_run (M := machine cfg p)
      [⟨.go, [], ""⟩, ⟨.submit .created, [], ""⟩, ⟨.submit .go, [], ""⟩, ⟨.answered true, [], ""⟩]
      (fun _ h => h.contains (p.writes (.mergePr p.job.ref "r1" ""))) rfl (by decide)
    exact hall cfg p (by decide) q h hr ⟨_, _, _, List.contains_iff_mem.mp hcheck⟩
  exact absurd hallowed (by decide)

end Approval

end PrReviewer.Model
