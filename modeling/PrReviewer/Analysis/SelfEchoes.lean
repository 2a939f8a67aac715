import PrReviewer.Analysis.CommandTokens
import PrReviewer.Model.Channel

/-!
# Echoes

What the service said and its channel delivers back is read like any message: nothing marks it
as the service's own. `Ignores` is the exact condition under which such a text neither publishes
anything nor starts a review, and where it holds of every text that comes back, all that the
service does for Slack it does for a user.
-/

set_option autoImplicit false

namespace PrReviewer.Model

open PrReviewer.Library

/-! ## One text -/

/-- The text is a review command. -/
def ParsedCommand.isCommand : ParsedCommand → Bool
  | .command _ => true
  | _ => false

/-- The request publishes, or dispatches a comment that is a review command. -/
def SlackRequest.acts (u : Unicode) : SlackRequest → Bool
  | .nothing => false
  | .dispatch event => (parseCommand u (orEmpty event.commentBody)).isCommand
  | .approve _ _ _ => true

namespace TriggerDecisionEngine

variable {t : TriggerDecisionEngine} {text : String}

/-- The text has no number that can be read, or several repositories are enabled and it names
none of them, or it neither has `approve` in it nor is a review command. -/
def Ignores (t : TriggerDecisionEngine) (text : String) : Prop :=
  let clean := stripMentions text.toList
  (firstDigits t.unicode clean).bind (pyInt t.unicode) = none ∨
    (t.mentionedRepo clean = none ∧ 1 < t.config.enabledRepos.length) ∨
    (hasText "approve".toList (t.unicode.lower text.toList) = false ∧
      (parseCommand t.unicode text).isCommand = false)

/-- When a message that names a pull request publishes nothing and starts no review. -/
theorem slackMessage_acts {clean : List Char} {pr : Int} :
    (t.slackMessage text clean pr).acts t.unicode = false ↔
      (t.mentionedRepo clean = none ∧ 1 < t.config.enabledRepos.length) ∨
        (hasText "approve".toList (t.unicode.lower text.toList) = false ∧
          (parseCommand t.unicode text).isCommand = false) := by
  unfold slackMessage
  simp only
  by_cases hasks : t.mentionedRepo clean = none ∧ t.config.enabledRepos.length > 1
  · rw [if_pos hasks]
    exact iff_of_true rfl (Or.inl hasks)
  · rw [if_neg hasks, or_iff_right hasks]
    cases happrove : hasText "approve".toList (t.unicode.lower text.toList) with
    | true => exact iff_of_false (by simp [SlackRequest.acts]) (by simp)
    | false =>
      rw [if_neg Bool.false_ne_true, and_iff_right rfl]
      rfl

/-- **When a message publishes nothing and starts no review.** -/
theorem processSlackEventPayload_acts :
    (t.processSlackEventPayload (.eventCallback "message" text)).acts t.unicode = false ↔
      t.Ignores text := by
  unfold processSlackEventPayload Ignores
  simp only [or_true, if_true]
  cases hnumber : (firstDigits t.unicode (stripMentions text.toList)).bind (pyInt t.unicode) with
  | none => exact iff_of_true rfl (Or.inl rfl)
  | some pr =>
    simp only [reduceCtorEq, false_or]
    exact slackMessage_acts

/-- What a message dispatches is a comment of the service's own account. -/
theorem processSlackEventPayload_dispatch {event : NormalizedEvent}
    (h : t.processSlackEventPayload (.eventCallback "message" text) = .dispatch event) :
    event.event = "issue_comment" ∧ event.author = some t.selfAccount ∧
      event.commentBody = some text := by
  unfold processSlackEventPayload at h
  simp only [or_true, if_true] at h
  split at h
  · cases h
  · unfold slackMessage at h
    simp only at h
    split_ifs at h
    cases h
    exact ⟨rfl, rfl, rfl⟩

/-- The announcement that the checks failed names a pull request, but asks for nothing. -/
example : (smallConfig true 1).trigger.Ignores
    (AgentText.ciFailed "me" "app" (some 42)).text :=
  Or.inr (Or.inr (by decide +kernel))

end TriggerDecisionEngine

namespace App

variable {cfg : AppConfig} {s : App} {payload : SlackPayload}

/-- A request for an approval does not touch the scheduler. -/
theorem slackPayload_core : (s.slackPayload cfg payload).1.core = s.core := by
  unfold slackPayload
  cases cfg.trigger.processSlackEventPayload payload with
  | nothing => rfl
  | dispatch event => rfl
  | approve run otherwise summary =>
    simp only [ask]
    split <;> rfl

/-- The payload publishes nothing, and what it dispatches leaves the service as it is, whenever
its task runs. -/
def LeavesAlone (cfg : AppConfig) (s : App) (payload : SlackPayload) : Prop :=
  (s.slackPayload cfg payload).1.approvals = s.approvals ∧
    ∃ events, (s.slackPayload cfg payload).1.dispatches = s.dispatches ++ events ∧
      ∀ event ∈ events, ∀ (t : App) (r : RunId), t.core.up = true → r ∉ t.core.issued →
        ∃ es, t.dispatchEvent cfg event r = some (t, es)

/-- An approval asked for in Slack becomes a publication. -/
theorem approvals_ask (request : ApprovalRequest) (run : RunId) (otherwise : ReviewJob)
    (summary : String) :
    (s.ask request run (some otherwise) summary).1.approvals ≠ s.approvals := by
  intro h
  have hlength := congrArg List.length h
  unfold ask at hlength
  cases hjob : (s.core.table.getJob run).or (some otherwise) with
  | none =>
    rw [Option.or_eq_none_iff] at hjob
    cases hjob.2
  | some job => simp [hjob] at hlength

/-- A comment of the service's own account leaves the service as it is exactly if it is no
command. -/
theorem dispatch_leaves_iff {event : NormalizedEvent} (hown : OwnComment cfg event) :
    (∀ (t : App) (r : RunId), t.core.up = true → r ∉ t.core.issued →
        ∃ es, t.dispatchEvent cfg event r = some (t, es)) ↔
      (parseCommand cfg.unicode (orEmpty event.commentBody)).isCommand = false := by
  cases hparse : parseCommand cfg.unicode (orEmpty event.commentBody) with
  | none =>
    refine iff_of_true (fun t r _ _ => ⟨[], ?_⟩) rfl
    have hskip := decide_skip_of_none hown.comment hparse
    unfold dispatchEvent
    simp only [hskip]
  | syntaxError =>
    exact iff_of_true (fun t r _ _ => ⟨_, dispatchEvent_malformed hown hparse r⟩) rfl
  | command cmd =>
    refine iff_of_false (fun h => ?_) Bool.true_eq_false.mp
    obtain ⟨es, hes⟩ := h running "r1" rfl List.not_mem_nil
    rw [dispatchEvent_command hown hparse rfl List.not_mem_nil, Option.some.injEq,
      Prod.mk.injEq] at hes
    have hissued := (Sched.enqueue_frame running.core "r1" (cfg.trigger.decide event) .comment).2.1
    rw [show (running.core.enqueue "r1" (cfg.trigger.decide event) .comment).1 = running.core from
      congrArg App.core hes.1] at hissued
    cases hissued

/-- A message leaves the service alone exactly if its request does not act. -/
theorem leavesAlone_iff {text : String} :
    LeavesAlone cfg s (.eventCallback "message" text) ↔
      (cfg.trigger.processSlackEventPayload (.eventCallback "message" text)).acts cfg.unicode =
        false := by
  unfold LeavesAlone slackPayload
  cases hrequest : cfg.trigger.processSlackEventPayload (.eventCallback "message" text) with
  | nothing =>
    refine iff_of_true ⟨rfl, [], (List.append_nil _).symm, ?_⟩ rfl
    exact fun event hevent => absurd hevent List.not_mem_nil
  | dispatch event =>
    obtain ⟨hcomment, hauthor, -⟩ := TriggerDecisionEngine.processSlackEventPayload_dispatch hrequest
    rw [SlackRequest.acts, ← dispatch_leaves_iff ⟨hcomment, hauthor⟩]
    constructor
    · rintro ⟨-, events, hevents, h⟩
      have hone : events = [event] := (List.append_cancel_left hevents).symm
      exact h event (by rw [hone]; exact List.mem_singleton_self event)
    · intro h
      refine ⟨rfl, [event], rfl, fun e he => ?_⟩
      rw [List.mem_singleton.mp he]
      exact h
  | approve run otherwise summary =>
    exact iff_of_false (fun h => approvals_ask _ run otherwise summary h.1) Bool.true_eq_false.mp

end App

/-! ## All texts -/

namespace ChannelEvent

/-- Something is published, or a review started. -/
def acts (u : Unicode) : ChannelEvent → Bool
  | app _ => false
  | user request => request.acts u
  | echoed _ request => request.acts u

/-- The event is a message of a user. -/
def isUser : ChannelEvent → Bool
  | user _ => true
  | _ => false

end ChannelEvent

namespace Channel

variable {cfg : AppConfig} {u : Unicode} {s : Channel} {h : List ChannelEvent}

/-- The approvals and the review commands that Slack has led to. -/
def acted (u : Unicode) (h : List ChannelEvent) : Nat :=
  h.countP (ChannelEvent.acts u)

/-- The messages of users. -/
def asked (h : List ChannelEvent) : Nat :=
  h.countP ChannelEvent.isUser

/-- Every text that comes back is ignored. -/
def ignoredEchoes (cfg : AppConfig) : Machine.Discipline Channel ChannelAction ChannelEvent :=
  fun s _ a => ∀ k m, a = .echo k → s.sent[k]? = some m → cfg.trigger.Ignores m.text

/-- The steps of the application are not counted twice. -/
theorem acted_app (es : List AppEvent) : acted u (es.map .app) = 0 := by
  unfold acted
  rw [List.countP_eq_zero]
  intro e he
  obtain ⟨e', -, rfl⟩ := List.mem_map.mp he
  exact Bool.false_ne_true

/-- The steps of the application are no messages. -/
theorem asked_app (es : List AppEvent) : asked (es.map .app) = 0 := by
  unfold asked
  rw [List.countP_eq_zero]
  intro e he
  obtain ⟨e', -, rfl⟩ := List.mem_map.mp he
  exact Bool.false_ne_true

/-- **A step** acts at most for a user, if an echo is ignored. -/
theorem acted_step {a : ChannelAction} {s' : Channel} {es : List ChannelEvent}
    (hd : ignoredEchoes cfg s h a) (hstep : s.step cfg a = some (s', es)) :
    acted cfg.unicode es ≤ asked es := by
  cases a with
  | app a =>
    obtain ⟨r, -, heq⟩ := Option.map_eq_some_iff.mp hstep
    cases heq
    unfold acted asked
    rw [List.countP_append, List.countP_append]
    have hnone : List.countP (ChannelEvent.acts cfg.unicode) (r.2.map .app) = 0 := acted_app r.2
    rw [hnone]
    cases a.request? cfg.trigger with
    | none => exact Nat.zero_le _
    | some request =>
      have hone : List.countP (ChannelEvent.acts cfg.unicode) [.user request] ≤ 1 :=
        List.countP_le_length
      have huser : List.countP ChannelEvent.isUser [.user request] = 1 := rfl
      simp only [Option.map_some, Option.toList_some]
      omega
  | ready =>
    simp only [step] at hstep
    split at hstep
    · cases hstep
      exact Nat.le_refl _
    · cases hstep
  | echo k =>
    simp only [step] at hstep
    cases hsent : s.sent[k]? with
    | none =>
      rw [hsent] at hstep
      cases hstep
    | some m =>
      rw [hsent] at hstep
      obtain ⟨r, -, heq⟩ := Option.map_eq_some_iff.mp hstep
      cases heq
      have hnothing : (cfg.trigger.processSlackEventPayload m.echo).acts cfg.unicode = false :=
        TriggerDecisionEngine.processSlackEventPayload_acts.mpr (hd k m rfl hsent)
      have hnone : acted cfg.unicode (r.2.map .app) = 0 := acted_app r.2
      unfold acted at hnone ⊢
      rw [List.countP_cons, hnone, ChannelEvent.acts, hnothing]
      exact Nat.zero_le _

/-- **The service does not trigger itself** exactly as far as it ignores what it says. A text of
its own that comes back as a message publishes nothing and starts no review if and only if the text
is ignored; and in every run whose echoes are all ignored there are no more approvals and review
commands from Slack than messages of users, however often a text comes back. -/
theorem echoes_harmless_iff (cfg : AppConfig)
    (hr : (machine cfg).Reaches (ignoredEchoes cfg) s h) :
    (∀ (t : App) (m : AgentText), App.LeavesAlone cfg t m.echo ↔ cfg.trigger.Ignores m.text) ∧
      acted cfg.unicode h ≤ asked h := by
  refine ⟨fun t m => App.leavesAlone_iff.trans
    TriggerDecisionEngine.processSlackEventPayload_acts, ?_⟩
  refine hr.invariant (I := fun _ h => acted cfg.unicode h ≤ asked h) (fun _ _ => Nat.le_refl _) ?_
  intro s h a s' es _ ih hd hstep
  have hes := acted_step hd hstep
  unfold acted asked at *
  rw [List.countP_append, List.countP_append]
  omega

/-- The check of `ignoredEchoes`. -/
def ignoresEcho (cfg : AppConfig) (s : Channel) : ChannelAction → Bool
  | .echo k =>
    s.sent[k]?.all fun m => !(cfg.trigger.processSlackEventPayload m.echo).acts cfg.unicode
  | _ => true

/-- The check decides the discipline. -/
theorem ignoredEchoes_of_ignoresEcho {a : ChannelAction} (hok : s.ignoresEcho cfg a = true) :
    ignoredEchoes cfg s h a := by
  rintro k m rfl hsent
  simp only [ignoresEcho, hsent, Option.all_some, Bool.not_eq_true'] at hok
  exact TriggerDecisionEngine.processSlackEventPayload_acts.mp hok

/-- A new installation in an empty channel. -/
def small : Channel :=
  ⟨.small, []⟩

/-- The announcement of the start comes back twice, and a user approves once. -/
theorem echoes_harmless_iff_ready :
    ∃ s h, (acted .ascii h = 1 ∧ h.contains (.echoed .ready .nothing)) ∧
      ((∀ (t : App) (m : AgentText), App.LeavesAlone (smallConfig true 1) t m.echo ↔
          (smallConfig true 1).trigger.Ignores m.text) ∧
        acted (smallConfig true 1).unicode h ≤ asked h) ∧
      (machine (smallConfig true 1)).Reaches (ignoredEchoes (smallConfig true 1)) s h := by
  obtain ⟨s, h, hr, hcheck⟩ := Machine.exists_reaches_run (M := machine (smallConfig true 1))
    (D := ignoredEchoes (smallConfig true 1)) (fun _ _ _ => ignoredEchoes_of_ignoresEcho)
    [.app .boot, .ready, .echo 0, .app (.slack (.eventCallback "app_mention" "<@U1> approve #42")),
      .echo 0]
    (fun _ h => decide (acted .ascii h = 1 ∧ h.contains (.echoed .ready .nothing))) (s := small)
    ⟨App.small_new, rfl⟩ (by decide)
  exact ⟨s, h, of_decide_eq_true hcheck, echoes_harmless_iff (smallConfig true 1) hr, hr⟩

/-- A user approves once, and the service's own announcement of the approval comes back: it
approves the pull request again. -/
theorem echo_approves_again :
    ¬ ∀ cfg s h, (machine cfg).Reachable s h → acted cfg.unicode h ≤ asked h := by
  intro hall
  obtain ⟨s, h, hr, hcheck⟩ := Machine.exists_reachable_run (M := machine (smallConfig true 1))
    [.app .boot, .app (.slack (.eventCallback "app_mention" "<@U1> approve #42")), .echo 0]
    (fun _ h => decide (asked h < acted .ascii h)) (s := small) ⟨App.small_new, rfl⟩ (by decide)
  have hle := hall _ s h hr
  have hlt : asked h < acted .ascii h := of_decide_eq_true hcheck
  change acted .ascii h ≤ asked h at hle
  omega

/-- The announcement of the approval of pull request 42. -/
def announced : AgentText :=
  .approved "me" "app" (some 42)

/-- Its echo is an approval. -/
theorem announced_acts :
    ∃ run otherwise summary, (smallConfig true 1).trigger.processSlackEventPayload announced.echo =
      .approve run otherwise summary :=
  ⟨"slack_42", { owner := "me", repo := "app", pr := some 42, head := some "", runId := "slack_42" },
    "Approved via Slack Event", by decide⟩

/-- One message of a user, and as many approvals as the channel delivers echoes. -/
theorem echoes_unbounded (k : Nat) :
    ∃ s h, (machine (smallConfig true 1)).Reachable s h ∧ asked h = 1 ∧ acted .ascii h = k + 1 ∧
      s.app.core.up = true ∧ s.sent[0]? = some announced := by
  induction k with
  | zero =>
    obtain ⟨s, h, hr, hcheck⟩ := Machine.exists_reachable_run (M := machine (smallConfig true 1))
      [.app .boot, .app (.slack (.eventCallback "app_mention" "<@U1> approve #42"))]
      (fun s h => decide (asked h = 1 ∧ acted .ascii h = 1 ∧ s.app.core.up = true ∧
        s.sent[0]? = some announced)) (s := small) ⟨App.small_new, rfl⟩ (by decide)
    exact ⟨s, h, hr, of_decide_eq_true hcheck⟩
  | succ k ih =>
    obtain ⟨s, h, hr, hasked, hacted, hup, hsent⟩ := ih
    obtain ⟨run, otherwise, summary, happroves⟩ := announced_acts
    let r := s.app.slackPayload (smallConfig true 1) announced.echo
    have hstep : (machine (smallConfig true 1)).step s (.echo 0) =
        some (⟨r.1, s.sent ++ (smallConfig true 1).trigger.sends announced.echo⟩,
          [.echoed announced (.approve run otherwise summary)] ++ r.2.map .app) := by
      simp only [machine, step, hsent, App.step, hup, if_true, Option.map_some, happroves]
      rfl
    have hr' := Machine.Reaches.step hr trivial hstep
    have hnone : acted .ascii (r.2.map .app) = 0 := acted_app r.2
    have huser : asked (r.2.map .app) = 0 := asked_app r.2
    unfold acted asked at *
    refine ⟨_, _, hr', ?_, ?_, ?_, ?_⟩
    · rw [List.countP_append, List.countP_append, hasked, huser]
      rfl
    · rw [List.countP_append, List.countP_append, hacted, hnone]
      rfl
    · show r.1.core.up = true
      rw [show r.1.core = s.app.core from App.slackPayload_core]
      exact hup
    · rw [List.getElem?_append_left (List.getElem?_eq_some_iff.mp hsent).1]
      exact hsent

end Channel

end PrReviewer.Model
