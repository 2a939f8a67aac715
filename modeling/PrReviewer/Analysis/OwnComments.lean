import PrReviewer.Analysis.CommandTokens
import PrReviewer.Analysis.WatchTask

/-!
# The comments of the service, as commands

The service posts its comments with the account whose comments it obeys, so GitHub delivers every
one of them back to it. In the course of a run it posts three texts of the gate and the comment
that stands in for a review. `Restarts` says of each whether it is a command; one that is deletes
the rows of its pull request and starts a run without a head, whose gate opens without a poll.
-/

set_option autoImplicit false

namespace PrReviewer.Model

/-! ## Flags at a boundary -/

section Boundary

variable {u : Unicode}

/-- Where no two hyphens stand there is no flag. -/
theorem flags_cons {c : Char} {cs : List Char} (h : ∀ rest, c = '-' → cs = '-' :: rest → False) :
    flags u 0 (c :: cs) = flags u 0 cs := by
  rw [flags]
  exact h

/-- Two dashes start a flag exactly when a name follows. -/
theorem flags_dashes (rest : List Char) :
    flags u 0 ('-' :: '-' :: rest) =
      if (flagName u rest).isEmpty then flags u 0 ('-' :: rest)
      else ('-' :: '-' :: flagName u rest) ::
        flags u ((flagName u rest).length + 1) ('-' :: rest) := by
  conv_lhs => rw [flags]

/-- A flag's name ends at the first character that is none of its own. -/
theorem flagName_append {xs ys : List Char} {c : Char} (hc : (u.isWord c || c == '-') = false) :
    flagName u (xs ++ c :: ys) = flagName u xs := by
  unfold flagName
  induction xs with
  | nil =>
    rw [List.nil_append, List.takeWhile_cons, hc]
    rfl
  | cons x xs ih =>
    rw [List.cons_append, List.takeWhile_cons, List.takeWhile_cons, ih]

/-- **No flag goes on across a boundary**: the flags of a text are those before it and those
after it. -/
theorem flags_append {n : Nat} {xs : List Char} (hn : n ≤ xs.length) {c : Char}
    (hc : (u.isWord c || c == '-') = false) (ys : List Char) :
    flags u n (xs ++ c :: ys) = flags u n xs ++ flags u 0 ys := by
  have hdash : c ≠ '-' := by
    rintro rfl
    simp at hc
  induction xs generalizing n with
  | nil =>
    obtain rfl : n = 0 := by simpa using hn
    exact flags_cons fun _ h _ => hdash h
  | cons x xs ih =>
    cases n with
    | succ n =>
      rw [List.cons_append, flags, flags]
      exact ih (by simpa using hn)
    | zero =>
      have hskip := ih (Nat.zero_le xs.length)
      rw [List.cons_append]
      by_cases hflag : ∃ rest, x = '-' ∧ xs = '-' :: rest
      · obtain ⟨rest, rfl, rfl⟩ := hflag
        rw [List.cons_append, flags_dashes, flags_dashes, flagName_append hc]
        by_cases hname : (flagName u rest).isEmpty = true
        · rw [if_pos hname, if_pos hname]
          exact hskip
        · rw [if_neg hname, if_neg hname, List.cons_append]
          refine congrArg (_ :: ·) (ih ?_)
          rw [List.length_cons]
          exact Nat.succ_le_succ (List.takeWhile_sublist _).length_le
      · -- the boundary is no hyphen, so it does not make a flag of the last character either
        rw [flags_cons, flags_cons, hskip]
        · exact fun rest hx hxs => hflag ⟨rest, hx, hxs⟩
        · intro rest hx hxs
          cases xs with
          | nil => exact hdash (List.cons.inj hxs).1
          | cons y xs => exact hflag ⟨xs, hx, congrArg (· :: xs) (List.cons.inj hxs).1⟩

end Boundary

/-! ## The texts -/

section Texts

variable {u : Unicode} {body : String}

/-- The text has no flag but `--model`. -/
def OnlyModelFlags (u : Unicode) (text : List Char) : Prop :=
  ∀ f ∈ flags u 0 text, f = "--model".toList

/-- A text cut at such a character has only model flags exactly when both parts do. -/
theorem onlyModelFlags_append {xs ys : List Char} {c : Char}
    (hc : (u.isWord c || c == '-') = false) :
    OnlyModelFlags u (xs ++ c :: ys) ↔ OnlyModelFlags u xs ∧ OnlyModelFlags u ys := by
  unfold OnlyModelFlags
  rw [flags_append (Nat.zero_le _) hc]
  constructor
  · exact fun h => ⟨fun f hf => h f (List.mem_append_left _ hf),
      fun f hf => h f (List.mem_append_right _ hf)⟩
  · rintro ⟨hxs, hys⟩ f hf
    exact (List.mem_append.mp hf).elim (hxs f) (hys f)

/-- A text without flags has only model flags. -/
theorem onlyModelFlags_of_nil {text : List Char} (h : flags u 0 text = []) :
    OnlyModelFlags u text := by
  intro f hf
  rw [h] at hf
  cases hf

/-- The word `review` between two characters of no word makes a token. -/
theorem hasToken_of_review {before after : List Char} {c d : Char}
    (htext : body.toList = before ++ c :: ("review".toList ++ d :: after))
    (hc : u.isWord c = false) (hd : u.isWord d = false) :
    hasToken u none body.toList = true := by
  refine hasToken_none_iff.mpr (Or.inr (Or.inl ⟨before ++ [c], "review".toList, d :: after, ?_, ?_,
    ?_, ?_⟩))
  · rw [htext]
    simp
  · unfold Spells
    decide +kernel
  · simp [hc]
  · simp [hd]

/-- With a token, a text is a command if it has no flag but `--model`. -/
theorem command_iff_flags (htoken : hasToken u none body.toList = true) :
    (∃ cmd, parseCommand u body = .command cmd) ↔ OnlyModelFlags u body.toList := by
  constructor
  · rintro ⟨cmd, hcmd⟩ f hf
    by_contra hne
    rw [parseCommand_bad_flag htoken hf hne] at hcmd
    cases hcmd
  · exact fun h => ⟨_, parseCommand_plain htoken h⟩

/-- `logs[-2000:]` -/
def lastLogs (logs : String) : List Char :=
  logs.toList.drop (logs.length - 2000)

/-- The characters of the diagnosis. -/
theorem diagnose_toList {logs : String} (h : logs ≠ "") :
    (diagnose logs).toList =
      "**CI gate failed.**\nRoot-cause notes from the failure logs:\n```".toList ++ '\n' ::
        (lastLogs logs ++ '\n' ::
          "```\nThis review run will not proceed until CI is green.".toList) := by
  unfold diagnose
  rw [if_neg h]
  simp [lastLogs]

/-- The comment about a failed gate is a command if the end of the logs has no other flag. -/
theorem diagnose_command_iff {logs : String} (h : logs ≠ "") :
    (∃ cmd, parseCommand u (diagnose logs) = .command cmd) ↔ OnlyModelFlags u (lastLogs logs) := by
  have hlist := diagnose_toList h
  have htoken : hasToken u none (diagnose logs).toList = true := by
    refine @hasToken_of_review u _
      ("**CI gate failed.**\nRoot-cause notes from the failure logs:\n```".toList ++ '\n' ::
        (lastLogs logs ++ '\n' :: "```\nThis".toList))
      "run will not proceed until CI is green.".toList ' ' ' ' ?_ rfl rfl
    rw [hlist]
    simp
  rw [command_iff_flags htoken, hlist, onlyModelFlags_append rfl, onlyModelFlags_append rfl]
  constructor
  · exact fun hall => hall.2.1
  · exact fun hlogs => ⟨onlyModelFlags_of_nil rfl, hlogs, onlyModelFlags_of_nil rfl⟩

/-- The characters of a review's body. -/
theorem Review.body_toList (review : Review) :
    review.body.toList = review.summary.toList ++ '\n' :: ("\n<!-- review-run".toList ++ ':' ::
      (review.run.toList ++ ' ' :: "-->".toList)) := by
  unfold Review.body reviewMarker
  simp

/-- The comment that stands in for a review has the marker of its run, and so a token. -/
theorem Review.command_iff (review : Review) :
    (∃ cmd, parseCommand u review.body = .command cmd) ↔
      OnlyModelFlags u review.summary.toList ∧ OnlyModelFlags u review.run.toList := by
  have htoken : hasToken u none review.body.toList = true := by
    refine @hasToken_of_review u _ (review.summary.toList ++ '\n' :: "\n<!--".toList)
      ("run:".toList ++ (review.run.toList ++ ' ' :: "-->".toList)) ' ' '-' ?_ rfl rfl
    rw [review.body_toList]
    simp
  rw [command_iff_flags htoken, review.body_toList, onlyModelFlags_append rfl,
    onlyModelFlags_append rfl, onlyModelFlags_append rfl]
  constructor
  · exact fun hall => ⟨hall.1, hall.2.2.1⟩
  · exact fun ⟨hsummary, hrun⟩ =>
      ⟨hsummary, onlyModelFlags_of_nil rfl, hrun, onlyModelFlags_of_nil rfl⟩

/-- The comment on the wait cap is read as a review command. -/
theorem waitCapReached_command (u : Unicode) :
    parseCommand u waitCapReached = .command { kind := "review" } := by
  rfl

/-- The two comments without logs are no commands. -/
theorem unavailable_no_command (u : Unicode) :
    parseCommand u logsUnavailable = .none ∧ parseCommand u (diagnose "") = .none :=
  ⟨rfl, rfl⟩

end Texts

/-! ## The service -/

/-- A comment on a pull request that the service posts in the course of a run. -/
def AppEvent.runComment? : AppEvent → Option (PrRef × String)
  | .core (.gateComment job body) => some (job.ref, body)
  | .write (.worker _) (.postComment (some owner) (some repo) pr body) =>
    some (⟨owner, repo, pr⟩, body)
  | .write (.approval _) (.postComment (some owner) (some repo) pr body) =>
    some (⟨owner, repo, pr⟩, body)
  | _ => none

/-- The texts of these comments. -/
inductive RunComment : String → Prop
  | cap : RunComment waitCapReached
  | diagnosis (logs : String) : RunComment (diagnose logs)
  | unavailable : RunComment logsUnavailable
  | review (review : Review) : RunComment review.body

/-- The payload of the webhook for a comment of this account. -/
def commentPayload (account : String) (ref : PrRef) (body : String) : WebhookPayload where
  owner := some ref.owner
  repo := some ref.repo
  issueNumber := ref.pr
  commentBody := some body
  commentAuthor := some account
  sender := some account

/-- The event GitHub delivers for a comment of the service. -/
def AppConfig.echo (cfg : AppConfig) (ref : PrRef) (body : String) : NormalizedEvent :=
  normalizeEvent "issue_comment" "created" (commentPayload cfg.selfAccount ref body)

/-- The comments of the service that its own commands include. -/
def Restarts (u : Unicode) (body : String) : Prop :=
  body = waitCapReached ∨
    (∃ logs, logs ≠ "" ∧ body = diagnose logs ∧ OnlyModelFlags u (lastLogs logs)) ∨
    ∃ review : Review, body = review.body ∧ OnlyModelFlags u review.summary.toList ∧
      OnlyModelFlags u review.run.toList

/-- A run's comment is a command exactly when it restarts. -/
theorem RunComment.command_iff {body : String} (h : RunComment body) (u : Unicode) :
    (∃ cmd, parseCommand u body = .command cmd) ↔ Restarts u body := by
  constructor
  · intro hcmd
    cases h with
    | cap => exact Or.inl rfl
    | diagnosis logs =>
      by_cases hlogs : logs = ""
      · obtain ⟨cmd, hcmd⟩ := hcmd
        rw [hlogs, (unavailable_no_command u).2] at hcmd
        cases hcmd
      · exact Or.inr (Or.inl ⟨logs, hlogs, rfl, (diagnose_command_iff hlogs).mp hcmd⟩)
    | unavailable =>
      obtain ⟨cmd, hcmd⟩ := hcmd
      rw [(unavailable_no_command u).1] at hcmd
      cases hcmd
    | review review => exact Or.inr (Or.inr ⟨review, rfl, review.command_iff.mp hcmd⟩)
  · rintro (rfl | ⟨logs, hlogs, rfl, hflags⟩ | ⟨review, rfl, hflags⟩)
    · exact ⟨_, waitCapReached_command u⟩
    · exact (diagnose_command_iff hlogs).mpr hflags
    · exact review.command_iff.mpr hflags

namespace App

open PrReviewer.Library

variable {cfg : AppConfig} {s s' : App} {h es : List AppEvent} {a : AppAction}

/-- A turn of a watcher posts these texts only. -/
theorem runComment_of_turn {w : Watcher} {slack : Bool} {status : Option RunStatus}
    {inp : WatchInput} {m : Watcher × List GateCall}
    (hturn : w.turn cfg.gate slack status inp = some m) {body : String}
    (hcall : .postComment body ∈ m.2) : RunComment body := by
  have hverdict : ∀ {v : GateVerdict}, .postComment body ∈ v.calls → RunComment body := by
    intro v hv
    cases v <;> simp [GateVerdict.calls] at hv
    rw [hv]
    exact .cap
  have htop : ∀ {w : Watcher}, .postComment body ∈ (w.loopTop status).2 → RunComment body := by
    intro w hw
    unfold Watcher.loopTop at hw
    split at hw
    · split at hw
      · simp at hw
      · exact @hverdict .pass hw
    · cases hw
  have hdecide : ∀ {w : Watcher} {v : GateVerdict} {goOn : Watcher × List GateCall},
      (.postComment body ∈ goOn.2 → RunComment body) → .postComment body ∈ (w.decide v goOn).2 →
      RunComment body := by
    intro w v goOn hgo hw
    unfold Watcher.decide at hw
    split at hw
    · exact hgo hw
    · exact hverdict hw
  unfold Watcher.turn at hturn
  split at hturn <;> try rw [Option.some.injEq] at hturn
  case h_14 => cases hturn
  all_goals rw [← hturn] at hcall
  case h_1 => exact htop hcall
  case h_3 => exact hdecide (fun hgo => by cases hgo) hcall
  case h_4 => exact htop hcall
  case h_5 => exact hdecide htop hcall
  case h_6 =>
    cases List.mem_singleton.mp hcall
    exact .diagnosis _
  case h_7 =>
    cases List.mem_singleton.mp hcall
    exact .unavailable
  case h_8 =>
    cases List.mem_singleton.mp hcall
    exact .unavailable
  all_goals cases hcall

/-- The gate posts these texts only. -/
theorem runComment_of_core {c c' : Sched ExecPc} {ca : SchedAction ExecPc} {ces : List SchedEvent}
    (hstep : Sched.step cfg.sched c ca = some (c', ces)) {job : ReviewJob} {body : String}
    (he : .gateComment job body ∈ ces) : RunComment body := by
  rcases Sched.watchers_of_step hstep with ⟨i, inp, -, hwatch⟩ | ⟨-, hinserted⟩
  · obtain ⟨w, hw, -⟩ := Sched.watchStep_move hwatch
    rw [Sched.watchStep_eq_turn hw] at hwatch
    obtain ⟨m, hm, heq⟩ := Option.map_eq_some_iff.mp hwatch
    obtain ⟨-, rfl⟩ := Prod.mk.inj heq
    rcases List.mem_append.mp he with hinput | hcall
    · cases inp with
      | polled o => cases List.mem_singleton.mp hinput
      | _ => cases hinput
    · obtain ⟨call, hcall, heq⟩ := List.mem_filterMap.mp hcall
      cases call with
      | postComment text =>
        cases heq
        exact runComment_of_turn hm hcall
      | _ => cases heq
  · obtain ⟨job', heq⟩ := hinserted _ he
    cases heq

/-- **Every comment made in the course of a run has one of these texts.** -/
theorem runComment_of_step (hstep : step cfg s a = some (s', es)) {e : AppEvent} (he : e ∈ es)
    {ref : PrRef} {body : String} (hposted : e.runComment? = some (ref, body)) :
    RunComment body := by
  have hcore : ∀ {c c' : Sched ExecPc} {ca : SchedAction ExecPc} {ces : List SchedEvent},
      Sched.step cfg.sched c ca = some (c', ces) → e ∈ ces.map AppEvent.core → RunComment body := by
    intro c c' ca ces hca he
    obtain ⟨ce, hce, rfl⟩ := List.mem_map.mp he
    cases ce with
    | gateComment job text =>
      cases hposted
      exact runComment_of_core hca hce
    | _ => cases hposted
  -- the comment that stands in for a review
  have hreview : ∀ {review : Review} {w : GitHubWrite} {origin : Origin},
      w = commentOn review.ref review.body → e = .write origin w → RunComment body := by
    rintro review w origin rfl rfl
    cases origin <;> cases hposted <;> exact .review review
  cases step_cases hstep with
  | core _ hca => exact hcore hca he
  | enqueue _ hca => exact hcore hca he
  | chatter _ hes =>
    obtain ⟨origin, w, rfl, rfl | rfl, -⟩ := hes e he <;> cases hposted
  | @ask _ request run otherwise summary _ _ =>
    rcases ask_cases (s := s) request run otherwise summary with ⟨job, -, heq⟩ | ⟨-, heq⟩ <;>
      rw [heq] at he <;> cases List.mem_singleton.mp he <;> cases hposted
  | exec _ hm _ =>
    cases hm with
    | submitting hs =>
      obtain ⟨w, hw, heq⟩ := List.mem_map.mp he
      exact hreview (submitStep_writes hs w hw) heq.symm
    | prOver _ => cases List.mem_singleton.mp he; cases hposted
    | looked _ => cases List.mem_singleton.mp he; cases hposted
    | ran => cases List.mem_singleton.mp he; cases hposted
    | staged _ => cases List.mem_singleton.mp he; cases hposted
    | publish _ _ => cases List.mem_singleton.mp he; cases hposted
    | _ => cases he
  | publish _ hm =>
    cases hm with
    | submitting _ hs =>
      obtain ⟨w, hw, heq⟩ := List.mem_map.mp he
      exact hreview (submitStep_writes hs w hw) heq.symm
    | blocked _ _ => cases List.mem_singleton.mp he; cases hposted
    | started _ _ _ =>
      rcases List.mem_cons.mp he with rfl | he
      · cases hposted
      · cases List.mem_singleton.mp he
        cases hposted
    | promote _ _ => cases List.mem_singleton.mp he; cases hposted
    | merge _ _ => cases List.mem_singleton.mp he; cases hposted
    | _ => cases he
  | crash _ => cases List.mem_singleton.mp he; cases hposted
  | push _ _ => cases List.mem_singleton.mp he; cases hposted
  | acceptWorker _ _ _ => cases List.mem_singleton.mp he; cases hposted
  | acceptApproval _ _ _ => cases List.mem_singleton.mp he; cases hposted
  | acceptOrphan _ => cases List.mem_singleton.mp he; cases hposted

/-- Every comment that the service posts is one of a run's comments. -/
theorem reaches_runComment (hr : (machine cfg).Reachable s h) {e : AppEvent} (he : e ∈ h)
    {ref : PrRef} {body : String} (hposted : e.runComment? = some (ref, body)) :
    RunComment body := by
  refine hr.invariant (I := fun _ h => ∀ e ∈ h, e.runComment? = some (ref, body) → RunComment body)
    ?_ ?_ e he hposted
  · intro s _ e he
    cases he
  · intro s h a s' es _ hh _ hstep e he hposted
    rcases List.mem_append.mp he with he | he
    · exact hh e he hposted
    · exact runComment_of_step hstep he hposted

/-! ## An echo -/

/-- The dispatch of an event replaces the rows of its pull request by that of a new run, whose gate
then opens without a poll. -/
def RestartsUnpolled (cfg : AppConfig) (s : App) (e : NormalizedEvent) (r : RunId) : Prop :=
  ∃ s' job number, s.dispatchEvent cfg e r = some (s', [.core (.inserted job)]) ∧ job.runId = r ∧
    e.prNumber = some number ∧
    s'.core.table.rows = (s.core.table.rows.filter fun row => !row.isOf e.owner e.repo number) ++
      [RunTable.rowOf job number s.core.now] ∧
    ∃ i t, step cfg s' (.watch i .go) = some (t, []) ∧
      t.core.table.statusOf r = some .queued

/-- A new watcher of a job without a head opens its gate at once. -/
theorem gate_opens_headless {c : Sched ExecPc} {i : Nat} {job : ReviewJob}
    (hw : c.watchers[i]? = some { job := job }) (hhead : truthy job.head = false)
    (hst : c.table.statusOf job.runId = some .pendingCi) :
    ∃ t, Sched.step cfg.sched c (.watch i .go) = some (t, []) ∧
      t.table.statusOf job.runId = some .queued := by
  have hturn : Watcher.turn cfg.gate cfg.slack { job := job } (c.table.statusOf job.runId) .go
      = some ({ job := job, pc := .ended }, GateVerdict.pass.calls) := by
    simp [Watcher.turn, Watcher.loopTop, hst, hhead]
  refine ⟨c.afterCalls i job ({ job := job, pc := .ended }, GateVerdict.pass.calls), ?_, ?_⟩
  · show c.watchStep cfg.sched i .go = _
    rw [Sched.watchStep_eq_turn hw]
    exact congrArg (Option.map _) hturn
  · have hview := Sched.afterCalls_view c i job
      ({ job := job, pc := .ended }, GateVerdict.pass.calls)
    have hstatus := congrArg Sched.RunView.status hview
    have hbefore : (c.view job.runId).status = some .pendingCi := hst
    refine Eq.trans hstatus ?_
    simp only [GateVerdict.calls, List.foldl_cons, List.foldl_nil, Sched.RunView.act]
    split <;> simp [hbefore]

/-- A command in the account's own comment restarts the run without polling. -/
theorem restartsUnpolled_of_command {e : NormalizedEvent} {r : RunId} {cmd : Command} {number : Int}
    (hown : OwnComment cfg e)
    (hparse : parseCommand cfg.unicode (orEmpty e.commentBody) = .command cmd)
    (hnumber : e.prNumber = some number) (hhead : truthy e.headSha = false) (hup : s.core.up = true)
    (hfresh : r ∉ s.core.issued) (hunused : ∀ row ∈ s.core.table.rows, row.runId ≠ r) :
    RestartsUnpolled cfg s e r := by
  obtain ⟨s', job, hrun, hid, hrows, -⟩ :=
    command_restarts hown hparse hnumber hup hfresh hunused
  refine ⟨s', job, number, hrun, hid, hnumber, hrows, s.core.watchers.length, ?_⟩
  have hdispatch := dispatchEvent_command (s := s) hown hparse hup hfresh
  rw [hrun, Option.some.injEq, Prod.mk.injEq] at hdispatch
  obtain ⟨rfl, hes⟩ := hdispatch
  have hdecide := hown.decide_command hparse
  rcases Sched.enqueue_comment (d := cfg.trigger.decide e) hunused with
    ⟨job', pr, hj, table, htable, heq⟩ | ⟨hcols, -⟩
  · obtain rfl : job = job' := by
      rw [heq] at hes
      simpa using hes
    obtain ⟨⟨owner, repo, -, -, hjob⟩, -, -⟩ := hj
    have hwatcher : (s.core.started table job).watchers[s.core.watchers.length]?
        = some { job := job } := by
      show (s.core.watchers ++ [({ job := job } : Watcher)])[s.core.watchers.length]? = _
      simp
    have hheadless : truthy job.head = false := by
      rw [hjob, hdecide]
      exact hhead
    have hstatus : (s.core.started table job).table.statusOf job.runId = some .pendingCi := by
      show table.statusOf job.runId = _
      refine RunTable.statusOf_eq_some.mpr ⟨RunTable.rowOf job pr s.core.now, ?_, rfl, ?_⟩
      · rw [htable]
        exact List.mem_append_right _ (List.mem_singleton.mpr rfl)
      · rw [hjob]
        rfl
    obtain ⟨t, hopen, hqueued⟩ := @gate_opens_headless cfg _ _ _ hwatcher hheadless hstatus
    refine ⟨{ s with core := t }, ?_, ?_⟩
    · show coreStep cfg _ (.watch _ .go) = _
      simp only [coreStep, heq, hopen, Option.map_some, List.map_nil]
    · rw [← hid]
      exact hqueued
  · rw [hdecide] at hcols
    simp [Decision.columns, hnumber] at hcols

/-- **The service obeys its own comments.** Whatever comment it has posted on a pull request in the
course of a run, the delivery of that comment restarts the review of the pull request, without
waiting for CI, exactly for these: the comment at the wait cap, the diagnosis of a failed gate, and
the comment that stands in for a review, the last two unless they quote a flag other than
`--model`. -/
theorem own_comment_restarts_iff (cfg : AppConfig) (s : App) (h : List AppEvent)
    (hr : (machine cfg).Reachable s h) (e : AppEvent) (he : e ∈ h) (ref : PrRef) (body : String)
    (hposted : e.runComment? = some (ref, body)) (hnumber : prTruthy ref.pr = true)
    (hup : s.core.up = true) (r : RunId) (hfresh : r ∉ s.core.issued) :
    RestartsUnpolled cfg s (cfg.echo ref body) r ↔ Restarts cfg.unicode body := by
  have hown : OwnComment cfg (cfg.echo ref body) := ⟨rfl, rfl⟩
  rw [← (reaches_runComment hr he hposted).command_iff cfg.unicode]
  constructor
  · rintro ⟨s', job, number, hrun, -⟩
    cases hparse : parseCommand cfg.unicode body with
    | command cmd => exact ⟨cmd, rfl⟩
    | none =>
      have hskip := @decide_skip_of_none cfg (cfg.echo ref body) rfl hparse
      unfold dispatchEvent at hrun
      simp [hskip] at hrun
    | syntaxError =>
      rw [dispatchEvent_malformed hown hparse] at hrun
      simp at hrun
  · rintro ⟨cmd, hparse⟩
    obtain ⟨number, hpr⟩ : ∃ number, ref.pr = some number := by
      cases hpr : ref.pr with
      | none =>
        rw [hpr] at hnumber
        cases hnumber
      | some number => exact ⟨number, rfl⟩
    have hunused : ∀ row ∈ s.core.table.rows, row.runId ≠ r := by
      have hcore := Sched.reaches_of_new (reaches_core hr)
      have hblank := (Sched.reaches_grounded hcore).fresh r hfresh
      exact RunTable.statusOf_eq_none.mp (congrArg Interface.Life.status hblank)
    have hecho : (cfg.echo ref body).prNumber = some number := by
      show (if prTruthy ref.pr then ref.pr else none) = some number
      rw [if_pos hnumber, hpr]
    exact restartsUnpolled_of_command hown hparse hecho rfl hup hfresh hunused

/-- A gate that waits for one poll only. -/
def impatientConfig : AppConfig :=
  { smallConfig false 1 with gate := { waitCapMinutes := 0 } }

/-- The first pull request is opened while its CI is still running. -/
def cappedRun : List AppAction :=
  .boot :: openPr 7 "a" "r1" ++
    [.watch 0 .go, .watch 0 (.polled (.runs [CheckRun.ofApi "build" "in_progress" none]))]

/-- The comment that says there will be no review run starts one. -/
theorem own_comment_restarts_iff_capped :
    ∃ (s : App) (h : List AppEvent), .core (.gateComment firstJob waitCapReached) ∈ h ∧
      (RestartsUnpolled impatientConfig s (impatientConfig.echo firstJob.ref waitCapReached) "r2" ↔
        Restarts impatientConfig.unicode waitCapReached) := by
  obtain ⟨s, h, hr, hcheck⟩ := Machine.exists_reachable_run (M := machine impatientConfig) cappedRun
    (fun s h => decide (.core (.gateComment firstJob waitCapReached) ∈ h) && s.core.up &&
      decide ("r2" ∉ s.core.issued)) App.small_new (by decide +kernel)
  simp only [Bool.and_eq_true, decide_eq_true_eq] at hcheck
  obtain ⟨⟨hposted, hup⟩, hfresh⟩ := hcheck
  exact ⟨s, h, hposted, own_comment_restarts_iff impatientConfig s h hr _ hposted firstJob.ref
    waitCapReached rfl rfl hup "r2" hfresh⟩

end App

end PrReviewer.Model
