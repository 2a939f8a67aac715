import PrReviewer.Analysis.CommandTokens

/-!
# Commands in Slack

A message is searched three times: for its first number, for the first repository whose name
occurs in it, and for `approve`. The names in a command are searched with it, so a command means
what it says only if they do not answer one of these questions themselves.
-/

set_option autoImplicit false

namespace PrReviewer.Model

open Library

/-! ## The message -/

/-- What a command in Slack asks for. -/
inductive SlackVerb
  | review
  | approve
  deriving DecidableEq, Repr

/-- The word for it. -/
def SlackVerb.text : SlackVerb → String
  | review => "review"
  | approve => "approve"

/-- `<@BOT> VERB OWNER/REPO #n` -/
def slackText (bot : String) (verb : SlackVerb) (r : RepoSpec) (n : Nat) : String :=
  "<@" ++ bot ++ "> " ++ verb.text ++ " " ++ r.owner ++ "/" ++ r.repo ++ " #" ++ toString n

/-- `OWNER/REPO` -/
def RepoSpec.names (r : RepoSpec) : List Char :=
  r.owner.toList ++ '/' :: r.repo.toList

/-- The message after the mention. -/
def asked (verb : SlackVerb) (r : RepoSpec) (n : Nat) : List Char :=
  ' ' :: (verb.text.toList ++ ' ' :: (r.names ++ ' ' :: '#' :: Nat.toDigits 10 n))

/-- The names are ones that GitHub allows. -/
structure GitHubNames (r : RepoSpec) : Prop where
  owner : ∀ c ∈ r.owner.toList, c.isAlphanum = true ∨ c = '-'
  repo : ∀ c ∈ r.repo.toList, c.isAlphanum = true ∨ c = '-' ∨ c = '_' ∨ c = '.'

/-- The id of a user, as it stands in a mention. -/
def SlackId (bot : String) : Prop :=
  ∀ c ∈ bot.toList, c.isAlphanum = true

/-- `uuid4().hex` has no underscore in it. -/
def HexRunIds (t : RunTable) : Prop :=
  ∀ row ∈ t.rows, '_' ∉ row.runId.toList

/-- `str.lower` of a text that is ASCII. -/
def LowersAscii (u : Unicode) : Prop :=
  ∀ text, (∀ c ∈ text, isAscii c = true) → u.lower text = text.map Char.toLower

/-- The characters of a command in Slack. -/
theorem slackText_toList (bot : String) (verb : SlackVerb) (r : RepoSpec) (n : Nat) :
    (slackText bot verb r n).toList = '<' :: '@' :: (bot.toList ++ '>' :: asked verb r n) := by
  have hopen : "<@".toList = ['<', '@'] := rfl
  have hclose : "> ".toList = ['>', ' '] := rfl
  have hspace : " ".toList = [' '] := rfl
  have hslash : "/".toList = ['/'] := rfl
  have hnumber : " #".toList = [' ', '#'] := rfl
  simp only [slackText, asked, RepoSpec.names, String.toList_append, hopen, hclose, hspace, hslash,
    hnumber, Nat.toString_eq_repr, Nat.toList_repr, List.append_assoc, List.cons_append,
    List.nil_append]

/-! ## Its characters -/

section Characters

variable {bot : String} {verb : SlackVerb} {r : RepoSpec} {n : Nat}

/-- The names of a GitHub repository have few characters. -/
theorem names_chars (hr : GitHubNames r) : ∀ c ∈ r.names,
    c.isAlphanum = true ∨ c = '-' ∨ c = '_' ∨ c = '.' ∨ c = '/' := by
  intro c hc
  rcases List.mem_append.mp hc with hc | hc
  · rcases hr.owner c hc with h | h
    · exact Or.inl h
    · exact Or.inr (Or.inl h)
  · rcases List.mem_cons.mp hc with rfl | hc
    · simp
    · rcases hr.repo c hc with h | h | h | h
      · exact Or.inl h
      · exact Or.inr (Or.inl h)
      · exact Or.inr (Or.inr (Or.inl h))
      · exact Or.inr (Or.inr (Or.inr (Or.inl h)))

/-- The verbs are words without digits. -/
theorem verb_chars (verb : SlackVerb) : ∀ c ∈ verb.text.toList, c.isAlphanum = true ∧ c.isDigit = false := by
  have hall : verb.text.toList.all (fun c => c.isAlphanum && !c.isDigit) = true := by
    cases verb <;> decide +kernel
  intro c hc
  have h := List.all_eq_true.mp hall c hc
  simpa using h

/-- What is asked is ASCII and opens no mention. -/
theorem asked_chars (hr : GitHubNames r) : ∀ c ∈ asked verb r n, isAscii c = true ∧ c ≠ '<' := by
  have hletter : ∀ {c : Char}, c.isAlphanum = true → isAscii c = true ∧ c ≠ '<' := by
    intro c hc
    refine ⟨isAscii_of_isAlphanum hc, ?_⟩
    rintro rfl
    exact absurd hc (by decide)
  intro c hc
  simp only [asked, List.mem_cons, List.mem_append] at hc
  rcases hc with rfl | hc | rfl | hc | rfl | rfl | hc
  · decide
  · exact hletter (verb_chars verb c hc).1
  · decide
  · rcases names_chars hr c hc with h | rfl | rfl | rfl | rfl
    · exact hletter h
    all_goals decide
  · decide
  · decide
  · exact hletter (by simp [Char.isAlphanum, isDigit_toDigits c hc])

/-- A command in Slack is ASCII. -/
theorem slackText_ascii (hbot : SlackId bot) (hr : GitHubNames r) :
    ∀ c ∈ (slackText bot verb r n).toList, isAscii c = true := by
  intro c hc
  rw [slackText_toList] at hc
  simp only [List.mem_cons, List.mem_append] at hc
  rcases hc with rfl | rfl | hc | rfl | hc
  · decide
  · decide
  · exact isAscii_of_isAlphanum (hbot c hc)
  · decide
  · exact (asked_chars hr c hc).1

end Characters

/-! ## The mention -/

/-- Stripping the mention leaves what is asked. -/
theorem stripMentions_slackText {bot : String} {verb : SlackVerb} {r : RepoSpec} {n : Nat}
    (hbot : SlackId bot) (hr : GitHubNames r) :
    stripMentions (slackText bot verb r n).toList = asked verb r n := by
  have hid : ∀ c ∈ bot.toList, c ≠ '>' ∧ c ≠ '\n' := by
    intro c hc
    have hletter := hbot c hc
    constructor
    · rintro rfl
      exact absurd hletter (by decide)
    · rintro rfl
      exact absurd hletter (by decide)
  rw [slackText_toList, stripMentions_mention hid]
  exact stripMentions_of_notMem fun h => (asked_chars hr _ h).2 rfl

/-! ## The number -/

/-- **The first number of a command** is the first one in its names, if there is one. -/
theorem firstDigits_asked {u : Unicode} {verb : SlackVerb} {r : RepoSpec} {n : Nat} :
    firstDigits u (asked verb r n) =
      some ((firstDigits u r.names).getD (Nat.toDigits 10 n)) := by
  have hspace : u.digitVal ' ' = none := digitVal_eq_none (by decide) (by decide)
  have hhash : u.digitVal '#' = none := digitVal_eq_none (by decide) (by decide)
  have hverb : ∀ c ∈ ' ' :: (verb.text.toList ++ [' ']), u.digitVal c = none := by
    intro c hc
    simp only [List.mem_cons, List.mem_append, List.not_mem_nil, or_false] at hc
    rcases hc with rfl | hc | rfl
    · exact hspace
    · exact digitVal_eq_none (isAscii_of_isAlphanum (verb_chars verb c hc).1) (verb_chars verb c hc).2
    · exact hspace
  have hstart : ∀ c ∈ [' ', '#'], u.digitVal c = none := by
    simp [hspace, hhash]
  -- the command, cut before its names and before its number
  have hcut : asked verb r n =
      (' ' :: (verb.text.toList ++ [' '])) ++ (r.names ++ ([' ', '#'] ++ Nat.toDigits 10 n)) := by
    simp [asked]
  have hnumber : firstDigits u ([' ', '#'] ++ Nat.toDigits 10 n) = some (Nat.toDigits 10 n) := by
    rw [firstDigits_skip hstart, firstDigits_toDigits]
  rw [hcut, firstDigits_skip hverb, firstDigits_append (by simp [hspace]), hnumber]
  cases firstDigits u r.names <;> rfl

/-! ## The repository -/

/-- The name of the repository occurs in the text, in any letter case. -/
def Named (r : RepoSpec) (text : List Char) : Prop :=
  r.repo.toList.map Char.toLower <:+: text.map Char.toLower

/-- A command names its own repository. -/
theorem named_self (verb : SlackVerb) (r : RepoSpec) (n : Nat) : Named r (asked verb r n) := by
  apply List.IsInfix.map
  refine ⟨' ' :: (verb.text.toList ++ ' ' :: (r.owner.toList ++ ['/'])), ' ' :: '#' :: Nat.toDigits 10 n, ?_⟩
  simp [asked, RepoSpec.names]

section Repository

variable {t : TriggerDecisionEngine} {verb : SlackVerb} {r r' : RepoSpec} {n : Nat}

/-- The owner before the name adds nothing to the search. -/
theorem mentions_iff (hlower : LowersAscii t.unicode) (hr' : GitHubNames r') {text : List Char}
    (htext : ∀ c ∈ text, isAscii c = true) :
    (hasText (t.unicode.lower r'.repo.toList) (t.unicode.lower text) ||
      hasText (t.unicode.lower (r'.owner ++ "/" ++ r'.repo).toList) (t.unicode.lower text)) = true ↔
        Named r' text := by
  have hnames : (r'.owner ++ "/" ++ r'.repo).toList = r'.names := by
    have hslash : "/".toList = ['/'] := rfl
    simp [RepoSpec.names, hslash]
  have hascii : ∀ c ∈ r'.names, isAscii c = true := by
    intro c hc
    rcases names_chars hr' c hc with h | rfl | rfl | rfl | rfl
    · exact isAscii_of_isAlphanum h
    all_goals decide
  have hrepo : ∀ c ∈ r'.repo.toList, isAscii c = true :=
    fun c hc => hascii c (List.mem_append_right _ (List.mem_cons_of_mem _ hc))
  rw [hnames, hlower _ hrepo, hlower _ hascii, hlower _ htext, Bool.or_eq_true, hasText_iff,
    hasText_iff]
  constructor
  · rintro (h | h)
    · exact h
    · refine List.IsInfix.trans ?_ h
      apply List.IsInfix.map
      exact ⟨r'.owner.toList ++ ['/'], [], by simp [RepoSpec.names]⟩
  · exact Or.inl

/-- **The repository a command is taken for** is the first one whose name occurs in it. -/
theorem mentionedRepo_asked (hlower : LowersAscii t.unicode)
    (hnames : ∀ r ∈ t.config.enabledRepos, GitHubNames r) (hr : r ∈ t.config.enabledRepos) :
    t.mentionedRepo (asked verb r n) = some r' ↔ Named r' (asked verb r n) ∧
      ∃ before after, t.config.enabledRepos = before ++ r' :: after ∧
        ∀ x ∈ before, ¬ Named x (asked verb r n) := by
  have hascii : ∀ c ∈ asked verb r n, isAscii c = true :=
    fun c hc => (asked_chars (hnames r hr) c hc).1
  have hsearch : ∀ x ∈ t.config.enabledRepos, _ ↔ Named x (asked verb r n) :=
    fun x hx => mentions_iff hlower (hnames x hx) hascii
  unfold TriggerDecisionEngine.mentionedRepo
  rw [List.find?_eq_some_iff_append]
  constructor
  · rintro ⟨hp, before, after, hsplit, hbefore⟩
    have hmem : r' ∈ t.config.enabledRepos := by
      rw [hsplit]
      exact List.mem_append_right _ List.mem_cons_self
    refine ⟨(hsearch r' hmem).mp hp, before, after, hsplit, fun x hx hnamed => ?_⟩
    have hx' : x ∈ t.config.enabledRepos := by
      rw [hsplit]
      exact List.mem_append_left _ hx
    have hno := hbefore x hx
    rw [(hsearch x hx').mpr hnamed] at hno
    cases hno
  · rintro ⟨hp, before, after, hsplit, hbefore⟩
    have hmem : r' ∈ t.config.enabledRepos := by
      rw [hsplit]
      exact List.mem_append_right _ List.mem_cons_self
    refine ⟨(hsearch r' hmem).mpr hp, before, after, hsplit, fun x hx => ?_⟩
    have hx' : x ∈ t.config.enabledRepos := by
      rw [hsplit]
      exact List.mem_append_left _ hx
    rw [Bool.not_eq_true', ← Bool.not_eq_true]
    exact fun h => hbefore x hx ((hsearch x hx').mp h)

/-- Some repository is found, that of the command at the latest. -/
theorem exists_mentionedRepo (hlower : LowersAscii t.unicode)
    (hnames : ∀ r ∈ t.config.enabledRepos, GitHubNames r) (hr : r ∈ t.config.enabledRepos) :
    ∃ r' ∈ t.config.enabledRepos, t.mentionedRepo (asked verb r n) = some r' := by
  have hascii : ∀ c ∈ asked verb r n, isAscii c = true :=
    fun c hc => (asked_chars (hnames r hr) c hc).1
  cases hfind : t.mentionedRepo (asked verb r n) with
  | some r' => exact ⟨r', List.mem_of_find?_eq_some hfind, rfl⟩
  | none =>
    have hno := List.find?_eq_none.mp hfind r hr
    exact absurd ((mentions_iff hlower (hnames r hr) hascii).mpr (named_self verb r n)) hno

end Repository

/-! ## The word -/

/-- The text has `approve` in it, in any letter case. -/
def SaysApprove (text : List Char) : Prop :=
  "approve".toList <:+: text.map Char.toLower

/-- The word for approval is not empty. -/
theorem approve_ne_nil : "approve".toList ≠ [] := by
  decide +kernel

/-- A character that the word does not have parts a text. -/
theorem saysApprove_append_cons {x y : List Char} {c : Char}
    (hc : c.toLower ∉ "approve".toList) :
    SaysApprove (x ++ c :: y) ↔ SaysApprove x ∨ SaysApprove y := by
  unfold SaysApprove
  rw [List.map_append, List.map_cons, occurs_append_cons approve_ne_nil hc]

/-- A number does not say to approve. -/
theorem not_saysApprove_of_digits {x : List Char} (hx : ∀ c ∈ x, c.isDigit = true) :
    ¬ SaysApprove x := by
  intro h
  have ha : 'a' ∈ "approve".toList := by decide +kernel
  obtain ⟨c, hc, hlow⟩ := List.mem_map.mp (h.subset ha)
  have hdigit := hx c hc
  rcases toLower_cases hlow with rfl | ⟨hlow, -, -⟩
  · exact absurd hdigit (by decide)
  · simp only [Char.isDigit, Bool.and_eq_true, decide_eq_true_eq] at hdigit
    have hle : c.toNat ≤ 57 := hdigit.2
    omega

/-- Of the verbs only approval says so. -/
theorem saysApprove_verb {verb : SlackVerb} : SaysApprove verb.text.toList ↔ verb = .approve := by
  unfold SaysApprove
  rw [← hasText_iff]
  cases verb
  · exact iff_of_false (by decide +kernel) (by simp)
  · exact iff_of_true (by decide +kernel) rfl

/-- **A message says `approve`** where its verb does or one of its names. -/
theorem saysApprove_slackText {bot : String} {verb : SlackVerb} {r : RepoSpec} {n : Nat} :
    SaysApprove (slackText bot verb r n).toList ↔ verb = .approve ∨ SaysApprove bot.toList ∨
      SaysApprove r.owner.toList ∨ SaysApprove r.repo.toList := by
  have hcons : ∀ (c : Char) (y : List Char), c.toLower ∉ "approve".toList →
      (SaysApprove (c :: y) ↔ SaysApprove y) := by
    intro c y hc
    have hnil : ¬ SaysApprove [] := fun h => approve_ne_nil (List.eq_nil_of_infix_nil h)
    have hsplit := saysApprove_append_cons (x := []) (y := y) hc
    rw [List.nil_append] at hsplit
    rw [hsplit]
    exact or_iff_right hnil
  have hdigits := not_saysApprove_of_digits (x := Nat.toDigits 10 n) isDigit_toDigits
  have hall : ['<', '@', '>', ' ', '/', '#'].all (fun c => decide (c.toLower ∉ "approve".toList)) =
      true := by
    decide +kernel
  have hlow : ∀ c ∈ ['<', '@', '>', ' ', '/', '#'], c.toLower ∉ "approve".toList :=
    fun c hc => of_decide_eq_true (List.all_eq_true.mp hall c hc)
  rw [slackText_toList, asked, RepoSpec.names, hcons '<' _ (hlow _ (by simp)),
    hcons '@' _ (hlow _ (by simp)), saysApprove_append_cons (hlow '>' (by simp)),
    hcons ' ' _ (hlow _ (by simp)), saysApprove_append_cons (hlow ' ' (by simp)),
    saysApprove_verb, List.append_assoc, List.cons_append,
    saysApprove_append_cons (hlow '/' (by simp)), saysApprove_append_cons (hlow ' ' (by simp)),
    hcons '#' _ (hlow _ (by simp)), or_iff_left hdigits, or_left_comm]

/-! ## What a command does -/

/-- A review command for this pull request, without an override. -/
def reviewDecision (ref : PrRef) : Decision where
  action := .reply
  owner := some ref.owner
  repo := some ref.repo
  pr := ref.pr
  head := some ""
  target := some { kind := "review" }

/-- The payload makes the service do this on this pull request and nothing else: dispatch a review
command, or publish an approval. -/
def App.Obeys (cfg : AppConfig) (s : App) (payload : SlackPayload) (ref : PrRef) : SlackVerb → Prop
  | .review => ∃ event, cfg.trigger.decide event = reviewDecision ref ∧
      s.slackPayload cfg payload = ({ s with dispatches := s.dispatches ++ [event] }, [])
  | .approve => ∃ p : Approval, p.job.ref = ref ∧ s.slackPayload cfg payload =
      ({ s with requests := s.requests + 1, approvals := s.approvals ++ [p] },
        [.asked s.requests (.slack payload) none (some p.job)])

/-- The names of a command do not answer for it: the first number in it reads as its own, no
repository listed before is named in it, and, for a review, nothing says `approve` and the names
hold no flag but `--model`, and no model after that. -/
structure Understood (cfg : AppConfig) (bot : String) (verb : SlackVerb) (r : RepoSpec) (n : Nat) :
    Prop where
  number : pyInt cfg.unicode ((firstDigits cfg.unicode r.names).getD (Nat.toDigits 10 n)) =
    some (n : Int)
  first : ∃ before after, cfg.config.enabledRepos = before ++ r :: after ∧
    ∀ r' ∈ before, ¬ Named r' (asked verb r n)
  word : verb = .review → ¬ SaysApprove bot.toList ∧ ¬ SaysApprove r.owner.toList ∧
    ¬ SaysApprove r.repo.toList
  flags : verb = .review →
    (∀ f ∈ flags cfg.unicode 0 (slackText bot verb r n).toList, f = "--model".toList) ∧
      modelOf (slackText bot verb r n).toList = none

section Commands

variable {cfg : AppConfig} {s : App} {bot : String} {verb : SlackVerb} {r r' : RepoSpec} {n : Nat}

/-- The verb of a review is a word of the message. -/
theorem hasToken_review (u : Unicode) :
    hasToken u none (slackText bot .review r n).toList = true := by
  have hspace : u.isWord ' ' = false := by
    simp [Unicode.isWord, isAscii]
  rw [hasToken_none_iff]
  refine Or.inr (Or.inl ⟨'<' :: '@' :: (bot.toList ++ ['>', ' ']), "review".toList,
    ' ' :: (r.names ++ ' ' :: '#' :: Nat.toDigits 10 n), ?_, ?_, ?_, ?_⟩)
  · rw [slackText_toList, asked]
    simp [SlackVerb.text]
  · exact List.forall₂_same.mpr fun c _ => eqIgnoreCase_self c
  · have hlast : ('<' :: '@' :: (bot.toList ++ ['>', ' '])).getLast? = some ' ' := by
      simp [List.getLast?_cons]
    rw [hlast]
    exact hspace
  · exact hspace

/-- What is decided on the review command of a message. -/
theorem decide_slackCommand (owner repo : String) (pr : Int) (ref : PrRef) :
    cfg.trigger.decide (cfg.trigger.slackCommand owner repo pr (slackText bot .review r n)) =
        reviewDecision ref ↔
      ref = ⟨owner, repo, some pr⟩ ∧
      (∀ f ∈ flags cfg.unicode 0 (slackText bot .review r n).toList, f = "--model".toList) ∧
        modelOf (slackText bot .review r n).toList = none := by
  have htoken : hasToken cfg.unicode none (slackText bot .review r n).toList = true :=
    hasToken_review cfg.unicode
  generalize hcommand : cfg.trigger.slackCommand owner repo pr (slackText bot .review r n) = event
  have hauthor : event.author = some cfg.trigger.selfAccount := by rw [← hcommand]; rfl
  have hbody : orEmpty event.commentBody = slackText bot .review r n := by rw [← hcommand]; rfl
  have hevent : event.event = "issue_comment" := by rw [← hcommand]; rfl
  have hfields : (event.owner, event.repo, event.prNumber, event.headSha) =
      (owner, repo, some pr, some "") := by rw [← hcommand]; rfl
  simp only [Prod.mk.injEq] at hfields
  obtain ⟨howner, hrepo, hpr, hhead⟩ := hfields
  have hunicode : cfg.trigger.unicode = cfg.unicode := rfl
  unfold TriggerDecisionEngine.decide TriggerDecisionEngine.decideComment
  rw [if_pos hevent, if_neg (by simp [hauthor]), hbody, hunicode, howner, hrepo, hpr, hhead]
  by_cases hflags : ∀ f ∈ flags cfg.unicode 0 (slackText bot .review r n).toList,
      f = "--model".toList
  · rw [parseCommand_plain htoken hflags, and_iff_right hflags]
    cases ref
    cases hmodel : modelOf (slackText bot .review r n).toList with
    | none => simp [reviewDecision, eq_comm]
    | some name => simp [reviewDecision]
  · have hbad := hflags
    rw [not_forall] at hbad
    obtain ⟨f, hf⟩ := hbad
    rw [Classical.not_imp] at hf
    rw [parseCommand_bad_flag htoken hf.1 hf.2]
    exact iff_of_false (by simp [reviewDecision]) fun h => hflags h.2.1

/-! ## What a payload does -/

variable {payload : SlackPayload} {ref : PrRef}

/-- A payload that asks for nothing is not obeyed. -/
theorem not_obeys_of_nothing (h : cfg.trigger.processSlackEventPayload payload = .nothing) :
    ¬ s.Obeys cfg payload ref verb := by
  have hsame : s.slackPayload cfg payload = (s, []) := by
    simp only [App.slackPayload, h]
  intro hobeys
  cases verb with
  | review =>
    obtain ⟨event, -, heq⟩ := hobeys
    rw [hsame] at heq
    have hlength := congrArg (fun x => x.1.dispatches.length) heq
    simp at hlength
  | approve =>
    obtain ⟨p, -, heq⟩ := hobeys
    rw [hsame] at heq
    cases congrArg Prod.snd heq

/-- A payload that dispatches an event is obeyed exactly when the event starts the review. -/
theorem obeys_of_dispatch {event : NormalizedEvent}
    (h : cfg.trigger.processSlackEventPayload payload = .dispatch event) :
    s.Obeys cfg payload ref verb ↔ verb = .review ∧ cfg.trigger.decide event = reviewDecision ref := by
  have hstep : s.slackPayload cfg payload = ({ s with dispatches := s.dispatches ++ [event] }, []) := by
    simp only [App.slackPayload, h]
  cases verb with
  | review =>
    constructor
    · rintro ⟨event', hdecide, heq⟩
      rw [hstep] at heq
      have hsame := congrArg (fun x => x.1.dispatches) heq
      simp only [List.append_cancel_left_eq, List.cons.injEq, and_true] at hsame
      exact ⟨rfl, hsame ▸ hdecide⟩
    · exact fun hdecide => ⟨event, hdecide.2, hstep⟩
  | approve =>
    refine iff_of_false ?_ (by simp)
    rintro ⟨p, -, heq⟩
    rw [hstep] at heq
    cases congrArg Prod.snd heq

/-- A payload that approves is obeyed exactly when it approves the pull request. -/
theorem obeys_of_approve {run : RunId} {job : ReviewJob} {summary : String}
    (h : cfg.trigger.processSlackEventPayload payload = .approve run job summary)
    (hrow : s.core.table.getJob run = none) :
    s.Obeys cfg payload ref verb ↔ verb = .approve ∧ job.ref = ref := by
  have hstep : s.slackPayload cfg payload =
      ({ s with
          requests := s.requests + 1
          approvals := s.approvals ++ [{ number := s.requests, job := job, summary := summary }] },
        [.asked s.requests (.slack payload) none (some job)]) := by
    simp only [App.slackPayload, h, App.ask, hrow, Option.none_or]
  cases verb with
  | review =>
    refine iff_of_false ?_ (by simp)
    rintro ⟨event, -, heq⟩
    rw [hstep] at heq
    cases congrArg Prod.snd heq
  | approve =>
    constructor
    · rintro ⟨p, href, heq⟩
      rw [hstep] at heq
      have hsame := congrArg (fun x => x.1.approvals) heq
      simp only [List.append_cancel_left_eq, List.cons.injEq, and_true] at hsame
      exact ⟨rfl, by rw [← href, ← hsame]⟩
    · exact fun href => ⟨_, href.2, hstep⟩

/-- No run has an id of Slack's. -/
theorem getJob_slack {table : RunTable} (hids : HexRunIds table) (number : String) :
    table.getJob ("slack_" ++ number) = none := by
  rw [RunTable.getJob, Option.map_eq_none_iff, RunTable.row?_eq_none]
  intro row hrow hid
  have hunder : '_' ∈ "slack_".toList := by decide +kernel
  apply hids row hrow
  rw [hid, String.toList_append]
  exact List.mem_append_left _ hunder

/-- What a command asks for, once its repository is found. -/
theorem process_slackText {type : String} (htype : type = "app_mention" ∨ type = "message")
    (hbot : SlackId bot) (hr : GitHubNames r)
    (hmention : cfg.trigger.mentionedRepo (asked verb r n) = some r') :
    cfg.trigger.processSlackEventPayload (.eventCallback type (slackText bot verb r n)) =
      (pyInt cfg.unicode ((firstDigits cfg.unicode r.names).getD (Nat.toDigits 10 n))).elim .nothing
        fun pr =>
          if hasText "approve".toList (cfg.unicode.lower (slackText bot verb r n).toList) then
            .approve ("slack_" ++ toString pr)
              { owner := r'.owner, repo := r'.repo, pr := some pr, head := some "",
                runId := "slack_" ++ toString pr } "Approved via Slack Event"
          else .dispatch (cfg.trigger.slackCommand r'.owner r'.repo pr (slackText bot verb r n)) := by
  have hdigits : firstDigits cfg.trigger.unicode (asked verb r n) =
      some ((firstDigits cfg.unicode r.names).getD (Nat.toDigits 10 n)) := firstDigits_asked
  simp only [TriggerDecisionEngine.processSlackEventPayload, if_pos htype,
    stripMentions_slackText hbot hr, hdigits, Option.bind_some]
  have hunicode : cfg.trigger.unicode = cfg.unicode := rfl
  rw [hunicode]
  cases pyInt cfg.unicode ((firstDigits cfg.unicode r.names).getD (Nat.toDigits 10 n)) with
  | none => rfl
  | some pr =>
    simp only [TriggerDecisionEngine.slackMessage, hmention, reduceCtorEq, false_and, if_false,
      Option.some_or, Option.map_some, Option.getD_some, Option.elim_some]
    rfl

/-- The repository found is that of the command exactly if none before it is named. -/
theorem found_iff (hlower : LowersAscii cfg.unicode)
    (hnames : ∀ r ∈ cfg.config.enabledRepos, GitHubNames r)
    (hdistinct : (cfg.config.enabledRepos.map fun r => (r.owner, r.repo)).Nodup)
    (hr : r ∈ cfg.config.enabledRepos) (hr' : r' ∈ cfg.config.enabledRepos)
    (hmention : cfg.trigger.mentionedRepo (asked verb r n) = some r') :
    (r'.owner = r.owner ∧ r'.repo = r.repo) ↔
      ∃ before after, cfg.config.enabledRepos = before ++ r :: after ∧
        ∀ x ∈ before, ¬ Named x (asked verb r n) := by
  have hfound : ∀ x, cfg.trigger.mentionedRepo (asked verb r n) = some x ↔
      Named x (asked verb r n) ∧ ∃ before after, cfg.config.enabledRepos = before ++ x :: after ∧
        ∀ y ∈ before, ¬ Named y (asked verb r n) :=
    fun _ => @mentionedRepo_asked cfg.trigger _ _ _ _ hlower hnames hr
  constructor
  · rintro ⟨howner, hrepo⟩
    have heq : r' = r :=
      List.inj_on_of_nodup_map hdistinct hr' hr (Prod.ext howner hrepo)
    rw [heq] at hmention
    exact ((hfound r).mp hmention).2
  · intro hfirst
    have hself := (hfound r).mpr ⟨named_self verb r n, hfirst⟩
    rw [hmention, Option.some.injEq] at hself
    rw [hself]
    exact ⟨rfl, rfl⟩

/-- **A command in Slack does what it says** exactly if it is understood. -/
theorem slack_command_obeyed_iff (cfg : AppConfig) (s : App) (bot : String) (verb : SlackVerb)
    (r : RepoSpec) (n : Nat) (type : String) (hlower : LowersAscii cfg.unicode)
    (hnames : ∀ r ∈ cfg.config.enabledRepos, GitHubNames r)
    (hdistinct : (cfg.config.enabledRepos.map fun r => (r.owner, r.repo)).Nodup)
    (hr : r ∈ cfg.config.enabledRepos) (hbot : SlackId bot)
    (htype : type = "app_mention" ∨ type = "message")
    (hids : HexRunIds s.core.table) :
    s.Obeys cfg (.eventCallback type (slackText bot verb r n)) ⟨r.owner, r.repo, some (n : Int)⟩ verb ↔
      Understood cfg bot verb r n := by
  obtain ⟨r', hr', hmention⟩ :=
    @exists_mentionedRepo cfg.trigger verb r n hlower hnames hr
  have hfirst := found_iff hlower hnames hdistinct hr hr' hmention
  have hprocess := process_slackText htype hbot (hnames r hr) hmention
  have hword : hasText "approve".toList (cfg.unicode.lower (slackText bot verb r n).toList) = true ↔
      SaysApprove (slackText bot verb r n).toList := by
    rw [hasText_iff, hlower _ (slackText_ascii hbot (hnames r hr))]
    rfl
  cases hnumber : pyInt cfg.unicode
      ((firstDigits cfg.unicode r.names).getD (Nat.toDigits 10 n)) with
  | none =>
    rw [hnumber] at hprocess
    refine iff_of_false (not_obeys_of_nothing hprocess) fun h => ?_
    rw [h.number] at hnumber
    cases hnumber
  | some pr =>
    rw [hnumber, Option.elim_some] at hprocess
    by_cases happrove : SaysApprove (slackText bot verb r n).toList
    · -- the message is taken for an approval
      rw [if_pos (hword.mpr happrove)] at hprocess
      rw [obeys_of_approve hprocess (getJob_slack hids _)]
      constructor
      · rintro ⟨rfl, href⟩
        simp only [ReviewJob.ref, PrRef.mk.injEq, Option.some.injEq] at href
        obtain ⟨howner, hrepo, rfl⟩ := href
        exact ⟨hnumber, hfirst.mp ⟨howner, hrepo⟩, by simp, by simp⟩
      · intro h
        obtain ⟨howner, hrepo⟩ := hfirst.mpr h.first
        have hpr := h.number
        rw [hnumber, Option.some.injEq] at hpr
        refine ⟨?_, by simp only [ReviewJob.ref, howner, hrepo, hpr]⟩
        by_contra hverb
        have hreview : verb = .review := by
          cases verb
          · rfl
          · exact absurd rfl hverb
        obtain ⟨hid, hown, hrep⟩ := h.word hreview
        rcases saysApprove_slackText.mp happrove with h' | h' | h' | h'
        · exact hverb h'
        · exact hid h'
        · exact hown h'
        · exact hrep h'
    · -- the message is taken for a review command
      rw [if_neg fun h => happrove (hword.mp h)] at hprocess
      rw [obeys_of_dispatch hprocess]
      have hno := mt saysApprove_slackText.mpr happrove
      simp only [not_or] at hno
      cases verb with
      | approve => exact absurd rfl hno.1
      | review =>
        rw [decide_slackCommand]
        constructor
        · rintro ⟨-, href, hflags⟩
          simp only [PrRef.mk.injEq, Option.some.injEq] at href
          obtain ⟨howner, hrepo, rfl⟩ := href
          exact ⟨hnumber, hfirst.mp ⟨howner.symm, hrepo.symm⟩, fun _ => hno.2, fun _ => hflags⟩
        · intro h
          obtain ⟨howner, hrepo⟩ := hfirst.mpr h.first
          have hpr := h.number
          rw [hnumber, Option.some.injEq] at hpr
          exact ⟨rfl, by rw [howner, hrepo, hpr], h.flags rfl⟩

end Commands

/-- An installation with these repositories. -/
def slackConfig (repos : List RepoSpec) : AppConfig :=
  { smallConfig true 1 with config := { repoConfig := repos, providers := ["free"] } }

/-- A command on the only repository is obeyed. -/
theorem slack_command_obeyed_iff_app :
    App.small.Obeys (slackConfig [⟨"me", "app", true, false, true⟩])
      (.eventCallback "app_mention" (slackText "U1" .review ⟨"me", "app", true, false, true⟩ 7))
      ⟨"me", "app", some (7 : Nat)⟩ .review := by
  have hnames : GitHubNames ⟨"me", "app", true, false, true⟩ := by
    have howner : "me".toList.all Char.isAlphanum = true := by decide +kernel
    have hrepo : "app".toList.all Char.isAlphanum = true := by decide +kernel
    exact ⟨fun c hc => Or.inl (List.all_eq_true.mp howner c hc),
      fun c hc => Or.inl (List.all_eq_true.mp hrepo c hc)⟩
  have hbot : SlackId "U1" := by
    have hall : "U1".toList.all Char.isAlphanum = true := by decide +kernel
    exact List.all_eq_true.mp hall
  have hquiet : ∀ name ∈ ["U1", "me", "app"], ¬ SaysApprove name.toList := by
    simp only [SaysApprove, ← hasText_iff]
    decide +kernel
  refine (slack_command_obeyed_iff (slackConfig [⟨"me", "app", true, false, true⟩]) App.small "U1"
    .review ⟨"me", "app", true, false, true⟩ 7 "app_mention" (fun _ _ => rfl)
    (fun r hr => (List.mem_singleton.mp hr).symm ▸ hnames) (List.nodup_singleton _)
    List.mem_cons_self hbot (Or.inl rfl) (fun _ hrow => absurd hrow List.not_mem_nil)).mpr ?_
  refine ⟨by decide +kernel, ⟨[], [], rfl, by simp⟩, fun _ => ?_, fun _ => ?_⟩
  · exact ⟨hquiet _ (by simp), hquiet _ (by simp), hquiet _ (by simp)⟩
  · exact ⟨by decide +kernel, by decide +kernel⟩

/-- The approval of pull request 7 of a repository of `me`. -/
def slackApproval (repo : String) : ReviewJob where
  owner := "me"
  repo := repo
  pr := some 7
  head := some ""
  runId := "slack_7"

/-- The review of `me/app2#7` is one of pull request 2, the approval of `me/app-web#7` one of
`me/app`, and the review of `me/approver#7` an approval. -/
theorem slack_names_misread :
    ¬ App.small.Obeys (slackConfig [⟨"me", "app2", true, false, true⟩])
        (.eventCallback "app_mention" "<@U1> review me/app2 #7")
        ⟨"me", "app2", some 7⟩ .review ∧
      ¬ App.small.Obeys
        (slackConfig [⟨"me", "app", true, false, true⟩, ⟨"me", "app-web", true, false, true⟩])
        (.eventCallback "app_mention" "<@U1> approve me/app-web #7")
        ⟨"me", "app-web", some 7⟩ .approve ∧
      ¬ App.small.Obeys (slackConfig [⟨"me", "approver", true, false, true⟩])
        (.eventCallback "app_mention" "<@U1> review me/approver #7")
        ⟨"me", "approver", some 7⟩ .review := by
  have hnumber : (slackConfig [⟨"me", "app2", true, false, true⟩]).trigger.processSlackEventPayload
      (.eventCallback "app_mention" "<@U1> review me/app2 #7") =
        .dispatch ((slackConfig []).trigger.slackCommand "me" "app2" 2 "<@U1> review me/app2 #7") := by
    decide +kernel
  have hrepo : (slackConfig [⟨"me", "app", true, false, true⟩,
      ⟨"me", "app-web", true, false, true⟩]).trigger.processSlackEventPayload
      (.eventCallback "app_mention" "<@U1> approve me/app-web #7") =
        .approve "slack_7" (slackApproval "app") "Approved via Slack Event" := by
    decide +kernel
  have hword : (slackConfig [⟨"me", "approver", true, false, true⟩]).trigger.processSlackEventPayload
      (.eventCallback "app_mention" "<@U1> review me/approver #7") =
        .approve "slack_7" (slackApproval "approver") "Approved via Slack Event" := by
    decide +kernel
  refine ⟨?_, ?_, ?_⟩
  · rw [obeys_of_dispatch hnumber]
    rintro ⟨-, hdecide⟩
    exact absurd (congrArg Decision.pr hdecide) (by decide +kernel)
  · rw [obeys_of_approve hrepo rfl]
    rintro ⟨-, href⟩
    exact absurd (congrArg PrRef.repo href) (by decide)
  · rw [obeys_of_approve hword rfl]
    rintro ⟨hverb, -⟩
    cases hverb

end PrReviewer.Model
