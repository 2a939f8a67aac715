import PrReviewer.Analysis.OwnComments
import PrReviewer.Analysis.SlackBodies

/-!
# The question which repository is meant

With several repositories enabled, a message that names none of them is answered with a button for
each of the first five. A press of a button asks for a review in its repository, whatever the
message asked for, and the review starts when the command is dispatched. The number in the button
comes from the message, so it is short enough to be read back.
-/

set_option autoImplicit false

namespace PrReviewer.Model

open PrReviewer.Library

/-! ## Numbers in messages -/

/-- The digits of the table have values of one digit. -/
def Unicode.Decimal (u : Unicode) : Prop :=
  ∀ c d, u.digit c = some d → d < 10

/-- The digits of ASCII are decimal. -/
theorem Unicode.ascii_decimal : Unicode.ascii.Decimal := by
  intro c d h
  cases h

section Numbers

variable {u : Unicode}

/-- A digit's value is below ten. -/
theorem digitVal_lt (hu : u.Decimal) {c : Char} {d : Nat} (h : u.digitVal c = some d) : d < 10 := by
  unfold Unicode.digitVal at h
  split_ifs at h with hascii hdigit
  · have hle : c.toNat ≤ 57 := by
      have hbounds := hdigit
      rw [Char.isDigit, Bool.and_eq_true, decide_eq_true_eq, decide_eq_true_eq] at hbounds
      exact hbounds.2
    rw [Option.some.injEq] at h
    omega
  · exact hu c d h

/-- Each character makes a number at most ten times as large. -/
theorem readDigits_lt (hu : u.Decimal) {prev : Bool} {acc n : Nat} {cs : List Char}
    (h : readDigits u prev acc cs = some n) : n < (acc + 1) * 10 ^ cs.length := by
  induction cs generalizing prev acc with
  | nil =>
    rw [readDigits] at h
    split_ifs at h
    cases h
    simp
  | cons c cs ih =>
    have hgrow : ∀ acc', acc' + 1 ≤ (acc + 1) * 10 → n < (acc' + 1) * 10 ^ cs.length →
        n < (acc + 1) * 10 ^ (c :: cs).length := by
      intro acc' hle hlt
      calc n < (acc' + 1) * 10 ^ cs.length := hlt
        _ ≤ (acc + 1) * 10 * 10 ^ cs.length := Nat.mul_le_mul_right _ hle
        _ = (acc + 1) * 10 ^ (c :: cs).length := by
          rw [List.length_cons, Nat.pow_succ', Nat.mul_assoc]
    rw [readDigits] at h
    cases hd : u.digitVal c with
    | some d =>
      simp only [hd] at h
      have hten := digitVal_lt hu hd
      exact hgrow _ (by omega) (ih h)
    | none =>
      simp only [hd] at h
      split_ifs at h
      exact hgrow acc (by omega) (ih h)

/-- A number below a power of ten has at most as many digits. -/
theorem length_toDigits_le {n len bound : Nat} (hn : n < 10 ^ len) (hlen : len ≤ bound)
    (hbound : 0 < bound) : (Nat.toDigits 10 n).length ≤ bound := by
  rw [Nat.length_toDigits_le_iff (by decide) hbound]
  exact Nat.lt_of_lt_of_le hn (Nat.pow_le_pow_right (by decide) hlen)

/-- The first number of a text is made of digits. -/
theorem firstDigits_digits {text digits : List Char} (h : firstDigits u text = some digits) :
    ∀ c ∈ digits, (u.digitVal c).isSome = true := by
  unfold firstDigits at h
  split at h
  · cases h
  · cases h
    intro c hc
    exact @List.mem_takeWhile_imp _ (fun c => (u.digitVal c).isSome) _ _ hc

/-- What `int` makes of digits is a number that `str` can write. -/
theorem pyInt_digits (hu : u.Decimal) {digits : List Char} {n : Int}
    (hdigits : ∀ c ∈ digits, (u.digitVal c).isSome = true) (h : pyInt u digits = some n) :
    ∃ pr : Nat, n = pr ∧ (Nat.toDigits 10 pr).length ≤ 4300 := by
  have hmem : ∀ c ∈ ((digits.dropWhile isIntSpace).reverse.dropWhile isIntSpace).reverse, c ∈ digits := by
    intro c hc
    have hdropped := (List.dropWhile_sublist isIntSpace).mem (List.mem_reverse.mp hc)
    exact (List.dropWhile_sublist isIntSpace).mem (List.mem_reverse.mp hdropped)
  unfold pyInt at h
  generalize ((digits.dropWhile isIntSpace).reverse.dropWhile isIntSpace).reverse = body at hmem h
  have hunsigned : ∀ c ∈ ['-', '+'], c ∉ body := by
    intro c hc hin
    have hsome := hdigits c (hmem c hin)
    rw [List.mem_cons, List.mem_singleton] at hc
    rcases hc with rfl | rfl <;> exact absurd hsome (by simp [Unicode.digitVal, isAscii])
  have hall : body.filter (fun c => (u.digitVal c).isSome) = body :=
    List.filter_eq_self.mpr fun c hc => hdigits c (hmem c hc)
  simp only at h
  split at h
  · exact absurd List.mem_cons_self (hunsigned '-' (by simp))
  · exact absurd List.mem_cons_self (hunsigned '+' (by simp))
  · rw [hall] at h
    by_cases hlen : body.length > 4300
    · rw [if_pos hlen] at h
      cases h
    · rw [if_neg hlen] at h
      cases hread : readDigits u false 0 body with
      | none =>
        rw [hread] at h
        cases h
      | some pr =>
        rw [hread] at h
        have hlt := readDigits_lt hu hread
        rw [Nat.zero_add, Nat.one_mul] at hlt
        refine ⟨pr, ?_, length_toDigits_le hlt (by omega) (by decide)⟩
        cases h
        beta_reduce
        split
        · exact absurd List.mem_cons_self (hunsigned '-' (by simp))
        · rfl

end Numbers

/-! ## The buttons -/

section Buttons

variable {t : TriggerDecisionEngine} {p : SlackPayload} {prompt : RepoPrompt}

/-- A prompt answers a message with a number, with several repositories and none named. -/
theorem promptOf_cases (hu : t.unicode.Decimal) (h : t.promptOf p = some prompt) :
    ∃ pr : Nat, (Nat.toDigits 10 pr).length ≤ 4300 ∧ prompt = t.repoPrompt pr ∧
      t.processSlackEventPayload p = .nothing := by
  cases p with
  | blockActions value => cases h
  | other => cases h
  | eventCallback type text =>
    unfold TriggerDecisionEngine.promptOf at h
    simp only at h
    by_cases htype : type = "app_mention" ∨ type = "message"
    · rw [if_pos htype] at h
      obtain ⟨n, hn, hasks⟩ := Option.bind_eq_some_iff.mp h
      obtain ⟨digits, hdigits, hint⟩ := Option.bind_eq_some_iff.mp hn
      obtain ⟨pr, rfl, hlen⟩ := pyInt_digits hu (firstDigits_digits hdigits) hint
      by_cases hseveral : t.mentionedRepo (stripMentions text.toList) = none ∧
          t.config.enabledRepos.length > 1
      · rw [if_pos hseveral] at hasks
        cases hasks
        refine ⟨pr, hlen, rfl, ?_⟩
        simp only [TriggerDecisionEngine.processSlackEventPayload, if_pos htype, hn,
          TriggerDecisionEngine.slackMessage, if_pos hseveral]
      · rw [if_neg hseveral] at hasks
        cases hasks
    · rw [if_neg htype] at h
      cases h

/-- The value of a repository's button. -/
theorem repoButton_value (pr : Nat) (repo : RepoSpec) (hlen : (Nat.toDigits 10 pr).length ≤ 4300) :
    selectValue repo.owner repo.repo pr =
      some (TriggerDecisionEngine.repoButton pr repo).value := by
  rw [selectValue, if_pos hlen]
  rfl

/-- A button of a prompt is a choice. -/
theorem repoButton_select (pr : Int) (repo : RepoSpec) :
    "select_repo_".toList.isPrefixOf
      (TriggerDecisionEngine.repoButton pr repo).value.toList = true := by
  rw [List.isPrefixOf_iff_prefix, TriggerDecisionEngine.repoButton, toList_choice]
  exact List.prefix_append _ _

/-- The command of a choice. -/
def TriggerDecisionEngine.choiceCommand (t : TriggerDecisionEngine) (pr : Nat) (repo : RepoSpec) :
    NormalizedEvent :=
  t.slackCommand repo.owner repo.repo pr ("review #" ++ toString (pr : Int))

/-- A button means its repository exactly if the tag does not occur in the names. -/
theorem slackButton_repoButton_iff {pr : Nat} {repo : RepoSpec}
    (hlen : (Nat.toDigits 10 pr).length ≤ 4300) (howner : '/' ∉ repo.owner.toList) :
    t.slackButton (TriggerDecisionEngine.repoButton pr repo).value =
        .dispatch (t.choiceCommand pr repo) ↔
      ¬ selectTag <:+: choiceNames repo.owner repo.repo := by
  have hvalue := repoButton_value pr repo hlen
  constructor
  · intro h hocc
    have hreturns : ChoiceReturns t repo.owner repo.repo pr := by
      intro value hother
      rw [hvalue] at hother
      cases hother
      exact h
    exact not_choiceReturns hocc hlen hreturns
  · exact fun habsent => choiceReturns_of_absent howner habsent _ hvalue

/-- Prompts for different numbers differ. -/
theorem repoPrompt_inj {a b : Nat} (h : t.repoPrompt a = t.repoPrompt b) : a = b := by
  have htext : "Specify repository for PR #" ++ toString (a : Int) =
      "Specify repository for PR #" ++ toString (b : Int) := congrArg RepoPrompt.text h
  have hdigits : (toString (a : Int)).toList = (toString (b : Int)).toList := by
    have hlist := congrArg String.toList htext
    rw [String.toList_append, String.toList_append] at hlist
    exact List.append_cancel_left hlist
  have htoList : ∀ n : Nat, (toString (n : Int)).toList = Nat.toDigits 10 n := by
    intro n
    show (toString n).toList = _
    rw [Nat.toString_eq_repr, Nat.toList_repr]
  rw [htoList, htoList] at hdigits
  rw [← @Nat.ofDigitChars_ten_toDigits a, hdigits, Nat.ofDigitChars_ten_toDigits]

/-- The command of a choice is one for the parser. -/
theorem parseCommand_choice (u : Unicode) (pr : Nat) :
    ∃ cmd, parseCommand u ("review #" ++ toString (pr : Int)) = .command cmd := by
  have htext : ("review #" ++ toString (pr : Int)).toList =
      "review".toList ++ ' ' :: '#' :: Nat.toDigits 10 pr := by
    have hdigits : (toString (pr : Int)).toList = Nat.toDigits 10 pr := by
      show (toString pr).toList = _
      rw [Nat.toString_eq_repr, Nat.toList_repr]
    rw [String.toList_append, hdigits]
    rfl
  have htoken : hasToken u none ("review #" ++ toString (pr : Int)).toList = true := by
    refine hasToken_none_iff.mpr (Or.inr (Or.inl ⟨[], "review".toList,
      ' ' :: '#' :: Nat.toDigits 10 pr, htext, ?_, rfl, rfl⟩))
    unfold Spells
    decide +kernel
  have hdigitsOnly : ∀ ds : List Char, (∀ c ∈ ds, c.isDigit = true) → flags u 0 ds = [] := by
    intro ds hds
    induction ds with
    | nil => rfl
    | cons c ds ih =>
      obtain ⟨hc, hrest⟩ := List.forall_mem_cons.mp hds
      rw [flags_cons, ih hrest]
      rintro rest rfl -
      cases hc
  rw [command_iff_flags htoken, htext, onlyModelFlags_append rfl]
  refine ⟨onlyModelFlags_of_nil rfl, onlyModelFlags_of_nil ?_⟩
  rw [flags_cons fun rest h _ => absurd h (by decide)]
  exact hdigitsOnly _ isDigit_toDigits

end Buttons

/-! ## From the question to the review -/

namespace App

variable {cfg : AppConfig} {s : App}

/-- A payload that asks for nothing leaves the service as it is. -/
theorem slackPayload_nothing {p : SlackPayload} (hup : s.core.up = true)
    (h : cfg.trigger.processSlackEventPayload p = .nothing) :
    step cfg s (.slack p) = some (s, []) := by
  simp only [step, if_pos hup, slackPayload, h]

/-- A press of a button of a prompt dispatches a command, or nothing. -/
theorem slack_press (hup : s.core.up = true) {value : String}
    (hselect : "select_repo_".toList.isPrefixOf value.toList = true) :
    ∃ events, step cfg s (.slack (.blockActions value)) =
        some ({ s with dispatches := s.dispatches ++ events }, []) ∧
      ∀ event, events = [event] ↔ cfg.trigger.slackButton value = .dispatch event := by
  simp only [step, if_pos hup, slackPayload, TriggerDecisionEngine.processSlackEventPayload]
  cases hbutton : cfg.trigger.slackButton value with
  | nothing => exact ⟨[], by rw [List.append_nil], by simp⟩
  | dispatch event => exact ⟨[event], rfl, by simp⟩
  | approve run otherwise summary =>
    exact absurd hbutton (slackButton_ne_approve hselect run otherwise summary)

/-- Two repositories of `me`. -/
def twoRepoConfig : AppConfig :=
  { smallConfig true 1 with
    config := { repoConfig := [{ owner := "me", repo := "web" }, { owner := "me", repo := "lib" }],
                providers := ["free"] } }

end App

end PrReviewer.Model
