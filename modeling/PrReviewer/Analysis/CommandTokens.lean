import PrReviewer.Analysis.Commands
import PrReviewer.Analysis.ModelFlags

/-!
# What is taken for a command

`parse_command` looks for `@review`, for the word `review` and for a Slack mention anywhere in a
comment. Prose about reviews has the word in it, and a longer word may start with the token, so a
comment without the token is ignored only if it has neither.
-/

set_option autoImplicit false

namespace PrReviewer.Model

/-- The text is written, in any letter case, as the pattern. -/
def Spells (pat found : List Char) : Prop :=
  List.Forall₂ (fun p c => eqIgnoreCase p c = true) pat found

section Tokens

variable (u : Unicode) (text : List Char)

/-- `@review` stands in the text, perhaps in a longer word. -/
def HasAtReview : Prop :=
  ∃ before found after, text = before ++ (found ++ after) ∧ Spells "@review".toList found

/-- `@review` stands in the text as a token: no longer word goes on before or after it. -/
def HasReviewToken : Prop :=
  ∃ before found after, text = before ++ (found ++ after) ∧ Spells "@review".toList found ∧
    before.getLast?.any u.isWord = false ∧
    (after.head?.any fun c => u.isWord c || c == '-') = false

/-- The word `review` stands in the text. -/
def HasReviewWord : Prop :=
  ∃ before found after, text = before ++ (found ++ after) ∧ Spells "review".toList found ∧
    before.getLast?.any u.isWord = false ∧ after.head?.any u.isWord = false

/-- A Slack mention stands in the text. -/
def HasMention : Prop :=
  ∃ before name after, text = before ++ '<' :: '@' :: (name ++ '>' :: after) ∧ name ≠ [] ∧
    ∀ c ∈ name, (u.isWord c || c == '-') = true

end Tokens

section Patterns

variable {u : Unicode} {text : List Char}

/-- The address is found exactly where its letters are spelled. -/
theorem atReview_iff : atReview text = true ↔
    ∃ found after, text = found ++ after ∧ Spells "@review".toList found := by
  rw [atReview, Option.isSome_iff_exists]
  constructor
  · rintro ⟨after, h⟩
    obtain ⟨found, htext, hfound⟩ := afterIgnoreCase_eq_some.mp h
    exact ⟨found, after, htext, hfound⟩
  · rintro ⟨found, after, htext, hfound⟩
    exact ⟨after, afterIgnoreCase_eq_some.mpr ⟨found, htext, hfound⟩⟩

/-- A pattern matches a text in one way. -/
theorem wordReview_iff {before : Option Char} : wordReview u before text = true ↔
    ∃ found after, text = found ++ after ∧ Spells "review".toList found ∧
      before.any u.isWord = false ∧ after.head?.any u.isWord = false := by
  unfold wordReview
  cases hafter : afterIgnoreCase "review".toList text with
  | none =>
    refine iff_of_false (by simp) ?_
    rintro ⟨found, after, htext, hfound, -⟩
    rw [afterIgnoreCase_eq_some.mpr ⟨found, htext, hfound⟩] at hafter
    cases hafter
  | some rest =>
    simp only [Bool.and_eq_true, Bool.not_eq_true']
    constructor
    · intro h
      obtain ⟨found, htext, hfound⟩ := afterIgnoreCase_eq_some.mp hafter
      exact ⟨found, rest, htext, hfound, h⟩
    · rintro ⟨found, after, htext, hfound, h⟩
      rw [afterIgnoreCase_eq_some.mpr ⟨found, htext, hfound⟩] at hafter
      cases hafter
      exact h

/-- A mention is found exactly where a name stands in its brackets. -/
theorem slackMention_iff : slackMention u text = true ↔
    ∃ name after, text = '<' :: '@' :: (name ++ '>' :: after) ∧ name ≠ [] ∧
      ∀ c ∈ name, (u.isWord c || c == '-') = true := by
  have hbracket : u.isWord '>' = false := by
    simp [Unicode.isWord, isAscii]
  constructor
  · intro h
    unfold slackMention at h
    split at h
    · rename_i cs
      simp only [Bool.and_eq_true, Bool.not_eq_true', List.isEmpty_eq_false_iff, beq_iff_eq] at h
      obtain ⟨after, hafter⟩ := List.head?_eq_some_iff.mp h.2
      refine ⟨cs.takeWhile fun c => u.isWord c || c == '-', after, ?_, h.1, ?_⟩
      · rw [← hafter, List.prefix_iff_eq_append.mp (List.takeWhile_prefix _)]
      · intro c hc
        exact @List.mem_takeWhile_imp _ (fun c => u.isWord c || c == '-') cs c hc
    · cases h
  · rintro ⟨name, after, rfl, hne, hall⟩
    have htake : (name ++ '>' :: after).takeWhile (fun c => u.isWord c || c == '-') = name := by
      rw [List.takeWhile_append_of_pos hall, List.takeWhile_cons_of_neg (by simp [hbracket]),
        List.append_nil]
    simp [slackMention, htake, hne]

/-- **The search for a token** succeeds where one of the patterns matches. -/
theorem hasToken_iff (prev : Option Char) : hasToken u prev text = true ↔
    ∃ before rest, text = before ++ rest ∧
      (atReview rest = true ∨ wordReview u (before.getLast?.or prev) rest = true ∨
        slackMention u rest = true) := by
  induction text generalizing prev with
  | nil =>
    refine iff_of_false (by simp [hasToken]) ?_
    rintro ⟨before, rest, htext, h⟩
    obtain ⟨-, rfl⟩ := List.append_eq_nil_iff.mp htext.symm
    have hnone : afterIgnoreCase "review".toList [] = none := by decide +kernel
    rcases h with h | h | h
    · exact absurd h (by decide +kernel)
    · rw [wordReview, hnone] at h
      cases h
    · cases h
  | cons c cs ih =>
    rw [hasToken, Bool.or_eq_true, Bool.or_eq_true, Bool.or_eq_true, ih]
    constructor
    · rintro (((h | h) | h) | ⟨before, rest, rfl, h⟩)
      · exact ⟨[], c :: cs, rfl, Or.inl h⟩
      · exact ⟨[], c :: cs, rfl, Or.inr (Or.inl h)⟩
      · exact ⟨[], c :: cs, rfl, Or.inr (Or.inr h)⟩
      · refine ⟨c :: before, rest, rfl, ?_⟩
        have hlast : (c :: before).getLast?.or prev = before.getLast?.or (some c) := by
          cases before <;> simp [List.getLast?_cons]
        rw [hlast]
        exact h
    · rintro ⟨before, rest, htext, h⟩
      cases before with
      | nil =>
        obtain rfl : c :: cs = rest := htext
        rcases h with h | h | h
        · exact Or.inl (Or.inl (Or.inl h))
        · exact Or.inl (Or.inl (Or.inr h))
        · exact Or.inl (Or.inr h)
      | cons d before =>
        obtain ⟨rfl, rfl⟩ := List.cons.inj htext
        refine Or.inr ⟨before, rest, rfl, ?_⟩
        have hlast : (c :: before).getLast?.or prev = before.getLast?.or (some c) := by
          cases before <;> simp [List.getLast?_cons]
        rw [← hlast]
        exact h

/-- **What has a token**: `@review`, the word `review` or a mention. -/
theorem hasToken_none_iff : hasToken u none text = true ↔
    HasAtReview text ∨ HasReviewWord u text ∨ HasMention u text := by
  rw [hasToken_iff]
  constructor
  · rintro ⟨before, rest, rfl, h⟩
    rw [Option.or_none] at h
    rcases h with h | h | h
    · obtain ⟨found, after, rfl, hfound⟩ := atReview_iff.mp h
      exact Or.inl ⟨before, found, after, rfl, hfound⟩
    · obtain ⟨found, after, rfl, hfound, hbounds⟩ := wordReview_iff.mp h
      exact Or.inr (Or.inl ⟨before, found, after, rfl, hfound, hbounds⟩)
    · obtain ⟨name, after, rfl, hname⟩ := slackMention_iff.mp h
      exact Or.inr (Or.inr ⟨before, name, after, rfl, hname⟩)
  · rintro (⟨before, found, after, rfl, hfound⟩ | ⟨before, found, after, rfl, hfound, hbounds⟩ |
      ⟨before, name, after, rfl, hname⟩)
    · exact ⟨before, found ++ after, rfl, Or.inl (atReview_iff.mpr ⟨found, after, rfl, hfound⟩)⟩
    · refine ⟨before, found ++ after, rfl, Or.inr (Or.inl ?_)⟩
      rw [Option.or_none]
      exact wordReview_iff.mpr ⟨found, after, rfl, hfound, hbounds⟩
    · exact ⟨before, _, rfl, Or.inr (Or.inr (slackMention_iff.mpr ⟨name, after, rfl, hname⟩))⟩

end Patterns

/-- A comment without a command: it has neither the token nor a mention. -/
structure Prose (u : Unicode) (body : String) : Prop where
  token : ¬ HasReviewToken u body.toList
  mention : ¬ HasMention u body.toList

/-- A comment that mentions no review at all: `@review` stands in no longer word of it, and
`review` is none of its words. -/
structure Quiet (u : Unicode) (body : String) : Prop where
  token : ¬ HasAtReview body.toList
  word : ¬ HasReviewWord u body.toList

/-- The body is no command: `parse_command` returns `None`, and a comment with it is skipped and
leaves the service as it is. -/
structure NoCommand (cfg : AppConfig) (body : String) : Prop where
  parsed : parseCommand cfg.unicode body = .none
  skipped : ∀ e : NormalizedEvent, e.event = "issue_comment" → orEmpty e.commentBody = body →
    (cfg.trigger.decide e).action = .skip
  started : ∀ (e : NormalizedEvent) (s : App) (r : RunId), e.event = "issue_comment" →
    orEmpty e.commentBody = body → s.dispatchEvent cfg e r = some (s, [])

/-- A body is no command exactly when it has no token. -/
theorem parseCommand_eq_none_iff {u : Unicode} {body : String} :
    parseCommand u body = .none ↔ hasToken u none body.toList = false := by
  cases htoken : hasToken u none body.toList with
  | false => exact iff_of_true (parseCommand_no_token htoken) rfl
  | true =>
    refine iff_of_false ?_ (by simp)
    intro h
    by_cases hflags : ∀ f ∈ flags u 0 body.toList, f = "--model".toList
    · rw [parseCommand_plain htoken hflags] at h
      cases h
    · rw [not_forall] at hflags
      obtain ⟨f, hf⟩ := hflags
      rw [Classical.not_imp] at hf
      rw [parseCommand_bad_flag htoken hf.1 hf.2] at h
      cases h

/-- A comment whose body is no command is skipped, whoever its author is. -/
theorem decide_skip_of_none {cfg : AppConfig} {e : NormalizedEvent}
    (hcomment : e.event = "issue_comment")
    (hparse : parseCommand cfg.unicode (orEmpty e.commentBody) = .none) :
    (cfg.trigger.decide e).action = .skip := by
  unfold TriggerDecisionEngine.decide TriggerDecisionEngine.decideComment
  rw [if_pos hcomment]
  split
  · rfl
  · simp only [AppConfig.trigger, hparse]

/-- **A comment without a command is ignored** exactly if it mentions no review. -/
theorem no_command_iff (cfg : AppConfig) (body : String) (hprose : Prose cfg.unicode body) :
    NoCommand cfg body ↔ Quiet cfg.unicode body := by
  have hnone : parseCommand cfg.unicode body = .none ↔ Quiet cfg.unicode body := by
    rw [parseCommand_eq_none_iff, ← Bool.not_eq_true, hasToken_none_iff]
    constructor
    · exact fun h => ⟨fun ht => h (Or.inl ht), fun hw => h (Or.inr (Or.inl hw))⟩
    · rintro ⟨ht, hw⟩ (h | h | h)
      · exact ht h
      · exact hw h
      · exact hprose.mention h
  constructor
  · exact fun h => hnone.mp h.parsed
  · intro h
    have hparsed := hnone.mpr h
    have hskip : ∀ e : NormalizedEvent, e.event = "issue_comment" →
        orEmpty e.commentBody = body → (cfg.trigger.decide e).action = .skip := by
      intro e hcomment hbody
      exact decide_skip_of_none hcomment (hbody ▸ hparsed)
    refine ⟨hparsed, hskip, ?_⟩
    intro e s r hcomment hbody
    unfold App.dispatchEvent
    simp only [hskip e hcomment hbody]

/-- A review token contains the address. -/
theorem HasReviewToken.hasAtReview {u : Unicode} {text : List Char} (h : HasReviewToken u text) :
    HasAtReview text := by
  obtain ⟨before, found, after, htext, hfound, -⟩ := h
  exact ⟨before, found, after, htext, hfound⟩

/-- The address contains an at sign. -/
theorem at_mem_of_hasAtReview {text : List Char} (h : HasAtReview text) : '@' ∈ text := by
  obtain ⟨before, found, after, rfl, hfound⟩ := h
  have hpattern : "@review".toList = '@' :: "review".toList := by decide +kernel
  rw [hpattern] at hfound
  cases hfound with
  | cons hc _ => simp [eq_of_eqIgnoreCase (by decide) (by decide) hc]

/-- A text without an at sign is prose. -/
theorem prose_of_notMem {u : Unicode} {body : String} (h : '@' ∉ body.toList) : Prose u body := by
  constructor
  · exact fun ht => h (at_mem_of_hasAtReview ht.hasAtReview)
  · rintro ⟨before, name, after, htext, -⟩
    exact h (by rw [htext]; simp)

/-- An ordinary remark is no command. -/
theorem no_command_iff_lgtm : NoCommand (smallConfig true 1) "LGTM, nice work" := by
  have hno : ¬ hasToken .ascii none "LGTM, nice work".toList = true := by decide +kernel
  rw [hasToken_none_iff, not_or, not_or] at hno
  exact (no_command_iff (smallConfig true 1) "LGTM, nice work"
    (prose_of_notMem (by decide +kernel))).mpr ⟨hno.1, hno.2.1⟩

/-- A sentence with the word `review` in it starts a review. -/
theorem prose_starts_review :
    Prose .ascii "I will review this tomorrow." ∧
      parseCommand .ascii "I will review this tomorrow." = .command { kind := "review" } ∧
      ¬ NoCommand (smallConfig true 1) "I will review this tomorrow." ∧
      ((App.running.dispatchEvent (smallConfig true 1)
        (App.ownComment "I will review this tomorrow.") "r1").any fun x => x.2 ≠ []) = true := by
  have hparse : parseCommand .ascii "I will review this tomorrow." =
      .command { kind := "review" } := by
    decide +kernel
  refine ⟨prose_of_notMem (by decide +kernel), hparse, ?_, by decide +kernel⟩
  intro h
  have hnone : parseCommand .ascii "I will review this tomorrow." = .none := h.parsed
  rw [hparse] at hnone
  cases hnone

end PrReviewer.Model
