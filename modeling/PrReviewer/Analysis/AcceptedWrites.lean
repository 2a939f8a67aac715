import PrReviewer.Analysis.FailClosed
import PrReviewer.Model.ReviewRequests

/-!
# What GitHub accepts of one `submit_review`

A request is decided by one of its answers, the first that is neither 403 nor 429, or the fifth;
GitHub has accepted none of the tries before. So a call sends at most three requests that count,
and what is accepted in the end can be read off the answers that decide them.
-/

set_option autoImplicit false

namespace PrReviewer.Model

open PrReviewer.Library

variable {rules : TextRules} {answers : Nat → Answer} {r : Review}

/-! ## Answers -/

/-- 403 or 429 -/
def Answer.limited : Answer → Bool
  | failed => false
  | response status _ => status == 403 || status == 429

/-- A 2xx answer that is not one of the two GitHub accepts a write with. -/
def Answer.ignored : Answer → Bool
  | failed => false
  | response status _ => status != 200 && status != 201 && decide (200 ≤ status ∧ status < 300)

/-- The content can be decoded. -/
def Content.decodes : Content → Bool
  | undecodable => false
  | _ => true

/-- The `id` in the content. -/
def Content.id? : Content → Option Value
  | json (.map entries) => Value.pair? entries (.str "id")
  | _ => none

/-- The write is accepted with an `id` that `int` reads. -/
def Answer.created (rules : TextRules) (a : Answer) : Bool :=
  match a with
  | failed => false
  | response _ content => a.accepted && content.id?.any (·.readsInt rules)

/-- The write is accepted, and the answer can be decoded. -/
def Answer.confirmed (a : Answer) : Bool :=
  match a with
  | failed => false
  | response _ content => a.accepted && content.decodes

/-- Nothing in the answer raises: it is ignored, or accepts with a content whose `id`, if there is
one, `int` reads. -/
def Answer.clean (rules : TextRules) (a : Answer) : Bool :=
  match a with
  | failed => false
  | response _ content =>
    a.ignored || a.confirmed && content.id?.all (·.readsInt rules)

/-- An answer that decodes and has no `id` gives no identifier. -/
theorem readId_of_none {content : Content} (hdecodes : content.decodes = true)
    (hid : content.id? = none) : content.data >>= readId rules = .ok none := by
  cases content with
  | empty => rfl
  | undecodable => cases hdecodes
  | json v =>
    cases v with
    | scalar s => rfl
    | list items => rfl
    | map entries =>
      change Value.pair? entries (.str "id") = none at hid
      show readId rules (.map entries) = _
      simp only [readId, hid]

/-- Reading an identifier succeeds exactly on the values that `int` reads. -/
theorem readId_of_some {content : Content} {v : Value} (hid : content.id? = some v) :
    content.decodes = true ∧ (v.readsInt rules = true →
      ∃ n, content.data >>= readId rules = .ok (some n)) ∧
      (v.readsInt rules = false → ∃ e, content.data >>= readId rules = .error e) := by
  cases content with
  | empty => cases hid
  | undecodable => cases hid
  | json w =>
    cases w with
    | scalar s => cases hid
    | list items => cases hid
    | map entries =>
      change Value.pair? entries (.str "id") = some v at hid
      refine ⟨rfl, ?_, ?_⟩
      · intro hreads
        obtain ⟨n, hn⟩ := Value.runs_toInt.mpr hreads
        refine ⟨n, ?_⟩
        show readId rules (.map entries) = _
        simp only [readId, hid, hn]
      · intro hreads
        cases hint : v.toInt rules with
        | ok n =>
          rw [Value.runs_toInt.mp ⟨n, hint⟩] at hreads
          cases hreads
        | error e =>
          refine ⟨.builtin e, ?_⟩
          show readId rules (.map entries) = _
          simp only [readId, hid, hint]

/-- Reading raises nothing exactly when the body decodes and its `id`, if any, is read by `int`. -/
theorem Content.runs_reading {content : Content} :
    Runs (content.data >>= readId rules) ↔
      (content.decodes && content.id?.all (·.readsInt rules)) = true := by
  cases hid : content.id? with
  | none =>
    cases hdecodes : content.decodes with
    | true => simp [readId_of_none hdecodes hid]
    | false =>
      cases content with
      | undecodable => simp [data, Bind.bind, Except.bind]
      | empty => cases hdecodes
      | json v => cases hdecodes
  | some v =>
    obtain ⟨hdecodes, hreads, hraises⟩ := @readId_of_some rules _ _ hid
    simp only [hdecodes, Option.all_some, Bool.true_and]
    cases hint : v.readsInt rules with
    | true =>
      obtain ⟨n, hn⟩ := hreads hint
      simp [hn]
    | false =>
      obtain ⟨e, he⟩ := hraises hint
      simp [he]

/-- Reading gives an identifier exactly when the body has an `id` that `int` reads. -/
theorem Content.reading_created {content : Content} :
    (∃ n, content.data >>= readId rules = .ok (some n)) ↔
      content.id?.any (·.readsInt rules) = true := by
  cases hid : content.id? with
  | none =>
    simp only [Option.any_none, Bool.false_eq_true, iff_false]
    rintro ⟨n, hn⟩
    obtain ⟨v, hv, -⟩ := bind_eq_ok.mp hn
    have hdecodes : content.decodes = true := by
      cases content with
      | undecodable => cases hv
      | empty => rfl
      | json w => rfl
    rw [readId_of_none hdecodes hid] at hn
    cases hn
  | some v =>
    obtain ⟨-, hreads, hraises⟩ := @readId_of_some rules _ _ hid
    simp only [Option.any_some]
    cases hint : v.readsInt rules with
    | true => simpa using hreads hint
    | false =>
      obtain ⟨e, he⟩ := hraises hint
      simp [he]

/-- What `_retryable` makes of the last answer of a request. -/
def Answer.outcome : Answer → Except ClientError Value
  | failed => .error .transport
  | response status content =>
    if status = 200 ∨ status = 201 then content.data
    else if status = 404 then .error .notFound
    else if status = 403 ∨ status = 429 then .error .rateLimited
    else if 200 ≤ status ∧ status < 300 then .ok (.scalar .null)
    else .error (.status status)

/-- The index of the answer that decides a request whose next try gets the `i`-th answer, when
`left` more tries are left after it. -/
def decisive (answers : Nat → Answer) : Nat → Nat → Nat
  | 0, i => i
  | left + 1, i => if (answers i).limited then decisive answers left (i + 1) else i

/-- A rate-limited write was not accepted. -/
theorem Answer.accepted_of_limited {a : Answer} (h : a.limited = true) : a.accepted = false := by
  cases a with
  | failed => rfl
  | response status content =>
    simp only [limited, Bool.or_eq_true, beq_iff_eq] at h
    simp only [accepted, Bool.or_eq_false_iff, beq_eq_false_iff_ne]
    omega

/-- An ignored answer is not that of an accepted write. -/
theorem Answer.accepted_of_ignored {a : Answer} (h : a.ignored = true) : a.accepted = false := by
  cases a with
  | failed => rfl
  | response status content =>
    simp only [ignored, Bool.and_eq_true, bne_iff_ne, ne_eq, decide_eq_true_eq] at h
    simp [accepted, h.1.1, h.1.2]

/-- A confirmed write was accepted. -/
theorem Answer.accepted_of_confirmed {a : Answer} (h : a.confirmed = true) : a.accepted = true := by
  cases a with
  | failed => cases h
  | response status content => exact (Bool.and_eq_true_iff.mp h).1

/-- A write answered with an identifier was accepted. -/
theorem Answer.accepted_of_created {a : Answer} (h : a.created rules = true) :
    a.accepted = true := by
  cases a with
  | failed => cases h
  | response status content => exact (Bool.and_eq_true_iff.mp h).1

/-- The call ends with the data of an accepted answer. -/
theorem Answer.outcome_of_accepted {status : Nat} {content : Content}
    (h : (response status content).accepted = true) :
    (response status content).outcome = content.data := by
  simp only [accepted, Bool.or_eq_true, beq_iff_eq] at h
  simp only [outcome, if_pos h]

/-- The call ends with nothing on an answer it ignores. -/
theorem Answer.outcome_of_ignored {a : Answer} (h : a.ignored = true) :
    a.outcome = .ok (.scalar .null) := by
  cases a with
  | failed => cases h
  | response status content =>
    simp only [ignored, Bool.and_eq_true, bne_iff_ne, ne_eq, decide_eq_true_eq] at h
    obtain ⟨⟨h200, h201⟩, hsuccess⟩ := h
    have hgone : status ≠ 404 := by omega
    have hlimited : ¬ (status = 403 ∨ status = 429) := by omega
    simp only [outcome, h200, h201, or_self, if_false, if_neg hgone, if_neg hlimited,
      if_pos hsuccess]

/-- The call raises on an answer that is neither accepted nor ignored. -/
theorem Answer.outcome_of_rejected {a : Answer} (haccepted : a.accepted = false)
    (hignored : a.ignored = false) : ¬ Runs a.outcome := by
  cases a with
  | failed => simp [outcome]
  | response status content =>
    simp only [accepted, Bool.or_eq_false_iff, beq_eq_false_iff_ne] at haccepted
    have hfailed : ¬ (200 ≤ status ∧ status < 300) := by
      intro hsuccess
      simp [ignored, haccepted.1, haccepted.2, hsuccess] at hignored
    simp only [outcome, haccepted.1, haccepted.2, or_self, if_false, if_neg hfailed]
    split_ifs <;> simp

/-- The request returns exactly if its last answer is ignored, or accepts and can be decoded. -/
theorem Answer.runs_outcome {a : Answer} :
    Runs a.outcome ↔ a.ignored = true ∨ a.confirmed = true := by
  cases haccepted : a.accepted with
  | true =>
    cases a with
    | failed => cases haccepted
    | response status content =>
      rw [outcome_of_accepted haccepted]
      have hignored : (response status content).ignored = false := by
        by_contra hignored
        rw [accepted_of_ignored (Bool.not_eq_false _ ▸ hignored)] at haccepted
        cases haccepted
      have hconfirmed : (response status content).confirmed = content.decodes := by
        simp only [confirmed, haccepted, Bool.true_and]
      rw [hignored, hconfirmed]
      cases content <;> simp [Content.data, Content.decodes]
  | false =>
    have hconfirmed : a.confirmed = false := by
      by_contra hconfirmed
      rw [accepted_of_confirmed (Bool.not_eq_false _ ▸ hconfirmed)] at haccepted
      cases haccepted
    rw [hconfirmed]
    cases hignored : a.ignored with
    | true => simp [outcome_of_ignored hignored]
    | false => simpa using outcome_of_rejected haccepted hignored

/-- Reading the answer raises exactly if it is not clean. -/
theorem Answer.runs_reading {a : Answer} :
    Runs (a.outcome >>= readId rules) ↔ a.clean rules = true := by
  cases a with
  | failed => simp [outcome, clean, Bind.bind, Except.bind]
  | response status content =>
    cases hignored : (response status content).ignored with
    | true =>
      rw [outcome_of_ignored hignored]
      simp only [clean, hignored, Bool.true_or, iff_true]
      exact ⟨none, rfl⟩
    | false =>
      cases haccepted : (response status content).accepted with
      | false =>
        have hraises := outcome_of_rejected haccepted hignored
        simp only [clean, confirmed, hignored, haccepted, Bool.false_and, Bool.or_self,
          Bool.false_eq_true, iff_false]
        intro hruns
        obtain ⟨v, hv, -⟩ := runs_bind.mp hruns
        exact hraises ⟨v, hv⟩
      | true =>
        rw [outcome_of_accepted haccepted]
        simp only [clean, confirmed, hignored, haccepted, Bool.true_and, Bool.false_or]
        exact Content.runs_reading

/-- The reading ends with an `id` exactly if the review was created. -/
theorem Answer.reading_created {a : Answer} :
    (∃ n, a.outcome >>= readId rules = .ok (some n)) ↔ a.created rules = true := by
  cases a with
  | failed => simp [outcome, created, Bind.bind, Except.bind]
  | response status content =>
    cases haccepted : (response status content).accepted with
    | true =>
      rw [outcome_of_accepted haccepted]
      simp only [created, haccepted, Bool.true_and]
      exact Content.reading_created
    | false =>
      simp only [created, haccepted, Bool.false_and, Bool.false_eq_true, iff_false]
      rintro ⟨n, hn⟩
      obtain ⟨v, hv, hread⟩ := bind_eq_ok.mp hn
      cases hignored : (response status content).ignored with
      | true =>
        rw [outcome_of_ignored hignored] at hv
        cases hv
        cases hread
      | false => exact outcome_of_rejected haccepted hignored ⟨v, hv⟩

/-! ## One request -/

/-- A try that is not followed by another one ends the request. -/
theorem retryable_last {req : PostRequest} {left : Nat} {sent : List Sent}
    (h : left = 0 ∨ (answers sent.length).limited = false) :
    retryable answers req left sent =
      ⟨(answers sent.length).outcome, sent ++ [⟨req, answers sent.length⟩]⟩ := by
  unfold retryable
  cases ha : answers sent.length with
  | failed => rfl
  | response status content =>
    simp only [Answer.outcome]
    rw [ha] at h
    split_ifs with haccepted hgone hlimited hsuccess
    · rfl
    · rfl
    · rcases h with rfl | h
      · rfl
      · simp only [Answer.limited, Bool.or_eq_false_iff, beq_eq_false_iff_ne] at h
        omega
    · rfl
    · rfl

/-- A rate-limited try is followed by the next one. -/
theorem retryable_limited {req : PostRequest} {left : Nat} {sent : List Sent}
    (h : (answers sent.length).limited = true) :
    retryable answers req (left + 1) sent =
      retryable answers req left (sent ++ [⟨req, answers sent.length⟩]) := by
  conv_lhs => unfold retryable
  cases ha : answers sent.length with
  | failed =>
    rw [ha] at h
    cases h
  | response status content =>
    rw [ha] at h
    simp only [Answer.limited, Bool.or_eq_true, beq_iff_eq] at h
    have haccepted : ¬ (status = 200 ∨ status = 201) := by omega
    have hgone : status ≠ 404 := by omega
    simp only [if_neg haccepted, if_neg hgone, if_pos h]

/-- **One request.** Its result is the outcome of the answer that decides it, its tries use up the
answers to there, and GitHub accepts at most the last of them. -/
theorem retryable_spec {req : PostRequest} {left : Nat} {sent : List Sent} :
    let tries := retryable answers req left sent
    let last := decisive answers left sent.length
    tries.result = (answers last).outcome ∧ tries.sent.length = last + 1 ∧
      acceptedOf tries.sent = acceptedOf sent ++ acceptedOf [⟨req, answers last⟩] := by
  induction left generalizing sent with
  | zero =>
    rw [retryable_last (.inl rfl)]
    refine ⟨rfl, by simp [decisive], ?_⟩
    simp [acceptedOf, decisive]
  | succ left ih =>
    cases hlimited : (answers sent.length).limited with
    | false =>
      rw [retryable_last (.inr hlimited)]
      have hlast : decisive answers (left + 1) sent.length = sent.length := by
        simp [decisive, hlimited]
      rw [hlast]
      exact ⟨rfl, by simp, by simp [acceptedOf]⟩
    | true =>
      rw [retryable_limited hlimited]
      have hlast : decisive answers (left + 1) sent.length
          = decisive answers left (sent.length + 1) := by
        simp [decisive, hlimited]
      rw [hlast]
      have hrest := @ih (sent ++ [⟨req, answers sent.length⟩])
      rw [List.length_append, List.length_singleton] at hrest
      have hnot : acceptedOf (sent ++ [⟨req, answers sent.length⟩]) = acceptedOf sent := by
        simp [acceptedOf, Answer.accepted_of_limited hlimited]
      rw [hnot] at hrest
      exact hrest

/-! ## The call -/

/-- The text of the request carries the marker of the run. -/
def PostRequest.Marked (req : PostRequest) (run : RunId) : Prop :=
  ∃ summary, req.body = summary ++ reviewMarker run

/-- One accepted write with the marker if the call returns, and none if it raises. -/
def ExactlyOnce (run : RunId) (ended : Ended Int) : Prop :=
  match ended.result with
  | .ok _ => ∃ s, acceptedOf ended.sent = [s] ∧ s.request.Marked run
  | .error _ => acceptedOf ended.sent = []

/-- The answer to the comment suits the number of reviews accepted before it: none, unless the
comment is not posted and yet nothing is raised. -/
def CommentFits (reviews : Nat) (comment : Answer) : Prop :=
  if comment.ignored then reviews = 1
  else reviews = 0 ∧ (comment.accepted = true → comment.confirmed = true)

/-- The answers that decide the requests of the call suit each other: the call stops at the first
one that is accepted. -/
def AcceptedOnce (rules : TextRules) (answers : Nat → Answer) (r : Review) : Prop :=
  let i := decisive answers moreTries 0
  let j := decisive answers moreTries (i + 1)
  let k := decisive answers moreTries (j + 1)
  let reviews := (answers i).accepted.toNat
  if (answers i).clean rules then (answers i).accepted = true
  else if r.inline = [] then CommentFits reviews (answers j)
  else if (answers j).created rules then (answers i).accepted = false
  else CommentFits (reviews + (answers j).accepted.toNat) (answers k)

/-- One request is accepted once or not at all. -/
theorem length_acceptedOf (req : PostRequest) (a : Answer) :
    (acceptedOf [⟨req, a⟩]).length = a.accepted.toNat := by
  cases h : a.accepted <;> simp [acceptedOf, h]

/-- An accepted write of one request is that request. -/
theorem mem_acceptedOf_singleton {s : Sent} {req : PostRequest} {a : Answer}
    (h : s ∈ acceptedOf [⟨req, a⟩]) : s.request = req := by
  rw [List.mem_singleton.mp (List.mem_filter.mp h).1]

/-- Where all that is accepted carries the marker, the call is judged by the number. -/
theorem exactlyOnce_iff {run : RunId} {ended : Ended Int}
    (hmarked : ∀ s ∈ acceptedOf ended.sent, s.request.Marked run) :
    ExactlyOnce run ended ↔ (Runs ended.result → (acceptedOf ended.sent).length = 1) ∧
      (¬ Runs ended.result → (acceptedOf ended.sent).length = 0) := by
  unfold ExactlyOnce
  cases ended.result with
  | ok n =>
    simp only [runs_ok, forall_const, not_true, false_imp_iff, and_true]
    constructor
    · rintro ⟨s, hs, -⟩
      rw [hs, List.length_singleton]
    · intro hone
      obtain ⟨s, hs⟩ := List.length_eq_one_iff.mp hone
      exact ⟨s, hs, hmarked s (hs ▸ List.mem_singleton_self s)⟩
  | error e =>
    simp only [not_runs_error, false_imp_iff, not_false_iff, forall_const, true_and]
    rw [List.length_eq_zero_iff]

/-- **The comment** at the end of a call that has had `reviews` reviews accepted. -/
theorem comment_exactlyOnce_iff {sent : List Sent}
    (hmarked : ∀ s ∈ acceptedOf sent, s.request.Marked r.run) :
    ExactlyOnce r.run (r.comment answers sent) ↔
      CommentFits (acceptedOf sent).length (answers (decisive answers moreTries sent.length)) := by
  obtain ⟨hresult, -, haccepted⟩ := @retryable_spec answers (.comment r.ref r.body) moreTries sent
  generalize answers (decisive answers moreTries sent.length) = last at hresult haccepted ⊢
  have hruns : Runs (r.comment answers sent).result ↔ Runs last.outcome := by
    rw [← hresult]
    exact runs_map.trans runs_map
  have hsent : acceptedOf (r.comment answers sent).sent
      = acceptedOf sent ++ acceptedOf [⟨.comment r.ref r.body, last⟩] := haccepted
  rw [exactlyOnce_iff, hruns, Answer.runs_outcome, hsent, List.length_append, length_acceptedOf]
  · unfold CommentFits
    cases hignored : last.ignored with
    | true =>
      rw [Answer.accepted_of_ignored hignored]
      simp
    | false =>
      cases hconfirmed : last.confirmed with
      | true =>
        rw [Answer.accepted_of_confirmed hconfirmed]
        simp
      | false =>
        cases last.accepted <;> simp
  · intro s hs
    rw [hsent] at hs
    rcases List.mem_append.mp hs with hs | hs
    · exact hmarked s hs
    · rw [mem_acceptedOf_singleton hs]
      exact ⟨r.summary, rfl⟩

/-- A request of the review keeps all that is accepted marked. -/
theorem marked_retryable {req : PostRequest} {sent : List Sent} (hreq : req.body = r.body)
    (hmarked : ∀ s ∈ acceptedOf sent, s.request.Marked r.run) :
    ∀ s ∈ acceptedOf (retryable answers req moreTries sent).sent, s.request.Marked r.run := by
  obtain ⟨-, -, haccepted⟩ := @retryable_spec answers req moreTries sent
  intro s hs
  rw [haccepted] at hs
  rcases List.mem_append.mp hs with hs | hs
  · exact hmarked s hs
  · rw [mem_acceptedOf_singleton hs]
    exact ⟨r.summary, hreq⟩

/-- **The second request** and what follows it. -/
theorem summaryOnly_exactlyOnce_iff {sent : List Sent}
    (hmarked : ∀ s ∈ acceptedOf sent, s.request.Marked r.run) :
    let j := decisive answers moreTries sent.length
    let k := decisive answers moreTries (j + 1)
    ExactlyOnce r.run (r.summaryOnly rules answers sent) ↔
      if (answers j).created rules then (acceptedOf sent).length = 0
      else CommentFits ((acceptedOf sent).length + (answers j).accepted.toNat) (answers k) := by
  intro j k
  obtain ⟨hresult, hlength, haccepted⟩ := @retryable_spec answers r.requestNoInline moreTries sent
  have hmarked' := @marked_retryable answers r r.requestNoInline sent rfl hmarked
  have hcount : (acceptedOf (retryable answers r.requestNoInline moreTries sent).sent).length
      = (acceptedOf sent).length + (answers j).accepted.toNat := by
    rw [haccepted, List.length_append, length_acceptedOf]
  have hcomment := @comment_exactlyOnce_iff answers r _ hmarked'
  rw [hcount, hlength] at hcomment
  unfold Review.summaryOnly
  simp only [hresult]
  cases hread : (answers j).outcome >>= readId rules with
  | error e =>
    have hnot : ¬ (answers j).created rules = true := by
      rw [← Answer.reading_created, hread]
      simp
    rw [if_neg hnot]
    exact hcomment
  | ok found =>
    cases found with
    | none =>
      have hnot : ¬ (answers j).created rules = true := by
        rw [← Answer.reading_created, hread]
        simp
      rw [if_neg hnot]
      exact hcomment
    | some n =>
      have hcreated : (answers j).created rules = true := Answer.reading_created.mp ⟨n, hread⟩
      rw [if_pos hcreated, exactlyOnce_iff hmarked', hcount, Answer.accepted_of_created hcreated]
      simp

/-- **One accepted write for one call**, exactly for the scripts whose deciding answers suit each
other. -/
theorem submitReview_exactlyOnce_iff (rules : TextRules) (answers : Nat → Answer) (r : Review) :
    ExactlyOnce r.run (submitReview rules answers r) ↔ AcceptedOnce rules answers r := by
  obtain ⟨hresult, hlength, haccepted⟩ := @retryable_spec answers r.request moreTries []
  have hmarked := @marked_retryable answers r r.request [] rfl (by simp [acceptedOf])
  have hcount : (acceptedOf (retryable answers r.request moreTries []).sent).length
      = (answers (decisive answers moreTries 0)).accepted.toNat := by
    rw [haccepted, List.length_append, length_acceptedOf]
    simp [acceptedOf]
  change _ = decisive answers moreTries 0 + 1 at hlength
  change _ = (answers (decisive answers moreTries 0)).outcome at hresult
  have hcomment := @comment_exactlyOnce_iff answers r _ hmarked
  have hsecond := @summaryOnly_exactlyOnce_iff rules answers r _ hmarked
  rw [hcount, hlength] at hcomment hsecond
  unfold submitReview AcceptedOnce
  simp only [hresult]
  cases hread : (answers (decisive answers moreTries 0)).outcome >>= readId rules with
  | ok found =>
    have hclean := Answer.runs_reading.mp ⟨found, hread⟩
    rw [if_pos hclean]
    cases found with
    | none =>
      rw [exactlyOnce_iff hmarked, hcount]
      simp
    | some n =>
      rw [exactlyOnce_iff hmarked, hcount]
      simp
  | error e =>
    have hnot : ¬ (answers (decisive answers moreTries 0)).clean rules = true := by
      rw [← Answer.runs_reading, hread]
      exact not_runs_error e
    rw [if_neg hnot]
    by_cases hinline : r.inline = []
    · simp only [if_pos hinline]
      exact hcomment
    · simp only [if_neg hinline]
      refine hsecond.trans ?_
      rw [Bool.toNat_eq_zero]

/-- GitHub accepts the first request with an answer that cannot be decoded, and the comment after
it with a plain one. -/
def garbledThenComment (i : Nat) : Answer :=
  if i = 0 then .response 201 .undecodable else .response 201 .empty

/-- A review without inline comments. -/
def plainReview : Review :=
  ⟨⟨"acme", "app", some 1⟩, some "abc123", "LGTM", [], "run-1", .comment⟩

/-- A call that posts exactly once posts at most once. -/
theorem ExactlyOnce.length_le {run : RunId} {ended : Ended Int} (h : ExactlyOnce run ended) :
    (acceptedOf ended.sent).length ≤ 1 := by
  unfold ExactlyOnce at h
  cases hresult : ended.result with
  | ok n =>
    rw [hresult] at h
    obtain ⟨s, hs, -⟩ := h
    rw [hs, List.length_singleton]
  | error e =>
    rw [hresult] at h
    rw [h, List.length_nil]
    exact Nat.zero_le 1

/-- **Two accepted writes**: the review, whose answer cannot be decoded, and the comment posted in
its stead. -/
theorem garbled_review_posted_twice :
    (submitReview Load.plainRules garbledThenComment plainReview).result.toOption = some 0 ∧
      (acceptedOf (submitReview Load.plainRules garbledThenComment plainReview).sent).length = 2 ∧
      ¬ ∀ (rules : TextRules) (answers : Nat → Answer) (r : Review),
        ExactlyOnce r.run (submitReview rules answers r) := by
  have htwo : (acceptedOf (submitReview Load.plainRules garbledThenComment plainReview).sent).length
      = 2 := by
    decide +kernel
  refine ⟨by decide +kernel, htwo, ?_⟩
  intro hall
  have hone := (hall Load.plainRules garbledThenComment plainReview).length_le
  rw [htwo] at hone
  omega

end PrReviewer.Model
