import PrReviewer.Model.RetryLoop

/-!
# The retry loop is bounded and exact

The invariant of the loop: every response so far was 403 or 429, the attempt is one ahead of the
requests, and `retry_after` is assigned from the second turn on. It carries the loop to the
first response of another kind, or to the fifth request.
-/

set_option autoImplicit false

namespace PrReviewer.Model

open PrReviewer.Library

/-- What a response that is not 403 or 429 makes of the call. -/
structure Answered (resp : Response) (result : Except RetryError Value) : Prop where
  json : resp.status = 200 ∨ resp.status = 201 → ∀ v, resp.content = .json v → result = .ok v
  empty : resp.status = 200 ∨ resp.status = 201 → resp.content = .empty → result = .ok .empty
  undecodable : resp.status = 200 ∨ resp.status = 201 → resp.content = .undecodable →
    result = .error (.client .decode)
  success : 200 ≤ resp.status → resp.status < 300 → resp.status ≠ 200 → resp.status ≠ 201 →
    result = .ok (.scalar .null)
  notFound : resp.status = 404 → result = .error (.client .notFound)
  status : ¬ (200 ≤ resp.status ∧ resp.status < 300) → resp.status ≠ 404 →
    result = .error (.client (.status resp.status))

/-! ## The kinds of answer -/

section Answered

variable {resp : Response}

/-- A 200 or 201 is answered with its content. -/
theorem answered_ok (hok : resp.status = 200 ∨ resp.status = 201) :
    Answered resp (resp.content.data.mapError .client) where
  json := fun _ v hv => by rw [hv]; rfl
  empty := fun _ hempty => by rw [hempty]; rfl
  undecodable := fun _ hundecodable => by rw [hundecodable]; rfl
  success := fun _ _ h200 h201 => absurd hok (not_or.mpr ⟨h200, h201⟩)
  notFound := by omega
  status := by omega

/-- A 404 is answered as missing. -/
theorem answered_notFound (hmissing : resp.status = 404) :
    Answered resp (.error (.client .notFound)) where
  json := by omega
  empty := by omega
  undecodable := by omega
  success := by omega
  notFound := fun _ => rfl
  status := fun _ hother => absurd hmissing hother

/-- Another success is answered with nothing. -/
theorem answered_success (hok : ¬ (resp.status = 200 ∨ resp.status = 201))
    (hsuccess : 200 ≤ resp.status ∧ resp.status < 300) :
    Answered resp (.ok (.scalar .null)) where
  json := fun h => absurd h hok
  empty := fun h => absurd h hok
  undecodable := fun h => absurd h hok
  success := fun _ _ _ _ => rfl
  notFound := by omega
  status := fun h => absurd hsuccess h

/-- Another failure is answered with its status. -/
theorem answered_status (hmissing : resp.status ≠ 404)
    (hfailure : ¬ (200 ≤ resp.status ∧ resp.status < 300)) :
    Answered resp (.error (.client (.status resp.status))) where
  json := by omega
  empty := by omega
  undecodable := by omega
  success := by omega
  notFound := fun h => absurd h hmissing
  status := fun _ _ => rfl

end Answered

/-- What an answer makes of the call is never the rate limit, and never the unassigned variable. -/
theorem Answered.result_ne {resp : Response} {result : Except RetryError Value}
    (h : Answered resp result) :
    (∀ delay, result ≠ .error (.rateLimit delay)) ∧ result ≠ .error .unbound := by
  by_cases hok : resp.status = 200 ∨ resp.status = 201
  · cases hcontent : resp.content with
    | empty => simp [h.empty hok hcontent]
    | undecodable => simp [h.undecodable hok hcontent]
    | json v => simp [h.json hok v hcontent]
  · by_cases hsuccess : 200 ≤ resp.status ∧ resp.status < 300
    · obtain ⟨h200, h201⟩ := not_or.mp hok
      simp [h.success hsuccess.1 hsuccess.2 h200 h201]
    · by_cases hmissing : resp.status = 404
      · simp [h.notFound hmissing]
      · simp [h.status hsuccess hmissing]

/-- The error as the callers of `_retryable` see it. -/
def RetryError.asClient : RetryError → Option ClientError
  | client e => some e
  | rateLimit _ => some .rateLimited
  | unbound => none

namespace RetryEnv

variable (env : RetryEnv)

/-! ## One turn -/

/-- A response that is not 403 or 429 ends the loop. -/
theorem turn_of_not_limited {st : RetryState} (h : ¬ (env.responses st.requests).limited) :
    ∃ result, env.turn st = .leave ⟨result, st.requests + 1, st.slept⟩ ∧
      Answered (env.responses st.requests) result := by
  generalize hresp : env.responses st.requests = resp at h
  unfold turn
  rw [hresp]
  by_cases hok : resp.status = 200 ∨ resp.status = 201
  · simp only [if_pos hok]
    exact ⟨_, rfl, answered_ok hok⟩
  · by_cases hmissing : resp.status = 404
    · simp only [if_neg hok, if_pos hmissing]
      exact ⟨_, rfl, answered_notFound hmissing⟩
    · have hagain : ¬ (resp.limited ∧ st.attempt < 5) := fun hlim => h hlim.1
      simp only [if_neg hok, if_neg hmissing, if_neg hagain, if_neg h]
      by_cases hsuccess : 200 ≤ resp.status ∧ resp.status < 300
      · rw [if_pos hsuccess]
        exact ⟨_, rfl, answered_success hok hsuccess⟩
      · rw [if_neg hsuccess]
        exact ⟨_, rfl, answered_status hmissing hsuccess⟩

/-- A rate limit is neither a 200, a 201 nor a 404. -/
theorem limited_status {resp : Response} (h : resp.limited) :
    ¬ (resp.status = 200 ∨ resp.status = 201) ∧ resp.status ≠ 404 := by
  rcases h with h | h <;> omega

/-- A response of 403 or 429 before the fifth attempt leads to a sleep and the next request. -/
theorem turn_of_limited {st : RetryState} (h : (env.responses st.requests).limited)
    (hattempt : st.attempt < 5) :
    ∃ t : RetryState, env.turn st = .again t ∧ t.requests = st.requests + 1 ∧
      t.attempt = st.attempt + 1 ∧ t.retryAfter ≠ none := by
  obtain ⟨hok, hmissing⟩ := limited_status h
  unfold turn
  simp only [if_neg hok, if_neg hmissing, if_pos (And.intro h hattempt)]
  exact ⟨_, rfl, rfl, rfl, Option.some_ne_none _⟩

/-- The same response to the fifth attempt is raised. -/
theorem turn_of_spent {st : RetryState} (h : (env.responses st.requests).limited)
    (hattempt : ¬ st.attempt < 5) (hassigned : st.retryAfter ≠ none) :
    ∃ delay, env.turn st =
      .leave ⟨.error (.rateLimit delay), st.requests + 1, st.slept⟩ := by
  obtain ⟨hok, hmissing⟩ := limited_status h
  obtain ⟨retryAfter, hretry⟩ := Option.ne_none_iff_exists'.mp hassigned
  have hagain : ¬ ((env.responses st.requests).limited ∧ st.attempt < 5) :=
    fun hlim => hattempt hlim.2
  unfold turn
  simp only [if_neg hok, if_neg hmissing, if_neg hagain, if_pos h, hretry]
  exact ⟨_, rfl⟩

/-! ## The loop -/

/-- The invariant of the loop. -/
structure Retrying (st : RetryState) : Prop where
  attempt : st.attempt = st.requests + 1
  bound : st.requests < 5
  limited : ∀ i < st.requests, (env.responses i).limited
  assigned : 0 < st.requests → st.retryAfter ≠ none

/-- The first attempt is one of the retries. -/
theorem retrying_start : env.Retrying {} where
  attempt := rfl
  bound := by decide
  limited := fun i hi => absurd hi (Nat.not_lt_zero i)
  assigned := fun h => absurd h (Nat.lt_irrefl 0)

variable {env}

/-- A turn that goes round keeps the invariant. -/
theorem Retrying.again {st t : RetryState} (h : env.Retrying st) (hturn : env.turn st = .again t) :
    env.Retrying t ∧ t.requests = st.requests + 1 := by
  by_cases hlim : (env.responses st.requests).limited
  · by_cases hattempt : st.attempt < 5
    · obtain ⟨u, hu, hreq, hatt, hret⟩ := env.turn_of_limited hlim hattempt
      rw [hu] at hturn
      cases hturn
      have hatt' := h.attempt
      refine ⟨⟨by omega, by omega, fun i hi => ?_, fun _ => hret⟩, hreq⟩
      rcases Nat.lt_succ_iff_lt_or_eq.mp (hreq ▸ hi) with hi | rfl
      · exact h.limited i hi
      · exact hlim
    · have hbound := h.bound
      have hatt' := h.attempt
      obtain ⟨delay, hleave⟩ := env.turn_of_spent hlim hattempt (h.assigned (by omega))
      rw [hleave] at hturn
      cases hturn
  · obtain ⟨result, hleave, -⟩ := env.turn_of_not_limited hlim
    rw [hleave] at hturn
    cases hturn

/-- A turn that leaves has met another response, or the fifth of its kind. -/
theorem Retrying.leave {st : RetryState} {e : RetryEnd} (h : env.Retrying st)
    (hturn : env.turn st = .leave e) :
    e.requests = st.requests + 1 ∧
      ((¬ (env.responses st.requests).limited ∧
          Answered (env.responses st.requests) e.result) ∨
        ((env.responses st.requests).limited ∧ st.requests = 4 ∧
          ∃ delay, e.result = .error (.rateLimit delay))) := by
  by_cases hlim : (env.responses st.requests).limited
  · by_cases hattempt : st.attempt < 5
    · obtain ⟨t, ht, -⟩ := env.turn_of_limited hlim hattempt
      rw [ht] at hturn
      cases hturn
    · have hbound := h.bound
      have hatt := h.attempt
      obtain ⟨delay, hleave⟩ := env.turn_of_spent hlim hattempt (h.assigned (by omega))
      rw [hleave] at hturn
      cases hturn
      exact ⟨rfl, Or.inr ⟨hlim, by omega, delay, rfl⟩⟩
  · obtain ⟨result, hleave, hans⟩ := env.turn_of_not_limited hlim
    rw [hleave] at hturn
    cases hturn
    exact ⟨rfl, Or.inl ⟨hlim, hans⟩⟩

/-- **The retry loop is bounded and exact.** For every sequence of responses, every parser of
the header and all jitter: the loop is left, with one result, after at most five requests. The
first response among the five that is not 403 or 429 is the last one, and decides the result: on
200 and 201 its JSON, the empty dict where it has no body, or the error of decoding where its
body is no JSON; `None` on another 2xx; `NotFoundError` on 404, and the status error on any
other. `RateLimitError` is raised exactly when the first five are all 403 or 429, and
`retry_after` is assigned then. -/
theorem retryable_bounded (env : RetryEnv) :
    ∃ e : RetryEnd, Leaves env.turn {} e ∧ (∀ e', Leaves env.turn {} e' → e' = e) ∧
      e.requests ≤ 5 ∧
      (∀ k < 5, (∀ i < k, (env.responses i).limited) → ¬ (env.responses k).limited →
        e.requests = k + 1 ∧ Answered (env.responses k) e.result) ∧
      ((∃ delay, e.result = .error (.rateLimit delay)) ↔ ∀ i < 5, (env.responses i).limited) ∧
      e.result ≠ .error .unbound := by
  have hstep : ∀ s t, env.Retrying s → env.turn s = .again t →
      env.Retrying t ∧ 5 - t.requests < 5 - s.requests := by
    intro s t hs hturn
    obtain ⟨ht, hreq⟩ := hs.again hturn
    have hbound := ht.bound
    exact ⟨ht, by omega⟩
  obtain ⟨st, e, hst, hturn, hleaves⟩ := leaves_of_variant (fun s => 5 - s.requests) hstep
    env.retrying_start
  obtain ⟨hreq, hcases⟩ := hst.leave hturn
  have hbound := hst.bound
  refine ⟨e, hleaves, fun e' he' => he'.unique hleaves, by omega, ?_, ?_, ?_⟩
  · intro k hk hbefore hnot
    have hle : st.requests = k := by
      rcases Nat.lt_trichotomy st.requests k with hlt | heq | hlt
      · -- the loop would have stopped at a response that is not the last
        rcases hcases with ⟨hother, -⟩ | ⟨-, hfour, -⟩
        · exact absurd (hbefore _ hlt) hother
        · omega
      · exact heq
      · exact absurd (hst.limited k hlt) hnot
    rw [hle] at hreq hcases
    rcases hcases with ⟨-, hans⟩ | ⟨hlim, -⟩
    · exact ⟨hreq, hans⟩
    · exact absurd hlim hnot
  · rcases hcases with ⟨hother, hans⟩ | ⟨hlim, hfour, hresult⟩
    · constructor
      · rintro ⟨delay, hdelay⟩
        exact absurd hdelay (hans.result_ne.1 delay)
      · exact fun hall => absurd (hall st.requests hbound) hother
    · refine iff_of_true hresult fun i hi => ?_
      by_cases hlast : i < st.requests
      · exact hst.limited i hlast
      · have heq : i = st.requests := by omega
        rw [heq]
        exact hlim
  · rcases hcases with ⟨-, hans⟩ | ⟨-, -, delay, hdelay⟩
    · exact hans.result_ne.2
    · rw [hdelay]
      simp

/-- Every request is answered with a 200 whose body is no JSON. -/
def undecodable : RetryEnv where
  responses := fun _ => { status := 200, content := .undecodable }
  readFloat := fun _ => none
  draws := fun _ => 0

/-- Neither its JSON nor an empty dict is returned. -/
theorem undecodable_body_raises :
    ∃ e : RetryEnd, Leaves undecodable.turn {} e ∧ e.requests = 1 ∧ ∀ v, e.result ≠ .ok v :=
  ⟨⟨.error (.client .decode), 1, []⟩, leaves_of_turns (n := 1) rfl, rfl, by simp⟩

/-! ## POST requests -/

/-- What a response that is not 403 or 429 makes of a POST request. -/
theorem retryable_of_not_limited {answers : Nat → Answer} {resp : Response}
    (left : Nat) {sent : List Sent} (req : PostRequest)
    (hans : answers sent.length = .response resp.status resp.content) (hnot : ¬ resp.limited) :
    (retryable answers req left sent).sent.length = sent.length + 1 ∧
      ∀ result, Answered resp result → result.mapError RetryError.asClient =
        (retryable answers req left sent).result.mapError some := by
  have hlim : ¬ (resp.status = 403 ∨ resp.status = 429) := hnot
  unfold retryable
  rw [hans]
  by_cases hok : resp.status = 200 ∨ resp.status = 201
  · simp only [if_pos hok]
    refine ⟨List.length_append, fun result h => ?_⟩
    cases hcontent : resp.content with
    | empty => rw [h.empty hok hcontent]; rfl
    | undecodable => rw [h.undecodable hok hcontent]; rfl
    | json v => rw [h.json hok v hcontent]; rfl
  · by_cases hmissing : resp.status = 404
    · simp only [if_neg hok, if_pos hmissing]
      refine ⟨List.length_append, fun result h => ?_⟩
      rw [h.notFound hmissing]
      rfl
    · by_cases hsuccess : 200 ≤ resp.status ∧ resp.status < 300
      · simp only [if_neg hok, if_neg hmissing, if_neg hlim, if_pos hsuccess]
        refine ⟨List.length_append, fun result h => ?_⟩
        obtain ⟨h200, h201⟩ := not_or.mp hok
        rw [h.success hsuccess.1 hsuccess.2 h200 h201]
        rfl
      · simp only [if_neg hok, if_neg hmissing, if_neg hlim, if_neg hsuccess]
        refine ⟨List.length_append, fun result h => ?_⟩
        rw [h.status hsuccess hmissing]
        rfl

/-- They end alike at a response that is not 403 or 429. -/
theorem retryable_now {answers : Nat → Answer} (req : PostRequest)
    (hans : ∀ n, answers n = .response (env.responses n).status (env.responses n).content)
    {st : RetryState} (hnot : ¬ (env.responses st.requests).limited) (left : Nat)
    {sent : List Sent} (hsent : sent.length = st.requests) :
    ∃ e, Leaves env.turn st e ∧ (Model.retryable answers req left sent).sent.length = e.requests ∧
      e.result.mapError RetryError.asClient =
        (Model.retryable answers req left sent).result.mapError some := by
  obtain ⟨result, hleave, hresult⟩ := env.turn_of_not_limited hnot
  have hans' : answers sent.length = .response (env.responses st.requests).status
      (env.responses st.requests).content := hsent ▸ hans st.requests
  obtain ⟨hlength, hsame⟩ := retryable_of_not_limited left req hans' hnot
  exact ⟨_, .now hleave, hsent ▸ hlength, hsame result hresult⟩

/-- From any turn on, the loop and `retryable` end alike. -/
theorem Retrying.retryable {answers : Nat → Answer} (req : PostRequest)
    (hans : ∀ n, answers n = .response (env.responses n).status (env.responses n).content)
    {st : RetryState} (h : env.Retrying st) {left : Nat} (hleft : st.requests + left = 4)
    {sent : List Sent} (hsent : sent.length = st.requests) :
    ∃ e, Leaves env.turn st e ∧ (Model.retryable answers req left sent).sent.length = e.requests ∧
      e.result.mapError RetryError.asClient =
        (Model.retryable answers req left sent).result.mapError some := by
  induction left generalizing st sent with
  | zero =>
    by_cases hlim : (env.responses st.requests).limited
    · have hatt := h.attempt
      obtain ⟨delay, hleave⟩ := env.turn_of_spent hlim (by omega) (h.assigned (by omega))
      obtain ⟨hok, hmissing⟩ := limited_status hlim
      refine ⟨_, .now hleave, ?_⟩
      unfold Model.retryable
      rw [hans, hsent]
      simp only [if_neg hok, if_neg hmissing, if_pos (show _ ∨ _ from hlim)]
      refine ⟨?_, rfl⟩
      rw [List.length_append, hsent]
      rfl
    · exact retryable_now req hans hlim 0 hsent
  | succ left ih =>
    by_cases hlim : (env.responses st.requests).limited
    · have hatt := h.attempt
      obtain ⟨t, hturn, -⟩ := env.turn_of_limited hlim (by omega)
      obtain ⟨ht, hreq⟩ := h.again hturn
      obtain ⟨hok, hmissing⟩ := limited_status hlim
      unfold Model.retryable
      rw [hans, hsent]
      simp only [if_neg hok, if_neg hmissing, if_pos (show _ ∨ _ from hlim)]
      have hsent' : (sent ++ [(⟨req, .response (env.responses st.requests).status
          (env.responses st.requests).content⟩ : Sent)]).length = t.requests := by
        rw [List.length_append, hsent, hreq]
        rfl
      obtain ⟨e, he, hrest⟩ := ih ht (by omega) hsent'
      exact ⟨e, .later hturn he, hrest⟩
    · exact retryable_now req hans hlim (left + 1) hsent

/-- **The loop is what a POST request goes through**, when every request is answered. -/
theorem retryable_eq_loop {answers : Nat → Answer} (req : PostRequest)
    (hans : ∀ n, answers n = .response (env.responses n).status (env.responses n).content) :
    ∃ e, Leaves env.turn {} e ∧
      (Model.retryable answers req moreTries []).sent.length = e.requests ∧
      e.result.mapError RetryError.asClient =
        (Model.retryable answers req moreTries []).result.mapError some :=
  env.retrying_start.retryable req hans rfl rfl

end RetryEnv

end PrReviewer.Model
