import PrReviewer.Model.Registrar

/-!
# The registrar converges

A visit looks at the first webhook of ours only, and the test that finds it and the test that
it is current strip the same slashes. `Registered` is what a served visit leaves behind, and no
visit, served or not, writes where it holds; so a pass is settled repository by repository,
whatever happens to the others.
-/

set_option autoImplicit false

namespace PrReviewer.Model

/-! ## Current webhooks -/

/-- The desired url ends in the webhook's path. -/
theorem rstripSlash_desiredUrl (tunnel : String) :
    rstripSlash (desiredUrl tunnel) = rstripSlash tunnel ++ webhookPath.toList := by
  have hlist : (desiredUrl tunnel).toList = rstripSlash tunnel ++ webhookPath.toList := by
    simp [desiredUrl]
  have hlast : webhookPath.toList = "/api/webhoo".toList ++ ['k'] := by decide
  rw [rstripSlash, hlist, hlast, ← List.append_assoc, List.reverse_append]
  simp

/-- The first webhook of ours is current. -/
def Registered (desired : String) (hooks : List HookEntry) : Prop :=
  ∃ h, hooks.find? HookEntry.ours = some h ∧ rstripSlash h.url = rstripSlash desired

/-- A registered url is that of one of the hooks. -/
theorem Registered.exists_mem {desired : String} {hooks : List HookEntry}
    (h : Registered desired hooks) :
    ∃ hook ∈ hooks, rstripSlash hook.url = rstripSlash desired := by
  obtain ⟨hook, hfind, hurl⟩ := h
  exact ⟨hook, List.mem_of_find?_eq_some hfind, hurl⟩

section Desired

variable {tunnel : String}

/-- A hook with the desired url is the service's own. -/
theorem ours_of_url_eq {h : HookEntry} (hurl : h.url = desiredUrl tunnel) : h.ours = true := by
  unfold HookEntry.ours
  rw [hurl, rstripSlash_desiredUrl, List.isSuffixOf_iff_suffix]
  exact List.suffix_append _ _

/-- The created webhook is the first one of ours. -/
theorem registered_append {hooks : List HookEntry} (hnone : hooks.find? HookEntry.ours = none)
    (id : Option Int) :
    Registered (desiredUrl tunnel)
      (hooks ++ [{ id := id, config := some { url := some (desiredUrl tunnel) } }]) := by
  have hours : HookEntry.ours { id := id, config := some { url := some (desiredUrl tunnel) } } =
      true := ours_of_url_eq rfl
  refine ⟨{ id := id, config := some { url := some (desiredUrl tunnel) } }, ?_, ?_⟩
  · rw [List.find?_append, hnone, Option.none_or, List.find?_cons_of_pos hours]
  · rfl

/-- Re-pointing the first webhook of ours makes the first one current. A webhook before it that
has the same id is re-pointed too. -/
theorem registered_repoint {hooks : List HookEntry} {hook : HookEntry} {id : Int}
    (hfind : hooks.find? HookEntry.ours = some hook) (hid : hook.id = some id) :
    Registered (desiredUrl tunnel) (hooks.map (HookEntry.repoint id (desiredUrl tunnel))) := by
  induction hooks with
  | nil => cases hfind
  | cons x hooks ih =>
    have hurl : x.id = some id →
        (x.repoint id (desiredUrl tunnel)).url = desiredUrl tunnel := by
      intro hx
      simp [HookEntry.repoint, hx, HookEntry.url]
    rw [List.map_cons]
    by_cases hx : x.id = some id
    · refine ⟨_, ?_, congrArg rstripSlash (hurl hx)⟩
      rw [List.find?_cons_of_pos (ours_of_url_eq (hurl hx))]
    · have hsame : x.repoint id (desiredUrl tunnel) = x := by simp [HookEntry.repoint, hx]
      rw [hsame]
      cases hours : x.ours with
      | true =>
        rw [List.find?_cons_of_pos hours, Option.some.injEq] at hfind
        exact absurd (hfind ▸ hid) hx
      | false =>
        have hnot : ¬ x.ours = true := by
          rw [hours]
          exact Bool.false_ne_true
        rw [List.find?_cons_of_neg hnot] at hfind
        obtain ⟨h, hh, heq⟩ := ih hfind
        exact ⟨h, by rwa [List.find?_cons_of_neg hnot], heq⟩

end Desired

namespace Registrar

/-! ## One visit -/

/-- Every webhook of a repository has an integer id. -/
def HasIds (hooks : List HookEntry) : Prop :=
  ∀ h ∈ hooks, h.id ≠ none

/-- **A visit** writes nothing, or makes one call that would settle its repository; it writes
nothing to a settled one, and it is quiet elsewhere only where GitHub or an id fails it. -/
theorem ensure_cases (s : Registrar) (owner repo tunnel : String) (a : HookAnswers) :
    ((s.ensure owner repo (desiredUrl tunnel) a).2 = s ∧
        (s.ensure owner repo (desiredUrl tunnel) a).1 ≠ some true ∧
        (a.served → HasIds (s.hooks owner repo) →
          Registered (desiredUrl tunnel) (s.hooks owner repo))) ∨
      ∃ w f, s.ensure owner repo (desiredUrl tunnel) a = s.call w owner repo f a.write ∧
        w.hookRepo = some (owner, repo) ∧
        ¬ Registered (desiredUrl tunnel) (s.hooks owner repo) ∧
        Registered (desiredUrl tunnel) (f (s.hooks owner repo)) := by
  unfold ensure
  cases hlists : a.lists with
  | false =>
    refine Or.inl ⟨rfl, by simp, fun hserved => ?_⟩
    rw [hserved.1] at hlists
    cases hlists
  | true =>
    rw [if_pos rfl]
    cases hfind : (s.hooks owner repo).find? HookEntry.ours with
    | none =>
      refine Or.inr ⟨_, _, rfl, rfl, ?_, registered_append hfind a.newId⟩
      rintro ⟨h, hh, -⟩
      rw [hfind] at hh
      cases hh
    | some hook =>
      by_cases hurl : rstripSlash hook.url = rstripSlash (desiredUrl tunnel)
      · simp only [if_pos hurl]
        exact Or.inl ⟨trivial, by simp, fun _ _ => ⟨hook, hfind, hurl⟩⟩
      · simp only [if_neg hurl]
        cases hid : hook.id with
        | none =>
          refine Or.inl ⟨rfl, by simp, fun _ hids => ?_⟩
          exact absurd hid (hids hook (List.mem_of_find?_eq_some hfind))
        | some id =>
          refine Or.inr ⟨_, _, rfl, rfl, ?_, registered_repoint hfind hid⟩
          rintro ⟨h, hh, hcur⟩
          rw [hfind, Option.some.injEq] at hh
          exact hurl (hh ▸ hcur)

/-- A visit makes the call the application's registrar step makes. -/
theorem ensure_calls {s : Registrar} {owner repo desired : String} {a : HookAnswers}
    (hlists : a.lists = true) (hids : HasIds (s.hooks owner repo)) :
    (s.ensure owner repo desired a).2.calls = s.calls ++
      (ensureWebhook owner repo desired ((s.hooks owner repo).map HookEntry.hook)).toList.map
        fun w => (w, decide (a.write = .done)) := by
  unfold ensure ensureWebhook
  rw [hlists, if_pos rfl, List.find?_map]
  have hours : (fun h : Hook => webhookPath.toList.isSuffixOf (rstripSlash h.url)) ∘ HookEntry.hook =
      HookEntry.ours := rfl
  rw [hours]
  cases hfind : (s.hooks owner repo).find? HookEntry.ours with
  | none => rfl
  | some hook =>
    obtain ⟨id, hid⟩ := Option.ne_none_iff_exists'.mp (hids hook (List.mem_of_find?_eq_some hfind))
    by_cases hurl : rstripSlash hook.url = rstripSlash desired
    · simp [hurl, HookEntry.hook]
    · simp [hurl, HookEntry.hook, hid, call]

/-- A call leaves the hooks of other repositories. -/
theorem call_hooks_other (s : Registrar) (w : GitHubWrite) {owner repo o r : String}
    (f : List HookEntry → List HookEntry) (a : WriteAnswer) (hne : ¬ (o = owner ∧ r = repo)) :
    (s.call w owner repo f a).2.hooks o r = s.hooks o r := by
  have hcond : ¬ (o = owner ∧ r = repo ∧ a ≠ .refused) := fun h => hne ⟨h.1, h.2.1⟩
  simp [call, hcond]

/-- A call that succeeds changes the hooks of its repository. -/
theorem call_hooks_done (s : Registrar) (w : GitHubWrite) (owner repo : String)
    (f : List HookEntry → List HookEntry) :
    (s.call w owner repo f .done).2.hooks owner repo = f (s.hooks owner repo) := by
  simp [call]

/-! ## A pass -/

/-- What the visits to `specs` make of the registrar: the calls they add, which go to
repositories of `specs` that were not settled, and the webhooks they leave alone. -/
structure Pass (tunnel : String) (specs : List RepoSpec) (s s' : Registrar)
    (new : List (GitHubWrite × Bool)) : Prop where
  calls : s'.calls = s.calls ++ new
  targets : ∀ c ∈ new, ∃ spec ∈ specs, c.1.hookRepo = some (spec.owner, spec.repo) ∧
    ¬ Registered (desiredUrl tunnel) (s.hooks spec.owner spec.repo)
  frame : ∀ o r, (∀ spec ∈ specs, ¬ (o = spec.owner ∧ r = spec.repo)) → s'.hooks o r = s.hooks o r
  settled : ∀ o r, Registered (desiredUrl tunnel) (s.hooks o r) → s'.hooks o r = s.hooks o r

/-- A pass over no repositories does nothing. -/
theorem Pass.nil (tunnel : String) (specs : List RepoSpec) (s : Registrar) :
    Pass tunnel specs s s [] where
  calls := (List.append_nil _).symm
  targets := fun _ hc => absurd hc List.not_mem_nil
  frame := fun _ _ _ => rfl
  settled := fun _ _ _ => rfl

/-- Two passes, one after the other. -/
theorem Pass.append {tunnel : String} {specs specs' : List RepoSpec} {s₁ s₂ s₃ : Registrar}
    {new new' : List (GitHubWrite × Bool)} (h : Pass tunnel specs s₁ s₂ new)
    (h' : Pass tunnel specs' s₂ s₃ new') : Pass tunnel (specs ++ specs') s₁ s₃ (new ++ new') where
  calls := by rw [h'.calls, h.calls, List.append_assoc]
  targets c hc := by
    rcases List.mem_append.mp hc with hc | hc
    · obtain ⟨spec, hspec, htarget⟩ := h.targets c hc
      exact ⟨spec, List.mem_append_left _ hspec, htarget⟩
    · obtain ⟨spec, hspec, htarget, hnot⟩ := h'.targets c hc
      refine ⟨spec, List.mem_append_right _ hspec, htarget, fun hset => hnot ?_⟩
      rw [h.settled _ _ hset]
      exact hset
  frame o r hno := by
    rw [h'.frame o r fun spec hspec => hno spec (List.mem_append_right _ hspec),
      h.frame o r fun spec hspec => hno spec (List.mem_append_left _ hspec)]
  settled o r hset := by
    have hsame := h.settled o r hset
    rw [h'.settled o r (by rwa [hsame]), hsame]

/-- A visit is a pass. -/
theorem ensure_pass (s : Registrar) (spec : RepoSpec) (tunnel : String) (a : HookAnswers) :
    ∃ new, Pass tunnel [spec] s (s.ensure spec.owner spec.repo (desiredUrl tunnel) a).2 new ∧
      new.countP (·.2) =
        if (s.ensure spec.owner spec.repo (desiredUrl tunnel) a).1 = some true then 1 else 0 := by
  rcases s.ensure_cases spec.owner spec.repo tunnel a with
    ⟨hsame, hres, -⟩ | ⟨w, f, heq, htarget, hnot, -⟩
  · rw [hsame, if_neg hres]
    exact ⟨[], .nil tunnel [spec] s, rfl⟩
  · rw [heq]
    have hother : ∀ o r, ¬ (o = spec.owner ∧ r = spec.repo) →
        (s.call w spec.owner spec.repo f a.write).2.hooks o r = s.hooks o r :=
      fun o r hne => s.call_hooks_other w f a.write hne
    refine ⟨[(w, decide (a.write = .done))], ⟨rfl, ?_, ?_, ?_⟩, ?_⟩
    · intro c hc
      rw [List.mem_singleton.mp hc]
      exact ⟨spec, List.mem_singleton_self _, htarget, hnot⟩
    · exact fun o r hno => hother o r (hno spec (List.mem_singleton_self _))
    · refine fun o r hset => hother o r ?_
      rintro ⟨rfl, rfl⟩
      exact hnot hset
    · by_cases hdone : a.write = .done <;> simp [call, hdone]

/-- **The loop is a pass**, and counts the calls that returned. -/
theorem ensureAll_pass (tunnel : String) (answers : Nat → HookAnswers) (n : Nat)
    (specs : List RepoSpec) (s : Registrar) :
    ∃ new, Pass tunnel specs s (ensureAll (desiredUrl tunnel) answers n specs s).2 new ∧
      (ensureAll (desiredUrl tunnel) answers n specs s).1 = new.countP (·.2) := by
  induction specs generalizing n s with
  | nil => exact ⟨[], .nil tunnel [] s, rfl⟩
  | cons spec specs ih =>
    obtain ⟨new, hpass, hcount⟩ := s.ensure_pass spec tunnel (answers n)
    unfold ensureAll
    generalize hvisit : s.ensure spec.owner spec.repo (desiredUrl tunnel) (answers n) = visit
      at hpass hcount
    obtain ⟨res, t⟩ := visit
    obtain ⟨rest, hrest, hrestCount⟩ := ih (n + 1) t
    refine ⟨new ++ rest, ?_⟩
    rw [List.countP_append, hcount, ← hrestCount]
    cases res with
    | none => exact ⟨hpass.append hrest, (Nat.zero_add _).symm⟩
    | some changed =>
      cases changed with
      | true => exact ⟨hpass.append hrest, Nat.add_comm _ _⟩
      | false => exact ⟨hpass.append hrest, (Nat.zero_add _).symm⟩

/-- **A repository whose visits are all served** is settled after the pass, if it is visited. -/
theorem ensureAll_settles {tunnel : String} {answers : Nat → HookAnswers} {owner repo : String}
    {specs : List RepoSpec} {n : Nat} {s : Registrar}
    (hserved : ∀ i spec, specs[i]? = some spec → spec.owner = owner → spec.repo = repo →
      (answers (n + i)).served)
    (hids : HasIds (s.hooks owner repo) ∨ Registered (desiredUrl tunnel) (s.hooks owner repo))
    (hmem : ∃ spec ∈ specs, spec.owner = owner ∧ spec.repo = repo) :
    Registered (desiredUrl tunnel)
      ((ensureAll (desiredUrl tunnel) answers n specs s).2.hooks owner repo) := by
  induction specs generalizing n s with
  | nil =>
    obtain ⟨spec, hspec, -⟩ := hmem
    exact absurd hspec List.not_mem_nil
  | cons spec specs ih =>
    have hstep : (ensureAll (desiredUrl tunnel) answers n (spec :: specs) s).2 =
        (ensureAll (desiredUrl tunnel) answers (n + 1) specs
          (s.ensure spec.owner spec.repo (desiredUrl tunnel) (answers n)).2).2 := by
      rw [ensureAll]
      split
      · rename_i heq
        rw [heq]
      · rename_i heq
        rw [heq]
    rw [hstep]
    obtain ⟨t, ht⟩ : ∃ t, (s.ensure spec.owner spec.repo (desiredUrl tunnel) (answers n)).2 = t :=
      ⟨_, rfl⟩
    rw [ht]
    obtain ⟨new, hpass, -⟩ := ensureAll_pass tunnel answers (n + 1) specs t
    have hrest : ∀ i spec', specs[i]? = some spec' → spec'.owner = owner → spec'.repo = repo →
        (answers (n + 1 + i)).served := by
      intro i spec' hi
      rw [Nat.add_assoc, Nat.add_comm 1]
      exact hserved (i + 1) spec' hi
    by_cases hkey : spec.owner = owner ∧ spec.repo = repo
    · -- this visit settles it, and the rest of the pass leaves it settled
      have hset : Registered (desiredUrl tunnel) (t.hooks owner repo) := by
        obtain ⟨rfl, rfl⟩ := hkey
        have hnow : (answers n).served := hserved 0 spec rfl rfl rfl
        rw [← ht]
        rcases s.ensure_cases spec.owner spec.repo tunnel (answers n) with
          ⟨hsame, -, hquiet⟩ | ⟨w, f, heq, -, -, hset⟩
        · rw [hsame]
          exact hids.elim (hquiet hnow) id
        · rw [heq, hnow.2, call_hooks_done]
          exact hset
      rw [hpass.settled _ _ hset]
      exact hset
    · have hsame : t.hooks owner repo = s.hooks owner repo := by
        obtain ⟨_, hvisit, -⟩ := s.ensure_pass spec tunnel (answers n)
        rw [← ht]
        refine hvisit.frame owner repo fun spec' hspec' h => hkey ?_
        rw [List.mem_singleton.mp hspec'] at h
        exact ⟨h.1.symm, h.2.symm⟩
      refine ih hrest (by rwa [hsame]) ?_
      obtain ⟨spec', hspec', hkey'⟩ := hmem
      rcases List.mem_cons.mp hspec' with rfl | hspec'
      · exact absurd hkey' hkey
      · exact ⟨spec', hspec', hkey'⟩

/-! ## `reconcile` -/

/-- The first `try` leaves GitHub alone, and fails with a tunnel only if Slack does. -/
theorem announce_of_tunnel {s : Registrar} {env : RegistrarEnv} {tunnel : String}
    (htunnel : env.tunnel.publicUrl = some tunnel) :
    ∃ t : Registrar, t.hooks = s.hooks ∧ t.calls = s.calls ∧
      (s.announce env = (some tunnel, t) ∨ env.slackOk = false ∧ s.announce env = (none, t)) := by
  unfold announce
  rw [htunnel]
  by_cases hlast : s.lastTunnelUrl = some tunnel
  · exact ⟨s, rfl, rfl, Or.inl (by simp [hlast])⟩
  · cases hs : env.slack with
    | true =>
      refine ⟨{ s with lastTunnelUrl := some tunnel, messages := s.messages ++ [startedAndReady] },
        rfl, rfl, ?_⟩
      cases hok : env.slackOk with
      | true => exact Or.inl (by simp [hlast])
      | false => exact Or.inr ⟨rfl, by simp [hlast]⟩
    | false => exact ⟨{ s with lastTunnelUrl := some tunnel }, rfl, rfl, Or.inl (by simp [hlast])⟩

/-- A pass from a registrar with the same webhooks and calls is a pass. -/
theorem Pass.of_same {tunnel : String} {specs : List RepoSpec} {s t s' : Registrar}
    {new : List (GitHubWrite × Bool)} (h : Pass tunnel specs t s' new) (hhooks : t.hooks = s.hooks)
    (hcalls : t.calls = s.calls) : Pass tunnel specs s s' new where
  calls := hcalls ▸ h.calls
  targets := hhooks ▸ h.targets
  frame := hhooks ▸ h.frame
  settled := hhooks ▸ h.settled

/-- **`reconcile` makes at most a pass** over the enabled repositories, and returns. -/
theorem reconcile_pass (s : Registrar) (config : Config) (env : RegistrarEnv) {tunnel : String}
    (htunnel : env.tunnel.publicUrl = some tunnel) :
    ∃ new, Pass tunnel config.enabledRepos s (s.reconcile config env).2 new ∧
      (s.reconcile config env).1 = some (new.countP (·.2)) := by
  obtain ⟨t, hhooks, hcalls, hann | ⟨-, hann⟩⟩ := announce_of_tunnel (s := s) htunnel
  · obtain ⟨new, hpass, hcount⟩ := ensureAll_pass tunnel env.answers 0 config.enabledRepos t
    refine ⟨new, ?_⟩
    unfold reconcile
    rw [hann]
    exact ⟨hpass.of_same hhooks hcalls, congrArg some hcount⟩
  · refine ⟨[], ?_⟩
    unfold reconcile
    rw [hann]
    exact ⟨(Pass.nil tunnel config.enabledRepos t).of_same hhooks hcalls, rfl⟩

/-- A repository whose visits are all served is settled after `reconcile`. -/
theorem reconcile_settles {s : Registrar} {config : Config} {env : RegistrarEnv} {tunnel : String}
    (htunnel : env.tunnel.publicUrl = some tunnel) (hslack : env.slackOk = true) {spec : RepoSpec}
    (hspec : spec ∈ config.enabledRepos) (hids : HasIds (s.hooks spec.owner spec.repo))
    (hserved : ∀ (i : Nat) (x : RepoSpec), config.enabledRepos[i]? = some x →
      x.owner = spec.owner → x.repo = spec.repo → (env.answers i).served) :
    Registered (desiredUrl tunnel) ((s.reconcile config env).2.hooks spec.owner spec.repo) := by
  obtain ⟨t, hhooks, -, hann | ⟨hno, -⟩⟩ := announce_of_tunnel (s := s) htunnel
  · unfold reconcile
    rw [hann]
    refine ensureAll_settles ?_ (Or.inl (by rwa [hhooks])) ⟨spec, hspec, rfl, rfl⟩
    intro i x hi
    rw [Nat.zero_add]
    exact hserved i x hi
  · rw [hslack] at hno
    cases hno

/-- **Reconciling converges, repository by repository.** For every configuration and all
webhooks with integer ids, with a tunnel and a Slack that answers, and whatever GitHub does in
the repositories of `failing`: `reconcile` returns the number of its calls that returned; every
other enabled repository has a webhook with the desired URL; a repository that is not enabled
is left alone; and the next `reconcile` writes nothing to the enabled ones outside `failing`,
whatever GitHub does then. -/
theorem reconcile_converges (config : Config) (s : Registrar) (env : RegistrarEnv)
    {tunnel : String} (failing : String → String → Prop)
    (htunnel : env.tunnel.publicUrl = some tunnel) (hslack : env.slackOk = true)
    (hids : ∀ owner repo, HasIds (s.hooks owner repo))
    (hserved : ∀ (i : Nat) (spec : RepoSpec), config.enabledRepos[i]? = some spec →
      ¬ failing spec.owner spec.repo → (env.answers i).served) :
    (∃ new, (s.reconcile config env).2.calls = s.calls ++ new ∧
        (s.reconcile config env).1 = some (new.countP (·.2)) ∧
        ∀ c ∈ new, ∃ spec ∈ config.repoConfig, spec.enabled = true ∧
          c.1.hookRepo = some (spec.owner, spec.repo)) ∧
      (∀ spec ∈ config.repoConfig, spec.enabled = true → ¬ failing spec.owner spec.repo →
        ∃ hook ∈ (s.reconcile config env).2.hooks spec.owner spec.repo,
          rstripSlash hook.url = rstripSlash (desiredUrl tunnel)) ∧
      (∀ owner repo, (∀ spec ∈ config.repoConfig, spec.enabled = true →
          ¬ (owner = spec.owner ∧ repo = spec.repo)) →
        (s.reconcile config env).2.hooks owner repo = s.hooks owner repo) ∧
      ∀ env' : RegistrarEnv, env'.tunnel.publicUrl = some tunnel →
        ∃ n new, ((s.reconcile config env).2.reconcile config env').1 = some n ∧
          ((s.reconcile config env).2.reconcile config env').2.calls =
            (s.reconcile config env).2.calls ++ new ∧
          ∀ c ∈ new, ∀ spec ∈ config.repoConfig, spec.enabled = true →
            ¬ failing spec.owner spec.repo → c.1.hookRepo ≠ some (spec.owner, spec.repo) := by
  have henabled : ∀ spec, spec ∈ config.enabledRepos ↔
      spec ∈ config.repoConfig ∧ spec.enabled = true := fun _ => List.mem_filter
  have hsettled : ∀ spec ∈ config.repoConfig, spec.enabled = true →
      ¬ failing spec.owner spec.repo → Registered (desiredUrl tunnel)
        ((s.reconcile config env).2.hooks spec.owner spec.repo) := by
    intro spec hspec hen hok
    refine reconcile_settles htunnel hslack ((henabled spec).mpr ⟨hspec, hen⟩) (hids _ _) ?_
    intro i x hi ho hr
    exact hserved i x hi (by rwa [ho, hr])
  obtain ⟨new, hpass, hcount⟩ := s.reconcile_pass config env htunnel
  refine ⟨⟨new, hpass.calls, hcount, ?_⟩, ?_, ?_, ?_⟩
  · intro c hc
    obtain ⟨spec, hspec, htarget, -⟩ := hpass.targets c hc
    exact ⟨spec, ((henabled spec).mp hspec).1, ((henabled spec).mp hspec).2, htarget⟩
  · exact fun spec hspec hen hok => (hsettled spec hspec hen hok).exists_mem
  · intro owner repo hno
    refine hpass.frame owner repo fun spec hspec => ?_
    exact hno spec ((henabled spec).mp hspec).1 ((henabled spec).mp hspec).2
  · intro env' htunnel'
    obtain ⟨new', hpass', hcount'⟩ := (s.reconcile config env).2.reconcile_pass config env' htunnel'
    refine ⟨_, new', hcount', hpass'.calls, ?_⟩
    intro c hc spec hspec hen hok htarget
    -- a call goes to a repository that was not settled
    obtain ⟨x, -, hx, hnot⟩ := hpass'.targets c hc
    rw [htarget, Option.some.injEq, Prod.mk.injEq] at hx
    rw [← hx.1, ← hx.2] at hnot
    exact hnot (hsettled spec hspec hen hok)

/-- The webhook of one repository is stale and behind a foreign one, another repository fails,
and a third one is disabled. -/
def staleRegistrar : Registrar where
  hooks := fun _ repo =>
    if repo = "app" then
      [{ id := some 1, config := some { url := some "https://elsewhere.dev/api/webhook/github" } },
        { id := some 7, config := some { url := some "https://old.dev/api/webhook/" } }]
    else []

/-- A configuration with two repositories enabled and one not. -/
def threeRepos : Config where
  repoConfig := [{ owner := "acme", repo := "broken" }, { owner := "acme", repo := "app" },
    { owner := "acme", repo := "quiet", enabled := false }]
  providers := []

/-- The calls of the first visit raise. -/
def firstFails : RegistrarEnv where
  slack := true
  tunnel := { publicAgentUrl := some "https://new.dev/" }
  answers := fun n => if n = 0 then { lists := false } else { newId := some 100 }

/-- The tunnel of the example is up. -/
theorem firstFails_tunnel : firstFails.tunnel.publicUrl = some "https://new.dev" := by decide

example : (staleRegistrar.reconcile threeRepos firstFails).2.calls =
    [(.updateWebhook "acme" "app" 7 "https://new.dev/api/webhook", true)] := by decide

/-- A pass with one failure repoints the other repository's hook. -/
theorem reconcile_converges_stale :
    ((staleRegistrar.reconcile threeRepos firstFails).1 = some 1) ∧
      (∃ new, (staleRegistrar.reconcile threeRepos firstFails).2.calls = staleRegistrar.calls ++ new ∧
          (staleRegistrar.reconcile threeRepos firstFails).1 = some (new.countP (·.2)) ∧
          ∀ c ∈ new, ∃ spec ∈ threeRepos.repoConfig, spec.enabled = true ∧
            c.1.hookRepo = some (spec.owner, spec.repo)) ∧
        (∀ spec ∈ threeRepos.repoConfig, spec.enabled = true → ¬ spec.repo = "broken" →
          ∃ hook ∈ (staleRegistrar.reconcile threeRepos firstFails).2.hooks spec.owner spec.repo,
            rstripSlash hook.url = rstripSlash (desiredUrl "https://new.dev")) ∧
        (∀ owner repo, (∀ spec ∈ threeRepos.repoConfig, spec.enabled = true →
            ¬ (owner = spec.owner ∧ repo = spec.repo)) →
          (staleRegistrar.reconcile threeRepos firstFails).2.hooks owner repo =
            staleRegistrar.hooks owner repo) ∧
        ∀ env' : RegistrarEnv, env'.tunnel.publicUrl = some "https://new.dev" →
          ∃ n new, ((staleRegistrar.reconcile threeRepos firstFails).2.reconcile threeRepos
              env').1 = some n ∧
            ((staleRegistrar.reconcile threeRepos firstFails).2.reconcile threeRepos
                env').2.calls = (staleRegistrar.reconcile threeRepos firstFails).2.calls ++ new ∧
            ∀ c ∈ new, ∀ spec ∈ threeRepos.repoConfig, spec.enabled = true →
              ¬ spec.repo = "broken" → c.1.hookRepo ≠ some (spec.owner, spec.repo) := by
  have hids : ∀ owner repo, HasIds (staleRegistrar.hooks owner repo) := by
    intro owner repo h hh
    unfold staleRegistrar at hh
    simp only at hh
    split at hh
    · rcases List.mem_pair.mp hh with rfl | rfl <;> exact Option.some_ne_none _
    · exact absurd hh List.not_mem_nil
  have hserved : ∀ (i : Nat) (spec : RepoSpec), threeRepos.enabledRepos[i]? = some spec →
      ¬ spec.repo = "broken" → (firstFails.answers i).served := by
    intro i spec hi hrepo
    cases i with
    | zero =>
      cases hi
      exact absurd rfl hrepo
    | succ i => exact ⟨rfl, rfl⟩
  exact ⟨by decide, reconcile_converges threeRepos staleRegistrar firstFails
    (fun _ repo => repo = "broken") firstFails_tunnel rfl hids hserved⟩

end Registrar

end PrReviewer.Model
