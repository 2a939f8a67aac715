import PrReviewer.Analysis.HookRepointing

/-!
# The webhooks over any number of passes

`_registrar_loop` runs `reconcile` again and again, under tunnels that come and go and against a
GitHub that may refuse any call or lose its answer. `Tended` says what all of it can make of the
webhooks of one repository: it re-points webhooks of ours in place and adds one only where there
is none, so foreign webhooks stay as they are and nothing is duplicated by a lost answer.
-/

set_option autoImplicit false

namespace PrReviewer.Model

/-! ## What upkeep can do to a list of webhooks -/

/-- A webhook before and after: it keeps its id, a foreign one is not touched, and one of ours
stays one of ours. -/
structure Upkept (h h' : HookEntry) : Prop where
  id : h'.id = h.id
  foreign : h.ours = false → h' = h
  ours : h.ours = true → h'.ours = true

/-- A hook left alone is kept up. -/
theorem Upkept.refl (h : HookEntry) : Upkept h h where
  id := rfl
  foreign _ := rfl
  ours h := h

/-- A hook kept up twice is kept up. -/
theorem Upkept.trans {h h' h'' : HookEntry} (first : Upkept h h') (second : Upkept h' h'') :
    Upkept h h'' where
  id := second.id.trans first.id
  foreign hno := by
    have heq := first.foreign hno
    rw [second.foreign (by rw [heq, hno]), heq]
  ours h := second.ours (first.ours h)

/-- The webhooks of a repository before and after: each one is kept, and one of ours, with an id
that was not there, may have been added where there was none. -/
inductive Tended (before : List HookEntry) : List HookEntry → Prop
  | kept {after : List HookEntry} (h : List.Forall₂ Upkept before after) : Tended before after
  | added {after : List HookEntry} {new : HookEntry} (h : List.Forall₂ Upkept before after)
      (hnone : ∀ x ∈ before, x.ours = false) (hours : new.ours = true) (hid : new.id ≠ none)
      (hfresh : new.id ∉ before.map HookEntry.id) : Tended before (after ++ [new])

/-- Hooks left alone are kept up. -/
theorem forall₂_refl (hooks : List HookEntry) : List.Forall₂ Upkept hooks hooks :=
  List.forall₂_same.mpr fun h _ => Upkept.refl h

/-- Hooks left alone are tended. -/
theorem Tended.refl (hooks : List HookEntry) : Tended hooks hooks :=
  .kept (forall₂_refl hooks)

/-- Hooks that are kept up keep their ids. -/
theorem map_id_of_upkept {before after : List HookEntry} (h : List.Forall₂ Upkept before after) :
    after.map HookEntry.id = before.map HookEntry.id := by
  induction h with
  | nil => rfl
  | cons hhead _ ih => rw [List.map_cons, List.map_cons, ih, hhead.id]

/-- Where nothing is ours, nothing is changed. -/
theorem eq_of_upkept {before after : List HookEntry} (h : List.Forall₂ Upkept before after)
    (hnone : ∀ x ∈ before, x.ours = false) : after = before := by
  induction h with
  | nil => rfl
  | cons hhead _ ih =>
    rw [List.forall_mem_cons] at hnone
    rw [hhead.foreign hnone.1, ih hnone.2]

/-- Keeping hooks up leaves the foreign ones alone. -/
theorem foreign_of_upkept {before after : List HookEntry} (h : List.Forall₂ Upkept before after) :
    after.filter (fun x => !x.ours) = before.filter fun x => !x.ours := by
  induction h with
  | nil => rfl
  | @cons x x' before after hhead _ ih =>
    cases hx : x.ours with
    | false =>
      rw [hhead.foreign hx, List.filter_cons_of_pos (by simp [hx]),
        List.filter_cons_of_pos (by simp [hx]), ih]
    | true =>
      have hx' := hhead.ours hx
      rw [List.filter_cons_of_neg (by simp [hx']), List.filter_cons_of_neg (by simp [hx]), ih]

section Tended

variable {before after : List HookEntry}

/-- The foreign webhooks are what they were. -/
theorem Tended.foreign (h : Tended before after) :
    after.filter (fun x => !x.ours) = before.filter fun x => !x.ours := by
  cases h with
  | kept h => exact foreign_of_upkept h
  | added h _ hours _ _ =>
    rw [List.filter_append, foreign_of_upkept h, List.filter_cons_of_neg (by simp [hours]),
      List.filter_nil, List.append_nil]

/-- The webhooks are those that were there, or those and one of ours where there was none. -/
theorem Tended.ids (h : Tended before after) :
    after.map HookEntry.id = before.map HookEntry.id ∨
      (∀ x ∈ before, x.ours = false) ∧ ∃ new, after = before ++ [new] ∧ new.ours = true := by
  cases h with
  | kept h => exact Or.inl (map_id_of_upkept h)
  | added h hnone hours _ _ =>
    exact Or.inr ⟨hnone, _, by rw [eq_of_upkept h hnone], hours⟩

/-- Tended hooks have distinct ids if they had before. -/
theorem Tended.identified (h : Tended before after) (hids : Identified before) :
    Identified after := by
  have hkept : ∀ {kept : List HookEntry}, List.Forall₂ Upkept before kept → Identified kept := by
    intro kept hkept
    have hmap := map_id_of_upkept hkept
    refine ⟨fun x hx hnone => ?_, by rw [hmap]; exact hids.distinct⟩
    have hmem : x.id ∈ before.map HookEntry.id := hmap ▸ List.mem_map_of_mem hx
    obtain ⟨y, hy, hyx⟩ := List.mem_map.mp hmem
    exact hids.ids y hy (hyx.trans hnone)
  cases h with
  | kept h => exact hkept h
  | @added kept new h _ _ hid hfresh =>
    obtain ⟨hhas, hdistinct⟩ := hkept h
    constructor
    · intro x hx
      rcases List.mem_append.mp hx with hx | hx
      · exact hhas x hx
      · rw [List.mem_singleton.mp hx]
        exact hid
    · rw [List.map_append, List.map_singleton]
      refine List.nodup_append'.mpr ⟨hdistinct, List.nodup_singleton _, ?_⟩
      rw [map_id_of_upkept h]
      exact List.disjoint_singleton.mpr hfresh

/-- Hooks kept up twice are kept up. -/
theorem upkept_trans {a b c : List HookEntry} (first : List.Forall₂ Upkept a b)
    (second : List.Forall₂ Upkept b c) : List.Forall₂ Upkept a c := by
  induction first generalizing c with
  | nil => exact second
  | cons hhead _ ih =>
    cases second with
    | cons hhead' hrest => exact .cons (hhead.trans hhead') (ih hrest)

/-- A new last hook is kept up behind the others. -/
theorem upkept_concat {kept later : List HookEntry} {new : HookEntry}
    (h : List.Forall₂ Upkept (kept ++ [new]) later) :
    ∃ kept' new', later = kept' ++ [new'] ∧ List.Forall₂ Upkept kept kept' ∧ Upkept new new' := by
  induction kept generalizing later with
  | nil =>
    cases h with
    | @cons _ new' _ _ hnew hrest =>
      cases hrest
      exact ⟨[], new', rfl, .nil, hnew⟩
  | cons x kept ih =>
    cases h with
    | @cons _ x' _ _ hx hrest =>
      obtain ⟨kept', new', rfl, hkept, hnew⟩ := ih hrest
      exact ⟨x' :: kept', new', rfl, .cons hx hkept, hnew⟩

/-- More upkeep. -/
theorem Tended.upkeep {later : List HookEntry} (h : Tended before after)
    (hlater : List.Forall₂ Upkept after later) : Tended before later := by
  cases h with
  | kept h => exact .kept (upkept_trans h hlater)
  | @added kept new h hnone hours hid hfresh =>
    obtain ⟨kept', new', rfl, hkept, hnew⟩ := upkept_concat hlater
    exact .added (upkept_trans h hkept) hnone (hnew.ours hours) (by rwa [hnew.id])
      (by rwa [hnew.id])

/-- One more webhook, where none is ours. -/
theorem Tended.create {id : Int} {tunnel : String} (h : Tended before after)
    (hnone : after.find? HookEntry.ours = none) (hfresh : some id ∉ before.map HookEntry.id) :
    Tended before
      (after ++ [{ id := some id, config := some { url := some (desiredUrl tunnel) } }]) := by
  rw [List.find?_eq_none] at hnone
  cases h with
  | kept h =>
    refine .added h ?_ (ours_of_url_eq rfl) (Option.some_ne_none id) hfresh
    intro x hx
    cases hours : x.ours with
    | false => rfl
    | true =>
      exfalso
      clear hfresh
      induction h with
      | nil => cases hx
      | cons hhead _ ih =>
        rw [List.forall_mem_cons] at hnone
        rcases List.mem_cons.mp hx with rfl | hx
        · exact hnone.1 (hhead.ours hours)
        · exact ih hnone.2 hx
  | @added kept new _ _ hours _ _ =>
    exact absurd hours (hnone new (List.mem_append_right _ (List.mem_singleton_self new)))

end Tended

/-! ## Visits and passes -/

namespace Registrar

/-- Re-pointing one of ours is upkeep, where the ids are distinct. -/
theorem upkept_repoint {hooks : List HookEntry} {hook : HookEntry} {id : Int} {tunnel : String}
    (hids : Identified hooks) (hmem : hook ∈ hooks) (hours : hook.ours = true)
    (hid : hook.id = some id) :
    List.Forall₂ Upkept hooks (hooks.map (HookEntry.repoint id (desiredUrl tunnel))) := by
  rw [List.forall₂_map_right_iff, List.forall₂_same]
  intro x hx
  by_cases hxid : x.id = some id
  · have hsame : x = hook :=
      List.inj_on_of_nodup_map hids.distinct hx hmem (hxid.trans hid.symm)
    subst hsame
    have hnew : x.repoint id (desiredUrl tunnel) =
        { x with config := some { url := some (desiredUrl tunnel) } } := if_pos hxid
    refine ⟨by rw [hnew], fun hno => ?_, fun _ => ?_⟩
    · rw [hours] at hno
      cases hno
    · rw [hnew]
      exact ours_of_url_eq rfl
  · have hnew : x.repoint id (desiredUrl tunnel) = x := if_neg hxid
    rw [hnew]
    exact .refl x

variable {before : List HookEntry}

/-- **A visit** tends the webhooks of its repository. -/
theorem tended_ensure {s : Registrar} {owner repo : String} (tunnel : String) {a : HookAnswers}
    (hids : Identified before) (h : Tended before (s.hooks owner repo))
    (hnew : ∃ id, a.newId = some id ∧ some id ∉ before.map HookEntry.id) :
    Tended before ((s.ensure owner repo (desiredUrl tunnel) a).2.hooks owner repo) := by
  have hcall : ∀ w f, Tended before (f (s.hooks owner repo)) →
      Tended before ((s.call w owner repo f a.write).2.hooks owner repo) := by
    intro w f hf
    by_cases hwrite : a.write = .refused
    · have hsame : (s.call w owner repo f a.write).2.hooks owner repo = s.hooks owner repo := by
        simp [call, hwrite]
      rwa [hsame]
    · rwa [s.call_hooks_of_not_refused w owner repo f hwrite]
  unfold ensure
  cases a.lists with
  | false => exact h
  | true =>
    rw [if_pos rfl]
    cases hfind : (s.hooks owner repo).find? HookEntry.ours with
    | none =>
      obtain ⟨id, hid, hfresh⟩ := hnew
      refine hcall _ _ ?_
      rw [hid]
      exact h.create hfind hfresh
    | some hook =>
      have hours := List.find?_some hfind
      have hmem := List.mem_of_find?_eq_some hfind
      by_cases hurl : rstripSlash hook.url = rstripSlash (desiredUrl tunnel)
      · simp only [if_pos hurl]
        exact h
      · simp only [if_neg hurl]
        cases hid : hook.id with
        | none => exact h
        | some id =>
          exact hcall _ _ (h.upkeep (upkept_repoint (h.identified hids) hmem hours hid))

/-- A visit elsewhere. -/
theorem ensure_hooks_other (s : Registrar) {owner repo o r : String} (tunnel : String)
    (a : HookAnswers) (hne : ¬ (o = owner ∧ r = repo)) :
    (s.ensure owner repo (desiredUrl tunnel) a).2.hooks o r = s.hooks o r := by
  rcases s.ensure_cases owner repo tunnel a with ⟨hsame, -⟩ | ⟨w, f, heq, -⟩
  · rw [hsame]
  · rw [heq]
    exact s.call_hooks_other w f a.write hne

/-- Ensuring the hooks of a list of repositories tends them. -/
theorem tended_ensureAll {o r : String} (tunnel : String) {answers : Nat → HookAnswers}
    (hids : Identified before)
    (hnew : ∀ n, ∃ id, (answers n).newId = some id ∧ some id ∉ before.map HookEntry.id)
    (n : Nat) (specs : List RepoSpec) {s : Registrar} (h : Tended before (s.hooks o r)) :
    Tended before ((ensureAll (desiredUrl tunnel) answers n specs s).2.hooks o r) := by
  induction specs generalizing n s with
  | nil => exact h
  | cons spec specs ih =>
    have hvisit : Tended before
        ((s.ensure spec.owner spec.repo (desiredUrl tunnel) (answers n)).2.hooks o r) := by
      by_cases hkey : o = spec.owner ∧ r = spec.repo
      · obtain ⟨rfl, rfl⟩ := hkey
        exact tended_ensure tunnel hids h (hnew n)
      · rwa [s.ensure_hooks_other tunnel (answers n) hkey]
    unfold ensureAll
    split
    · rename_i t heq
      rw [heq] at hvisit
      exact ih (n + 1) hvisit
    · rename_i t _ heq
      rw [heq] at hvisit
      exact ih (n + 1) hvisit

/-! ## What the announcements say -/

/-- A visit leaves the announcements alone. -/
theorem ensure_slack (s : Registrar) (owner repo tunnel : String) (a : HookAnswers) :
    (s.ensure owner repo (desiredUrl tunnel) a).2.messages = s.messages ∧
      (s.ensure owner repo (desiredUrl tunnel) a).2.lastTunnelUrl = s.lastTunnelUrl := by
  rcases s.ensure_cases owner repo tunnel a with ⟨hsame, -⟩ | ⟨w, f, heq, -⟩
  · rw [hsame]
    exact ⟨rfl, rfl⟩
  · rw [heq]
    exact ⟨rfl, rfl⟩

/-- Ensuring hooks sends nothing to Slack and keeps the last url. -/
theorem ensureAll_slack (tunnel : String) (answers : Nat → HookAnswers) (n : Nat)
    (specs : List RepoSpec) (s : Registrar) :
    (ensureAll (desiredUrl tunnel) answers n specs s).2.messages = s.messages ∧
      (ensureAll (desiredUrl tunnel) answers n specs s).2.lastTunnelUrl = s.lastTunnelUrl := by
  induction specs generalizing n s with
  | nil => exact ⟨rfl, rfl⟩
  | cons spec specs ih =>
    have hvisit := s.ensure_slack spec.owner spec.repo tunnel (answers n)
    unfold ensureAll
    split
    · rename_i t heq
      rw [heq] at hvisit
      rw [← hvisit.1, ← hvisit.2]
      exact ih (n + 1) t
    · rename_i t _ heq
      rw [heq] at hvisit
      rw [← hvisit.1, ← hvisit.2]
      exact ih (n + 1) t

/-- How often the tunnel is another one than before. -/
def changes : Option String → List String → Nat
  | _, [] => 0
  | last, tunnel :: tunnels =>
    (if last = some tunnel then 0 else 1) + changes (some tunnel) tunnels

/-- The announcement leaves the hooks alone. -/
theorem announce_hooks (s : Registrar) (env : RegistrarEnv) :
    (s.announce env).2.hooks = s.hooks := by
  unfold announce
  cases env.tunnel.publicUrl with
  | none => rfl
  | some tunnel =>
    by_cases hlast : s.lastTunnelUrl = some tunnel
    · simp [hlast]
    · cases hs : env.slack <;> simp [hlast]

/-- The first `try` announces a tunnel exactly if it is another one. -/
theorem announce_eq {s : Registrar} {env : RegistrarEnv} (hslack : env.slack = true) :
    (s.announce env).2.messages = s.messages ++
        List.replicate (changes s.lastTunnelUrl env.tunnel.publicUrl.toList) startedAndReady ∧
      (s.announce env).2.lastTunnelUrl = env.tunnel.publicUrl.or s.lastTunnelUrl := by
  unfold announce
  cases env.tunnel.publicUrl with
  | none => exact ⟨(List.append_nil _).symm, rfl⟩
  | some tunnel =>
    by_cases hlast : s.lastTunnelUrl = some tunnel
    · simp [hlast, changes]
    · simp [hlast, hslack, changes]

/-- What a pass is, after the announcement. -/
theorem reconcile_snd (s : Registrar) (config : Config) (env : RegistrarEnv) :
    (s.reconcile config env).2 = (s.announce env).2 ∨
      ∃ tunnel, (s.reconcile config env).2 =
        (ensureAll (desiredUrl tunnel) env.answers 0 config.enabledRepos (s.announce env).2).2 := by
  unfold reconcile
  rcases s.announce env with ⟨_ | tunnel, t⟩
  · exact Or.inl rfl
  · exact Or.inr ⟨tunnel, rfl⟩

/-- A pass announces the tunnel exactly when its url is a new one. -/
theorem reconcile_slack {s : Registrar} (config : Config) {env : RegistrarEnv}
    (hslack : env.slack = true) :
    (s.reconcile config env).2.messages = s.messages ++
        List.replicate (changes s.lastTunnelUrl env.tunnel.publicUrl.toList) startedAndReady ∧
      (s.reconcile config env).2.lastTunnelUrl = env.tunnel.publicUrl.or s.lastTunnelUrl := by
  obtain ⟨hmessages, hlast⟩ := announce_eq (s := s) hslack
  rcases s.reconcile_snd config env with heq | ⟨tunnel, heq⟩
  · rw [heq]
    exact ⟨hmessages, hlast⟩
  · obtain ⟨hm, hl⟩ := ensureAll_slack tunnel env.answers 0 config.enabledRepos (s.announce env).2
    rw [heq, hm, hl]
    exact ⟨hmessages, hlast⟩

/-! ## Any number of passes -/

/-- `_registrar_loop`: the passes so far. -/
def passes (config : Config) (s : Registrar) (envs : List RegistrarEnv) : Registrar :=
  envs.foldl (fun s env => (s.reconcile config env).2) s

/-- A sequence of passes announces as often as the url changes. -/
theorem passes_slack (config : Config) {envs : List RegistrarEnv}
    (hslack : ∀ env ∈ envs, env.slack = true) (s : Registrar) :
    (s.passes config envs).messages = s.messages ++ List.replicate
      (changes s.lastTunnelUrl (envs.filterMap fun env => env.tunnel.publicUrl))
        startedAndReady := by
  induction envs generalizing s with
  | nil => exact (List.append_nil _).symm
  | cons env envs ih =>
    rw [List.forall_mem_cons] at hslack
    obtain ⟨hmessages, hlast⟩ := reconcile_slack (s := s) config hslack.1
    have hrest := ih hslack.2 (s.reconcile config env).2
    show ((s.reconcile config env).2.passes config envs).messages = _
    rw [hrest, hmessages, hlast, List.append_assoc, List.replicate_append_replicate,
      List.filterMap_cons]
    cases env.tunnel.publicUrl with
    | none => simp [changes]
    | some tunnel => simp [changes]

/-- GitHub gives a webhook it creates an id that none of a repository had at first. -/
def FreshIds (s : Registrar) (env : RegistrarEnv) : Prop :=
  ∀ n, ∃ id, (env.answers n).newId = some id ∧
    ∀ owner repo, some id ∉ (s.hooks owner repo).map HookEntry.id

/-- A sequence of passes tends the hooks of every repository. -/
theorem passes_tend (config : Config) {s : Registrar}
    (hids : ∀ owner repo, Identified (s.hooks owner repo)) {envs : List RegistrarEnv}
    (hnew : ∀ env ∈ envs, s.FreshIds env) (owner repo : String) :
    Tended (s.hooks owner repo) ((s.passes config envs).hooks owner repo) := by
  have hrun : ∀ t : Registrar, Tended (s.hooks owner repo) (t.hooks owner repo) →
      Tended (s.hooks owner repo) ((t.passes config envs).hooks owner repo) := by
    induction envs with
    | nil => exact fun t h => h
    | cons env envs ih =>
      rw [List.forall_mem_cons] at hnew
      intro t h
      refine ih hnew.2 (t.reconcile config env).2 ?_
      have hann : Tended (s.hooks owner repo) ((t.announce env).2.hooks owner repo) := by
        rwa [t.announce_hooks env]
      rcases t.reconcile_snd config env with heq | ⟨tunnel, heq⟩
      · rwa [heq]
      · rw [heq]
        refine tended_ensureAll tunnel (hids owner repo) (fun n => ?_) 0 _ hann
        obtain ⟨id, hid, hfresh⟩ := hnew.1 n
        exact ⟨id, hid, hfresh owner repo⟩
  exact hrun s (.refl _)

/-- A sequence of passes leaves the hooks of other repositories alone. -/
theorem passes_frame (config : Config) (s : Registrar) (envs : List RegistrarEnv)
    {owner repo : String}
    (hno : ∀ spec ∈ config.enabledRepos, ¬ (owner = spec.owner ∧ repo = spec.repo)) :
    (s.passes config envs).hooks owner repo = s.hooks owner repo := by
  induction envs generalizing s with
  | nil => rfl
  | cons env envs ih =>
    refine (ih (s.reconcile config env).2).trans ?_
    rcases s.reconcile_snd config env with heq | ⟨tunnel, heq⟩
    · rw [heq, s.announce_hooks env]
    · obtain ⟨new, hpass, -⟩ :=
        ensureAll_pass tunnel env.answers 0 config.enabledRepos (s.announce env).2
      rw [heq, hpass.frame owner repo hno, s.announce_hooks env]

/-- **The webhooks of a service that goes on reconciling.** For any number of passes, whatever
the tunnel is in each and whichever calls GitHub serves, refuses or does without an answer: the
foreign webhooks of every repository are what they were, and so are all webhooks of a repository
that is not enabled; every webhook is still there under its id, and there is at most one more,
which is ours, in a repository that had none of ours. After a pass with a tunnel that served a
repository, its first webhook of ours points at that tunnel. And Slack has been told once for
every time the tunnel was another one than before. -/
theorem passes_keep_webhooks (config : Config) (s : Registrar)
    (hids : ∀ owner repo, Identified (s.hooks owner repo)) (envs : List RegistrarEnv)
    (hnew : ∀ env ∈ envs, s.FreshIds env) :
    (∀ owner repo, ((s.passes config envs).hooks owner repo).filter (fun h => !h.ours) =
        (s.hooks owner repo).filter fun h => !h.ours) ∧
      (∀ owner repo, (∀ spec ∈ config.enabledRepos, ¬ (owner = spec.owner ∧ repo = spec.repo)) →
        (s.passes config envs).hooks owner repo = s.hooks owner repo) ∧
      (∀ owner repo, ((s.passes config envs).hooks owner repo).map HookEntry.id =
          (s.hooks owner repo).map HookEntry.id ∨
        (∀ h ∈ s.hooks owner repo, h.ours = false) ∧
          ∃ new, (s.passes config envs).hooks owner repo = s.hooks owner repo ++ [new] ∧
            new.ours = true) ∧
      (∀ before last tunnel, envs = before ++ [last] → last.tunnel.publicUrl = some tunnel →
        last.slackOk = true → ∀ spec ∈ config.enabledRepos,
          (∀ (i : Nat) (x : RepoSpec), config.enabledRepos[i]? = some x → x.owner = spec.owner →
            x.repo = spec.repo → (last.answers i).served) →
          Registered (desiredUrl tunnel) ((s.passes config envs).hooks spec.owner spec.repo)) ∧
      ((∀ env ∈ envs, env.slack = true) →
        (s.passes config envs).messages = s.messages ++ List.replicate
          (changes s.lastTunnelUrl (envs.filterMap fun env => env.tunnel.publicUrl))
            startedAndReady) := by
  have htended := passes_tend config hids hnew
  refine ⟨fun o r => (htended o r).foreign, fun o r => passes_frame config s envs,
    fun o r => (htended o r).ids, ?_, fun hslack => passes_slack config hslack s⟩
  rintro before last tunnel rfl htunnel hslackOk spec hspec hserved
  have hbefore := passes_tend config hids (fun env henv => hnew env (List.mem_append_left _ henv))
    spec.owner spec.repo
  have hlast : s.passes config (before ++ [last]) =
      ((s.passes config before).reconcile config last).2 := List.foldl_concat ..
  rw [hlast]
  exact reconcile_settles htunnel hslackOk hspec (hbefore.identified (hids _ _)).ids hserved

/-- A pass whose calls are done, but raise. -/
def lostAnswers : RegistrarEnv where
  slack := true
  tunnel := { publicAgentUrl := some "https://new.dev/" }
  answers := fun _ => { write := .lost, newId := some 100 }

/-- A pass under another tunnel. -/
def movedTunnel : RegistrarEnv where
  slack := true
  tunnel := { publicAgentUrl := some "https://newer.dev" }
  answers := fun _ => { newId := some 101 }

/-- The hooks of the example have distinct ids. -/
theorem staleRegistrar_identified (owner repo : String) :
    Identified (staleRegistrar.hooks owner repo) := by
  by_cases h : repo = "app"
  · subst h
    change Identified (staleRegistrar.hooks "acme" "app")
    constructor
    · unfold HasIds
      decide +kernel
    · decide +kernel
  · have hnil : staleRegistrar.hooks owner repo = [] := if_neg h
    rw [hnil]
    exact ⟨fun x hx => absurd hx List.not_mem_nil, List.nodup_nil⟩

/-- Every id but the two in use is fresh for the example. -/
theorem staleRegistrar_fresh {id : Int} (hid : id ∉ [1, 7]) (owner repo : String) :
    some id ∉ (staleRegistrar.hooks owner repo).map HookEntry.id := by
  by_cases h : repo = "app"
  · subst h
    simpa [staleRegistrar] using hid
  · have hnil : staleRegistrar.hooks owner repo = [] := if_neg h
    rw [hnil]
    exact List.not_mem_nil

/-- What two passes leave of the webhooks, the first one losing its answers. -/
theorem passes_keep_webhooks_stale :
    let s := staleRegistrar
    let envs := [lostAnswers, movedTunnel]
    (∀ owner repo, ((s.passes threeRepos envs).hooks owner repo).filter (fun h => !h.ours) =
        (s.hooks owner repo).filter fun h => !h.ours) ∧
      (∀ owner repo, (∀ spec ∈ threeRepos.enabledRepos,
          ¬ (owner = spec.owner ∧ repo = spec.repo)) →
        (s.passes threeRepos envs).hooks owner repo = s.hooks owner repo) ∧
      (∀ owner repo, ((s.passes threeRepos envs).hooks owner repo).map HookEntry.id =
          (s.hooks owner repo).map HookEntry.id ∨
        (∀ h ∈ s.hooks owner repo, h.ours = false) ∧
          ∃ new, (s.passes threeRepos envs).hooks owner repo = s.hooks owner repo ++ [new] ∧
            new.ours = true) ∧
      (∀ before last tunnel, envs = before ++ [last] → last.tunnel.publicUrl = some tunnel →
        last.slackOk = true → ∀ spec ∈ threeRepos.enabledRepos,
          (∀ (i : Nat) (x : RepoSpec), threeRepos.enabledRepos[i]? = some x →
            x.owner = spec.owner → x.repo = spec.repo → (last.answers i).served) →
          Registered (desiredUrl tunnel) ((s.passes threeRepos envs).hooks spec.owner spec.repo)) ∧
      ((∀ env ∈ envs, env.slack = true) →
        (s.passes threeRepos envs).messages = s.messages ++ List.replicate
          (changes s.lastTunnelUrl (envs.filterMap fun env => env.tunnel.publicUrl))
            startedAndReady) := by
  refine passes_keep_webhooks threeRepos staleRegistrar staleRegistrar_identified _ ?_
  simp only [List.forall_mem_cons, List.not_mem_nil, false_implies, implies_true, and_true]
  exact ⟨fun n => ⟨100, rfl, staleRegistrar_fresh (by decide)⟩,
    fun n => ⟨101, rfl, staleRegistrar_fresh (by decide)⟩⟩

end Registrar

end PrReviewer.Model
