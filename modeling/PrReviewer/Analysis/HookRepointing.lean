import PrReviewer.Analysis.WebhookConvergence

/-!
# Re-pointing and the URLs of the webhooks

What one visit of the registrar makes of the URLs of a repository. It changes the URL of the
first webhook of ours and reads no other, so a later webhook that has the desired URL already is
duplicated by it.
-/

set_option autoImplicit false

namespace PrReviewer.Model

/-! ## URLs -/

/-- The URLs of the webhooks, up to trailing slashes. -/
def hookUrls (hooks : List HookEntry) : List (List Char) :=
  hooks.map fun h => rstripSlash h.url

/-- The webhook has the URL, up to trailing slashes. -/
def HookEntry.pointsAt (url : String) (h : HookEntry) : Prop :=
  rstripSlash h.url = rstripSlash url

/-- Some webhook has the URL. -/
theorem mem_hookUrls {hooks : List HookEntry} {url : String} :
    rstripSlash url ∈ hookUrls hooks ↔ ∃ h ∈ hooks, h.pointsAt url :=
  List.mem_map

/-- Where the urls are distinct, one hook points at a url. -/
theorem pointsAt_unique {hooks : List HookEntry} {url : String} {h h' : HookEntry}
    (hdistinct : (hookUrls hooks).Nodup) (hmem : h ∈ hooks) (hmem' : h' ∈ hooks)
    (hurl : h.pointsAt url) (hurl' : h'.pointsAt url) : h = h' := by
  have heq : rstripSlash h.url = rstripSlash h'.url := hurl.trans hurl'.symm
  exact List.inj_on_of_nodup_map hdistinct hmem hmem' heq

/-- A hook that points at the tunnel is the service's own. -/
theorem ours_of_pointsAt {tunnel : String} {h : HookEntry} (hurl : h.pointsAt (desiredUrl tunnel)) :
    h.ours = true := by
  have heq : rstripSlash h.url = rstripSlash tunnel ++ webhookPath.toList := by
    rw [hurl, rstripSlash_desiredUrl]
  unfold HookEntry.ours
  rw [heq, List.isSuffixOf_iff_suffix]
  exact List.suffix_append _ _

/-- GitHub gives every webhook an id of its own. -/
structure Identified (hooks : List HookEntry) : Prop where
  ids : Registrar.HasIds hooks
  distinct : (hooks.map HookEntry.id).Nodup

/-- Where the ids are distinct, re-pointing an id replaces one webhook. -/
theorem map_repoint {pre post : List HookEntry} {hook : HookEntry} {id : Int} (url : String)
    (hids : Identified (pre ++ hook :: post)) (hid : hook.id = some id) :
    (pre ++ hook :: post).map (HookEntry.repoint id url) =
      pre ++ { hook with config := some { url := some url } } :: post := by
  have hnodup := hids.distinct
  rw [List.map_append, List.map_cons, List.nodup_middle, List.nodup_cons, hid, List.mem_append,
    not_or] at hnodup
  obtain ⟨⟨hpre, hpost⟩, -⟩ := hnodup
  have hother : ∀ hooks : List HookEntry, some id ∉ hooks.map HookEntry.id →
      hooks.map (HookEntry.repoint id url) = hooks := by
    intro hooks hnot
    refine (List.map_congr_left fun h hmem => ?_).trans (List.map_id hooks)
    have hne : h.id ≠ some id := fun heq => hnot (List.mem_map.mpr ⟨h, hmem, heq⟩)
    exact if_neg hne
  rw [List.map_append, List.map_cons, hother pre hpre, hother post hpost]
  exact congrArg (fun h => pre ++ h :: post) (if_pos hid)

/-! ## What a visit should leave -/

namespace Registrar

/-- The visit leaves the webhooks distinct and exactly one with the desired URL, and makes no
call if one had it. -/
structure Unduplicated (desired owner repo : String) (s s' : Registrar) : Prop where
  distinct : (hookUrls (s'.hooks owner repo)).Nodup
  one : (hookUrls (s'.hooks owner repo)).count (rstripSlash desired) = 1
  quiet : rstripSlash desired ∈ hookUrls (s.hooks owner repo) → s'.calls = s.calls

variable {owner repo desired : String}

/-- A URL that is there among distinct ones is there once. -/
theorem Unduplicated.of_mem {s s' : Registrar} (hdistinct : (hookUrls (s'.hooks owner repo)).Nodup)
    (hmem : rstripSlash desired ∈ hookUrls (s'.hooks owner repo))
    (hquiet : rstripSlash desired ∈ hookUrls (s.hooks owner repo) → s'.calls = s.calls) :
    Unduplicated desired owner repo s s' :=
  ⟨hdistinct, List.count_eq_one_of_mem hdistinct hmem, hquiet⟩

/-- What a call makes of the webhooks, unless GitHub refuses it. -/
theorem call_hooks_of_not_refused (s : Registrar) (w : GitHubWrite) (owner repo : String)
    (f : List HookEntry → List HookEntry) {a : WriteAnswer} (ha : a ≠ .refused) :
    (s.call w owner repo f a).2.hooks owner repo = f (s.hooks owner repo) := by
  simp [call, ha]

/-- Every call to GitHub is recorded. -/
theorem call_calls_ne (s : Registrar) (w : GitHubWrite) (owner repo : String)
    (f : List HookEntry → List HookEntry) (a : WriteAnswer) :
    (s.call w owner repo f a).2.calls ≠ s.calls := by
  simp [call]

section Visit

variable {s : Registrar} {tunnel : String} {a : HookAnswers}

/-- Where no webhook has the desired URL, the visit gives it to one of them or to a new one. -/
theorem ensure_of_not_mem (hlists : a.lists = true) (hids : Identified (s.hooks owner repo))
    (hdistinct : (hookUrls (s.hooks owner repo)).Nodup) (hwrite : a.write ≠ .refused)
    (hnot : rstripSlash (desiredUrl tunnel) ∉ hookUrls (s.hooks owner repo)) :
    Unduplicated (desiredUrl tunnel) owner repo s
      (s.ensure owner repo (desiredUrl tunnel) a).2 := by
  unfold ensure
  rw [if_pos hlists]
  cases hfind : (s.hooks owner repo).find? HookEntry.ours with
  | none =>
    have hurls : hookUrls (s.hooks owner repo ++
        [{ id := a.newId, config := some { url := some (desiredUrl tunnel) } }]) =
          hookUrls (s.hooks owner repo) ++ [rstripSlash (desiredUrl tunnel)] := by
      rw [hookUrls, List.map_append]
      rfl
    apply Unduplicated.of_mem
    · rw [s.call_hooks_of_not_refused _ _ _ _ hwrite, hurls, ← List.concat_eq_append]
      exact hdistinct.concat hnot
    · rw [s.call_hooks_of_not_refused _ _ _ _ hwrite, hurls]
      exact List.mem_append_right _ (List.mem_singleton_self _)
    · exact fun hmem => absurd hmem hnot
  | some hook =>
    have hmem : hook ∈ s.hooks owner repo := List.mem_of_find?_eq_some hfind
    have hurl : rstripSlash hook.url ≠ rstripSlash (desiredUrl tunnel) :=
      fun heq => hnot (mem_hookUrls.mpr ⟨hook, hmem, heq⟩)
    obtain ⟨id, hid⟩ := Option.ne_none_iff_exists'.mp (hids.ids hook hmem)
    obtain ⟨pre, post, hsplit⟩ := List.append_of_mem hmem
    rw [hsplit] at hids hdistinct hnot
    have hurls : hookUrls
        (pre ++ { hook with config := some { url := some (desiredUrl tunnel) } } :: post) =
          hookUrls pre ++ rstripSlash (desiredUrl tunnel) :: hookUrls post := by
      rw [hookUrls, List.map_append, List.map_cons]
      rfl
    simp only [if_neg hurl, hid]
    apply Unduplicated.of_mem
    · rw [s.call_hooks_of_not_refused _ _ _ _ hwrite, hsplit, map_repoint _ hids hid, hurls,
        List.nodup_middle, List.nodup_cons]
      rw [hookUrls, List.map_append, List.map_cons, List.nodup_middle, List.nodup_cons] at hdistinct
      refine ⟨fun hin => hnot ?_, hdistinct.2⟩
      rw [hookUrls, List.map_append, List.map_cons]
      rcases List.mem_append.mp hin with hin | hin
      · exact List.mem_append_left _ hin
      · exact List.mem_append_right _ (List.mem_cons_of_mem _ hin)
    · rw [s.call_hooks_of_not_refused _ _ _ _ hwrite, hsplit, map_repoint _ hids hid, hurls]
      exact List.mem_append_right _ List.mem_cons_self
    · intro hin
      rw [hsplit] at hin
      exact absurd hin hnot

/-- Where the first webhook of ours has the desired URL, the visit changes nothing. -/
theorem ensure_of_current {hook : HookEntry} (hlists : a.lists = true)
    (hfind : (s.hooks owner repo).find? HookEntry.ours = some hook)
    (hurl : hook.pointsAt desired) : (s.ensure owner repo desired a).2 = s := by
  have heq : rstripSlash hook.url = rstripSlash desired := hurl
  unfold ensure
  rw [if_pos hlists, hfind]
  simp only [if_pos heq]

/-- Where the first webhook of ours has another URL, the visit makes a call. -/
theorem ensure_of_stale {hook : HookEntry} (hlists : a.lists = true)
    (hids : HasIds (s.hooks owner repo))
    (hfind : (s.hooks owner repo).find? HookEntry.ours = some hook)
    (hurl : ¬ hook.pointsAt desired) : (s.ensure owner repo desired a).2.calls ≠ s.calls := by
  obtain ⟨id, hid⟩ := Option.ne_none_iff_exists'.mp (hids hook (List.mem_of_find?_eq_some hfind))
  have hne : ¬ rstripSlash hook.url = rstripSlash desired := hurl
  unfold ensure
  rw [if_pos hlists, hfind]
  simp only [if_neg hne, hid]
  exact s.call_calls_ne _ _ _ _ _

end Visit

/-- **When re-pointing duplicates no webhook.** For every tunnel and every list of webhooks with
distinct URLs and ids, and whether GitHub takes the call of the visit, loses its answer or, where
the URL is taken, refuses it: the visit leaves the URLs distinct and exactly one of them the
desired one, and makes no call if one was, if and only if every webhook that has the desired URL
is the first webhook of ours. -/
theorem ensure_unduplicated_iff (s : Registrar) (owner repo tunnel : String) (a : HookAnswers)
    (hlists : a.lists = true) (hids : Identified (s.hooks owner repo))
    (hdistinct : (hookUrls (s.hooks owner repo)).Nodup)
    (hwrite : a.write = .refused →
      rstripSlash (desiredUrl tunnel) ∈ hookUrls (s.hooks owner repo)) :
    Unduplicated (desiredUrl tunnel) owner repo s
        (s.ensure owner repo (desiredUrl tunnel) a).2 ↔
      ∀ h ∈ s.hooks owner repo, h.pointsAt (desiredUrl tunnel) →
        (s.hooks owner repo).find? HookEntry.ours = some h := by
  constructor
  · intro hgood h hmem hurl
    have hquiet := hgood.quiet (mem_hookUrls.mpr ⟨h, hmem, hurl⟩)
    obtain ⟨hook, hfind⟩ : ∃ hook, (s.hooks owner repo).find? HookEntry.ours = some hook := by
      apply Option.isSome_iff_exists.mp
      rw [List.find?_isSome]
      exact ⟨h, hmem, ours_of_pointsAt hurl⟩
    by_cases hcur : hook.pointsAt (desiredUrl tunnel)
    · rw [hfind, pointsAt_unique hdistinct (List.mem_of_find?_eq_some hfind) hmem hcur hurl]
    · exact absurd hquiet (ensure_of_stale hlists hids.ids hfind hcur)
  · intro hfirst
    by_cases hmem : rstripSlash (desiredUrl tunnel) ∈ hookUrls (s.hooks owner repo)
    · obtain ⟨h, hin, hurl⟩ := mem_hookUrls.mp hmem
      rw [ensure_of_current hlists (hfirst h hin hurl) hurl]
      exact .of_mem hdistinct hmem fun _ => rfl
    · exact ensure_of_not_mem hlists hids hdistinct (fun href => hmem (hwrite href)) hmem

/-- A repository whose webhook for the new tunnel comes after one for an old tunnel. -/
def staleFirst : Registrar where
  hooks := fun _ _ =>
    [{ id := some 1, config := some { url := some "https://old.dev/api/webhook" } },
      { id := some 2, config := some { url := some "https://new.dev/api/webhook" } }]

/-- The same repository before the second webhook was made. -/
def staleOnly : Registrar where
  hooks := fun _ _ =>
    [{ id := some 1, config := some { url := some "https://old.dev/api/webhook" } }]

/-- The hooks of the first example have their ids. -/
theorem staleOnly_identified : Identified (staleOnly.hooks "me" "app") where
  ids := by
    unfold HasIds
    decide +kernel
  distinct := by decide +kernel

/-- The hooks of the second example have their ids. -/
theorem staleFirst_identified : Identified (staleFirst.hooks "me" "app") where
  ids := by
    unfold HasIds
    decide +kernel
  distinct := by decide +kernel

/-- The two sides where only a stale webhook stands. -/
theorem ensure_unduplicated_iff_stale :
    Unduplicated (desiredUrl "https://new.dev") "me" "app" staleOnly
        (staleOnly.ensure "me" "app" (desiredUrl "https://new.dev") {}).2 ↔
      ∀ h ∈ staleOnly.hooks "me" "app", h.pointsAt (desiredUrl "https://new.dev") →
        (staleOnly.hooks "me" "app").find? HookEntry.ours = some h :=
  ensure_unduplicated_iff staleOnly "me" "app" "https://new.dev" {} rfl
    staleOnly_identified (by decide +kernel) (by decide +kernel)

/-- The first webhook is re-pointed at the URL of the second. -/
theorem repointing_duplicates :
    Identified (staleFirst.hooks "me" "app") ∧
      (hookUrls (staleFirst.hooks "me" "app")).Nodup ∧
      ¬ Unduplicated (desiredUrl "https://new.dev") "me" "app" staleFirst
        (staleFirst.ensure "me" "app" (desiredUrl "https://new.dev") {}).2 := by
  refine ⟨staleFirst_identified, by decide +kernel, fun h => ?_⟩
  have htwo : (hookUrls ((staleFirst.ensure "me" "app" (desiredUrl "https://new.dev") {}).2.hooks
      "me" "app")).count (rstripSlash (desiredUrl "https://new.dev")) = 2 := by decide +kernel
  rw [h.one] at htwo
  cases htwo

end Registrar

end PrReviewer.Model
