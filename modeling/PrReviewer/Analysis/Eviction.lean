import PrReviewer.Model.Eviction

/-!
# Eviction

What `_evict_if_over_cap` removes: the entries of the shortest prefix of the LRU order, the
kept one left out, that brings the usage to the cap, each with its directory and its row
(`evicts_least_recent`). On a cache whose rows stand at their keys the eviction of
`PrReviewer.Model.Cache` removes the same entries (`evictIfOverCap_shows`).
-/

set_option autoImplicit false

namespace PrReviewer.Model

open PrReviewer.Library

namespace DirCache

/-- An entry is evicted, with its directory. -/
def remove (c : DirCache) (e : CachedDir) : DirCache :=
  (c.rmtree e.path).removeRepo e.key

/-- The usage is within the cap. -/
def within (cap : Int) (c : DirCache) : Bool :=
  decide ((c.usage : Int) ≤ cap)

/-- The entries the eviction may remove, in LRU order. -/
def victims (keep : String) (order : List CachedDir) : List CachedDir :=
  order.filter fun e => decide (e.path ≠ keep)

/-- The cache without some entries and without what is in their directories. -/
def without (c : DirCache) (gone : List CachedDir) : DirCache where
  root := c.root
  repos := c.repos.filter fun e => decide (e ∉ gone)
  keys_nodup := c.keys_nodup.sublist (List.filter_sublist.map _)
  files := c.files.filter fun f => gone.all fun e => !inTree e.path f.1

/-- No entry's directory is that of another entry or lies in it. -/
def Disjoint (c : DirCache) : Prop :=
  ∀ a ∈ c.repos, ∀ b ∈ c.repos, a ≠ b → a.path ≠ b.path ∧ inTree a.path b.path = false

/-- Whether the checkouts are disjoint can be decided. -/
instance (c : DirCache) : Decidable c.Disjoint :=
  inferInstanceAs (Decidable (∀ a ∈ c.repos, ∀ b ∈ c.repos,
    a ≠ b → a.path ≠ b.path ∧ inTree a.path b.path = false))

/-- Two trees with a path in common lie one in the other. -/
theorem trees_nested {a b path : String} (ha : inTree a path = true)
    (hb : inTree b path = true) : a = b ∨ inTree a b = true ∨ inTree b a = true := by
  have hslash : ∀ s : String, (s ++ "/").toList = s.toList ++ ['/'] := by
    intro s
    rw [String.toList_append]
    rfl
  have hone : ∀ {s t : String}, (s ++ "/").toList <+: (t ++ "/").toList →
      s = t ∨ inTree s t = true := by
    intro s t h
    rw [hslash t, List.prefix_concat_iff] at h
    rcases h with h | h
    · rw [hslash s] at h
      exact Or.inl (String.toList_injective (List.append_cancel_right h))
    · exact Or.inr (List.isPrefixOf_iff_prefix.mpr h)
  have hpa := List.isPrefixOf_iff_prefix.mp ha
  have hpb := List.isPrefixOf_iff_prefix.mp hb
  rcases List.prefix_or_prefix_of_prefix hpa hpb with h | h
  · rcases hone h with h | h
    · exact Or.inl h
    · exact Or.inr (Or.inl h)
  · rcases hone h with h | h
    · exact Or.inl h.symm
    · exact Or.inr (Or.inr h)

/-- Above the cap the loop is a sweep over its victims. -/
theorem evictLoop_eq_sweep (cap : Int) (keep : String) (c : DirCache) (l : List CachedDir)
    (h : within cap c = false) :
    evictLoop cap keep c l = sweep remove (within cap) c (victims keep l) := by
  apply loop_eq_sweep (fun _ => rfl)
  · intro c e l hkept
    exact if_pos (of_not_not (of_decide_eq_false hkept))
  · intro c e l hgoes
    refine (if_neg (of_decide_eq_true hgoes)).trans ?_
    by_cases hcap : ((c.remove e).usage : Int) ≤ cap
    · exact (if_pos hcap).trans (if_pos (decide_eq_true hcap)).symm
    · have hmore : ¬ within cap (c.remove e) = true := fun hw => hcap (of_decide_eq_true hw)
      exact (if_neg hcap).trans (if_neg hmore).symm
  · exact h

/-- The eviction is a sweep over the entries that may go. -/
theorem evictIfOverCap_eq_sweep (c : DirCache) (cap : Int) (keep : String) :
    c.evictIfOverCap cap keep = sweep remove (within cap) c (victims keep c.lruOrder) := by
  unfold evictIfOverCap
  split
  · rename_i h
    have hwithin : within cap c = true := decide_eq_true h
    exact (sweep_of_enough _ hwithin).symm
  · rename_i h
    exact evictLoop_eq_sweep cap keep c _ (decide_eq_false h)

/-- Removing one checkout more is leaving it out last. -/
theorem remove_without {c : DirCache} {gone : List CachedDir} {e : CachedDir}
    (he : e ∈ c.repos) :
    (c.without gone).remove e = c.without (gone ++ [e]) := by
  have hkey : ∀ a ∈ c.repos, a.key = e.key → a = e := fun a ha hk =>
    List.inj_on_of_nodup_map c.keys_nodup ha he hk
  ext1
  · rfl
  · show ((c.repos.filter _).filter _) = c.repos.filter _
    rw [List.filter_filter]
    apply List.filter_congr
    intro a ha
    by_cases hae : a = e
    · simp [hae]
    · have hne : a.key ≠ e.key := fun hk => hae (hkey a ha hk)
      simp [hae, hne]
  · show ((c.files.filter _).filter _) = c.files.filter _
    rw [List.filter_filter]
    apply List.filter_congr
    intro f _
    simp [List.all_append, Bool.and_comm]

/-- Entries evicted one after another leave the cache without them. -/
theorem foldl_remove {c : DirCache} (gone more : List CachedDir)
    (hmore : ∀ a ∈ more, a ∈ c.repos) :
    more.foldl remove (c.without gone) = c.without (gone ++ more) := by
  induction more generalizing gone with
  | nil => rw [List.append_nil, List.foldl_nil]
  | cons e more ih =>
    have he : e ∈ c.repos := hmore e List.mem_cons_self
    rw [List.foldl_cons, remove_without he, ih (gone ++ [e])
      (fun a ha => hmore a (List.mem_cons_of_mem e ha)), List.append_assoc, List.singleton_append]

/-- Nothing is left out by the empty list. -/
@[simp] theorem without_nil (c : DirCache) : c.without [] = c := by
  ext1 <;> simp [without]

/-- Removing checkouts one after the other is leaving them out. -/
theorem foldl_remove_eq {c : DirCache} {gone : List CachedDir} (h : ∀ a ∈ gone, a ∈ c.repos) :
    gone.foldl remove c = c.without gone := by
  have hfold := foldl_remove (c := c) [] gone h
  rwa [without_nil, List.nil_append] at hfold

/-- The order of use lists the checkouts. -/
theorem mem_lruOrder {c : DirCache} {e : CachedDir} : e ∈ c.lruOrder ↔ e ∈ c.repos :=
  ((stablySorted_sortedBy _ _).perm.trans (stablySorted_sortedBy _ _).perm).mem_iff

/-- Every victim is a checkout. -/
theorem mem_of_mem_victims {c : DirCache} {keep : String} {e : CachedDir}
    (h : e ∈ victims keep c.lruOrder) : e ∈ c.repos :=
  mem_lruOrder.mp (List.mem_filter.mp h).1

/-- An entry goes with its whole directory, and what stays keeps its own. -/
theorem together_without {c : DirCache} (hd : c.Disjoint) {gone : List CachedDir}
    (hgone : ∀ a ∈ gone, a ∈ c.repos) {e : CachedDir} (he : e ∈ c.repos) :
    (e ∈ gone ∧ e ∉ (c.without gone).repos ∧
        ∀ f ∈ (c.without gone).files, inTree e.path f.1 = false) ∨
      (e ∉ gone ∧ e ∈ (c.without gone).repos ∧
        ∀ f ∈ c.files, inTree e.path f.1 = true → f ∈ (c.without gone).files) := by
  by_cases hmem : e ∈ gone
  · refine Or.inl ⟨hmem, ?_, ?_⟩
    · simp [without, hmem]
    · intro f hf
      have hall := (List.mem_filter.mp hf).2
      simpa using List.all_eq_true.mp hall e hmem
  · refine Or.inr ⟨hmem, ?_, ?_⟩
    · simp [without, hmem, he]
    · intro f hf htree
      apply List.mem_filter.mpr ⟨hf, ?_⟩
      rw [List.all_eq_true]
      intro a ha
      have hae : a ≠ e := fun h => hmem (h ▸ ha)
      obtain ⟨hpath, hin⟩ := hd a (hgone a ha) e he hae
      have hin' := (hd e he a (hgone a ha) (Ne.symm hae)).2
      cases hfile : inTree a.path f.1 with
      | false => rfl
      | true =>
        rcases trees_nested hfile htree with h | h | h
        · exact absurd h hpath
        · exact absurd h (by simp [hin])
        · exact absurd h (by simp [hin'])

/-- What is evicted is determined: there is one stable order, and one number that is enough. -/
theorem evicted_unique {c : DirCache} {cap : Int} {keep : String} {order order' : List CachedDir}
    {n m : ℕ} (ho : StablySorted CachedDir.lastUsed c.listRepos order)
    (ho' : StablySorted CachedDir.lastUsed c.listRepos order')
    (hn : StopsAt (fun i => ((c.without ((victims keep order).take i)).usage : Int) ≤ cap)
      (victims keep order).length n)
    (hm : StopsAt (fun i => ((c.without ((victims keep order').take i)).usage : Int) ≤ cap)
      (victims keep order').length m) :
    (victims keep order).take n = (victims keep order').take m := by
  have horder : order = order' := ho.unique ho'
  subst horder
  rw [hn.unique hm]

/-- **Least recently used entries go first, and no more than needed.** The entries that may go
are those not at the kept path, in the order of their last use and, for equal times, of
`list_repos`. The first `n` of them go, for the least `n` that brings the usage to the cap, or
all of them; what goes goes with its directory and its row, the rest stays untouched. -/
theorem evicts_least_recent (c : DirCache) (cap : Int) (keep : String) (hd : c.Disjoint) :
    ∃ order n, StablySorted CachedDir.lastUsed c.listRepos order ∧
      StopsAt (fun m => ((c.without ((victims keep order).take m)).usage : Int) ≤ cap)
        (victims keep order).length n ∧
      c.evictIfOverCap cap keep = c.without ((victims keep order).take n) ∧
      ((c.usage : Int) ≤ cap → c.evictIfOverCap cap keep = c) ∧
      ∀ e ∈ c.repos,
        (e ∈ (victims keep order).take n ∧ e ∉ (c.evictIfOverCap cap keep).repos ∧
            ∀ f ∈ (c.evictIfOverCap cap keep).files, inTree e.path f.1 = false) ∨
          (e ∉ (victims keep order).take n ∧ e ∈ (c.evictIfOverCap cap keep).repos ∧
            ∀ f ∈ c.files, inTree e.path f.1 = true →
              f ∈ (c.evictIfOverCap cap keep).files) := by
  have hmem : ∀ m, ∀ e ∈ (victims keep c.lruOrder).take m, e ∈ c.repos :=
    fun m e he => mem_of_mem_victims (List.mem_of_mem_take he)
  obtain ⟨n, hstop, hsweep⟩ :=
    @sweep_eq _ _ remove (within cap) c (victims keep c.lruOrder)
  rw [foldl_remove_eq (hmem n), ← evictIfOverCap_eq_sweep] at hsweep
  refine ⟨c.lruOrder, n, stablySorted_sortedBy _ _, ⟨hstop.le, ?_, ?_⟩, hsweep, ?_, ?_⟩
  · intro m hm htest
    apply hstop.before m hm
    rw [foldl_remove_eq (hmem m)]
    exact decide_eq_true htest
  · have hn := hstop.stop
    rw [foldl_remove_eq (hmem n)] at hn
    exact hn.imp_left of_decide_eq_true
  · exact fun hcap => if_pos hcap
  · intro e he
    rw [hsweep]
    exact together_without hd (hmem n) he

/-- Two checkouts of 5000 bytes each. -/
def twoCheckouts : DirCache where
  root := "/c"
  repos := [⟨"acme", "old", "/c/acme/old", 1⟩, ⟨"acme", "new", "/c/acme/new", 2⟩]
  keys_nodup := by decide +kernel
  files := [("/c/acme/old/f", .regular 5000), ("/c/acme/new/f", .regular 5000)]

/-- Of two checkouts the one used least recently goes, and the kept one stays. -/
theorem evicts_least_recent_two :
    ((twoCheckouts.evictIfOverCap 6000 "/c/acme/new").repos.map CachedDir.repo) = ["new"] ∧
      ∃ order n, StablySorted CachedDir.lastUsed twoCheckouts.listRepos order ∧
        StopsAt (fun m =>
            ((twoCheckouts.without ((victims "/c/acme/new" order).take m)).usage : Int) ≤ 6000)
          (victims "/c/acme/new" order).length n := by
  have hd : twoCheckouts.Disjoint := by decide +kernel
  obtain ⟨order, n, hsorted, hstop, -⟩ :=
    evicts_least_recent twoCheckouts 6000 "/c/acme/new" hd
  have horder : twoCheckouts.lruOrder = twoCheckouts.repos := by
    rw [lruOrder, listRepos, sortedBy_sortedBy]
    exact List.mergeSort_of_pairwise (by decide)
  have hrun : twoCheckouts.evictIfOverCap 6000 "/c/acme/new" =
      evictLoop 6000 "/c/acme/new" twoCheckouts twoCheckouts.repos := by
    rw [← horder]
    exact if_neg (by decide +kernel)
  refine ⟨?_, order, n, hsorted, hstop⟩
  rw [hrun]
  decide +kernel

end DirCache

/-! ## The cache of the service -/

/-- An entry is evicted, with its directory. -/
def Cache.evict (c : Cache) (r : CachedRepo) : Cache :=
  (c.rmtree r.key).removeRepo r.key

/-- The usage is within the cap. -/
def Cache.within (cap : Int) (disk : Disk) (c : Cache) : Bool :=
  decide ((c.usage disk : Int) ≤ cap)

/-- Above the cap the table's loop is a sweep over its victims. -/
theorem Cache.evictLoop_eq_sweep {cap : Int} {disk : Disk} (keep : String) (c : Cache)
    (l : List CachedRepo) (h : Cache.within cap disk c = false) :
    c.evictLoop cap disk keep l =
      sweep Cache.evict (Cache.within cap disk) c (l.filter fun r => decide (r.key ≠ keep)) := by
  refine @loop_eq_sweep _ _ Cache.evict (Cache.within cap disk)
    (fun c l => c.evictLoop cap disk keep l) _ (fun _ => rfl) ?_ ?_ c l h
  · intro c r l hkept
    exact if_pos (of_not_not (of_decide_eq_false hkept))
  · intro c r l hgoes
    refine (if_neg (of_decide_eq_true hgoes)).trans ?_
    by_cases hcap : ((c.evict r).usage disk : Int) ≤ cap
    · exact (if_pos hcap).trans (if_pos (decide_eq_true hcap)).symm
    · have hmore : ¬ Cache.within cap disk (c.evict r) = true :=
        fun hw => hcap (of_decide_eq_true hw)
      exact (if_neg hcap).trans (if_neg hmore).symm

/-- The table's eviction is a sweep over the other repositories. -/
theorem Cache.evictIfOverCap_eq_sweep (c : Cache) (cap : Int) (disk : Disk) (keep : String) :
    c.evictIfOverCap cap disk keep =
      sweep Cache.evict (Cache.within cap disk) c
        (c.lruOrder.filter fun r => decide (r.key ≠ keep)) := by
  unfold Cache.evictIfOverCap
  split
  · rename_i h
    have hwithin : Cache.within cap disk c = true := decide_eq_true h
    exact (sweep_of_enough _ hwithin).symm
  · rename_i h
    exact Cache.evictLoop_eq_sweep keep c _ (decide_eq_false h)

/-- The row of a repository whose directory stands at its key. -/
def placed (root : String) (r : CachedRepo) : CachedDir where
  owner := r.owner
  repo := r.repo
  path := root ++ "/" ++ r.key
  lastUsed := r.lastUsed

/-- A cache of the service shows the directories of a root: their rows, and their usage whatever
is evicted. -/
structure Shows (root : String) (disk : Disk) (d : DirCache) (c : Cache) : Prop where
  rows : d.repos = c.repos.map (placed root)
  usage : ∀ gone : List CachedRepo,
    ((gone.map (placed root)).foldl DirCache.remove d).usage = (gone.foldl Cache.evict c).usage disk

variable {root : String} {disk : Disk} {d : DirCache} {c : Cache}

/-- Evicting a repository removes its directory. -/
theorem Shows.evict (h : Shows root disk d c) (r : CachedRepo) :
    Shows root disk (d.remove (placed root r)) (c.evict r) := by
  constructor
  · show (d.repos.filter fun e => e.key != r.key) =
      (c.repos.filter fun r' => r'.key != r.key).map (placed root)
    rw [h.rows, List.filter_map]
    rfl
  · exact fun gone => h.usage (r :: gone)

/-- The order of use is the same on disk and in the table. -/
theorem Shows.lruOrder (h : Shows root disk d c) :
    d.lruOrder = c.lruOrder.map (placed root) := by
  rw [DirCache.lruOrder, DirCache.listRepos, sortedBy_sortedBy, h.rows]
  apply (List.map_mergeSort ?_).symm
  intro a _ b _
  simp [placed]

/-- The service's cache evicts the entries that `_evict_if_over_cap` evicts. -/
theorem Shows.evictIfOverCap (h : Shows root disk d c) (cap : Int) (keep : String) :
    Shows root disk (d.evictIfOverCap cap (root ++ "/" ++ keep))
      (c.evictIfOverCap cap disk keep) := by
  have hvictims : DirCache.victims (root ++ "/" ++ keep) d.lruOrder =
      (c.lruOrder.filter fun r => decide (r.key ≠ keep)).map (placed root) := by
    rw [h.lruOrder, DirCache.victims, List.filter_map]
    congr 2
    funext r
    have hpath : root ++ "/" ++ r.key = root ++ "/" ++ keep ↔ r.key = keep :=
      String.append_right_inj _
    simp [placed, hpath]
  rw [DirCache.evictIfOverCap_eq_sweep, Cache.evictIfOverCap_eq_sweep, hvictims]
  have htest : ∀ c d, Shows root disk d c →
      Cache.within cap disk c = DirCache.within cap d := by
    intro c d h
    have husage : d.usage = c.usage disk := h.usage []
    rw [Cache.within, DirCache.within, husage]
  exact @sweep_related _ _ _ _ _ _ _ _ _ (fun c d => Shows root disk d c) _
    (fun r _ c d h => h.evict r) htest c d h

end PrReviewer.Model
