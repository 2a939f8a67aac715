import PrReviewer.Analysis.PipelineSteps
import PrReviewer.Analysis.Lineage

/-!
# Checkouts while they are reviewed

The directory of a checkout belongs to the repository, not to the job: another call of `ensure`
checks another commit out in it, or evicts it. `Cache.Spares` says which calls leave it alone.
-/

set_option autoImplicit false

namespace PrReviewer.Model

open PrReviewer.Library

/-! ## Directories and entries -/

namespace Cache

variable {c c' : Cache} {key key' : String} {cap : Int} {disk : Disk}

/-- The directories whose key is not `key`, as lookups see them. -/
theorem lookup_filter_ne {dirs : List (String × Checkout)} (h : key' ≠ key) :
    (dirs.filter fun d => d.1 != key).lookup key' = dirs.lookup key' := by
  induction dirs with
  | nil => rfl
  | cons d dirs ih =>
    obtain ⟨k, co⟩ := d
    by_cases hk : k = key
    · subst hk
      rw [List.filter_cons_of_neg (by simp), ih, List.lookup_cons, beq_false_of_ne h]
    · rw [List.filter_cons_of_pos (by simpa using hk), List.lookup_cons, List.lookup_cons, ih]

/-- A directory just set is found. -/
@[simp] theorem dir?_setDir (c : Cache) (key : String) (co : Checkout) :
    (c.setDir key co).dir? key = some co := by
  simp [dir?, setDir]

/-- Setting one directory leaves the others. -/
theorem dir?_setDir_ne (co : Checkout) (h : key' ≠ key) :
    (c.setDir key co).dir? key' = c.dir? key' := by
  unfold dir? setDir
  rw [List.lookup_cons, beq_false_of_ne h]
  exact lookup_filter_ne h

/-- Removing one directory leaves the others. -/
theorem dir?_rmtree_ne (h : key' ≠ key) : (c.rmtree key).dir? key' = c.dir? key' :=
  lookup_filter_ne h

/-- Removing one entry leaves the others. -/
theorem getRepo_removeRepo_ne (h : key' ≠ key) :
    (c.removeRepo key).getRepo key' = c.getRepo key' := by
  unfold getRepo removeRepo
  rw [List.find?_filter]
  congr 1
  funext r
  by_cases hr : r.key = key'
  · simp [hr, h]
  · simp [hr]

/-- A change that keeps the keys keeps which of them are found. -/
theorem isSome_find?_map {l : List CachedRepo} {f : CachedRepo → CachedRepo}
    (hf : ∀ r, (f r).key = r.key) :
    ((l.map f).find? fun r => r.key == key').isSome = (l.find? fun r => r.key == key').isSome := by
  rw [List.find?_map, Option.isSome_map]
  congr 2
  funext r
  simp [hf]

/-- Touching entries keeps which of them are found. -/
theorem isSome_getRepo_touchRepo (now : Nat) :
    ((c.touchRepo key now).getRepo key').isSome = (c.getRepo key').isSome := by
  refine isSome_find?_map fun r => ?_
  split <;> rfl

/-- After `put_repo` its key has an entry, and so has every key that had one. -/
theorem isSome_getRepo_putRepo {r : CachedRepo} (h : key' = r.key ∨ (c.getRepo key').isSome = true) :
    ((c.putRepo r).getRepo key').isSome = true := by
  unfold putRepo
  by_cases hr : (c.getRepo r.key).isSome = true
  · rw [if_pos hr]
    have hmap : ((c.repos.map fun r' =>
        if r'.key == r.key then { r' with lastUsed := r.lastUsed } else r').find?
          fun r => r.key == key').isSome = (c.getRepo key').isSome := by
      refine isSome_find?_map fun r' => ?_
      split <;> rfl
    refine hmap.trans ?_
    rcases h with rfl | h
    · exact hr
    · exact h
  · rw [if_neg hr]
    show ((c.repos ++ [r]).find? fun r => r.key == key').isSome = true
    rw [List.find?_append, Option.isSome_or]
    rcases h with rfl | h
    · simp
    · have h' : (c.repos.find? fun r => r.key == key').isSome = true := h
      rw [h', Bool.true_or]

/-! ## Eviction -/

/-- A repository is present: it has its directory, with this checkout, and its entry. -/
structure Present (c : Cache) (key : String) (co : Checkout) : Prop where
  dir : c.dir? key = some co
  entry : (c.getRepo key).isSome = true

/-- The cache without the directories of some repositories. -/
def without (c : Cache) (keys : List String) : Cache :=
  { c with dirs := c.dirs.filter fun d => d.1 ∉ keys }

/-- The repositories that are evicted before `key'`, from a list in LRU order. -/
def before (keep key' : String) (l : List CachedRepo) : List String :=
  (((l.takeWhile fun r => r.key != key').filter fun r => r.key != keep)).map CachedRepo.key

/-- The eviction that follows a checkout of `keep` stops before it comes to `key'`: what is left
without the less recently used repositories is within the cap. -/
def Spares (c : Cache) (cap : Int) (disk : Disk) (keep key' : String) : Prop :=
  ((c.without (before keep key' c.lruOrder)).usage disk : Int) ≤ cap

/-- Nothing is left out by the empty list. -/
theorem without_nil (c : Cache) : c.without [] = c := by
  simp [without]

/-- Leaving out one repository more is leaving it out first. -/
theorem without_cons_usage (r : CachedRepo) (keys : List String) :
    (((c.rmtree r.key).removeRepo r.key).without keys).usage disk =
      (c.without (r.key :: keys)).usage disk := by
  unfold usage without rmtree removeRepo
  simp only [List.filter_filter, List.mem_cons, not_or]
  congr 4
  funext d
  by_cases hd : d.1 = r.key <;> simp [hd]

/-- The loop leaves a repository alone if it stops before it. -/
theorem Present.evictLoop {co : Checkout} {keep : String} {l : List CachedRepo}
    (hp : c.Present key' co) (hover : cap < (c.usage disk : Int))
    (hstop : ((c.without (before keep key' l)).usage disk : Int) ≤ cap) :
    (c.evictLoop cap disk keep l).Present key' co := by
  induction l generalizing c with
  | nil => exact hp
  | cons r rest ih =>
    by_cases hkey : r.key = key'
    · -- nothing is evicted before it, so the loop was not over the cap
      have hbefore : before keep key' (r :: rest) = [] := by
        simp [before, hkey]
      rw [hbefore, without_nil] at hstop
      omega
    · have htake : (r :: rest).takeWhile (fun r => r.key != key') =
          r :: rest.takeWhile fun r => r.key != key' := by
        rw [List.takeWhile_cons_of_pos (by simpa using hkey)]
      unfold Cache.evictLoop
      by_cases hkeep : r.key = keep
      · rw [if_pos hkeep]
        refine ih hp hover ?_
        have hbefore : before keep key' (r :: rest) = before keep key' rest := by
          simp [before, htake, hkeep]
        rwa [hbefore] at hstop
      · rw [if_neg hkeep]
        have hne' : key' ≠ r.key := fun h => hkey h.symm
        have hp' : ((c.rmtree r.key).removeRepo r.key).Present key' co := by
          constructor
          · exact (dir?_rmtree_ne hne').trans hp.dir
          · rw [getRepo_removeRepo_ne hne']
            exact hp.entry
        have hbefore : before keep key' (r :: rest) = r.key :: before keep key' rest := by
          simp [before, htake, hkeep]
        rw [hbefore, ← without_cons_usage] at hstop
        simp only
        split
        · exact hp'
        · rename_i hover'
          exact ih hp' (by omega) hstop

/-- A checkout that the eviction spares survives it. -/
theorem Present.evictIfOverCap {co : Checkout} {keep : String} (hp : c.Present key' co)
    (hspares : c.Spares cap disk keep key') :
    (c.evictIfOverCap cap disk keep).Present key' co := by
  unfold Cache.evictIfOverCap
  split
  · exact hp
  · exact hp.evictLoop (by omega) hspares

/-- Eviction never comes to the repository it keeps. -/
theorem Present.evictLoop_keep {co : Checkout} {l : List CachedRepo} (hp : c.Present key co) :
    (c.evictLoop cap disk key l).Present key co := by
  induction l generalizing c with
  | nil => exact hp
  | cons r rest ih =>
    unfold Cache.evictLoop
    by_cases hkeep : r.key = key
    · rw [if_pos hkeep]
      exact ih hp
    · rw [if_neg hkeep]
      have hne : key ≠ r.key := fun h => hkeep h.symm
      have hp' : ((c.rmtree r.key).removeRepo r.key).Present key co := by
        constructor
        · exact (dir?_rmtree_ne hne).trans hp.dir
        · rw [getRepo_removeRepo_ne hne]
          exact hp.entry
      simp only
      split
      · exact hp'
      · exact ih hp'

/-- The checkout that is kept survives the eviction. -/
theorem Present.evictIfOverCap_keep {co : Checkout} (hp : c.Present key co) :
    (c.evictIfOverCap cap disk key).Present key co := by
  unfold Cache.evictIfOverCap
  split
  · exact hp
  · exact hp.evictLoop_keep

/-! ## `ensure` -/

/-- Git does all that `ensure` asks of it for this head. -/
def Serves (c : Cache) (g : GitAnswers) (key : String) (head : Option String) : Bool :=
  truthy head && g.checkout &&
    if (c.getRepo key).isSome then head.isSome && g.fetch && (c.dir? key).isSome else g.clone

/-- The cache when the head is checked out, before the eviction. -/
def checkedOut (c : Cache) (now : Nat) (owner repo head : String) : Cache :=
  let key := repoKey owner repo
  match c.getRepo key with
  | none =>
    (((c.rmtree key).setDir key .defaultBranch).putRepo ⟨owner, repo, now⟩).setDir key (.commit head)
  | some _ => (c.touchRepo key now).setDir key (.commit head)

variable {g : GitAnswers} {now : Nat} {owner repo : String} {head : Option String} {co : Checkout}

/-- Where git does all it is asked, `ensure` checks the head out and evicts. -/
theorem ensure_of_serves (h : c.Serves g (repoKey owner repo) head = true) :
    c.ensure cap now g owner repo head =
      ((c.checkedOut now owner repo (orEmpty head)).evictIfOverCap cap g.disk (repoKey owner repo),
        true) := by
  unfold Serves at h
  rw [Bool.and_eq_true] at h
  unfold ensure checkedOut
  cases hrepo : c.getRepo (repoKey owner repo) with
  | none =>
    have hclone : g.clone = true := by simpa [hrepo] using h.2
    simp only [hrepo, hclone, h.1, if_true]
  | some r =>
    have hfetch : (head.isSome && g.fetch && (c.dir? (repoKey owner repo)).isSome) = true := by
      simpa [hrepo] using h.2
    simp only [hrepo, hfetch, h.1, if_true]

/-- Otherwise it raises. -/
theorem ensure_raises (h : c.Serves g (repoKey owner repo) head = false) :
    (c.ensure cap now g owner repo head).2 = false := by
  unfold Serves at h
  rw [Bool.and_eq_false_iff] at h
  unfold ensure
  simp only
  cases hrepo : c.getRepo (repoKey owner repo) with
  | none =>
    cases hclone : g.clone with
    | false => simp
    | true =>
      have hno : (truthy head && g.checkout) = false := by simpa [hrepo, hclone] using h
      simp [hno]
  | some r =>
    by_cases hfetch : (head.isSome && g.fetch && (c.dir? (repoKey owner repo)).isSome) = true
    · have hno : (truthy head && g.checkout) = false := by simpa [hrepo, hfetch] using h
      simp [hfetch, hno]
    · simp [hfetch]

/-- Writing a cache entry leaves the directories alone. -/
theorem dir?_putRepo (c : Cache) (r : CachedRepo) : (c.putRepo r).dir? key' = c.dir? key' := by
  unfold putRepo
  split <;> rfl

/-- Whatever it removes where it raises had no entry. -/
theorem Present.ensure_raises (hp : c.Present key' co)
    (h : c.Serves g (repoKey owner repo) head = false) :
    (c.ensure cap now g owner repo head).1.Present key' co := by
  unfold Serves at h
  rw [Bool.and_eq_false_iff] at h
  unfold Cache.ensure
  simp only
  cases hrepo : c.getRepo (repoKey owner repo) with
  | none =>
    -- a repository that is present has an entry, so it is another one
    have hne : key' ≠ repoKey owner repo := by
      rintro rfl
      have hentry := hp.entry
      rw [hrepo] at hentry
      exact absurd hentry Bool.false_ne_true
    cases hclone : g.clone with
    | false =>
      simp only [Bool.false_eq_true, if_false]
      exact ⟨(dir?_rmtree_ne hne).trans hp.dir, hp.entry⟩
    | true =>
      have hno : (truthy head && g.checkout) = false := by simpa [hrepo, hclone] using h
      simp only [hno, if_true, Bool.false_eq_true, if_false]
      constructor
      · rw [dir?_putRepo, dir?_setDir_ne _ hne, dir?_rmtree_ne hne]
        exact hp.dir
      · exact isSome_getRepo_putRepo (Or.inr hp.entry)
  | some r =>
    by_cases hfetch : (head.isSome && g.fetch && (c.dir? (repoKey owner repo)).isSome) = true
    · have hno : (truthy head && g.checkout) = false := by simpa [hrepo, hfetch] using h
      simp only [hfetch, hno, if_true, Bool.false_eq_true, if_false]
      refine ⟨hp.dir, ?_⟩
      rw [isSome_getRepo_touchRepo]
      exact hp.entry
    · simp only [hfetch, Bool.false_eq_true, if_false]
      exact hp

/-- Before the eviction the repository is present with its head. -/
theorem present_checkedOut (c : Cache) (now : Nat) (owner repo sha : String) :
    (c.checkedOut now owner repo sha).Present (repoKey owner repo) (.commit sha) := by
  unfold checkedOut
  simp only
  cases hrepo : c.getRepo (repoKey owner repo) with
  | none => exact ⟨dir?_setDir _ _ _, isSome_getRepo_putRepo (Or.inl rfl)⟩
  | some r =>
    refine ⟨dir?_setDir _ _ _, ?_⟩
    show ((c.touchRepo (repoKey owner repo) now).getRepo (repoKey owner repo)).isSome = true
    rw [isSome_getRepo_touchRepo, hrepo]
    rfl

/-- Before the eviction the other repositories are as they were. -/
theorem Present.checkedOut (hp : c.Present key' co) (hne : key' ≠ repoKey owner repo)
    (sha : String) : (c.checkedOut now owner repo sha).Present key' co := by
  unfold Cache.checkedOut
  simp only
  cases hrepo : c.getRepo (repoKey owner repo) with
  | none =>
    constructor
    · rw [dir?_setDir_ne _ hne, dir?_putRepo, dir?_setDir_ne _ hne, dir?_rmtree_ne hne]
      exact hp.dir
    · exact isSome_getRepo_putRepo (Or.inr hp.entry)
  | some r =>
    constructor
    · rw [dir?_setDir_ne _ hne]
      exact hp.dir
    · show ((c.touchRepo (repoKey owner repo) now).getRepo key').isSome = true
      rw [isSome_getRepo_touchRepo]
      exact hp.entry

/-- What a call of `ensure` must respect of a repository that is being reviewed, where git does
all it is asked: it is checked out at the same commit, or the eviction does not come to it. -/
def Respects (c : Cache) (cap : Int) (now : Nat) (g : GitAnswers) (job : ReviewJob)
    (key' : String) (co : Checkout) : Prop :=
  c.Serves g (repoKey job.owner job.repo) job.head = true →
    if key' = repoKey job.owner job.repo then co = .commit (orEmpty job.head)
    else (c.checkedOut now job.owner job.repo (orEmpty job.head)).Spares cap g.disk
      (repoKey job.owner job.repo) key'

/-- **`ensure` keeps a repository present that it respects.** -/
theorem Present.ensure {job : ReviewJob} (hp : c.Present key' co)
    (hr : c.Respects cap now g job key' co) :
    (c.ensure cap now g job.owner job.repo job.head).1.Present key' co := by
  cases hs : c.Serves g (repoKey job.owner job.repo) job.head with
  | false => exact hp.ensure_raises hs
  | true =>
    have hr := hr hs
    rw [ensure_of_serves hs]
    by_cases hkey : key' = repoKey job.owner job.repo
    · rw [if_pos hkey] at hr
      rw [hkey, hr]
      exact (present_checkedOut c now job.owner job.repo _).evictIfOverCap_keep
    · rw [if_neg hkey] at hr
      exact (hp.checkedOut hkey (orEmpty job.head)).evictIfOverCap hr

/-- **What `ensure` returns for is there**, at the head asked for. -/
theorem present_of_ensure (h : c.ensure cap now g owner repo head = (c', true)) :
    truthy head = true ∧ c'.Present (repoKey owner repo) (.commit (orEmpty head)) := by
  cases hs : c.Serves g (repoKey owner repo) head with
  | false =>
    have hfalse : (c.ensure cap now g owner repo head).2 = false := ensure_raises hs
    rw [h] at hfalse
    exact absurd hfalse (by simp)
  | true =>
    rw [ensure_of_serves hs] at h
    cases h
    refine ⟨?_, (present_checkedOut c now owner repo _).evictIfOverCap_keep⟩
    unfold Serves at hs
    simp only [Bool.and_eq_true] at hs
    exact hs.1.1

end Cache

/-! ## Workers on their checkouts -/

/-- The checkout a call of `execute` works on, from where `ensure` has returned it to where the
runner has finished. -/
def ExecPc.checkout? : ExecPc → Option String
  | .fetchDiff checkout | .running checkout => some checkout
  | _ => none

namespace App

variable {cfg : AppConfig} {s s' : App} {h es : List AppEvent} {a : AppAction}

/-- Every checkout a worker works on exists, and is at the head of the worker's job. -/
def Isolated (s : App) : Prop :=
  ∀ (i : Nat) (job : ReviewJob) (pc : ExecPc) (checkout : String),
    s.core.workers[i]? = some (.busy job pc) → pc.checkout? = some checkout →
    s.cache.dir? checkout = some (.commit (orEmpty job.head))

/-- Whenever a worker calls `ensure`, the call respects every checkout another worker works
on. -/
def KeepsApart (cfg : AppConfig) : Machine.Discipline App AppAction AppEvent :=
  fun s _ a => ∀ (i : Nat) (git : GitAnswers) (docs : Bool) (job : ReviewJob),
    a = .exec i (.clone git docs) → s.core.workers[i]? = some (.busy job .clone) →
    ∀ (j : Nat) (job' : ReviewJob) (pc : ExecPc) (checkout : String),
      s.core.workers[j]? = some (.busy job' pc) → pc.checkout? = some checkout →
      s.cache.Respects cfg.config.diskCapBytes s.core.now git job checkout
        (.commit (orEmpty job'.head))

/-- The invariant: the checkouts worked on are present. -/
def CheckoutsPresent (s : App) : Prop :=
  ∀ (i : Nat) (job : ReviewJob) (pc : ExecPc) (checkout : String),
    s.core.workers[i]? = some (.busy job pc) → pc.checkout? = some checkout →
    s.cache.Present checkout (.commit (orEmpty job.head))

/-- A worker whose pipeline did not move was where it is. -/
theorem busy_of_unmoved {ca : SchedAction ExecPc} {c : Sched ExecPc} {ces : List SchedEvent}
    (hstep : Sched.step cfg.sched s.core ca = some (c, ces))
    {j : Nat} {job : ReviewJob} {pc : ExecPc} (hca : ∀ sha, ca ≠ .advance j sha pc)
    (hpc : pc ≠ .start) (hw : c.workers[j]? = some (.busy job pc)) :
    s.core.workers[j]? = some (.busy job pc) := by
  rcases Sched.step_busy hstep hw with ⟨hw, -⟩ | ⟨sha, job', pc', heq, -⟩ | ⟨t, -, -, -, hstart⟩
  · exact hw
  · exact absurd heq (hca sha)
  · exact absurd hstart hpc

/-- A call with a checkout has left its start. -/
theorem ne_start_of_checkout {pc : ExecPc} {checkout : String} (h : pc.checkout? = some checkout) :
    pc ≠ .start := by
  rintro rfl
  cases h

/-- A step of a worker that calls `ensure` keeps the checkouts it respects. -/
theorem CheckoutsPresent.exec {i : Nat} {inp : ExecInput} (hp : s.CheckoutsPresent)
    (hd : KeepsApart cfg s h (.exec i inp)) {job : ReviewJob} {pc : ExecPc} {m : ExecMove}
    (hw : s.core.workers[i]? = some (.busy job pc))
    (hm : ExecCase cfg.pipeline s.core.now s.cache s.staged job pc inp m)
    {j : Nat} {job' : ReviewJob} {pc' : ExecPc} {checkout : String}
    (hw' : s.core.workers[j]? = some (.busy job' pc')) (hpc' : pc'.checkout? = some checkout) :
    m.cache.Present checkout (.commit (orEmpty job'.head)) := by
  have hpresent := hp j job' pc' checkout hw' hpc'
  have hclone : ∀ {git : GitAnswers} {docs : Bool} {cache' : Cache} {b : Bool}, pc = .clone →
      inp = .clone git docs →
      s.cache.ensure cfg.config.diskCapBytes s.core.now git job.owner job.repo job.head =
        (cache', b) → cache'.Present checkout (.commit (orEmpty job'.head)) := by
    rintro git docs cache' b rfl rfl hens
    have hresp := hd i git docs job rfl hw j job' pc' checkout hw' hpc'
    have hafter := hpresent.ensure hresp
    rwa [hens] at hafter
  cases hm with
  | cloneFailed hens => exact hclone rfl rfl hens
  | docsFailed hens => exact hclone rfl rfl hens
  | cloned hens => exact hclone rfl rfl hens
  | _ => exact hpresent

/-- **Every step keeps the checkouts**, if `ensure` respects them. -/
theorem CheckoutsPresent.step (hp : s.CheckoutsPresent) (hd : KeepsApart cfg s h a)
    (hstep : App.step cfg s a = some (s', es)) : s'.CheckoutsPresent := by
  intro j job pc checkout hw hpc
  have hstart := ne_start_of_checkout hpc
  cases step_cases hstep with
  | core hb hcore =>
    refine hp j job pc checkout (busy_of_unmoved hcore ?_ hstart hw) hpc
    rintro sha rfl
    exact hb
  | enqueue _ hcore => exact hp j job pc checkout (busy_of_unmoved hcore (by simp) hstart hw) hpc
  | chatter _ _ => exact hp j job pc checkout hw hpc
  | @ask _ request run otherwise summary _ _ =>
    rcases ask_cases (s := s) request run otherwise summary with ⟨job', -, heq⟩ | ⟨-, heq⟩ <;>
      rw [heq] at hw ⊢ <;> exact hp j job pc checkout hw hpc
  | @exec i inp job₀ pc₀ m c hw₀ hm hcore =>
    have hstep' := Sched.step_busy hcore hw
    rcases hstep' with ⟨hw', -⟩ | ⟨sha, job', pc', hact, hw', rfl⟩ | ⟨t, -, -, -, hpc'⟩
    · exact hp.exec hd hw₀ hm hw' hpc
    · -- its own pipeline has moved
      obtain ⟨next, cache, staged, events⟩ := m
      cases next with
      | finish out => cases hact
      | goOn sha' pc₁ =>
        cases hact
        rw [hw₀] at hw'
        cases hw'
        cases hm with
        | cloned hens =>
          cases hpc
          exact (Cache.present_of_ensure hens).2
        | ran => exact hp _ _ _ checkout hw₀ hpc
        | looked _ | lookFailed | noLook =>
          rcases cfg.pipeline.afterPr_cases with heq | heq <;> rw [heq] at hpc <;> cases hpc
        | _ => cases hpc
    · exact absurd hpc' hstart
  | publish _ _ => exact hp j job pc checkout hw hpc
  | crash _ => exact absurd hw (by simp [Sched.crash])
  | push _ _ => exact hp j job pc checkout hw hpc
  | @acceptWorker i _ _ _ _ _ _ _ hcore =>
    refine hp j job pc checkout (busy_of_unmoved hcore ?_ hstart hw) hpc
    intro sha heq
    cases heq
    cases hpc
  | acceptApproval _ _ _ => exact hp j job pc checkout hw hpc
  | acceptOrphan _ => exact hp j job pc checkout hw hpc

/-- The job of a worker that works on a checkout has a head: `ensure` raises without one. -/
theorem head_of_checkout {D : Machine.Discipline App AppAction AppEvent}
    (hr : (machine cfg).Reaches D s h) : ∀ (i : Nat) (job : ReviewJob) (pc : ExecPc)
      (checkout : String), s.core.workers[i]? = some (.busy job pc) →
      pc.checkout? = some checkout → truthy job.head = true := by
  refine hr.invariant (I := fun s _ => ∀ (i : Nat) (job : ReviewJob) (pc : ExecPc)
    (checkout : String), s.core.workers[i]? = some (.busy job pc) →
    pc.checkout? = some checkout → truthy job.head = true) ?_ ?_
  · intro s hs i job pc checkout hw
    rw [New.core hs] at hw
    exact absurd hw (by simp [Sched.new])
  · intro s h a s' es _ ih _ hstep i job pc checkout hbusy hpc
    cases busy_of_step hstep hbusy with
    | same hw => exact ih i job pc checkout hw hpc
    | moved _ hw hm hnext _ =>
      cases hm with
      | cloned hens =>
        cases hnext
        exact (Cache.present_of_ensure hens).1
      | ran =>
        cases hnext
        exact ih i _ _ checkout hw hpc
      | looked _ | lookFailed | noLook =>
        cases hnext
        rcases cfg.pipeline.afterPr_cases with heq | heq <;> rw [heq] at hpc <;> cases hpc
      | _ =>
        cases hnext
        try cases hpc
    | accepted _ _ _ => cases hpc
    | claimed _ _ _ => cases hpc

/-- **Checkout isolation.** In every run in which `ensure` respects the checkouts that other
workers work on, each of these exists and is at the head of its job, for any number of workers
and any disk cap. -/
theorem checkout_isolated (cfg : AppConfig) {s : App} {h : List AppEvent}
    (hr : (machine cfg).Reaches (KeepsApart cfg) s h) : s.Isolated := by
  have hp : s.CheckoutsPresent := by
    refine hr.invariant (I := fun s _ => s.CheckoutsPresent) ?_ ?_
    · intro s hs i job pc checkout hw
      rw [New.core hs] at hw
      exact absurd hw (by simp [Sched.new])
    · intro s h a s' es _ hp hd hstep
      exact hp.step hd hstep
  exact fun i job pc checkout hw hpc => (hp i job pc checkout hw hpc).dir

/-- A single worker keeps its checkout apart from nobody. -/
theorem keepsApart_of_single (hc : cfg.concurrency ≤ 1) (hr : (machine cfg).Reachable s h) :
    KeepsApart cfg s h a := by
  intro i git docs job _ hw j job' pc checkout hw' hpc
  have hg := Sched.reaches_grounded (Sched.reaches_of_new (reaches_core hr))
  have hlen : s.core.workers.length ≤ 1 := by
    cases hup : s.core.up with
    | true => exact (hg.slots hup).trans_le hc
    | false =>
      rw [← hg.down hup]
      exact Nat.zero_le 1
  obtain ⟨hi, -⟩ := List.getElem?_eq_some_iff.mp hw
  obtain ⟨hj, -⟩ := List.getElem?_eq_some_iff.mp hw'
  have hij : i = j := by omega
  subst hij
  rw [hw] at hw'
  cases hw'
  cases hpc

/-- The only worker of a small installation is in the runner, with the commit of its job checked
out. -/
theorem checkout_isolated_single :
    ∃ s h, s.core.workers[0]? = some (Worker.busy firstJob (.running "me/app")) ∧ s.Isolated ∧
      (machine (smallConfig true 1)).Reaches (KeepsApart (smallConfig true 1)) s h := by
  obtain ⟨s, h, hr, hrun⟩ := Machine.exists_reachable_run (M := machine (smallConfig true 1))
    (.boot :: openPr 7 "a" "r1" ++ [.watch 0 .go, .watch 0 (.polled (.runs []))] ++ runJob 0 "a")
    (fun s _ => s.core.workers[0]? == some (Worker.busy firstJob (.running "me/app"))) small_new
    (by decide)
  have hr' := hr.strengthen fun s h a _ _ hr _ =>
    keepsApart_of_single (a := a) (Nat.le_refl 1) hr
  exact ⟨s, h, beq_iff_eq.mp hrun, checkout_isolated _ hr', hr'⟩

/-- Two pull requests of one repository, each reviewed by a worker of its own: the second worker
has its commit checked out while the runner reads the first one's. -/
def overlappingRuns : List AppAction :=
  .boot :: openPr 7 "a" "r1" ++ openPr 8 "b" "r2" ++
    [.watch 0 .go, .watch 0 (.polled (.runs [])), .watch 1 .go, .watch 1 (.polled (.runs []))] ++
    runJob 0 "a" ++ runJob 1 "b"

/-- The checkouts of the calls under way are not isolated in every run. -/
theorem checkout_isolation_fails : ¬ ∀ cfg s h, (machine cfg).Reachable s h → s.Isolated := by
  intro hall
  obtain ⟨s, h, hr, hcheck⟩ := Machine.exists_reachable_run (M := machine (smallConfig true 2))
    overlappingRuns (fun s _ => s.core.workers[0]? == some (Worker.busy firstJob (.running "me/app")) &&
      s.cache.dir? "me/app" == some (.commit "b")) small_new (by decide)
  rw [Bool.and_eq_true, beq_iff_eq, beq_iff_eq] at hcheck
  have hdir := hall _ s h hr 0 firstJob _ "me/app" hcheck.1 rfl
  rw [hcheck.2] at hdir
  exact absurd hdir (by decide)

end App

end PrReviewer.Model
