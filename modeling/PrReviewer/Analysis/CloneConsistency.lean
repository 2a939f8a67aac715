import PrReviewer.Analysis.Checkouts
import PrReviewer.Model.CloneSteps

/-!
# The clone cache under failures and crashes

Two invariants over the steps of `ensure`. `Sited` holds in every run, whatever crashes and is
lost: what a call knows where it stands, and that no row belongs to a directory with an
incomplete clone. `Rows`, a complete clone for every row, holds as long as no crash falls
between the deletion of an evicted directory and that of its row, and the volume is not lost
under the table; these are the two ways to a row without a directory, and `ensure` does not
recover from one, because it chooses between clone and fetch by the row alone.
-/

set_option autoImplicit false

namespace PrReviewer.Model

open PrReviewer.Library

/-! ## Rows and directories -/

namespace Cache

variable {c : Cache} {key key' : String}

/-- Writing one entry keeps which others are there. -/
theorem isSome_getRepo_putRepo_ne {r : CachedRepo} (h : key' ≠ r.key) :
    ((c.putRepo r).getRepo key').isSome = (c.getRepo key').isSome := by
  unfold putRepo
  split
  · refine isSome_find?_map fun r' => ?_
    split <;> rfl
  · show ((c.repos ++ [r]).find? fun r => r.key == key').isSome = _
    have hne : (r.key == key') = false := beq_false_of_ne fun heq => h heq.symm
    rw [List.find?_append]
    simp [hne, getRepo]

/-- An entry that was removed is not found. -/
theorem getRepo_removeRepo_self : (c.removeRepo key).getRepo key = none := by
  unfold getRepo removeRepo
  rw [List.find?_eq_none]
  intro r hr
  have hkey := (List.mem_filter.mp hr).2
  simpa using hkey

/-- Removing a directory twice is removing it once. -/
theorem rmtree_rmtree (c : Cache) (key : String) : (c.rmtree key).rmtree key = c.rmtree key := by
  simp [rmtree]

/-- The key of every entry is found. -/
theorem isSome_getRepo_of_mem {r : CachedRepo} (h : r ∈ c.repos) :
    (c.getRepo r.key).isSome = true := by
  unfold getRepo
  rw [List.find?_isSome]
  exact ⟨r, h, beq_self_eq_true _⟩

end Cache

namespace CloneCache

variable {s s' : CloneCache} {c : EnsureCall} {pc : EnsurePc} {es : List CloneEvent}

/-! ## What a step does -/

/-- What a step can do. -/
inductive CloneCase (s : CloneCache) : CloneAction → CloneCache × List CloneEvent → Prop
  | call (c : EnsureCall) : s.call = none → CloneCase s (.call c) (s.goOn c .lookup)
  | known (now : Nat) (c : EnsureCall) : s.call = some (c, .lookup) →
      (s.cache.getRepo c.key).isSome = true → CloneCase s (.go now) (s.goOn c .fetch)
  | unknown (now : Nat) (c : EnsureCall) : s.call = some (c, .lookup) →
      s.cache.getRepo c.key = none → CloneCase s (.go now) (s.goOn c .clear)
  | clear (now : Nat) (c : EnsureCall) : s.call = some (c, .clear) →
      CloneCase s (.go now) ((s.rmtree c.key).goOn c .clone)
  | clone (now : Nat) (c : EnsureCall) : s.call = some (c, .clone) →
      CloneCase s (.go now) ({ s with broken := c.key :: s.broken }.goOn c .cloning)
  | cloned (leaves : Bool) (c : EnsureCall) : s.call = some (c, .cloning) →
      CloneCase s (.git true leaves) ({ s with
        cache := s.cache.setDir c.key .defaultBranch
        broken := s.broken.filter (· != c.key) }.goOn c .record)
  | cloneLeaves (c : EnsureCall) : s.call = some (c, .cloning) →
      CloneCase s (.git false true) (s.raises c)
  | cloneCleans (c : EnsureCall) : s.call = some (c, .cloning) →
      CloneCase s (.git false false) ((s.rmtree c.key).raises c)
  | record (now : Nat) (c : EnsureCall) : s.call = some (c, .record) →
      CloneCase s (.go now)
        ({ s with cache := s.cache.putRepo ⟨c.owner, c.repo, now⟩ }.goOn c .checkout)
  | fetched (ok leaves : Bool) (c : EnsureCall) : s.call = some (c, .fetch) →
      CloneCase s (.git ok leaves) (s.goOn c .touch)
  | touch (now : Nat) (c : EnsureCall) : s.call = some (c, .touch) →
      CloneCase s (.go now) ({ s with cache := s.cache.touchRepo c.key now }.goOn c .checkout)
  | checkedOut (ok leaves : Bool) (c : EnsureCall) : s.call = some (c, .checkout) →
      truthy c.head = true → CloneCase s (.git ok leaves)
        ({ s with cache := s.cache.setDir c.key (.commit (orEmpty c.head)) }.goOn c .measure)
  | refused (ok leaves : Bool) (c : EnsureCall) (pc : EnsurePc) : s.call = some (c, pc) →
      pc = .fetch ∨ pc = .checkout → CloneCase s (.git ok leaves) (s.raises c)
  | evicts (c : EnsureCall) (pc : EnsurePc) (rest : List CachedRepo) : s.call = some (c, pc) →
      pc = .measure ∨ pc = .remeasure rest → CloneCase s (.measured true) (s.goOn c (.evict rest))
  | within (c : EnsureCall) (pc : EnsurePc) : s.call = some (c, pc) →
      pc = .measure ∨ (∃ rest, pc = .remeasure rest) → CloneCase s (.measured false) (s.returns c)
  | evictEnds (now : Nat) (c : EnsureCall) : s.call = some (c, .evict []) →
      CloneCase s (.go now) (s.returns c)
  | evictKeeps (now : Nat) (c : EnsureCall) (entry : CachedRepo) (rest : List CachedRepo) :
      s.call = some (c, .evict (entry :: rest)) → entry.key = c.key →
      CloneCase s (.go now) (s.goOn c (.evict rest))
  | evictDeletes (now : Nat) (c : EnsureCall) (entry : CachedRepo) (rest : List CachedRepo) :
      s.call = some (c, .evict (entry :: rest)) → entry.key ≠ c.key →
      CloneCase s (.go now) ((s.rmtree entry.key).goOn c (.evicted entry rest))
  | evictRemoves (now : Nat) (c : EnsureCall) (entry : CachedRepo) (rest : List CachedRepo) :
      s.call = some (c, .evicted entry rest) → CloneCase s (.go now)
        ({ s with cache := s.cache.removeRepo entry.key }.goOn c (.remeasure rest))
  | crash : CloneCase s .crash ({ s with call := none }, [])
  | loseVolume : s.call = none → CloneCase s .loseVolume
      ({ s with cache := { s.cache with dirs := [] }, broken := [] }, [])

/-- A step of the call needs one. -/
theorem of_call_bind {f : EnsureCall × EnsurePc → Option (CloneCache × List CloneEvent)}
    {r : CloneCache × List CloneEvent} (h : s.call.bind f = some r) :
    ∃ c pc, s.call = some (c, pc) ∧ f (c, pc) = some r := by
  obtain ⟨⟨c, pc⟩, hcall, hf⟩ := Option.bind_eq_some_iff.mp h
  exact ⟨c, pc, hcall, hf⟩

section Cases

variable {r : CloneCache × List CloneEvent} (hcall : s.call = some (c, pc))

include hcall

/-- A step between two commands is one of its cases. -/
theorem goStep_cases {now : Nat} (h : s.goStep now c pc = some r) : CloneCase s (.go now) r := by
  cases pc with
  | lookup =>
    cases h
    cases hrow : (s.cache.getRepo c.key).isSome with
    | true => exact .known now c hcall hrow
    | false => exact .unknown now c hcall (Option.isNone_iff_eq_none.mp (by simpa using hrow))
  | clear =>
    cases h
    exact .clear now c hcall
  | clone =>
    cases h
    exact .clone now c hcall
  | record =>
    cases h
    exact .record now c hcall
  | touch =>
    cases h
    exact .touch now c hcall
  | evict rest =>
    cases rest with
    | nil =>
      cases h
      exact .evictEnds now c hcall
    | cons entry rest =>
      simp only [CloneCache.goStep] at h
      split at h
      · rename_i hkey
        cases h
        exact .evictKeeps now c entry rest hcall hkey
      · rename_i hkey
        cases h
        exact .evictDeletes now c entry rest hcall hkey
  | evicted entry rest =>
    cases h
    exact .evictRemoves now c entry rest hcall
  | cloning => cases h
  | fetch => cases h
  | checkout => cases h
  | measure => cases h
  | remeasure rest => cases h

/-- The end of a git command is one of its cases. -/
theorem gitStep_cases {ok leaves : Bool} (h : s.gitStep ok leaves c pc = some r) :
    CloneCase s (.git ok leaves) r := by
  cases pc with
  | cloning =>
    cases ok with
    | true =>
      cases h
      exact .cloned leaves c hcall
    | false =>
      cases leaves with
      | true =>
        cases h
        exact .cloneLeaves c hcall
      | false =>
        cases h
        exact .cloneCleans c hcall
  | fetch =>
    simp only [CloneCache.gitStep] at h
    split at h
    · cases h
      exact .fetched ok leaves c hcall
    · cases h
      exact .refused ok leaves c .fetch hcall (Or.inl rfl)
  | checkout =>
    simp only [CloneCache.gitStep] at h
    split at h
    · rename_i hok
      simp only [Bool.and_eq_true] at hok
      cases h
      exact .checkedOut ok leaves c hcall hok.1.1
    · cases h
      exact .refused ok leaves c .checkout hcall (Or.inr rfl)
  | lookup => cases h
  | clear => cases h
  | clone => cases h
  | record => cases h
  | touch => cases h
  | measure => cases h
  | evict rest => cases h
  | evicted entry rest => cases h
  | remeasure rest => cases h

/-- The end of a measurement is one of its cases. -/
theorem measureStep_cases {full : Bool} (h : s.measureStep full c pc = some r) :
    CloneCase s (.measured full) r := by
  cases pc with
  | measure =>
    cases full with
    | true =>
      cases h
      exact .evicts c .measure _ hcall (Or.inl rfl)
    | false =>
      cases h
      exact .within c .measure hcall (Or.inl rfl)
  | remeasure rest =>
    cases full with
    | true =>
      cases h
      exact .evicts c (.remeasure rest) rest hcall (Or.inr rfl)
    | false =>
      cases h
      exact .within c (.remeasure rest) hcall (Or.inr ⟨rest, rfl⟩)
  | lookup => cases h
  | clear => cases h
  | clone => cases h
  | cloning => cases h
  | record => cases h
  | fetch => cases h
  | touch => cases h
  | checkout => cases h
  | evict rest => cases h
  | evicted entry rest => cases h

end Cases

/-- Every step of the clone cache is one of its cases. -/
theorem step_cases {a : CloneAction} {r : CloneCache × List CloneEvent} (h : s.step a = some r) :
    CloneCase s a r := by
  cases a with
  | call c =>
    simp only [CloneCache.step] at h
    split at h
    · rename_i hnone
      cases h
      exact .call c (Option.isNone_iff_eq_none.mp hnone)
    · cases h
  | go now =>
    obtain ⟨c, pc, hcall, hgo⟩ := of_call_bind h
    exact goStep_cases hcall hgo
  | git ok leaves =>
    obtain ⟨c, pc, hcall, hgit⟩ := of_call_bind h
    exact gitStep_cases hcall hgit
  | measured full =>
    obtain ⟨c, pc, hcall, hmeasure⟩ := of_call_bind h
    exact measureStep_cases hcall hmeasure
  | crash =>
    cases h
    exact .crash
  | loseVolume =>
    simp only [CloneCache.step] at h
    split at h
    · rename_i hnone
      cases h
      exact .loseVolume (Option.isNone_iff_eq_none.mp hnone)
    · cases h

/-! ## What a call knows -/

/-- The head of the call is checked out, and its row is there. -/
def Landed (s : CloneCache) (c : EnsureCall) : Prop :=
  truthy c.head = true ∧ s.cache.Present c.key (.commit (orEmpty c.head))

/-- What a call knows where it stands. -/
def Site (s : CloneCache) (c : EnsureCall) : EnsurePc → Prop
  | .lookup => True
  | .clear | .clone | .cloning => s.cache.getRepo c.key = none
  | .record => (s.cache.dir? c.key).isSome = true ∧ c.key ∉ s.broken
  | .fetch | .touch | .checkout => (s.cache.getRepo c.key).isSome = true
  | .measure | .evict _ | .remeasure _ => s.Landed c
  | .evicted entry _ => s.Landed c ∧ entry.key ≠ c.key

/-- What holds in every run. -/
structure Sited (s : CloneCache) : Prop where
  intact : ∀ key ∈ s.broken, s.cache.getRepo key = none
  site : ∀ c pc, s.call = some (c, pc) → s.Site c pc

/-- A call that knows where it goes on leaves the cache sited. -/
theorem Sited.goOn (hbroken : ∀ key ∈ s.broken, s.cache.getRepo key = none) (hsite : s.Site c pc) :
    (s.goOn c pc).1.Sited := by
  refine ⟨hbroken, ?_⟩
  intro c' pc' h
  cases h
  -- the site is about the stores only
  cases pc <;> exact hsite

/-- Without a call a cache is sited as soon as no broken path has a row. -/
theorem Sited.idle (hbroken : ∀ key ∈ s.broken, s.cache.getRepo key = none)
    (hcall : s.call = none) : s.Sited := by
  refine ⟨hbroken, fun c pc h => ?_⟩
  rw [hcall] at h
  cases h

/-- A directory that is not the call's is deleted under it. -/
theorem Landed.rmtree {key : String} (h : s.Landed c) (hne : key ≠ c.key) :
    (s.rmtree key).Landed c := by
  refine ⟨h.1, ⟨?_, h.2.entry⟩⟩
  exact (Cache.dir?_rmtree_ne fun heq => hne heq.symm).trans h.2.dir

/-- Removing another entry keeps a landed checkout landed. -/
theorem Landed.removeRepo {key : String} (h : s.Landed c) (hne : key ≠ c.key) :
    ({ s with cache := s.cache.removeRepo key } : CloneCache).Landed c := by
  refine ⟨h.1, ⟨h.2.dir, ?_⟩⟩
  show ((s.cache.removeRepo key).getRepo c.key).isSome = true
  rw [Cache.getRepo_removeRepo_ne fun heq => hne heq.symm]
  exact h.2.entry

/-- A path with a row is not among the broken ones after another one has been dealt with. -/
theorem Sited.intact_filter (hs : s.Sited) (key : String) :
    ∀ k ∈ s.broken.filter (· != key), s.cache.getRepo k = none :=
  fun k hk => hs.intact k (List.mem_filter.mp hk).1

/-- What a step leaves: a sited cache, with the checkout of a call that has returned; a call that
has ended is over. -/
structure Done (r : CloneCache × List CloneEvent) : Prop where
  sited : r.1.Sited
  landed : ∀ c, .returned c ∈ r.2 → r.1.Landed c
  ended : r.2 ≠ [] → r.1.call = none

/-- A call that goes on leaves a sited cache and ends nothing. -/
theorem done_goOn (hbroken : ∀ key ∈ s.broken, s.cache.getRepo key = none)
    (hsite : s.Site c pc) : Done (s.goOn c pc) :=
  ⟨.goOn hbroken hsite, fun _ h => absurd h List.not_mem_nil, fun h => absurd rfl h⟩

/-- A call that raises leaves a sited cache and is over. -/
theorem done_raises (hbroken : ∀ key ∈ s.broken, s.cache.getRepo key = none) :
    Done (s.raises c) := by
  refine ⟨.idle hbroken rfl, fun c' h => ?_, fun _ => rfl⟩
  cases List.mem_singleton.mp h

/-- A call that returns with its head checked out leaves a sited cache and is over. -/
theorem Sited.done_returns (hs : s.Sited) (hlanded : s.Landed c) : Done (s.returns c) := by
  refine ⟨.idle hs.intact rfl, fun c' h => ?_, fun _ => rfl⟩
  cases List.mem_singleton.mp h
  exact hlanded

/-- **Every step** leaves a sited cache, crashes and losses included. -/
theorem Sited.step {a : CloneAction} {r : CloneCache × List CloneEvent} (hs : s.Sited)
    (h : s.step a = some r) : Done r := by
  cases step_cases h with
  | call c hnone => exact done_goOn hs.intact trivial
  | known now c hcall hrow => exact done_goOn hs.intact hrow
  | unknown now c hcall hrow => exact done_goOn hs.intact hrow
  | clear now c hcall =>
    exact done_goOn (s := s.rmtree c.key) (hs.intact_filter c.key) (hs.site c _ hcall)
  | clone now c hcall =>
    have hrow : s.cache.getRepo c.key = none := hs.site c _ hcall
    refine done_goOn (s := { s with broken := c.key :: s.broken }) ?_ hrow
    intro key hkey
    rcases List.mem_cons.mp hkey with rfl | hkey
    · exact hrow
    · exact hs.intact key hkey
  | cloned leaves c hcall =>
    refine done_goOn (s := { s with
      cache := s.cache.setDir c.key .defaultBranch
      broken := s.broken.filter (· != c.key) }) (hs.intact_filter c.key) ⟨?_, ?_⟩
    · exact congrArg Option.isSome (Cache.dir?_setDir _ _ _)
    · simp
  | cloneLeaves c hcall => exact done_raises hs.intact
  | cloneCleans c hcall =>
    exact done_raises (s := s.rmtree c.key) (hs.intact_filter c.key)
  | record now c hcall =>
    obtain ⟨-, hwhole⟩ := hs.site c _ hcall
    refine done_goOn (s := { s with cache := s.cache.putRepo ⟨c.owner, c.repo, now⟩ }) ?_ ?_
    · intro key hkey
      have hne : key ≠ c.key := fun heq => hwhole (heq ▸ hkey)
      have hsome := Cache.isSome_getRepo_putRepo_ne (c := s.cache) (r := ⟨c.owner, c.repo, now⟩) hne
      rw [hs.intact key hkey] at hsome
      exact Option.isNone_iff_eq_none.mp (by simpa using hsome)
    · exact Cache.isSome_getRepo_putRepo (Or.inl rfl)
  | fetched ok leaves c hcall =>
    have hrow : (s.cache.getRepo c.key).isSome = true := hs.site c _ hcall
    exact done_goOn hs.intact hrow
  | touch now c hcall =>
    refine done_goOn (s := { s with cache := s.cache.touchRepo c.key now }) ?_ ?_
    · intro key hkey
      have hsome : ((s.cache.touchRepo c.key now).getRepo key).isSome = _ :=
        Cache.isSome_getRepo_touchRepo now
      rw [hs.intact key hkey] at hsome
      exact Option.isNone_iff_eq_none.mp (by simpa using hsome)
    · exact (Cache.isSome_getRepo_touchRepo now).trans (hs.site c _ hcall)
  | checkedOut ok leaves c hcall hhead =>
    exact done_goOn (s := { s with cache := s.cache.setDir c.key (.commit (orEmpty c.head)) })
      hs.intact ⟨hhead, ⟨Cache.dir?_setDir _ _ _, hs.site c _ hcall⟩⟩
  | refused ok leaves c pc hcall hpc => exact done_raises hs.intact
  | evicts c pc rest hcall hpc =>
    have hsite := hs.site c pc hcall
    rcases hpc with rfl | rfl <;> exact done_goOn hs.intact hsite
  | within c pc hcall hpc =>
    have hsite := hs.site c pc hcall
    rcases hpc with rfl | ⟨rest, rfl⟩ <;> exact hs.done_returns hsite
  | evictEnds now c hcall => exact hs.done_returns (hs.site c _ hcall)
  | evictKeeps now c entry rest hcall hkey =>
    have hlanded : s.Landed c := hs.site c _ hcall
    exact done_goOn hs.intact hlanded
  | evictDeletes now c entry rest hcall hkey =>
    have hlanded : s.Landed c := hs.site c _ hcall
    exact done_goOn (s := s.rmtree entry.key) (hs.intact_filter entry.key)
      ⟨hlanded.rmtree hkey, hkey⟩
  | evictRemoves now c entry rest hcall =>
    obtain ⟨hlanded, hne⟩ := hs.site c _ hcall
    refine done_goOn (s := { s with cache := s.cache.removeRepo entry.key }) ?_
      (hlanded.removeRepo hne)
    intro key hkey
    by_cases heq : key = entry.key
    · rw [heq]
      exact Cache.getRepo_removeRepo_self
    · exact (Cache.getRepo_removeRepo_ne heq).trans (hs.intact key hkey)
  | crash => exact ⟨.idle hs.intact rfl, fun _ h => absurd h List.not_mem_nil, fun _ => rfl⟩
  | loseVolume hnone =>
    exact ⟨.idle (fun _ h => absurd h List.not_mem_nil) hnone,
      fun _ h => absurd h List.not_mem_nil, fun h => absurd rfl h⟩

/-- The empty cache is sited. -/
theorem empty_sited : empty.Sited :=
  .idle (fun _ h => absurd h List.not_mem_nil) rfl

/-- In every run the cache is sited. -/
theorem reaches_sited {D : Machine.Discipline CloneCache CloneAction CloneEvent}
    {h : List CloneEvent} (hr : machine.Reaches D s h) : s.Sited := by
  refine hr.invariant (I := fun s _ => s.Sited) ?_ ?_
  · rintro s rfl
    exact empty_sited
  · intro s h a s' es _ hs _ hstep
    exact (hs.step hstep).sited

/-! ## Rows and their directories -/

/-- The call is between the deletion of this directory and that of its row. -/
def Deleting (s : CloneCache) (key : String) : Prop :=
  ∃ c entry rest, s.call = some (c, .evicted entry rest) ∧ key = entry.key

/-- Every row has a complete clone, but for the entry that is just being evicted. -/
def Rows (s : CloneCache) : Prop :=
  ∀ key, (s.cache.getRepo key).isSome = true → (s.cache.dir? key).isSome = true ∨ s.Deleting key

/-- No crash falls between the deletion of an evicted directory and that of its row, and the
volume is not lost under the table. -/
def careful : Machine.Discipline CloneCache CloneAction CloneEvent :=
  fun s _ a => (a = .crash → ∀ key, ¬ s.Deleting key) ∧ (a = .loseVolume → s.cache.repos = [])

/-- The rows after a step from where no entry is being evicted. -/
theorem Rows.of_frame (hrows : s.Rows) (hcall : s.call = some (c, pc))
    (hpc : ∀ entry rest, pc ≠ .evicted entry rest)
    (hframe : ∀ key, (s'.cache.getRepo key).isSome = true →
      ((s.cache.getRepo key).isSome = true ∧ s'.cache.dir? key = s.cache.dir? key) ∨
        (s'.cache.dir? key).isSome = true ∨ s'.Deleting key) : s'.Rows := by
  intro key hkey
  rcases hframe key hkey with ⟨hrow, hdir⟩ | h
  · rcases hrows key hrow with hd | ⟨c', entry, rest, hcall', -⟩
    · exact Or.inl (hdir ▸ hd)
    · rw [hcall] at hcall'
      cases hcall'
      exact absurd rfl (hpc entry rest)
  · exact h

/-- Without an entry that is being evicted every row has its clone. -/
theorem Rows.dirs (hrows : s.Rows) (hno : ∀ key, ¬ s.Deleting key) {key : String}
    (hkey : (s.cache.getRepo key).isSome = true) : (s.cache.dir? key).isSome = true :=
  (hrows key hkey).resolve_right (hno key)

/-- The stores stay. -/
theorem Rows.same (hrows : s.Rows) (hcall : s.call = some (c, pc))
    (hpc : ∀ entry rest, pc ≠ .evicted entry rest) (broken : List String)
    (call : Option (EnsureCall × EnsurePc)) : (⟨s.cache, broken, call⟩ : CloneCache).Rows :=
  hrows.of_frame hcall hpc fun _ hkey => Or.inl ⟨hkey, rfl⟩

/-- The directory of the call is checked out. -/
theorem Rows.setDir (hrows : s.Rows) (hcall : s.call = some (c, pc))
    (hpc : ∀ entry rest, pc ≠ .evicted entry rest) (co : Checkout) (broken : List String)
    (call : Option (EnsureCall × EnsurePc)) :
    (⟨s.cache.setDir c.key co, broken, call⟩ : CloneCache).Rows := by
  refine hrows.of_frame hcall hpc fun key hkey => ?_
  by_cases heq : key = c.key
  · right
    left
    rw [heq]
    exact congrArg Option.isSome (Cache.dir?_setDir _ _ _)
  · exact Or.inl ⟨hkey, Cache.dir?_setDir_ne co heq⟩

/-- The directory of a call without a row is deleted. -/
theorem Rows.rmtree (hrows : s.Rows) (hcall : s.call = some (c, pc))
    (hpc : ∀ entry rest, pc ≠ .evicted entry rest) (hnone : s.cache.getRepo c.key = none)
    (broken : List String) (call : Option (EnsureCall × EnsurePc)) :
    (⟨s.cache.rmtree c.key, broken, call⟩ : CloneCache).Rows := by
  refine hrows.of_frame hcall hpc fun key hkey => Or.inl ⟨hkey, ?_⟩
  refine Cache.dir?_rmtree_ne fun heq => ?_
  have hkey' : (s.cache.getRepo key).isSome = true := hkey
  rw [heq, hnone] at hkey'
  cases hkey'

/-- **Every careful step** keeps a complete clone for every row. -/
theorem Rows.step {a : CloneAction} {r : CloneCache × List CloneEvent} {h : List CloneEvent}
    (hrows : s.Rows) (hs : s.Sited) (hd : careful s h a) (hstep : s.step a = some r) :
    r.1.Rows := by
  cases step_cases hstep with
  | call c hnone =>
    intro key hkey
    refine Or.inl (hrows.dirs ?_ hkey)
    rintro key ⟨c', entry, rest, hcall, -⟩
    rw [hcall] at hnone
    cases hnone
  | known now c hcall hrow => exact hrows.same hcall (by simp) _ _
  | unknown now c hcall hrow => exact hrows.same hcall (by simp) _ _
  | clear now c hcall => exact hrows.rmtree hcall (by simp) (hs.site c _ hcall) _ _
  | clone now c hcall => exact hrows.same hcall (by simp) _ _
  | cloned leaves c hcall => exact hrows.setDir hcall (by simp) _ _ _
  | cloneLeaves c hcall => exact hrows.same hcall (by simp) _ _
  | cloneCleans c hcall => exact hrows.rmtree hcall (by simp) (hs.site c _ hcall) _ _
  | record now c hcall =>
    obtain ⟨hdir, -⟩ := hs.site c _ hcall
    refine hrows.of_frame hcall (by simp) fun key hkey => ?_
    by_cases heq : key = c.key
    · right
      left
      rw [heq]
      exact (congrArg Option.isSome (Cache.dir?_putRepo _ _)).trans hdir
    · left
      refine ⟨?_, Cache.dir?_putRepo _ _⟩
      exact (Cache.isSome_getRepo_putRepo_ne (r := ⟨c.owner, c.repo, now⟩) heq).symm.trans hkey
  | fetched ok leaves c hcall => exact hrows.same hcall (by simp) _ _
  | touch now c hcall =>
    refine hrows.of_frame hcall (by simp) fun key hkey => Or.inl ⟨?_, rfl⟩
    exact (Cache.isSome_getRepo_touchRepo now).symm.trans hkey
  | checkedOut ok leaves c hcall hhead => exact hrows.setDir hcall (by simp) _ _ _
  | refused ok leaves c pc hcall hpc =>
    exact hrows.same hcall (by rcases hpc with rfl | rfl <;> simp) _ _
  | evicts c pc rest hcall hpc => exact hrows.same hcall (by rcases hpc with rfl | rfl <;> simp) _ _
  | within c pc hcall hpc =>
    exact hrows.same hcall (by rcases hpc with rfl | ⟨rest, rfl⟩ <;> simp) _ _
  | evictEnds now c hcall => exact hrows.same hcall (by simp) _ _
  | evictKeeps now c entry rest hcall hkey => exact hrows.same hcall (by simp) _ _
  | evictDeletes now c entry rest hcall hkey =>
    refine hrows.of_frame hcall (by simp) fun key hrow => ?_
    by_cases heq : key = entry.key
    · exact Or.inr (Or.inr ⟨c, entry, rest, rfl, heq⟩)
    · exact Or.inl ⟨hrow, Cache.dir?_rmtree_ne heq⟩
  | evictRemoves now c entry rest hcall =>
    intro key hkey
    have hkey' : ((s.cache.removeRepo entry.key).getRepo key).isSome = true := hkey
    by_cases heq : key = entry.key
    · rw [heq, Cache.getRepo_removeRepo_self] at hkey'
      cases hkey'
    · rw [Cache.getRepo_removeRepo_ne heq] at hkey'
      rcases hrows key hkey' with hdir | ⟨c', entry', rest', hcall', heq'⟩
      · exact Or.inl hdir
      · rw [hcall] at hcall'
        cases hcall'
        exact absurd heq' heq
  | crash => exact fun key hkey => Or.inl (hrows.dirs (hd.1 rfl) hkey)
  | loseVolume hnone =>
    intro key hkey
    have hkey' : (s.cache.getRepo key).isSome = true := hkey
    unfold Cache.getRepo at hkey'
    rw [hd.2 rfl] at hkey'
    cases hkey'

/-- In every careful run each row has its directory. -/
theorem reaches_rows {h : List CloneEvent} (hr : machine.Reaches careful s h) : s.Rows := by
  refine hr.invariant (I := fun s _ => s.Rows) ?_ ?_
  · rintro s rfl key hkey
    cases hkey
  · intro s h a s' es hr hrows hd hstep
    exact hrows.step (reaches_sited hr) hd hstep

/-! ## Consistency -/

/-- The process does not die, and the volume is not lost. -/
def uninterrupted : Machine.Discipline CloneCache CloneAction CloneEvent :=
  fun _ _ a => a ≠ .crash ∧ a ≠ .loseVolume

/-- A run without crash or lost volume is careful. -/
theorem careful_of_uninterrupted {a : CloneAction} {h : List CloneEvent}
    (hd : uninterrupted s h a) : careful s h a :=
  ⟨fun heq => absurd heq hd.1, fun heq => absurd heq hd.2⟩

/-- Whether a step is uninterrupted can be decided. -/
instance (s : CloneCache) (h : List CloneEvent) (a : CloneAction) :
    Decidable (uninterrupted s h a) :=
  inferInstanceAs (Decidable (a ≠ .crash ∧ a ≠ .loseVolume))

/-- **The clone cache is consistent under failures.** In every run of calls of `ensure` on an
empty cache, whatever git commands fail and whatever is evicted, without a crash: every row has
a complete clone, but for the entry a call is just evicting; so has every row when a call
raises; and when a call returns, its directory is at the head asked for and its row is there. -/
theorem cache_consistent {h : List CloneEvent} (hr : machine.Reaches uninterrupted s h) :
    (∀ row ∈ s.cache.repos, (s.cache.dir? row.key).isSome = true ∨ s.Deleting row.key) ∧
      (s.call = none → ∀ row ∈ s.cache.repos, (s.cache.dir? row.key).isSome = true) ∧
      ∀ a s' es, uninterrupted s h a → s.step a = some (s', es) →
        (∀ c, .raised c ∈ es → ∀ row ∈ s'.cache.repos, (s'.cache.dir? row.key).isSome = true) ∧
          ∀ c, .returned c ∈ es → truthy c.head = true ∧
            s'.cache.dir? c.key = some (.commit (orEmpty c.head)) ∧
            (s'.cache.getRepo c.key).isSome = true := by
  have hidle : ∀ {t : CloneCache}, t.Rows → t.call = none → ∀ row ∈ t.cache.repos,
      (t.cache.dir? row.key).isSome = true := by
    intro t hrows hcall row hrow
    rcases hrows row.key (Cache.isSome_getRepo_of_mem hrow) with hd | ⟨c, entry, rest, hc, -⟩
    · exact hd
    · rw [hcall] at hc
      cases hc
  have hcareful := hr.mono fun s h a hd => careful_of_uninterrupted hd
  have hrows := reaches_rows hcareful
  refine ⟨fun row hrow => hrows row.key (Cache.isSome_getRepo_of_mem hrow), hidle hrows, ?_⟩
  intro a s' es hd hstep
  have hrows' : s'.Rows := hrows.step (reaches_sited hr) (careful_of_uninterrupted hd) hstep
  have hdone := (reaches_sited hr).step hstep
  refine ⟨fun c hc => hidle hrows' (hdone.ended (List.ne_nil_of_mem hc)), fun c hc => ?_⟩
  obtain ⟨hhead, hpresent⟩ := hdone.landed c hc
  exact ⟨hhead, hpresent.dir, hpresent.entry⟩

/-- A repository is cloned and checked out, and a second one whose clone fails. -/
def clonedRun : List CloneAction :=
  [.call ⟨"o", "a", some "h1"⟩, .go 1, .go 1, .go 1, .git true false, .go 1, .git true false,
    .measured false]

/-- One clone that succeeded and one that failed leave a consistent cache. -/
theorem cache_consistent_cloned :
    ∃ s h, (decide (s.cache.repos.length = 1 ∧ s.broken = ["o/b"]) = true ∧ h =
        [.returned ⟨"o", "a", some "h1"⟩, .raised ⟨"o", "b", some "h2"⟩]) ∧
      ((∀ row ∈ s.cache.repos, (s.cache.dir? row.key).isSome = true ∨ s.Deleting row.key) ∧
        (s.call = none → ∀ row ∈ s.cache.repos, (s.cache.dir? row.key).isSome = true) ∧
        ∀ a s' es, uninterrupted s h a → s.step a = some (s', es) →
          (∀ c, .raised c ∈ es → ∀ row ∈ s'.cache.repos, (s'.cache.dir? row.key).isSome = true) ∧
            ∀ c, .returned c ∈ es → truthy c.head = true ∧
              s'.cache.dir? c.key = some (.commit (orEmpty c.head)) ∧
              (s'.cache.getRepo c.key).isSome = true) ∧
      machine.Reaches uninterrupted s h := by
  obtain ⟨s, h, hr, hcheck⟩ := Machine.exists_reaches_decide (M := machine) (D := uninterrupted)
    (clonedRun ++ [.call ⟨"o", "b", some "h2"⟩, .go 2, .go 2, .go 2, .git false true])
    (fun s h => decide (s.cache.repos.length = 1 ∧ s.broken = ["o/b"]) &&
      decide (h = [.returned ⟨"o", "a", some "h1"⟩, .raised ⟨"o", "b", some "h2"⟩])) rfl (by decide)
  rw [Bool.and_eq_true, decide_eq_true_eq (p := h = _)] at hcheck
  exact ⟨s, h, hcheck, cache_consistent hr, hr⟩

/-! ## A call as a run -/

section Runs

variable {s₀ : CloneCache} {h : List CloneEvent}

/-- A run from `s₀` that leaves this cache, and no call. -/
def RunsTo (s₀ : CloneCache) (h : List CloneEvent) (c : Cache) : Prop :=
  ∃ t, (machine.startingAt s₀).Reaches uninterrupted t h ∧ t.call = none ∧ t.cache = c

/-- A step of the call that does not end it. -/
theorem runs_on {a : CloneAction} (t : CloneCache) (c : EnsureCall) (pc : EnsurePc)
    (hr : (machine.startingAt s₀).Reaches uninterrupted s h)
    (hok : decide (uninterrupted s h a) = true) (hstep : s.step a = some (t.goOn c pc)) :
    (machine.startingAt s₀).Reaches uninterrupted (t.goOn c pc).1 h := by
  have hr' := Machine.Reaches.step hr (of_decide_eq_true hok) hstep
  rwa [List.append_nil] at hr'

/-- The last step of the call. -/
theorem runs_out {a : CloneAction} {e : CloneEvent} (t : CloneCache)
    (hr : (machine.startingAt s₀).Reaches uninterrupted s h)
    (hok : decide (uninterrupted s h a) = true)
    (hstep : s.step a = some ({ t with call := none }, [e])) :
    RunsTo s₀ (h ++ [e]) t.cache :=
  ⟨_, Machine.Reaches.step hr (of_decide_eq_true hok) hstep, rfl, rfl⟩

/-- The eviction loop, run step by step. -/
theorem run_evictLoop (cap : Int) (disk : Disk) (rest : List CachedRepo)
    (hr : (machine.startingAt s₀).Reaches uninterrupted s h)
    (hcall : s.call = some (c, .evict rest)) :
    RunsTo s₀ (h ++ [.returned c]) (s.cache.evictLoop cap disk c.key rest) := by
  induction rest generalizing s with
  | nil =>
    refine runs_out (a := .go 0) s hr rfl ?_
    simp [CloneCache.step, hcall, CloneCache.goStep, CloneCache.returns]
  | cons entry rest ih =>
    unfold Cache.evictLoop
    by_cases hkey : entry.key = c.key
    · rw [if_pos hkey]
      have hskip := runs_on (a := .go 0) s c (.evict rest) hr rfl
        (by simp [CloneCache.step, hcall, CloneCache.goStep, hkey])
      exact ih (s := (s.goOn c (.evict rest)).1) hskip rfl
    · rw [if_neg hkey]
      have hdeleted := runs_on (a := .go 0) (s.rmtree entry.key) c (.evicted entry rest) hr rfl
        (by simp [CloneCache.step, hcall, CloneCache.goStep, hkey])
      have hremoved := runs_on (a := .go 0)
        { s.rmtree entry.key with cache := (s.cache.rmtree entry.key).removeRepo entry.key }
        c (.remeasure rest) hdeleted rfl rfl
      by_cases hcap : (((s.cache.rmtree entry.key).removeRepo entry.key).usage disk : Int) ≤ cap
      · simp only [if_pos hcap]
        exact runs_out (a := .measured false) _ hremoved rfl rfl
      · simp only [if_neg hcap]
        have hagain := runs_on (a := .measured true) _ c (.evict rest) hremoved rfl rfl
        exact ih hagain rfl

/-- The end of a call that has its clone: the checkout and the eviction. -/
theorem run_checkout (cap : Int) (g : GitAnswers)
    (hr : (machine.startingAt s₀).Reaches uninterrupted s h) (hcall : s.call = some (c, .checkout))
    (hdir : (s.cache.dir? c.key).isSome = true) :
    if truthy c.head && g.checkout then
      RunsTo s₀ (h ++ [.returned c])
        ((s.cache.setDir c.key (.commit (orEmpty c.head))).evictIfOverCap cap g.disk c.key)
    else RunsTo s₀ (h ++ [.raised c]) s.cache := by
  by_cases hok : (truthy c.head && g.checkout) = true
  · rw [if_pos hok]
    unfold Cache.evictIfOverCap
    have hserved : (truthy c.head && g.checkout && (s.cache.dir? c.key).isSome) = true := by
      rw [hok, hdir]
      rfl
    have hout := runs_on (a := .git g.checkout false)
      { s with cache := s.cache.setDir c.key (.commit (orEmpty c.head)) } c .measure hr rfl
      (by simp only [CloneCache.step, hcall, Option.bind_some, CloneCache.gitStep, if_pos hserved])
    split
    · exact runs_out (a := .measured false) _ hout rfl rfl
    · have hover := runs_on (a := .measured true) _ c
        (.evict (s.cache.setDir c.key (.commit (orEmpty c.head))).lruOrder) hout rfl rfl
      exact run_evictLoop cap g.disk _ hover rfl
  · rw [if_neg hok]
    have hrefused : ¬ (truthy c.head && g.checkout && (s.cache.dir? c.key).isSome) = true := by
      rw [Bool.and_eq_true]
      exact fun h => hok h.1
    refine runs_out (a := .git g.checkout false) s hr rfl ?_
    simp only [CloneCache.step, hcall, Option.bind_some, CloneCache.gitStep, if_neg hrefused]
    rfl

/-- **The undisturbed call is a run of its steps**, with the same end. -/
theorem run_ensure (hidle : s.call = none) (cap : Int) (now : Nat) (g : GitAnswers) :
    RunsTo s [if (s.cache.ensure cap now g c.owner c.repo c.head).2 then .returned c else .raised c]
      (s.cache.ensure cap now g c.owner c.repo c.head).1 := by
  have hstart : (machine.startingAt s).Reaches uninterrupted s [] := .start rfl
  have hlookup := runs_on (a := .call c) s c .lookup hstart rfl
    (by simp [CloneCache.step, hidle])
  unfold Cache.ensure
  cases hrow : s.cache.getRepo (repoKey c.owner c.repo) with
  | none =>
    have hclear := runs_on (a := .go now) s c .clear hlookup rfl
      (by simp [CloneCache.step, CloneCache.goStep, CloneCache.goOn, EnsureCall.key, hrow])
    have hclone := runs_on (a := .go now) (s.rmtree c.key) c .clone hclear rfl rfl
    have hcloning := runs_on (a := .go now)
      { s.rmtree c.key with broken := c.key :: (s.rmtree c.key).broken } c .cloning hclone rfl rfl
    cases hserved : g.clone with
    | false =>
      -- what the failed clone leaves is removed once more
      have hraised : RunsTo s [.raised c] ((s.cache.rmtree c.key).rmtree c.key) :=
        runs_out (a := .git false false) _ hcloning rfl rfl
      rw [Cache.rmtree_rmtree] at hraised
      simp only [hrow, Bool.false_eq_true, if_false]
      exact hraised
    | true =>
      have hcloned := runs_on (a := .git true false) _ c .record hcloning rfl rfl
      have hready := runs_on (a := .go now) _ c .checkout hcloned rfl rfl
      have hend := run_checkout cap g hready rfl (by
        show (Cache.dir? (Cache.putRepo _ _) c.key).isSome = true
        rw [Cache.dir?_putRepo]
        exact congrArg Option.isSome (Cache.dir?_setDir _ _ _))
      by_cases hok : (truthy c.head && g.checkout) = true
      · rw [if_pos hok] at hend
        simp only [hrow, if_true, if_pos hok]
        exact hend
      · rw [if_neg hok] at hend
        simp only [hrow, if_true, if_neg hok]
        exact hend
  | some row =>
    have hfetch := runs_on (a := .go now) s c .fetch hlookup rfl
      (by simp [CloneCache.step, CloneCache.goStep, CloneCache.goOn, EnsureCall.key, hrow])
    by_cases hserved : (c.head.isSome && g.fetch && (s.cache.dir? c.key).isSome) = true
    · have htouch := runs_on (a := .git g.fetch false) s c .touch hfetch rfl (if_pos hserved)
      have hready := runs_on (a := .go now) _ c .checkout htouch rfl rfl
      have hend := run_checkout cap g hready rfl (by
        rw [Bool.and_eq_true] at hserved
        exact hserved.2)
      have hserved' : (c.head.isSome && g.fetch &&
        (s.cache.dir? (repoKey c.owner c.repo)).isSome) = true := hserved
      by_cases hok : (truthy c.head && g.checkout) = true
      · rw [if_pos hok] at hend
        simp only [hrow, if_pos hserved', if_pos hok]
        exact hend
      · rw [if_neg hok] at hend
        simp only [hrow, if_pos hserved', if_neg hok]
        exact hend
    · have hraised := runs_out (a := .git g.fetch false) s hfetch rfl (if_neg hserved)
      have hserved' : ¬ (c.head.isSome && g.fetch &&
        (s.cache.dir? (repoKey c.owner c.repo)).isSome) = true := hserved
      simp only [hrow, if_neg hserved']
      exact hraised

end Runs

/-! ## Healing -/

/-- Git serves every command. -/
def serving (disk : Disk) : GitAnswers where
  clone := true
  fetch := true
  checkout := true
  disk := disk

/-- With a remote that serves every command, `ensure` returns a checkout at this head. -/
def Heals (c : Cache) (owner repo head : String) : Prop :=
  ∀ (cap : Int) (now : Nat) (disk : Disk),
    (c.ensure cap now (serving disk) owner repo (some head)).2 = true ∧
      (c.ensure cap now (serving disk) owner repo (some head)).1.dir? (repoKey owner repo) =
        some (.commit head)

/-- A call heals the cache exactly when the row is missing or its directory is there. -/
theorem heals_iff {c : Cache} {owner repo head : String} (hhead : head ≠ "") :
    Heals c owner repo head ↔ c.getRepo (repoKey owner repo) = none ∨
      (c.dir? (repoKey owner repo)).isSome = true := by
  have htruthy : truthy (some head) = true := (truthy_some head).mpr hhead
  have hserves : ∀ disk, c.Serves (serving disk) (repoKey owner repo) (some head) = true ↔
      c.getRepo (repoKey owner repo) = none ∨ (c.dir? (repoKey owner repo)).isSome = true := by
    intro disk
    unfold Cache.Serves serving
    cases hrow : c.getRepo (repoKey owner repo) <;> simp [htruthy]
  constructor
  · intro hheals
    rw [← hserves ⟨fun _ => 0, 0⟩]
    by_contra hno
    have htrue := (hheals 0 0 ⟨fun _ => 0, 0⟩).1
    rw [Cache.ensure_raises (Bool.eq_false_iff.mpr hno)] at htrue
    cases htrue
  · intro hcond cap now disk
    have htrue : (c.ensure cap now (serving disk) owner repo (some head)).2 = true := by
      rw [Cache.ensure_of_serves ((hserves disk).mpr hcond)]
    refine ⟨htrue, ?_⟩
    exact (Cache.present_of_ensure (Prod.ext rfl htrue)).2.dir

/-- **When the clone cache heals itself.** After any calls of `ensure`, whatever their steps were
interrupted by, a repository heals exactly if it has no row or a complete clone. So it does after
a clone that failed or was cut short, and so does every repository in runs whose crashes and
losses are careful. -/
theorem ensure_selfHeals {D : Machine.Discipline CloneCache CloneAction CloneEvent}
    {h : List CloneEvent} {owner repo head : String} (hr : machine.Reaches D s h)
    (hidle : s.call = none) (hhead : head ≠ "") :
    (Heals s.cache owner repo head ↔ s.cache.getRepo (repoKey owner repo) = none ∨
        (s.cache.dir? (repoKey owner repo)).isSome = true) ∧
      (repoKey owner repo ∈ s.broken → Heals s.cache owner repo head) ∧
      ((∀ s h a, D s h a → careful s h a) → Heals s.cache owner repo head) := by
  have hiff : Heals s.cache owner repo head ↔ _ := heals_iff hhead
  refine ⟨hiff, fun hbroken => hiff.mpr (Or.inl ((reaches_sited hr).intact _ hbroken)), ?_⟩
  intro hcareful
  cases hrow : s.cache.getRepo (repoKey owner repo) with
  | none => exact hiff.mpr (Or.inl hrow)
  | some row =>
    have hrows := reaches_rows (hr.mono hcareful) (repoKey owner repo) (by rw [hrow]; rfl)
    rcases hrows with hdir | ⟨c, entry, rest, hcall, -⟩
    · exact hiff.mpr (Or.inr hdir)
    · rw [hidle] at hcall
      cases hcall

/-- The process may die while git clones. -/
def cutClones : Machine.Discipline CloneCache CloneAction CloneEvent :=
  fun s _ a => (a = .crash → ∀ x ∈ s.call, x.2 = .cloning) ∧ a ≠ .loseVolume

/-- Whether a step interrupts nothing but clones can be decided. -/
instance (s : CloneCache) (h : List CloneEvent) (a : CloneAction) : Decidable (cutClones s h a) :=
  inferInstanceAs (Decidable ((a = .crash → ∀ x ∈ s.call, x.2 = .cloning) ∧ a ≠ .loseVolume))

/-- A run that is interrupted while it clones only is careful. -/
theorem careful_of_cutClones {a : CloneAction} {h : List CloneEvent} (hd : cutClones s h a) :
    careful s h a := by
  refine ⟨?_, fun heq => absurd heq hd.2⟩
  rintro hcrash key ⟨c, entry, rest, hcall, -⟩
  cases hd.1 hcrash _ hcall

/-- A clone is cut short; the next call makes a new one. -/
theorem ensure_selfHeals_cut :
    ∃ s h, decide (s.call = none ∧ s.broken = ["o/b"]) = true ∧
      (Heals s.cache "o" "b" "h2" ↔ s.cache.getRepo (repoKey "o" "b") = none ∨
        (s.cache.dir? (repoKey "o" "b")).isSome = true) ∧
      Heals s.cache "o" "b" "h2" ∧ machine.Reaches cutClones s h := by
  obtain ⟨s, h, hr, hcheck⟩ := Machine.exists_reaches_decide (M := machine) (D := cutClones)
    (clonedRun ++ [.call ⟨"o", "b", some "h2"⟩, .go 2, .go 2, .go 2, .crash])
    (fun s _ => decide (s.call = none ∧ s.broken = ["o/b"])) rfl (by decide)
  have hhead : "h2" ≠ "" := by decide
  obtain ⟨hiff, -, hheals⟩ := ensure_selfHeals hr (of_decide_eq_true hcheck).1 hhead
  exact ⟨s, h, hcheck, hiff, hheals fun _ _ _ => careful_of_cutClones, hr⟩

/-- Two clones, with the call for the second one about to look at the usage. -/
def twoClones : CloneCache where
  cache := ⟨[⟨"o", "a", 1⟩, ⟨"o", "b", 2⟩], [("o/b", .commit "h2"), ("o/a", .commit "h1")]⟩
  broken := []
  call := some (⟨"o", "b", some "h2"⟩, .measure)

/-- The two clones are in the order of their use. -/
theorem twoClones_lruOrder : twoClones.cache.lruOrder = twoClones.cache.repos :=
  List.mergeSort_of_pairwise (by decide)

/-- The process dies between the deletion of an evicted directory and that of its row: the next
call fetches in a directory that is not there. -/
theorem ensure_not_selfHeals :
    ¬ ∀ s h, machine.Reachable s h → s.call = none → ∀ owner repo head : String, head ≠ "" →
      Heals s.cache owner repo head := by
  intro hall
  obtain ⟨s, h, hr, hcheck⟩ := Machine.exists_reachable_run (M := machine)
    (clonedRun ++ [.call ⟨"o", "b", some "h2"⟩, .go 2, .go 2, .go 2, .git true false, .go 2,
      .git true false])
    (fun s _ => decide (s = twoClones)) rfl (by decide)
  obtain rfl : s = twoClones := of_decide_eq_true hcheck
  have hover := Machine.Reaches.step (a := .measured true) hr trivial rfl
  rw [twoClones_lruOrder] at hover
  have hdeleted := Machine.Reaches.step (a := .go 2) hover trivial rfl
  have hcrashed := Machine.Reaches.step (a := .crash) hdeleted trivial rfl
  have hheals := hall _ _ hcrashed rfl "o" "a" "h1" (by decide)
  rcases (heals_iff (by decide)).mp hheals with hrow | hdir
  · exact absurd hrow (by decide)
  · exact absurd hdir (by decide)

end CloneCache

end PrReviewer.Model
