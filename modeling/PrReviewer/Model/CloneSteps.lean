import PrReviewer.Library.Machine
import PrReviewer.Model.Cache

/-!
# `CloneCacheManager.ensure`, step by step

A call of `ensure` writes to two stores, the directories and the `repos` table, one after the
other, and each of its steps may fail, be the last one before the process dies, or both. Calls
follow one another; between two of them the volume of the directories may be lost. Git and the
sizes of the directories answer as they please.

`Cache.ensure` is one undisturbed call.
-/

set_option autoImplicit false

namespace PrReviewer.Model

open PrReviewer.Library (Machine)

/-- The arguments of a call of `ensure`. -/
structure EnsureCall where
  owner : String
  repo : String
  head : Option String
  deriving DecidableEq, Repr

/-- `key` -/
def EnsureCall.key (c : EnsureCall) : String :=
  repoKey c.owner c.repo

/-- What a call of `ensure` does next. -/
inductive EnsurePc
  /-- `get_repo` -/
  | lookup
  /-- `_git_clone`: `rmtree` of what is at the path -/
  | clear
  /-- `git clone` is started -/
  | clone
  /-- `git clone` ends -/
  | cloning
  /-- `put_repo` -/
  | record
  /-- `git fetch` ends -/
  | fetch
  /-- `touch_repo` -/
  | touch
  /-- `git checkout` ends -/
  | checkout
  /-- the first look at the disk usage -/
  | measure
  /-- the head of the eviction loop -/
  | evict (rest : List CachedRepo)
  /-- `remove_repo`, after the `rmtree` of this entry -/
  | evicted (entry : CachedRepo) (rest : List CachedRepo)
  /-- the look at the disk usage after an eviction -/
  | remeasure (rest : List CachedRepo)
  deriving DecidableEq, Repr

/-- The clone cache, and the call of `ensure` that works on it. -/
structure CloneCache where
  /-- the table, and the directories that hold a complete clone -/
  cache : Cache
  /-- the paths that hold anything else -/
  broken : List String
  call : Option (EnsureCall × EnsurePc)
  deriving DecidableEq, Repr

/-- What happens to the cache and its call. -/
inductive CloneAction
  | call (c : EnsureCall)
  /-- a step without an answer from outside; `now` is `_now()` -/
  | go (now : Nat)
  /-- a git command ends, well or not; a clone that fails may leave something at its path -/
  | git (ok : Bool) (leaves : Bool)
  /-- the usage is over the cap, or not -/
  | measured (full : Bool)
  /-- the process dies -/
  | crash
  /-- the volume of the cache is lost -/
  | loseVolume
  deriving DecidableEq, Repr

/-- The end of a call. -/
inductive CloneEvent
  | returned (c : EnsureCall)
  | raised (c : EnsureCall)
  deriving DecidableEq, Repr

namespace CloneCache

variable (s : CloneCache)

/-- The call goes on to `pc`. -/
def goOn (c : EnsureCall) (pc : EnsurePc) : CloneCache × List CloneEvent :=
  ({ s with call := some (c, pc) }, [])

/-- The call returns. -/
def returns (c : EnsureCall) : CloneCache × List CloneEvent :=
  ({ s with call := none }, [.returned c])

/-- The call raises. -/
def raises (c : EnsureCall) : CloneCache × List CloneEvent :=
  ({ s with call := none }, [.raised c])

/-- `shutil.rmtree` -/
def rmtree (key : String) : CloneCache :=
  { s with cache := s.cache.rmtree key, broken := s.broken.filter (· != key) }

/-- A step of the call `c` at `pc` that needs no answer. -/
def goStep (now : Nat) (c : EnsureCall) : EnsurePc → Option (CloneCache × List CloneEvent)
  | .lookup => some (s.goOn c (if (s.cache.getRepo c.key).isSome then .fetch else .clear))
  | .clear => some ((s.rmtree c.key).goOn c .clone)
  | .clone => some ({ s with broken := c.key :: s.broken }.goOn c .cloning)
  | .record => some ({ s with cache := s.cache.putRepo ⟨c.owner, c.repo, now⟩ }.goOn c .checkout)
  | .touch => some ({ s with cache := s.cache.touchRepo c.key now }.goOn c .checkout)
  | .evict [] => some (s.returns c)
  | .evict (entry :: rest) =>
    if entry.key = c.key then some (s.goOn c (.evict rest))
    else some ((s.rmtree entry.key).goOn c (.evicted entry rest))
  | .evicted entry rest =>
    some ({ s with cache := s.cache.removeRepo entry.key }.goOn c (.remeasure rest))
  | _ => none

/-- The git command of the call `c` at `pc` ends. A command in a directory that is not there
fails, and so does one without a head. -/
def gitStep (ok leaves : Bool) (c : EnsureCall) : EnsurePc → Option (CloneCache × List CloneEvent)
  | .cloning =>
    if ok then
      some ({ s with
        cache := s.cache.setDir c.key .defaultBranch
        broken := s.broken.filter (· != c.key) }.goOn c .record)
    else if leaves then some (s.raises c)
    else some ((s.rmtree c.key).raises c)
  | .fetch =>
    if c.head.isSome && ok && (s.cache.dir? c.key).isSome then some (s.goOn c .touch)
    else some (s.raises c)
  | .checkout =>
    if truthy c.head && ok && (s.cache.dir? c.key).isSome then
      some ({ s with cache := s.cache.setDir c.key (.commit (orEmpty c.head)) }.goOn c .measure)
    else some (s.raises c)
  | _ => none

/-- The call `c` at `pc` learns whether the usage is over the cap. -/
def measureStep (full : Bool) (c : EnsureCall) : EnsurePc → Option (CloneCache × List CloneEvent)
  | .measure => some (if full then s.goOn c (.evict s.cache.lruOrder) else s.returns c)
  | .remeasure rest => some (if full then s.goOn c (.evict rest) else s.returns c)
  | _ => none

/-- One step of the call, or of its surroundings. -/
def step (s : CloneCache) : CloneAction → Option (CloneCache × List CloneEvent)
  | .call c => if s.call.isNone then some (s.goOn c .lookup) else none
  | .go now => s.call.bind fun x => s.goStep now x.1 x.2
  | .git ok leaves => s.call.bind fun x => s.gitStep ok leaves x.1 x.2
  | .measured full => s.call.bind fun x => s.measureStep full x.1 x.2
  | .crash => some ({ s with call := none }, [])
  | .loseVolume =>
    if s.call.isNone then some ({ s with cache := { s.cache with dirs := [] }, broken := [] }, [])
    else none

/-- An empty cache. -/
def empty : CloneCache :=
  ⟨⟨[], []⟩, [], none⟩

/-- The cache from an empty volume on. -/
def machine : Machine CloneCache CloneAction CloneEvent where
  start := fun s => s = empty
  step := step

end CloneCache

end PrReviewer.Model
