import Mathlib.Data.List.Sort
import PrReviewer.Model.Domain

/-!
# `CloneCacheManager`

The clone cache: the `repos` table and the directories under `workspace_cache_dir`. A
directory is keyed by its repository, `owner/repo`, which names both its row and its path.
What git answers and how large the directories are is given with each call.
-/

set_option autoImplicit false

namespace PrReviewer.Model

/-- `CachedRepo`, a row of the `repos` table; its path is that of its key. -/
structure CachedRepo where
  owner : String
  repo : String
  lastUsed : Nat
  deriving DecidableEq, Repr

/-- `f"{owner}/{repo}"` -/
def repoKey (owner repo : String) : String :=
  owner ++ "/" ++ repo

/-- The repository of the entry. -/
def CachedRepo.key (r : CachedRepo) : String :=
  repoKey r.owner r.repo

/-- What is checked out in a directory. -/
inductive Checkout
  /-- the default branch, as `git clone` leaves it -/
  | defaultBranch
  | commit (sha : String)
  deriving DecidableEq, Repr

/-- The clone cache. -/
structure Cache where
  /-- the `repos` table, in the order of its rows -/
  repos : List CachedRepo
  /-- the directories under the cache root that exist -/
  dirs : List (String × Checkout)
  deriving DecidableEq, Repr

/-- What the file system says about sizes. -/
structure Disk where
  /-- the bytes in a directory of the cache -/
  size : String → Nat
  /-- the bytes in other files under the cache root -/
  other : Nat := 0

/-- What git and the file system answer during one call of `ensure`. -/
structure GitAnswers where
  /-- `git clone` succeeds -/
  clone : Bool
  /-- `git fetch origin <head>`, or else `git fetch --all`, succeeds -/
  fetch : Bool
  /-- `git checkout <head>` succeeds -/
  checkout : Bool
  disk : Disk

namespace Cache

/-- `get_repo` -/
def getRepo (c : Cache) (key : String) : Option CachedRepo :=
  c.repos.find? fun r => r.key == key

/-- What is checked out in the directory of a repository, if it exists. -/
def dir? (c : Cache) (key : String) : Option Checkout :=
  c.dirs.lookup key

/-- The directory of a repository now holds this checkout. -/
def setDir (c : Cache) (key : String) (co : Checkout) : Cache :=
  { c with dirs := (key, co) :: c.dirs.filter fun d => d.1 != key }

/-- `shutil.rmtree` -/
def rmtree (c : Cache) (key : String) : Cache :=
  { c with dirs := c.dirs.filter fun d => d.1 != key }

/-- `put_repo`: insert, or update the row of the key. -/
def putRepo (c : Cache) (r : CachedRepo) : Cache :=
  if (c.getRepo r.key).isSome then
    { c with repos := c.repos.map fun r' => if r'.key == r.key then { r' with lastUsed := r.lastUsed } else r' }
  else { c with repos := c.repos ++ [r] }

/-- `touch_repo` -/
def touchRepo (c : Cache) (key : String) (now : Nat) : Cache :=
  { c with repos := c.repos.map fun r => if r.key == key then { r with lastUsed := now } else r }

/-- `remove_repo` -/
def removeRepo (c : Cache) (key : String) : Cache :=
  { c with repos := c.repos.filter fun r => r.key != key }

/-- The bytes under the cache root. -/
def usage (c : Cache) (disk : Disk) : Nat :=
  c.dirs.foldr (fun d bytes => disk.size d.1 + bytes) disk.other

/-- `sorted(list_repos(), key=last_used)`, a stable sort. -/
def lruOrder (c : Cache) : List CachedRepo :=
  c.repos.mergeSort fun a b => a.lastUsed ≤ b.lastUsed

/-- The loop of `_evict_if_over_cap` over the entries in LRU order. -/
def evictLoop (cap : Int) (disk : Disk) (keep : String) :
    Cache → List CachedRepo → Cache
  | c, [] => c
  | c, r :: rest =>
    if r.key = keep then evictLoop cap disk keep c rest
    else
      let c := (c.rmtree r.key).removeRepo r.key
      if (c.usage disk : Int) ≤ cap then c else evictLoop cap disk keep c rest

/-- `_evict_if_over_cap(keep)` -/
def evictIfOverCap (c : Cache) (cap : Int) (disk : Disk) (keep : String) : Cache :=
  if (c.usage disk : Int) ≤ cap then c else c.evictLoop cap disk keep c.lruOrder

/-- `ensure`, on a head that may be missing: the cache it leaves, and whether it returned the
path (`true`) or raised. Without a head, or with an empty one, git has no commit to fetch or
to check out. -/
def ensure (c : Cache) (cap : Int) (now : Nat) (g : GitAnswers) (owner repo : String)
    (head : Option String) : Cache × Bool :=
  let key := repoKey owner repo
  let ready : Cache × Bool :=
    match c.getRepo key with
    | none =>
      -- `_git_clone` first removes what is at the path
      if g.clone then
        (((c.rmtree key).setDir key .defaultBranch).putRepo ⟨owner, repo, now⟩, true)
      else (c.rmtree key, false)
    | some _ =>
      if head.isSome && g.fetch && (c.dir? key).isSome then (c.touchRepo key now, true)
      else (c, false)
  match ready with
  | (c, false) => (c, false)
  | (c, true) =>
    if truthy head && g.checkout then
      ((c.setDir key (.commit (orEmpty head))).evictIfOverCap cap g.disk key, true)
    else (c, false)

end Cache

end PrReviewer.Model
