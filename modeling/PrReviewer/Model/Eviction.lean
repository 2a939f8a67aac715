import Mathlib.Algebra.GroupWithZero.Nat
import PrReviewer.Library.Sweep
import PrReviewer.Model.Cache

/-!
# `_evict_if_over_cap` on paths

The cache directory as the eviction sees it: the rows of the `repos` table with the path each
of them names, and the files of the file system. The cache of `PrReviewer.Model.Cache`, whose
rows have no paths, is a view of it.
-/

set_option autoImplicit false

namespace PrReviewer.Model

open PrReviewer.Library (sortedBy)

/-- `CachedRepo`, a row of the `repos` table with its path. -/
structure CachedDir where
  owner : String
  repo : String
  path : String
  lastUsed : Int
  deriving DecidableEq, Repr

/-- The repository of the checkout. -/
def CachedDir.key (e : CachedDir) : String :=
  repoKey e.owner e.repo

/-- What is at a path that is not a directory. -/
inductive FileNode
  | regular (bytes : Nat)
  /-- a symbolic link and the path it leads to -/
  | link (target : String)
  deriving DecidableEq, Repr

/-- The path is in the tree of the directory. -/
def inTree (dir path : String) : Bool :=
  (dir ++ "/").toList.isPrefixOf path.toList

/-- The cache root, the `repos` table and the files. -/
@[ext] structure DirCache where
  root : String
  /-- the `repos` table; rows of one `last_used` are read in this order -/
  repos : List CachedDir
  /-- `key TEXT PRIMARY KEY` -/
  keys_nodup : (repos.map CachedDir.key).Nodup
  files : List (String × FileNode)
  deriving DecidableEq

namespace DirCache

/-- The links the system follows in one path; with one more it fails with `ELOOP`. -/
def maxLinks : Nat := 40

/-- The size of the file a path leads to, over at most so many links. -/
def bytesVia (files : List (String × FileNode)) : Nat → String → Option Nat
  | left, path =>
    match files.lookup path with
    | some (.regular bytes) => some bytes
    | some (.link target) =>
      match left with
      | 0 => none
      | left + 1 => bytesVia files left target
    | none => none

/-- `os.path.getsize(p)` if `p.is_file()`; both follow links to the end, and a chain that is too
long or that leads nowhere is no file. -/
def bytesAt (files : List (String × FileNode)) (path : String) : Option Nat :=
  bytesVia files maxLinks path

example : bytesAt [("a", .link "b"), ("b", .link "c"), ("c", .regular 7), ("d", .link "d")] "a" =
    some 7 := by decide +kernel

/-- `sum(os.path.getsize(p) for p in self._cache_root.rglob("*") if p.is_file())` -/
def usage (c : DirCache) : Nat :=
  ((c.files.filter fun f => inTree c.root f.1).map fun f => (bytesAt c.files f.1).getD 0).sum

/-- `shutil.rmtree` -/
def rmtree (c : DirCache) (path : String) : DirCache :=
  { c with files := c.files.filter fun f => !inTree path f.1 }

/-- `remove_repo` -/
def removeRepo (c : DirCache) (key : String) : DirCache where
  root := c.root
  repos := c.repos.filter fun e => e.key != key
  keys_nodup := c.keys_nodup.sublist (List.filter_sublist.map _)
  files := c.files

/-- `list_repos`, `SELECT ... ORDER BY last_used ASC` -/
def listRepos (c : DirCache) : List CachedDir :=
  sortedBy CachedDir.lastUsed c.repos

/-- `sorted(self._state.list_repos(), key=lambda r: r.last_used)` -/
def lruOrder (c : DirCache) : List CachedDir :=
  sortedBy CachedDir.lastUsed c.listRepos

/-- The loop of `_evict_if_over_cap`. -/
def evictLoop (cap : Int) (keep : String) : DirCache → List CachedDir → DirCache
  | c, [] => c
  | c, e :: rest =>
    if e.path = keep then evictLoop cap keep c rest
    else
      let c := (c.rmtree e.path).removeRepo e.key
      if (c.usage : Int) ≤ cap then c else evictLoop cap keep c rest

/-- `_evict_if_over_cap(keep)` -/
def evictIfOverCap (c : DirCache) (cap : Int) (keep : String) : DirCache :=
  if (c.usage : Int) ≤ cap then c else c.evictLoop cap keep c.lruOrder

end DirCache

end PrReviewer.Model
