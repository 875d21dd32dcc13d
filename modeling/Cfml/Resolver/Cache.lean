/-
The cache of resolved dot paths.

An answer is kept under the dot path, the directory of the file that refers to it and the workspace
root of that file. "Not found" is an answer too. The cache does not watch files; who does tells it
which answers to drop.
-/
import Cfml.Resolver.DotPath

set_option autoImplicit false

namespace Cfml

/-- What an answer depends on besides the files. -/
structure Lookup where
  dotPath : List Char
  base : Path
  root : Option Path
deriving DecidableEq, Repr

/-- Answers by what they depend on, in the order in which the lookups were first answered. -/
structure PathCache where
  entries : List (Lookup × Option Path)
deriving DecidableEq, Repr

namespace PathCache

/-- The cache without answers. -/
def empty : PathCache := ⟨[]⟩

/-- The number of answers. -/
def size (cache : PathCache) : Nat := cache.entries.length

/-- The answer to a lookup, if there is one. -/
def find? (cache : PathCache) (key : Lookup) : Option (Option Path) := cache.entries.lookup key

/-- Keeps an answer, in place of an earlier one to the same lookup. -/
def store (cache : PathCache) (key : Lookup) (target : Option Path) : PathCache :=
  ⟨put cache.entries⟩
where
  put : List (Lookup × Option Path) → List (Lookup × Option Path)
    | [] => [(key, target)]
    | entry :: rest => if entry.1 == key then (key, target) :: rest else entry :: put rest

/-- Drops the answers for files in the directory of a file that has changed. -/
def invalidateReferencing (cache : PathCache) (path : Path) : PathCache :=
  ⟨cache.entries.filter fun entry => entry.1.base != path.parent⟩

/-- Whether the creation or deletion of a file may change an answer. It may if nothing was found, if
that file was found, or if the dot path could name that file from some directory: a new file then
hides the one that was found. -/
def isAffected (target : Path) (entry : Lookup × Option Path) : Except EmptyName Bool :=
  if entry.2.isNone || entry.2 == some target then .ok true
  else DotPath.couldName entry.1.dotPath target

/-- Drops the answers that the creation or deletion of a file may change. -/
def invalidateTarget (cache : PathCache) (target : Path) : Except EmptyName PathCache := do
  let kept ← cache.entries.filterM fun entry => return !(← isAffected target entry)
  return ⟨kept⟩

end PathCache

end Cfml
