/-
Resolving dot paths to component files.

A dot path is looked for next to the file that refers to it, and then under the workspace root of
that file, which is the deepest root that contains it. Answers are cached. A dot path with an empty
segment names nothing, and neither does any dot path in a source that is in no file.
-/
import Cfml.Event
import Cfml.Resolver.Cache

set_option autoImplicit false

namespace Cfml

/-- What is carried from one lookup to the next: the cache, and the notes made, last one first. -/
structure Session where
  cache : PathCache := .empty
  events : List Event := []

/-- A computation that looks up dot paths. It can meet a dot path that stands for a path without a
last part; what was cached before stays cached. -/
abbrev Resolution := ExceptT EmptyName (StateM Session)

/-- Makes a note. -/
def note (event : Event) : Resolution Unit :=
  modify fun session => { session with events := event :: session.events }

/-- The workspace roots that dot paths are looked for under. -/
structure Resolver where
  roots : List Path

namespace Resolver

/-- The deepest root that contains the path, by what is written; the first one of several. -/
def workspaceRoot? (resolver : Resolver) (path : Path) : Option Path :=
  (resolver.roots.filter path.isUnder).foldl deeper none
where
  deeper : Option Path → Path → Option Path
    | none, root => some root
    | some best, root => if best.steps.length < root.steps.length then some root else some best

/-- The files that a dot path can name, in the order in which they are looked for: one next to the
referring file, and one under its root. -/
def candidates (dotPath : List Char) (key : Lookup) : Except EmptyName (List Path) := do
  let file ← DotPath.relativeFile dotPath
  return (key.base ++ file) :: (key.root.map (· ++ file)).toList

/-- Looks for the first file that a dot path can name. -/
def discover (isFile : Path → Bool) (dotPath : List Char) (key : Lookup) :
    Except EmptyName (Option Path) :=
  (candidates dotPath key).map fun files => files.find? isFile

/-- What a dot path in the referring file is looked up under. -/
def lookup (resolver : Resolver) (dotPath : List Char) (referring : Path) : Lookup :=
  ⟨dotPath, referring.parent, resolver.workspaceRoot? referring⟩

/-- What the dot path names as seen from the referring file, answered from the cache if possible. -/
def resolve (isFile : Path → Bool) (resolver : Resolver) (dotPath : List Char)
    (referring : Option Path) : Resolution (Option Path) := do
  let dotPath := trim dotPath
  let some referring := referring | return none
  if (DotPath.segments dotPath).any List.isEmpty then return none
  let key := resolver.lookup dotPath referring
  match (← get).cache.find? key with
  | some target =>
    note (.cacheHit dotPath key.base target)
    return target
  | none =>
    let target ← ExceptT.mk (pure (discover isFile dotPath key))
    modify fun session => { session with cache := session.cache.store key target }
    note (.resolved dotPath key.base target)
    return target

end Resolver

end Cfml
