/-
What the analysis notes while it works.

Notes are values; whoever wants to see them renders them as log lines, each with the name of the
part that made the note.
-/
import Cfml.Path

set_option autoImplicit false

namespace Cfml

/-- A note of the analysis. -/
inductive Event where
  /-- A dot path was answered from the cache. -/
  | cacheHit (dotPath : List Char) (base : Path) (target : Option Path)
  /-- A dot path was looked up in the file system. -/
  | resolved (dotPath : List Char) (base : Path) (target : Option Path)
  /-- A source turned out to declare nothing. -/
  | noDeclaration (path : Option Path)
  /-- A component or an interface was read. -/
  | parsed (keyword name : List Char) (functions unresolved : Nat)
deriving DecidableEq, Repr

namespace Event

/-- The path as written, or `absent` for no path. -/
def shown (absent : String) (path : Option Path) : String :=
  (path.map fun p => String.ofList p.text).getD absent

/-- The note as a log line. -/
def line : Event → String
  | .cacheHit dotPath base target =>
    "cfmlscan.resolver: cache hit for " ++ String.ofList dotPath ++ " from " ++
      String.ofList base.text ++ ": " ++ shown "None" target
  | .resolved dotPath base target =>
    "cfmlscan.resolver: resolved " ++ String.ofList dotPath ++ " from " ++
      String.ofList base.text ++ ": " ++ shown "None" target
  | .noDeclaration path =>
    "cfmlscan.component: no component declaration in " ++ shown "<memory>" path
  | .parsed keyword name functions unresolved =>
    "cfmlscan.component: parsed " ++ String.ofList keyword ++ " " ++
      (if name.isEmpty then "<memory>" else String.ofList name) ++ ": " ++ toString functions ++
      " functions, " ++ toString unresolved ++ " unresolved references"

end Event

end Cfml
