/-
File paths as written.

A path has a root (nothing, one slash, or exactly two) and parts. Repeated slashes and `.` parts are
dropped on reading; `..` parts are kept, because where they lead depends on the file system.
-/
import Cfml.Text.LowerCase

set_option autoImplicit false

namespace Cfml

/-- What an absolute path begins with. -/
inductive PathRoot where
  /-- The path is relative. -/
  | none
  /-- The path begins with one slash, or with three or more. -/
  | single
  /-- The path begins with exactly two slashes. -/
  | double
deriving DecidableEq, Repr

namespace PathRoot

/-- The root as written. -/
def text : PathRoot → List Char
  | .none => []
  | .single => ['/']
  | .double => ['/', '/']

end PathRoot

/-- A path as written: its root and its parts. -/
structure Path where
  root : PathRoot
  parts : List (List Char)
deriving DecidableEq, Repr

/-- Cuts a text at each `separator`. -/
def splitOn (separator : Char) : List Char → List (List Char)
  | [] => [[]]
  | c :: rest =>
    if c == separator then [] :: splitOn separator rest
    else
      match splitOn separator rest with
      | [] => [[c]]
      | first :: others => (c :: first) :: others

namespace Path

/-- The parts that a text between slashes stands for. -/
def partsOf (text : List Char) : List (List Char) :=
  (splitOn '/' text).filter fun part => !part.isEmpty && part != ['.']

/-- The root that a text begins with. -/
def rootOf : List Char → PathRoot
  | '/' :: '/' :: '/' :: _ => .single
  | '/' :: '/' :: _ => .double
  | '/' :: _ => .single
  | _ => .none

/-- Reads a path. -/
def ofText (text : List Char) : Path := ⟨rootOf text, partsOf text⟩

/-- The path `.`, which names the current directory. -/
def here : Path := ⟨.none, []⟩

def isAbsolute (p : Path) : Bool := p.root != .none

/-- The path as written: an empty one is a dot. -/
def text (p : Path) : List Char :=
  if p.root == .none && p.parts.isEmpty then ['.']
  else p.root.text ++ ['/'].intercalate p.parts

/-- The path `q` as seen from `p`: an absolute one is itself. -/
def append (p q : Path) : Path := if q.isAbsolute then q else ⟨p.root, p.parts ++ q.parts⟩

instance : Append Path := ⟨append⟩

/-- The directory that holds the path. A path without parts is its own. -/
def parent (p : Path) : Path := ⟨p.root, p.parts.dropLast⟩

/-- The last part, or nothing. -/
def name (p : Path) : List Char := p.parts.getLastD []

/-- Everything that the path is under: the root, if any, and the parts. -/
def steps (p : Path) : List (List Char) :=
  if p.isAbsolute then p.root.text :: p.parts else p.parts

/-- Whether `q` is `p` or a directory above it, by what is written. -/
def isUnder (p q : Path) : Bool := p.root == q.root && q.parts.isPrefixOf p.parts

/-- Whether the null character is in the path. No system takes such a path. -/
def hasNull (p : Path) : Bool := p.parts.any fun part => part.contains '\x00'

/-! ## Suffixes -/

/-- A name cut into what comes before its last dot and what comes from there on. A dot at either end
of the name cuts off nothing. -/
def splitName (name : List Char) : List Char × List Char :=
  let suffix := name.reverse.takeWhile (· != '.')
  let stem := (name.reverse.drop (suffix.length + 1)).reverse
  if suffix.isEmpty || stem.isEmpty || !name.contains '.' then (name, [])
  else (stem, '.' :: suffix.reverse)

/-- The last part without its suffix. -/
def stem (p : Path) : List Char := (splitName p.name).1

/-- The suffix of the last part with its dot, or nothing. -/
def suffix (p : Path) : List Char := (splitName p.name).2

/-- The path with its suffix replaced, unless it has no last part. -/
def withSuffix? (p : Path) (suffix : List Char) : Option Path :=
  if p.name.isEmpty then none else some ⟨p.root, p.parts.dropLast ++ [p.stem ++ suffix]⟩

/-- Whether the suffix is one of the given ones in any case. -/
def hasSuffix (p : Path) (suffixes : List String) : Bool :=
  suffixes.any fun s => lower p.suffix == s.toList

/-- Whether the path is that of a template. -/
def isTemplate (p : Path) : Bool := p.hasSuffix [".cfm", ".cfml"]

/-- Whether the path is that of a component. -/
def isComponent (p : Path) : Bool := p.hasSuffix [".cfc"]

/-! ## Resolution by what is written -/

/-- The parts with each `..` undone against the part before it; above the root there is nothing to
undo. -/
def undoParents (parts : List (List Char)) : List (List Char) :=
  (parts.foldl undo []).reverse
where
  undo (done : List (List Char)) (part : List Char) : List (List Char) :=
    if part == ['.', '.'] then done.drop 1 else part :: done

/-- The absolute path without `..` that the path names from the directory `base`. -/
def resolveFrom (base p : Path) : Path := ⟨.single, undoParents (base ++ p).parts⟩

end Path

end Cfml
