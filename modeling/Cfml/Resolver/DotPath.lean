/-
Dot paths.

A component is named by segments between dots, of which the last one is its own name. The segments
are the parts of a relative file path.
-/
import Cfml.Path
import Cfml.Text.Blank

set_option autoImplicit false

namespace Cfml

/-- A path that has no last part whose suffix could be replaced. -/
structure EmptyName where
  path : Path
deriving DecidableEq, Repr

/-- What is wrong with the path, in words. -/
def EmptyName.message (e : EmptyName) : String :=
  "PosixPath('" ++ String.ofList e.path.text ++ "') has an empty name"

namespace DotPath

/-- The suffix of component files. -/
def componentSuffix : List Char := ".cfc".toList

/-- The segments of a dot path. -/
def segments (dotPath : List Char) : List (List Char) := splitOn '.' dotPath

/-- The last segment of a dot path. -/
def lastSegment (dotPath : List Char) : List Char := (segments dotPath).getLastD []

/-- The file path that the segments stand for, before it gets its suffix. -/
def segmentPath (dotPath : List Char) : Path :=
  (segments dotPath).foldl (fun path segment => path ++ Path.ofText segment) Path.here

/-- The path of the file that a dot path names, relative to some directory. -/
def relativeFile (dotPath : List Char) : Except EmptyName Path :=
  let path := segmentPath dotPath
  match path.withSuffix? componentSuffix with
  | none => .error ⟨path⟩
  | some file => .ok file

/-- Whether the dot path could name the file from some directory. -/
def couldName (dotPath : List Char) (target : Path) : Except EmptyName Bool := do
  let file ← relativeFile dotPath
  return file.steps.isSuffixOf target.steps

end DotPath

end Cfml
