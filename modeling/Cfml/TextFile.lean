/-
Text files.

A text file is UTF-8. However its lines end, each is read as if it ended in a line feed. A byte
order mark is a character like any other.
-/
import Cfml.FileTree
import Cfml.Text.Utf8

set_option autoImplicit false

namespace Cfml

/-- Why a file cannot be read as text. -/
inductive ReadError where
  | file (error : FileError)
  | encoding (error : Utf8.DecodeError)
deriving DecidableEq, Repr

/-- The error in words. -/
def ReadError.message : ReadError → String
  | .file e => e.message
  | .encoding e => e.message

/-- The text with a line feed for each line ending. -/
def unifyLineEnds : List Char → List Char
  | [] => []
  | '\r' :: '\n' :: rest => '\n' :: unifyLineEnds rest
  | c :: rest => (if c == '\r' then '\n' else c) :: unifyLineEnds rest

namespace FileTree

/-- The text of a file, with its bytes as they are. -/
def decode (tree : FileTree) (base p : Path) : Except ReadError (List Char) := do
  let bytes ← (tree.read base p).mapError .file
  (Utf8.decode bytes).mapError .encoding

/-- The text of a file, line by line. -/
def readText (tree : FileTree) (base p : Path) : Except ReadError (List Char) :=
  (tree.decode base p).map unifyLineEnds

end FileTree

end Cfml
