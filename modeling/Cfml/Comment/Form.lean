/-
The two dialects of a source, and the comments of each.

Tag markup has one form of comment; script has two, one that ends with its line and one that ends
with a delimiter.
-/

set_option autoImplicit false

namespace Cfml

/-- How a stretch of source is written. -/
inductive Dialect where
  | script
  | tag
deriving DecidableEq, Repr

/-- The dialect in a word. -/
def Dialect.name : Dialect → String
  | .script => "script"
  | .tag => "tag"

/-- What ends a comment. -/
inductive CommentKind where
  /-- The end of the line. -/
  | line
  /-- The closing delimiter. -/
  | block
deriving DecidableEq, Repr

/-- A form of comment: its kind and its delimiters. -/
structure CommentForm where
  kind : CommentKind
  opener : List Char
  closer : List Char
deriving DecidableEq, Repr

namespace CommentForm

/-- A script comment to the end of the line. -/
def scriptLine : CommentForm := ⟨.line, ['/', '/'], []⟩

/-- A script comment between delimiters. -/
def scriptBlock : CommentForm := ⟨.block, ['/', '*'], ['*', '/']⟩

/-- A tag comment. -/
def tagBlock : CommentForm := ⟨.block, ['<', '!', '-', '-', '-'], ['-', '-', '-', '>']⟩

end CommentForm

/-- The forms of comment in a dialect, in the order in which they are tried. -/
def Dialect.comments : Dialect → List CommentForm
  | .script => [.scriptLine, .scriptBlock]
  | .tag => [.tagBlock]

end Cfml
