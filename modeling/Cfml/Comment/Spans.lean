/-
The comments of a source.

In tag markup the bodies of `<cfscript>` are read as script: a tag comment inside such a body is no
comment, and a body inside a tag comment is not read. There are two ways to look. The accurate one
follows strings (`scanComments`); the fast one looks for delimiters and takes what it finds in a
string for a comment. Either way comments that overlap an earlier one are dropped.
-/
import Cfml.Comment.Scan
import Cfml.Region

set_option autoImplicit false

namespace Cfml

/-! ## The fast way -/

namespace CommentPattern

/-- Reads a script comment to the end of the line. -/
def scriptLine? (r : Reader) : Option Reader := do
  let r ← r.literal? ['/', '/']
  return r.skipWhile (!isLineBreak ·)

/-- Reads a comment between delimiters. -/
def block? (opener closer : List Char) (r : Reader) : Option Reader := do
  let (_, r) ← (← r.literal? opener).through? (.literal closer)
  return r

variable {r later : Reader}

theorem scriptLine?_reaches (h : scriptLine? r = some later) : r.Reaches later := by
  simp only [scriptLine?, Option.bind_eq_bind, Option.bind_eq_some_iff] at h
  obtain ⟨inside, hopener, heq⟩ := h
  obtain rfl := Option.some.inj heq
  exact (Reader.literal?_reaches hopener).trans (inside.skipWhile_reaches _)

theorem block?_reaches {opener closer : List Char} (h : block? opener closer r = some later) :
    r.Reaches later := by
  simp only [block?, Option.bind_eq_bind, Option.bind_eq_some_iff, Prod.exists] at h
  obtain ⟨inside, hopener, _, _, hthrough, heq⟩ := h
  obtain rfl := Option.some.inj heq
  exact (Reader.literal?_reaches hopener).trans (Reader.through?_reaches hthrough)

/-- The patterns that are looked for in a dialect. A comment of tag markup may here be written with
two dashes. -/
def ofDialect : Dialect → List (Pattern Unit)
  | .script =>
    [.plain (block? ['/', '*'] ['*', '/']) block?_reaches, .plain scriptLine? scriptLine?_reaches]
  | .tag => [.plain (block? ['<', '!', '-', '-'] ['-', '-', '>']) block?_reaches]

end CommentPattern

namespace Source

/-- The comments of a dialect that the patterns find in a region, embedded regions not looked at. -/
def matchedComments (src : Source) (dialect : Dialect) (within : Option Span) : List Span :=
  (CommentPattern.ofDialect dialect).flatMap fun pattern =>
    (src.occurrencesIn within pattern).map fun found => src.spanOf found.stretch

/-- The comments that the patterns find in a region and in the regions embedded in it. -/
def commentsFast (src : Source) (dialect : Dialect) (within : Option Span) : List Span :=
  src.matchedComments dialect within ++
    (src.embeddedSpans within dialect).flatMap fun inner => src.matchedComments .script (some inner)

/-! ## The accurate way -/

/-- The comments of a dialect that the scan finds in a region, embedded regions not looked at. -/
def scannedComments (src : Source) (dialect : Dialect) (within : Option Span) : List Span :=
  let (start, stop) := src.bounds within
  (scanComments dialect start (src.slice start stop)).map src.spanOf

/-- The comments that the scan finds in a region and in the regions embedded in it, each read in its
own dialect. -/
def commentsAccurate (src : Source) (dialect : Dialect) (within : Option Span) : List Span :=
  let embedded := src.embeddedSpans within dialect
  let own := (src.scannedComments dialect within).filter (!Spans.covers embedded ·)
  own ++ (embedded.filter (!Spans.covers own ·)).flatMap fun inner =>
    src.scannedComments .script (some inner)

/-! ## Comments of a source -/

/-- The comments of a source or of a span of it, sorted and apart from each other. -/
def comments (src : Source) (dialect : Dialect) (within : Option Span) (fast : Bool) : List Span :=
  Spans.normalize
    (if fast then src.commentsFast dialect within else src.commentsAccurate dialect within)

/-- Whether the position is in a comment. -/
def inComment (src : Source) (dialect : Dialect) (p : Position) : Bool :=
  Spans.hasPosition (src.comments dialect none false) p

/-- The text, which begins at the offset `offset`, with a space for every character in one of the
stretches. Line breaks stay. -/
def blankOut (stretches : List Stretch) (offset : Nat) : List Char → List Char
  | [] => []
  | c :: rest =>
    (if !isLineBreak c && stretches.any (·.holds offset) then ' ' else c) ::
      blankOut stretches (offset + 1) rest

/-- **The source with its comments blanked out.** It has the same length and the same lines, so an
offset or a position in one is the same place in the other. -/
def withoutComments (src : Source) (dialect : Dialect) (fast : Bool) : Source :=
  let comments := (src.comments dialect none fast).map src.stretchOf
  Source.ofText (blankOut comments 0 src.text) src.path

end Source

end Cfml
