/-
Regions of a source, and sets of spans.

Script is embedded in tag markup by `<cfscript>`, and script has no way to embed markup, so regions
of the other dialect are one level deep. The sets of spans here are plain lists; the functions say
which ones need them sorted.
-/
import Cfml.Comment.Form
import Cfml.Tag

set_option autoImplicit false

namespace Cfml

namespace Source

/-- The bodies of the `<cfscript>` pairs that are not empty. -/
def cfscriptSpans (src : Source) (within : Option Span) : List Span :=
  ((src.tags "cfscript".toList within).map Tag.body).filter (!·.isEmpty)

/-- The bodies of the `<script>` pairs. -/
def javascriptSpans (src : Source) (within : Option Span) : List Span :=
  (src.tags "script".toList within).map Tag.body

/-- The bodies of the `<cfoutput>` pairs. -/
def cfoutputSpans (src : Source) (within : Option Span) : List Span :=
  (src.tags "cfoutput".toList within).map Tag.body

/-- Whether the position is in script that is embedded in markup. -/
def inCfscript (src : Source) (p : Position) : Bool :=
  (src.cfscriptSpans none).any (·.hasPosition p)

/-- Whether the position is in a `<script>` pair. -/
def inJavascript (src : Source) (p : Position) : Bool :=
  (src.javascriptSpans none).any (·.hasPosition p)

/-- Whether the position is in a `<cfoutput>` pair. -/
def inCfoutput (src : Source) (p : Position) : Bool :=
  (src.cfoutputSpans none).any (·.hasPosition p)

/-- The regions of the other dialect within a region of `dialect`. -/
def embeddedSpans (src : Source) (within : Option Span) : Dialect → List Span
  | .script => []
  | .tag => src.cfscriptSpans within

end Source

/-! ## Sets of spans -/

namespace Spans

/-- Whether some span of the list holds the position. -/
def hasPosition (spans : List Span) (p : Position) : Bool := spans.any (·.hasPosition p)

/-- Whether some span of the list covers the span. -/
def covers (spans : List Span) (s : Span) : Bool := spans.any (·.covers s)

/-- Drops every span that starts before the end of the last one kept. -/
def keepApart : (last : Option Span) → List Span → List Span
  | _, [] => []
  | none, s :: rest => s :: keepApart (some s) rest
  | some last, s :: rest =>
    if s.start < last.stop then keepApart (some last) rest else s :: keepApart (some s) rest

/-- The spans sorted, without those that overlap an earlier one that is kept. -/
def normalize (spans : List Span) : List Span := keepApart none (spans.mergeSort Span.notAfter)

/-- The spans between `reached` and the end of the source that none of the spans covers. The spans
have to be sorted by their start. -/
def gaps (src : Source) (reached : Position) : List Span → List Span
  | [] =>
    if h : reached < src.stop then [⟨reached, src.stop, Position.le_of_lt h⟩] else []
  | s :: rest =>
    let after := gaps src (reached.max s.stop) rest
    if h : reached < s.start then ⟨reached, s.start, Position.le_of_lt h⟩ :: after else after

end Spans

namespace Source

/-- The spans of the source that none of the given ones covers, which have to be sorted. -/
def uncovered (src : Source) (spans : List Span) : List Span := Spans.gaps src ⟨0, 0⟩ spans

end Source

end Cfml
