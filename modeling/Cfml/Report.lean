/-
Reports of comments and of components, as lines for people and as JSON.

For people, lines and characters are counted from one; in JSON they are counted from zero. Text of
the source is shown in quotes.
-/
import Cfml.Component.Basic
import Cfml.Json.Value

set_option autoImplicit false

namespace Cfml.Report

/-- A text as a string. -/
def str (text : List Char) : String := String.ofList text

/-- Lines, each with its ending. -/
def ofLines (lines : List String) : String := String.join (lines.map (· ++ "\n"))

/-- A JSON document on lines of its own. -/
def ofValue (value : Json.Value) : String := value.render ++ "\n"

/-! ## Places -/

/-- A place, counted from one. -/
def place (p : Position) : String := toString (p.line + 1) ++ ":" ++ toString (p.character + 1)

/-- A span, counted from one. -/
def span (s : Span) : String := place s.start ++ "-" ++ place s.stop

/-- A place as JSON. -/
def placeValue (p : Position) : Json.Value :=
  .object [("line", .number p.line), ("character", .number p.character)]

/-- A span as JSON. -/
def spanValue (s : Span) : Json.Value :=
  .object [("start", placeValue s.start), ("end", placeValue s.stop)]

/-! ## Comments -/

/-- Comments, one on a line. -/
def comments (src : Source) (spans : List Span) : String :=
  ofLines (spans.map fun s => span s ++ "\t" ++ str (quoted (src.textOf s)))

/-- Comments as JSON. -/
def commentsValue (spans : List Span) : Json.Value := .array (spans.map spanValue)

/-! ## Components -/

/-- The file that a reference was found to name. -/
def target (r : Reference) : List Char := (r.target.map Path.text).getD []

/-- What a reference names and where it was found. -/
def found (label : String) (r : Reference) : String :=
  label ++ " " ++ str r.dotPath ++ " -> " ++ str (target r)

/-- A component, one part on a line. -/
def component (c : Component) : String :=
  let kind := if c.isInterface then "interface" else "component"
  ofLines (
    [kind ++ " " ++ str c.name ++ " (" ++ c.dialect.name ++ ")"] ++
    c.extending.toList.map (found "extends") ++
    c.implementing.map (found "implements") ++
    c.unresolved.map (fun r => "unresolved " ++ str r.dotPath ++ " at " ++ span r.span) ++
    c.functions.map (fun (key, _) => "function " ++ str key) ++
    c.properties.map fun (key, _) => "property " ++ str key)

/-- A text as JSON, or null. -/
def textValue? (text : Option (List Char)) : Json.Value := (text.map .string).getD .null

/-- A component as JSON. -/
def componentValue (c : Component) : Json.Value :=
  let texts (items : List (List Char)) : Json.Value := .array (items.map .string)
  .object [
    ("name", .string c.name),
    ("isScript", .boolean (c.dialect == .script)),
    ("isInterface", .boolean c.isInterface),
    ("declarationRange", spanValue c.declarationSpan),
    ("displayName", .string c.displayName),
    ("hint", .string c.hint),
    ("accessors", .boolean c.hasAccessors),
    ("initMethod", textValue? c.initMethod),
    ("extends", textValue? (c.extending.map target)),
    ("implements", texts (c.implementing.map target)),
    ("unresolved", texts (c.unresolved.map Reference.dotPath)),
    ("functions", texts (c.functions.map fun (_, f) => f.name)),
    ("properties", texts (c.properties.map fun (_, p) => p.name)),
    ("variables", texts (c.assignments.map fun v => v.scope ++ '.' :: v.identifier))]

end Cfml.Report
