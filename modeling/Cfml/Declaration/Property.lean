/-
Property declarations.

In script a property is the word `property` and what follows up to a semicolon; in tag markup it is
a `<cfproperty>` tag. What follows is a list of attributes, or, when it has no equals sign, a name
with an optional type before it. A declaration that yields no name is passed over.
-/
import Cfml.Attribute
import Cfml.Comment.Spans
import Cfml.Declaration.Function

set_option autoImplicit false

namespace Cfml

/-- A property that is declared in a source. -/
structure PropertyDecl where
  name : List Char
  dataType : List Char
  default : Option (List Char)
  hint : List Char
  hasGetter : Bool
  hasSetter : Bool
  nameSpan : Span
  span : Span

namespace PropertyDecl

/-! ## Finding declarations -/

/-- Reads a declaration in script, and gives what stands between the word and the semicolon without
the white space around it. -/
def script? (r : Reader) : Option (Capture × Reader) := do
  if r.isAfter fun c => isIdentifierPart c || c == '.' then none
  else
    let (_, r) ← FunctionDecl.modifier? "property".toList r
    let (body, behind) := r.takeWhile fun c => c != ';' && c != '{' && c != '}'
    return (⟨body.start, trimRight body.text⟩, ← behind.one? (· == ';'))

/-- Reads a declaration in tag markup, and gives what stands in the tag behind its name. -/
def tag? (r : Reader) : Option (Capture × Reader) := do
  let (body, r) := (← Tag.opening? "cfproperty".toList r).takeWhile (· != '>')
  return (body, ← r.one? (· == '>'))

variable {r later : Reader} {body : Capture}

theorem script?_reaches (h : script? r = some (body, later)) : r.Reaches later := by
  unfold script? at h
  split at h
  · exact absurd h (by simp)
  · simp only [Option.bind_eq_bind, Option.bind_eq_some_iff, Prod.exists] at h
    obtain ⟨_, inside, hword, _, hclose, heq⟩ := h
    obtain ⟨-, rfl⟩ := by simpa using heq
    exact ((FunctionDecl.modifier?_reaches hword).trans (inside.takeWhile_reaches _)).trans
      (Reader.one?_reaches hclose)

theorem tag?_reaches (h : tag? r = some (body, later)) : r.Reaches later := by
  simp only [tag?, Option.bind_eq_bind, Option.bind_eq_some_iff] at h
  obtain ⟨inside, hopening, _, hclose, heq⟩ := h
  obtain ⟨-, rfl⟩ := by simpa using heq
  exact ((Tag.opening?_reaches hopening).trans (inside.takeWhile_reaches _)).trans
    (Reader.one?_reaches hclose)

/-- The patterns of a declaration: in script, and in tag markup. -/
def patterns : List (Pattern Capture) := [⟨script?, script?_reaches⟩, ⟨tag?, tag?_reaches⟩]

/-! ## Reading what was found -/

/-- Reads a name that is all that is left. -/
def lastName? (r : Reader) : Option Capture := do
  let (name, r) ← r.name? isIdentifierStart isIdentifierPart
  if r.ahead.isEmpty then some name else none

/-- Reads a type, perhaps of an array, and the white space that has to follow it. -/
def type? (r : Reader) : Option (List Char × Reader) := do
  let (_, behind) ← r.name? Attribute.isNameStart (fun c => isWord c || c == '.')
  let behind := (behind.literal? ['[', ']']).getD behind
  return ((r.upTo behind).text, ← behind.some? isBlank)

/-- A name with an optional type before it. -/
def shorthand? (body : Capture) : Option (Option (List Char) × Capture) :=
  let r := (Reader.ofText body.text body.start).blanks
  let r := { r with ahead := trimRight r.ahead }
  let typed := do
    let (type, r) ← type? r
    return (some type, ← lastName? r)
  typed <|> (lastName? r).map fun name => (none, name)

/-- The attributes of a property that count. -/
def attributeNames : List (List Char) :=
  ["name".toList, "type".toList, "default".toList, "hint".toList, "getter".toList, "setter".toList]

/-- The property that has the given attributes, if they have a name. -/
def ofAttributes? (attributes : Keyed Attribute) (span : Span) : Option PropertyDecl := do
  let value? (key : String) := (attributes.find? key.toList).map Attribute.value
  let flag (key : String) := ((value? key).map isTruthy).getD true
  let name ← attributes.find? "name".toList
  if name.value.isEmpty then none
  else
    some
      { name := name.value
        dataType := (value? "type").getD "any".toList
        default := value? "default"
        hint := (value? "hint").getD []
        hasGetter := flag "getter"
        hasSetter := flag "setter"
        nameSpan := name.span
        span := span }

/-- The property that a declaration found in the source declares. -/
def ofFound? (src : Source) (found : Occurrence Capture) : Option PropertyDecl :=
  let body := found.value
  let span := src.spanOf found.stretch
  if body.text.contains '=' then
    ofAttributes? (src.attributes (some (src.spanOf body.stretch)) (some attributeNames)) span
  else
    (shorthand? body).map fun (type, name) =>
      { name := name.text
        dataType := type.getD "any".toList
        default := none
        hint := []
        hasGetter := true
        hasSetter := true
        nameSpan := src.spanOf name.stretch
        span := span }

end PropertyDecl

/-- The properties of a source that is written in `dialect`, by name in lower case. Of several with
one name the last one in script counts, or the last one in tag markup if there is one. -/
def Source.properties (src : Source) (dialect : Dialect) : Keyed PropertyDecl :=
  let clean := src.withoutComments dialect false
  let found := PropertyDecl.patterns.flatMap (clean.occurrencesIn none)
  let declared := found.filterMap (PropertyDecl.ofFound? clean)
  Keyed.insertAll [] (declared.map fun p => (lower p.name, p))

end Cfml
