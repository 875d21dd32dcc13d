/-
Lists of attributes.

An attribute is a name with a value in double quotes, in single quotes or without quotes, or a name
alone, whose value is the empty text. What does not read as an attribute is passed over, so any text
has a list of attributes. Names count without regard to case.
-/
import Cfml.Keyed
import Cfml.Source.Stretch

set_option autoImplicit false

namespace Cfml

/-- An attribute: its name in lower case, its value and where the value stands. -/
structure Attribute where
  name : List Char
  value : List Char
  span : Span

namespace Attribute

/-- A character that can begin the name of an attribute. -/
def isNameStart (c : Char) : Bool := c == '_' || isAsciiLetter c

/-- A character that can stand inside the name of an attribute. -/
def isNamePart (c : Char) : Bool := isWord c || c == ':' || c == '.' || c == '-'

/-- A character of a value without quotes. -/
def isBare (c : Char) : Bool :=
  !isBlank c && !isQuote c && c != '>' && c != '{' && c != ';'
where
  isQuote (c : Char) : Bool := c == '"' || c == '\''

/-- Reads a value in the given quotes. -/
def quotedValue? (quote : Char) (r : Reader) : Option (Capture × Reader) := do
  let (value, r) := (← r.one? (· == quote)).takeWhile (· != quote)
  return (value, ← r.one? (· == quote))

/-- Reads an equals sign and a value. -/
def value? (r : Reader) : Option (Capture × Reader) := do
  let r := (← r.blanks.one? (· == '=')).blanks
  quotedValue? '"' r <|> quotedValue? '\'' r <|> r.name? isBare isBare

/-- Reads an attribute: its name, and its value if it has one. -/
def pattern? (r : Reader) : Option ((Capture × Option Capture) × Reader) := do
  if r.isAfter isNamePart then none
  else
    let (name, r) ← r.name? isNameStart isNamePart
    match value? r with
    | some (value, r) => some ((name, some value), r)
    | none => some ((name, none), r)

variable {r later : Reader} {value : Capture}

theorem quotedValue?_reaches {quote : Char} (h : quotedValue? quote r = some (value, later)) :
    r.Reaches later := by
  simp only [quotedValue?, Option.bind_eq_bind, Option.bind_eq_some_iff] at h
  obtain ⟨inside, hopen, behind, hclose, heq⟩ := h
  obtain ⟨-, rfl⟩ := by simpa using heq
  exact ((Reader.one?_reaches hopen).trans (inside.takeWhile_reaches (· != quote))).trans
    (Reader.one?_reaches hclose)

theorem value?_reaches (h : value? r = some (value, later)) : r.Reaches later := by
  simp only [value?, Option.bind_eq_bind, Option.bind_eq_some_iff] at h
  obtain ⟨sign, hsign, hvalue⟩ := h
  refine (r.blanks_reaches.trans (Reader.one?_reaches hsign)).trans
    (sign.blanks_reaches.trans ?_)
  rcases Reader.eq_some_of_orElse hvalue with hdouble | hvalue
  · exact quotedValue?_reaches hdouble
  · rcases Reader.eq_some_of_orElse hvalue with hsingle | hbare
    · exact quotedValue?_reaches hsingle
    · exact Reader.name?_reaches hbare

/-- The pattern of an attribute. -/
def pattern : Pattern (Capture × Option Capture) where
  read := pattern?
  forward h := by
    unfold pattern? at h
    split at h
    · exact absurd h (by simp)
    · simp only [Option.bind_eq_bind, Option.bind_eq_some_iff, Prod.exists] at h
      obtain ⟨_, behindName, hname, hvalue⟩ := h
      refine (Reader.name?_reaches hname).trans ?_
      split at hvalue
      · next hread =>
        obtain ⟨-, rfl⟩ := by simpa using hvalue
        exact value?_reaches hread
      · obtain ⟨-, rfl⟩ := by simpa using hvalue
        exact .refl _

end Attribute

/-- The attributes within a span of the source by name, the last one of each name. Where a list of
names is given, only those are kept. -/
def Source.attributes (src : Source) (within : Option Span) (allowed : Option (List (List Char))) :
    Keyed Attribute :=
  let allowed := allowed.map (·.map lower)
  let found := (src.occurrencesIn within Attribute.pattern).filterMap fun found =>
    let (name, value) := found.value
    let key := lower name.text
    if (allowed.map (·.contains key)).getD true then
      let value := value.getD ⟨name.stop, []⟩
      some (key, { name := key, value := value.text, span := src.spanOf value.stretch })
    else none
  Keyed.insertAll [] found

/-- The value of an attribute, if the list has it and it is not empty. -/
def Keyed.value? (key : String) (attributes : Keyed Attribute) : Option (List Char) :=
  (attributes.find? key.toList).bind fun a => if a.value.isEmpty then none else some a.value

end Cfml
