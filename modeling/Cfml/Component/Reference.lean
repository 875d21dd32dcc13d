/-
References to other components within a source.

Four ways to name a component are recognised: `new`, a call of `createObject`, an attribute
`component`, and a call of `isInstanceOf`. Comments are blanked out before they are looked for.
-/
import Cfml.Comment.Spans
import Cfml.Component.Basic

set_option autoImplicit false

namespace Cfml

namespace ReferencePattern

/-- A character of a dot path. -/
def isDotPathPart (c : Char) : Bool := isIdentifierPart c || c == '.'

/-- Reads a dot path. -/
def dotPath? (r : Reader) : Option (Capture × Reader) := r.name? isDotPathPart isDotPathPart

/-- Reads a text in quotes, with `inside` what stands between them. -/
def inQuotes? {α : Type} (inside : Reader → Option (α × Reader)) (r : Reader) :
    Option (α × Reader) := do
  let quote ← r.ahead.head?
  let (found, r) ← inside (← r.one? isQuote)
  return (found, ← r.one? (· == quote))

/-- Reads a word in any case that begins where a word does. -/
def word? (word : List Char) (r : Reader) : Option Reader :=
  if r.atWordBoundary then r.caseless? word else none

/-- Reads a dot path with or without quotes. -/
def anyDotPath? (r : Reader) : Option (Capture × Reader) :=
  if r.ahead.head?.any isQuote then inQuotes? dotPath? r else dotPath? r

/-- Reads `new`, a dot path with or without quotes, and a parenthesis. -/
def new? (r : Reader) : Option (Capture × Reader) := do
  let r ← (← word? "new".toList r).some? isBlank
  let (path, r) ← anyDotPath? r
  return (path, ← r.blanks.one? (· == '('))

/-- Reads a call of `createObject` for a component up to the dot path. -/
def createObject? (r : Reader) : Option (Capture × Reader) := do
  let r ← word? "createObject".toList r
  let r ← r.blanks.one? (· == '(')
  let (_, r) ← inQuotes? (fun r => (r.caseless? "component".toList).map ((), ·)) r.blanks
  let r ← r.blanks.one? (· == ',')
  inQuotes? dotPath? r.blanks

/-- Reads an attribute `component` with a dot path in quotes. -/
def componentAttribute? (r : Reader) : Option (Capture × Reader) := do
  let r ← word? "component".toList r
  let r ← r.blanks.one? (· == '=')
  inQuotes? dotPath? r.blanks

/-- Reads a call of `isInstanceOf` up to the dot path. -/
def isInstanceOf? (r : Reader) : Option (Capture × Reader) := do
  let r ← word? "isInstanceOf".toList r
  let r ← r.blanks.one? (· == '(')
  let (_, r) ← dotPath? r.blanks
  let r ← r.blanks.one? (· == ',')
  inQuotes? dotPath? r.blanks

variable {r later : Reader} {path : Capture}

theorem inQuotes?_reaches {α : Type} {inside : Reader → Option (α × Reader)} {found : α}
    (hinside : ∀ {r later found}, inside r = some (found, later) → r.Reaches later)
    (h : inQuotes? inside r = some (found, later)) : r.Reaches later := by
  simp only [inQuotes?, Option.bind_eq_bind, Option.bind_eq_some_iff, Prod.exists] at h
  obtain ⟨_, -, _, hopen, _, _, hfound, _, hclose, heq⟩ := h
  obtain ⟨-, rfl⟩ := by simpa using heq
  exact (Reader.one?_reaches hopen).trans ((hinside hfound).trans (Reader.one?_reaches hclose))

theorem word?_reaches {word : List Char} (h : word? word r = some later) : r.Reaches later := by
  unfold word? at h
  split at h
  · exact Reader.caseless?_reaches h
  · exact absurd h (by simp)

theorem quotedDotPath?_reaches (h : inQuotes? dotPath? r = some (path, later)) :
    r.Reaches later := inQuotes?_reaches Reader.name?_reaches h

theorem anyDotPath?_reaches (h : anyDotPath? r = some (path, later)) : r.Reaches later := by
  unfold anyDotPath? at h
  split at h
  · exact quotedDotPath?_reaches h
  · exact Reader.name?_reaches h

theorem new?_reaches (h : new? r = some (path, later)) : r.Reaches later := by
  simp only [new?, Option.bind_eq_bind, Option.bind_eq_some_iff, Prod.exists] at h
  obtain ⟨_, hword, _, hblank, _, behind, hpath, _, hopen, heq⟩ := h
  obtain ⟨-, rfl⟩ := by simpa using heq
  exact ((word?_reaches hword).trans (Reader.some?_reaches hblank)).trans
    ((anyDotPath?_reaches hpath).trans (behind.blanks_reaches.trans (Reader.one?_reaches hopen)))

theorem createObject?_reaches (h : createObject? r = some (path, later)) : r.Reaches later := by
  simp only [createObject?, Option.bind_eq_bind, Option.bind_eq_some_iff, Prod.exists] at h
  obtain ⟨name, hword, arguments, hopen, _, kind, hkind, comma, hcomma, hpath⟩ := h
  have hkind : arguments.blanks.Reaches kind := by
    refine inQuotes?_reaches ?_ hkind
    intro _ _ _ h
    obtain ⟨_, hcaseless, heq⟩ := Option.map_eq_some_iff.mp h
    obtain ⟨-, rfl⟩ := Prod.mk.inj heq
    exact Reader.caseless?_reaches hcaseless
  refine (word?_reaches hword).trans (name.blanks_reaches.trans ((Reader.one?_reaches hopen).trans
    (arguments.blanks_reaches.trans (hkind.trans ?_))))
  exact kind.blanks_reaches.trans ((Reader.one?_reaches hcomma).trans
    (comma.blanks_reaches.trans (quotedDotPath?_reaches hpath)))

theorem componentAttribute?_reaches (h : componentAttribute? r = some (path, later)) :
    r.Reaches later := by
  simp only [componentAttribute?, Option.bind_eq_bind, Option.bind_eq_some_iff] at h
  obtain ⟨name, hword, sign, hsign, hpath⟩ := h
  exact (word?_reaches hword).trans (name.blanks_reaches.trans ((Reader.one?_reaches hsign).trans
    (sign.blanks_reaches.trans (quotedDotPath?_reaches hpath))))

theorem isInstanceOf?_reaches (h : isInstanceOf? r = some (path, later)) : r.Reaches later := by
  simp only [isInstanceOf?, Option.bind_eq_bind, Option.bind_eq_some_iff, Prod.exists] at h
  obtain ⟨name, hword, arguments, hopen, _, object, hobject, comma, hcomma, hpath⟩ := h
  refine (word?_reaches hword).trans (name.blanks_reaches.trans ((Reader.one?_reaches hopen).trans
    (arguments.blanks_reaches.trans ((Reader.name?_reaches hobject).trans ?_))))
  exact object.blanks_reaches.trans ((Reader.one?_reaches hcomma).trans
    (comma.blanks_reaches.trans (quotedDotPath?_reaches hpath)))

/-- The patterns, in the order in which they are looked for. -/
def all : List (Pattern Capture) :=
  [⟨new?, new?_reaches⟩, ⟨createObject?, createObject?_reaches⟩,
    ⟨componentAttribute?, componentAttribute?_reaches⟩, ⟨isInstanceOf?, isInstanceOf?_reaches⟩]

end ReferencePattern

namespace Source

/-- The dot paths that name components in the source, pattern by pattern. -/
def referenceCaptures (src : Source) : List Capture :=
  let clean := src.withoutComments src.dialect false
  ReferencePattern.all.flatMap fun pattern =>
    (clean.occurrencesIn none pattern).map Occurrence.value

/-- The references to components in the source, in order. They are looked up if there is a
resolver. -/
def references (isFile : Path → Bool) (resolver : Option Resolver) (src : Source) :
    Resolution (List Reference) := do
  let found ← src.referenceCaptures.mapM fun capture =>
    let span := src.spanOf capture.stretch
    match resolver with
    | some resolver => src.reference isFile resolver capture.text span
    | none => return ⟨capture.text, span, none⟩
  return found.mergeSort fun r s => r.span.start ≤ s.span.start

end Source

end Cfml
