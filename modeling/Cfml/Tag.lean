/-
Pairs of tags.

A pair is an opening tag with attributes, a body and the closing tag of the same name. The body ends
at the first closing tag, so pairs of one name do not nest. An opening tag that is never closed is
no pair. Names are compared without regard to case.
-/
import Cfml.Source.Stretch

set_option autoImplicit false

namespace Cfml

/-- The parts of a pair of tags, by offset. -/
structure TagParts where
  attributes : Stretch
  body : Stretch

/-- A pair of tags in a source: the whole of it, what stands in the opening tag behind the name, and
what stands between the tags. -/
structure Tag where
  whole : Span
  attributes : Span
  body : Span

namespace Tag

/-- Reads a closing tag of the name. -/
def closing? (name : List Char) (r : Reader) : Option Reader := do
  let r ← r.literal? ['<', '/']
  let r ← r.caseless? name
  r.blanks.one? (· == '>')

/-- Reads the `<` and the name of an opening tag, which has to end where a word does. -/
def opening? (name : List Char) (r : Reader) : Option Reader := do
  let r ← r.one? (· == '<')
  let r ← r.caseless? name
  if r.atWordBoundary then some r else none

variable {name : List Char} {r later : Reader}

theorem closing?_reaches (h : closing? name r = some later) : r.Reaches later := by
  simp only [closing?, Option.bind_eq_bind, Option.bind_eq_some_iff] at h
  obtain ⟨behindSlash, hslash, behindName, hname, hclose⟩ := h
  exact (((Reader.literal?_reaches hslash).trans (Reader.caseless?_reaches hname)).trans
    behindName.blanks_reaches).trans (Reader.one?_reaches hclose)

theorem opening?_reaches (h : opening? name r = some later) : r.Reaches later := by
  simp only [opening?, Option.bind_eq_bind, Option.bind_eq_some_iff, Option.ite_none_right_eq_some,
    Option.some.injEq] at h
  obtain ⟨_, hopen, _, hname, -, rfl⟩ := h
  exact (Reader.one?_reaches hopen).trans (Reader.caseless?_reaches hname)

/-- The pattern of a closing tag. -/
def closing (name : List Char) : Pattern Unit := .plain (closing? name) closing?_reaches

/-- Reads a pair of tags of the name. -/
def pair? (name : List Char) (r : Reader) : Option (TagParts × Reader) := do
  let r ← opening? name r
  let (attributes, r) := r.takeWhile (· != '>')
  let r ← r.one? (· == '>')
  let (body, r) ← r.through? (closing name)
  return (⟨attributes.stretch, body⟩, r)

/-- The pattern of a pair of tags. -/
def pair (name : List Char) : Pattern TagParts where
  read := pair? name
  forward h := by
    simp only [pair?, Option.bind_eq_bind, Option.bind_eq_some_iff, Prod.exists] at h
    obtain ⟨behindName, hopening, behindTag, htag, _, _, hbody, heq⟩ := h
    obtain ⟨-, rfl⟩ := by simpa using heq
    exact (((opening?_reaches hopening).trans (behindName.takeWhile_reaches (· != '>'))).trans
      (Reader.one?_reaches htag)).trans (Reader.through?_reaches hbody)

end Tag

/-- The pairs of tags of a name within a span of the source, in order. -/
def Source.tags (src : Source) (name : List Char) (within : Option Span) : List Tag :=
  (src.occurrencesIn within (Tag.pair name)).map fun found =>
    { whole := src.spanOf found.stretch
      attributes := src.spanOf found.value.attributes
      body := src.spanOf found.value.body }

end Cfml
