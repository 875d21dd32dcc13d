/-
Stretches of a text, by offset.

Scanners and patterns work with offsets; what is reported to the outside are spans. A stretch is the
pair of offsets in between. As in a span the order of the two is part of the type: who makes a
stretch has to show that it does not end before it starts, so no span is ever asked for that does.
-/
import Cfml.Source.Basic
import Cfml.Text.Reader

set_option autoImplicit false

namespace Cfml

/-- The characters from one offset up to but not including another. -/
structure Stretch where
  start : Nat
  stop : Nat
  start_le_stop : start ≤ stop
deriving DecidableEq, Repr

namespace Stretch

/-- The stretch moved `distance` characters to the right. -/
def shift (s : Stretch) (distance : Nat) : Stretch :=
  ⟨s.start + distance, s.stop + distance, Nat.add_le_add_right s.start_le_stop distance⟩

/-- The offsets at which the stretch starts and ends. -/
def ends (s : Stretch) : Nat × Nat := (s.start, s.stop)

theorem ends_inj (s t : Stretch) (h : s.ends = t.ends) : s = t := by
  obtain ⟨start, stop, _⟩ := s
  obtain ⟨start', stop', _⟩ := t
  obtain ⟨rfl, rfl⟩ := Prod.mk.inj h
  rfl

/-- Whether the character with this offset is in the stretch. -/
def holds (s : Stretch) (offset : Nat) : Bool := s.start ≤ offset && offset < s.stop

end Stretch

/-- The stretch that is captured. -/
def Capture.stretch (c : Capture) : Stretch := ⟨c.start, c.stop, Nat.le_add_right _ _⟩

/-- The stretch of an occurrence. -/
def Occurrence.stretch {α : Type} (o : Occurrence α) : Stretch :=
  ⟨o.start, o.stop, o.start_le_stop⟩

namespace Reader

variable {α : Type}

/-- Reads up to the first place where the pattern holds, and on behind the pattern. What is captured
ends at that place. -/
def through? (pattern : Pattern α) (r : Reader) : Option (Stretch × Reader) :=
  match h : firstOccurrence? pattern r with
  | none => none
  | some (_, place, behind) =>
    some (⟨r.offset, place.offset, (firstOccurrence?_reaches h).1.offset_le⟩, behind)

theorem through?_eq_some {pattern : Pattern α} {r later : Reader} {inside : Stretch}
    (h : r.through? pattern = some (inside, later)) :
    ∃ value place, firstOccurrence? pattern r = some (value, place, later) ∧
      inside.start = r.offset ∧ inside.stop = place.offset := by
  unfold through? at h
  split at h
  · exact absurd h (by simp)
  · next value place behind hfirst =>
    obtain ⟨rfl, rfl⟩ := by simpa using h
    exact ⟨value, place, hfirst, rfl, rfl⟩

theorem through?_reaches {pattern : Pattern α} {r later : Reader} {inside : Stretch}
    (h : r.through? pattern = some (inside, later)) : r.Reaches later := by
  obtain ⟨_, _, hfirst, -, -⟩ := through?_eq_some h
  obtain ⟨hreaches, hread⟩ := firstOccurrence?_reaches hfirst
  exact hreaches.trans (pattern.forward hread)

end Reader

namespace Source

/-- The span of a stretch of the text. -/
def spanOf (src : Source) (s : Stretch) : Span :=
  ⟨src.position s.start, src.position s.stop, src.position_mono s.start_le_stop⟩

/-- The stretch of a span. -/
def stretchOf (src : Source) (s : Span) : Stretch :=
  ⟨src.offsetAt s.start, src.offsetAt s.stop, src.offsetAt_mono s.start_le_stop⟩

/-- Reads the characters from `start` up to but not including `stop`, as if they were all there
is. -/
def reader (src : Source) (start stop : Nat) : Reader := Reader.ofText (src.slice start stop) start

/-- The occurrences of a pattern within a span, or in the whole text if the span is not in it. -/
def occurrencesIn {α : Type} (src : Source) (within : Option Span) (pattern : Pattern α) :
    List (Occurrence α) :=
  let (start, stop) := src.bounds within
  occurrences pattern (src.reader start stop)

end Source

end Cfml
