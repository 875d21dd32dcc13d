/-
Positions and spans.

A position is a line and a character, both counted from zero; positions are ordered as they follow
each other in a text. A span is a pair of positions in that order: the order is part of the type, so
whoever builds a span from two positions has to say what happens when they are reversed.

Nothing here knows a text. A position may have negative numbers or lie beyond every line, and the
functions that meet a text decide what such a position means.
-/

set_option autoImplicit false

namespace Cfml

/-- A line and a character in it, both counted from zero in code points. -/
structure Position where
  line : Int
  character : Int
deriving DecidableEq, Repr

namespace Position

instance : LT Position where
  lt p q := p.line < q.line ∨ (p.line = q.line ∧ p.character < q.character)

instance : LE Position where
  le p q := p.line < q.line ∨ (p.line = q.line ∧ p.character ≤ q.character)

instance (p q : Position) : Decidable (p < q) :=
  inferInstanceAs (Decidable (p.line < q.line ∨ (p.line = q.line ∧ p.character < q.character)))

instance (p q : Position) : Decidable (p ≤ q) :=
  inferInstanceAs (Decidable (p.line < q.line ∨ (p.line = q.line ∧ p.character ≤ q.character)))

theorem lt_iff {p q : Position} :
    p < q ↔ p.line < q.line ∨ (p.line = q.line ∧ p.character < q.character) := Iff.rfl

theorem le_iff {p q : Position} :
    p ≤ q ↔ p.line < q.line ∨ (p.line = q.line ∧ p.character ≤ q.character) := Iff.rfl

theorem eq_of {p q : Position} (hl : p.line = q.line) (hc : p.character = q.character) :
    p = q := by
  cases p; cases q; simp_all

protected theorem le_refl (p : Position) : p ≤ p := by
  rw [le_iff]; omega

protected theorem le_trans {p q r : Position} (h₁ : p ≤ q) (h₂ : q ≤ r) : p ≤ r := by
  rw [le_iff] at *; omega

protected theorem le_total (p q : Position) : p ≤ q ∨ q ≤ p := by
  rw [le_iff, le_iff]; omega

protected theorem le_antisymm {p q : Position} (h₁ : p ≤ q) (h₂ : q ≤ p) : p = q := by
  rw [le_iff] at *
  exact eq_of (by omega) (by omega)

protected theorem not_lt {p q : Position} : ¬ p < q ↔ q ≤ p := by
  rw [lt_iff, le_iff]; omega

protected theorem le_of_lt {p q : Position} (h : p < q) : p ≤ q := by
  rw [lt_iff] at h; rw [le_iff]; omega

/-- The position moved by some lines and some characters. -/
def shift (p : Position) (lines characters : Int) : Position :=
  ⟨p.line + lines, p.character + characters⟩

/-- The later of two positions. -/
def max (p q : Position) : Position := if p < q then q else p

end Position

/-! ## Spans -/

/-- A stretch from one position to another that does not come before it. -/
structure Span where
  start : Position
  stop : Position
  start_le_stop : start ≤ stop
deriving DecidableEq

/-- Two positions that were to be a span, the second of which comes before the first. -/
structure ReversedSpan where
  start : Position
  stop : Position
deriving DecidableEq, Repr

namespace Span

/-- The span between two positions, if they are in order. -/
def between (start stop : Position) : Except ReversedSpan Span :=
  if h : stop < start then .error ⟨start, stop⟩ else .ok ⟨start, stop, Position.not_lt.mp h⟩

/-- The span of the `length` characters of a line from the character `start` on. -/
def inLine (line : Int) (start length : Nat) : Span where
  start := ⟨line, start⟩
  stop := ⟨line, (start + length : Nat)⟩
  start_le_stop := Or.inr ⟨rfl, Int.ofNat_le.mpr (Nat.le_add_right start length)⟩

/-- Whether the span holds no character. -/
def isEmpty (s : Span) : Bool := s.start == s.stop

/-- Whether the position lies in the span. Both ends belong to it. -/
def hasPosition (s : Span) (p : Position) : Bool := s.start ≤ p && p ≤ s.stop

/-- Whether the other span lies in the span. -/
def covers (s other : Span) : Bool := s.hasPosition other.start && s.hasPosition other.stop

/-- Whether a span comes at or before another in a list sorted by start and then by end. -/
def notAfter (s t : Span) : Bool := s.start < t.start || (s.start == t.start && s.stop ≤ t.stop)

end Span

namespace ReversedSpan

/-- The rule that was broken, in words. -/
def message (r : ReversedSpan) : String :=
  "range end " ++ shown r.stop ++ " precedes start " ++ shown r.start
where
  shown (p : Position) : String :=
    "Position(line=" ++ toString p.line ++ ", character=" ++ toString p.character ++ ")"

end ReversedSpan

end Cfml
