/-
Sets of characters given by the ranges of their code points.

A character property of a standard (letter, digit, printable) is a table of some hundreds of
ranges. The tables of this library list their ranges in ascending order, so that a look-up stops at
the first range that begins beyond the character; text that is mostly ASCII is then answered by the
first few entries.
-/

set_option autoImplicit false

namespace Cfml

/-- Inclusive ranges of code points, in ascending order. -/
abbrev RangeTable := List (Nat × Nat)

namespace RangeTable

/-- Whether some range holds the code point `n`. Ranges after one that begins beyond `n` are not
looked at, which is right because the table ascends. -/
def contains : RangeTable → Nat → Bool
  | [], _ => false
  | (first, last) :: rest, n => first ≤ n && (n ≤ last || contains rest n)

/-- The first code point of the range that holds `n`. -/
def start? : RangeTable → Nat → Option Nat
  | [], _ => none
  | (first, last) :: rest, n =>
    if n < first then none else if n ≤ last then some first else start? rest n

end RangeTable

end Cfml
