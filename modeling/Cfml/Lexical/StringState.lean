/-
Whether a place lies in a string literal.

A quote opens a literal and the same quote closes it. Within a literal a number sign starts or ends
an embedded expression, in which quotes mean nothing to the literal around it. Quotes toggle and do
not nest, so one character at a time is enough to follow them.
-/

set_option autoImplicit false

namespace Cfml

/-- A character that opens and closes string literals. -/
def isQuote (c : Char) : Bool := c == '"' || c == '\''

/-- The quote of the literal that is open, and whether an embedded expression is open in it. -/
structure StringState where
  delimiter : Option Char := none
  embedded : Bool := false
deriving DecidableEq, Repr

namespace StringState

/-- Outside of any literal. -/
def outside : StringState := {}

/-- Whether a literal is open. -/
def inString (s : StringState) : Bool := s.delimiter.isSome

/-- The state behind the character `c`. -/
def advance (s : StringState) (c : Char) : StringState :=
  match s.delimiter with
  | none => if isQuote c then ⟨some c, false⟩ else s
  | some quote =>
    if c == '#' then ⟨some quote, !s.embedded⟩
    else if !s.embedded && c == quote then outside
    else s

/-- The state behind a text. -/
def after (s : StringState) (text : List Char) : StringState := text.foldl advance s

/-- The states behind each character of a text. -/
def trace (s : StringState) : List Char → List StringState
  | [] => []
  | c :: rest => s.advance c :: trace (s.advance c) rest

end StringState

end Cfml
