/-
Counting brackets.

Three kinds of brackets are counted: braces, square brackets and parentheses. A counter rises at an
opening bracket and falls at a closing one, below zero if need be. Angle brackets, quotes and number
signs are pairs of characters too, but they are not counted.
-/

set_option autoImplicit false

namespace Cfml

/-- The kinds of brackets that are counted. -/
inductive BracketKind where
  | brace
  | square
  | paren
deriving DecidableEq, Repr

namespace BracketKind

/-- The bracket kind of a character, and whether the character opens it. -/
def of? : Char → Option (BracketKind × Bool)
  | '{' => some (brace, true)
  | '}' => some (brace, false)
  | '[' => some (square, true)
  | ']' => some (square, false)
  | '(' => some (paren, true)
  | ')' => some (paren, false)
  | _ => none

end BracketKind

/-- The first character of the pair that a character belongs to. The two quotes and the number sign
are pairs with themselves. -/
def openingOf? : Char → Option Char
  | '{' | '}' => some '{'
  | '[' | ']' => some '['
  | '(' | ')' => some '('
  | '<' | '>' => some '<'
  | '"' => some '"'
  | '\'' => some '\''
  | '#' => some '#'
  | _ => none

/-- How many more brackets of each kind were opened than closed. -/
structure Brackets where
  braces : Int := 0
  squares : Int := 0
  parens : Int := 0
deriving DecidableEq, Repr

namespace Brackets

/-- One more bracket of the kind, or one less. -/
def count (b : Brackets) (kind : BracketKind) (opens : Bool) : Brackets :=
  let step : Int := if opens then 1 else -1
  match kind with
  | .brace => { b with braces := b.braces + step }
  | .square => { b with squares := b.squares + step }
  | .paren => { b with parens := b.parens + step }

/-- The counters behind the character `c`, if it is a bracket that is not to be ignored. -/
def feed? (ignored : List Char) (b : Brackets) (c : Char) : Option Brackets :=
  if ignored.contains c then none
  else (BracketKind.of? c).map fun (kind, opens) => b.count kind opens

/-- The counters behind the character `c`. -/
def feed (ignored : List Char) (b : Brackets) (c : Char) : Brackets :=
  (b.feed? ignored c).getD b

/-- Whether every counter is zero. -/
def isBalanced (b : Brackets) : Bool := b.braces == 0 && b.squares == 0 && b.parens == 0

/-- For each character of a text, whether it was counted and the counters behind it. -/
def trace (ignored : List Char) (b : Brackets) : List Char → List (Bool × Brackets)
  | [] => []
  | c :: rest =>
    ((b.feed? ignored c).isSome, b.feed ignored c) :: trace ignored (b.feed ignored c) rest

end Brackets

end Cfml
