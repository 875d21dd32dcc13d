/-
Walking a source toward its start.

A cursor gives the characters before a position, nearest first, with one line feed for each line
ending however it is written. It remembers where it has been, so that steps can be taken back. Three
questions about what stands before a position are answered with it: which identifier ends there,
which arguments precede it in an open argument list, and whether an expression is under way.
-/
import Cfml.Lexical.Brackets
import Cfml.Lexical.StringState
import Cfml.Source.Basic
import Cfml.Text.Blank

set_option autoImplicit false

namespace Cfml

/-- A place in a source as seen backward: the lines above and the characters to the left, nearest
first. -/
structure BackwardCursor.Place where
  above : List (List Char)
  left : List Char

/-- A cursor: its place, and the places it was at before, latest first. -/
structure BackwardCursor where
  place : BackwardCursor.Place
  history : List BackwardCursor.Place

namespace BackwardCursor

/-- The cursor at a position of the source. A position outside of it is taken to the nearest line,
and there to the nearest end. -/
def atPosition (src : Source) (p : Position) : BackwardCursor :=
  let line := min p.line.toNat (src.lineCount - 1)
  let texts := (src.lines.take (line + 1)).reverse.map Line.text
  ⟨⟨texts.drop 1, ((texts.headD []).take p.character.toNat).reverse⟩, []⟩

/-- The position of the character given last. -/
def position (cursor : BackwardCursor) : Position :=
  ⟨cursor.place.above.length, cursor.place.left.length⟩

/-- Whether a character is left. -/
def hasNext (cursor : BackwardCursor) : Bool :=
  !cursor.place.left.isEmpty || !cursor.place.above.isEmpty

/-- The character before the cursor, and the cursor before that character. -/
def next? (cursor : BackwardCursor) : Option (Char × BackwardCursor) :=
  match cursor.place.left, cursor.place.above with
  | c :: left, above => some (c, ⟨⟨above, left⟩, cursor.place :: cursor.history⟩)
  | [], line :: above => some ('\n', ⟨⟨above, line.reverse⟩, cursor.place :: cursor.history⟩)
  | [], [] => none

/-- The number of characters before a place. -/
def Place.size (place : Place) : Nat :=
  place.left.length + place.above.foldr (fun line size => line.length + 1 + size) 0

/-- A step leaves one character less to read. -/
theorem size_next? {cursor next : BackwardCursor} {c : Char} (h : cursor.next? = some (c, next)) :
    next.place.size + 1 = cursor.place.size := by
  obtain ⟨⟨above, left⟩, history⟩ := cursor
  cases left with
  | cons c left => cases h; simp [Place.size]; omega
  | nil =>
    cases above with
    | cons line above => cases h; simp [Place.size]; omega
    | nil => cases h

/-- The characters before the cursor, nearest first, each with the cursor before it. -/
def steps (cursor : BackwardCursor) : List (Char × BackwardCursor) :=
  match _step : cursor.next? with
  | none => []
  | some (c, next) => (c, next) :: next.steps
termination_by cursor.place.size
decreasing_by have := size_next? _step; omega

/-- Up to `count` steps. The characters are nothing where there are none left. -/
def take : (count : Nat) → BackwardCursor → List (Option Char) × BackwardCursor
  | 0, cursor => ([], cursor)
  | count + 1, cursor =>
    match cursor.next? with
    | none => let (found, stop) := take count cursor; (none :: found, stop)
    | some (c, next) => let (found, stop) := take count next; (some c :: found, stop)

/-- The text before the cursor, nearest character first, and the cursor at the start of the
source. -/
def takeAll (cursor : BackwardCursor) : List Char × BackwardCursor :=
  let steps := cursor.steps
  (steps.map Prod.fst, (steps.getLast?.map Prod.snd).getD cursor)

/-- Takes back up to `count` steps. -/
def rewind : (count : Nat) → BackwardCursor → BackwardCursor
  | 0, cursor => cursor
  | count + 1, cursor =>
    match cursor.history with
    | [] => cursor
    | place :: history => rewind count ⟨place, history⟩

/-! ## Arguments of an open list -/

/-- An argument list under way, read backward. -/
structure Arguments where
  brackets : Brackets := {}
  /-- The quote of the literal that is being passed over. -/
  quote : Option Char := none
  /-- The argument under way. -/
  current : List Char := []
  /-- The arguments behind it. -/
  complete : List (List Char) := []

/-- Reads an argument list backward. Each step gives the character and the cursor before it; the
answer is the arguments and the cursor before the parenthesis that opens the list. Without such a
parenthesis there are no arguments. -/
def argumentsFrom (list : Arguments) (reached : BackwardCursor) :
    List (Char × BackwardCursor) → List (List Char) × BackwardCursor
  | [] => ([], reached)
  | (c, next) :: rest =>
    let taken := { list with current := c :: list.current }
    match list.quote with
    | some quote =>
      argumentsFrom { taken with quote := if c == quote then none else list.quote } next rest
    | none =>
      match BracketKind.of? c with
      | some (kind, opens) =>
        -- read backward, a bracket is closed before it is opened
        let brackets := list.brackets.count kind (!opens)
        if c == '(' && brackets.parens < 0 then (trim list.current :: list.complete, next)
        else argumentsFrom { taken with brackets := brackets } next rest
      | none =>
        if isQuote c then argumentsFrom { taken with quote := some c } next rest
        else if c == ',' && list.brackets.isBalanced then
          argumentsFrom { list with current := [], complete := trim list.current :: list.complete }
            next rest
        else argumentsFrom taken next rest

/-- The arguments between the cursor and the parenthesis that opens their list, and the cursor
before that parenthesis. -/
def readArguments (cursor : BackwardCursor) : List (List Char) × BackwardCursor :=
  argumentsFrom {} cursor cursor.steps

end BackwardCursor

/-! ## What stands before a position -/

/-- The span of the identifier that ends at the position, white space between them aside. -/
def Source.identifierBefore? (src : Source) (p : Position) : Option Span := do
  let (c, cursor) ← (BackwardCursor.atPosition src p).steps.find? fun step => !isBlank step.1
  if isIdentifierPart c then
    let word ← src.wordAt? cursor.position
    if isIdentifier (src.textOf word) then some word else none
  else none

/-- Whether a text ends within an expression: with a character of an identifier, which one line feed
may follow, or with a dot and white space. -/
def isContinuing (text : List Char) : Bool :=
  let reversed := text.reverse
  let line := match reversed with
    | '\n' :: rest => rest
    | _ => reversed
  line.head?.any isIdentifierPart || (reversed.dropWhile isBlank).head? == some '.'

end Cfml
