/-
A source text, with conversions between offsets and positions.

An offset counts code points from the start of the text; a position counts lines and characters in
them. An offset that lies between the two characters of a line ending is the end of that line, an
offset outside the text is its nearest end, and a position outside the text or outside its line is
the nearest end of it. With that both conversions are defined everywhere and keep the order, so the
span of a stretch of text always exists (`Source.span`).
-/
import Cfml.Path
import Cfml.Source.Line
import Cfml.Source.Position
import Cfml.Text.Word

set_option autoImplicit false

namespace Cfml

/-- A text and the file that it belongs to, if any. The text is cut into lines once and for all,
because every conversion needs them. -/
structure Source where
  text : List Char
  path : Option Path
  /-- The lines of the text. There is always one. -/
  lines : List Line
  lines_eq : lines = Line.split text

namespace Source

/-- The source with a text. -/
def ofText (text : List Char) (path : Option Path) : Source := ⟨text, path, Line.split text, rfl⟩

/-- The number of characters. -/
def length (src : Source) : Nat := src.text.length

def lineCount (src : Source) : Nat := src.lines.length

/-! ## Conversion -/

/-- The position of an offset of the text. -/
def position (src : Source) (offset : Nat) : Position :=
  let (line, character) := Line.locate src.lines offset
  ⟨line, character⟩

/-- The position of any whole number; one below zero is the start of the text. -/
def positionAt (src : Source) (offset : Int) : Position := src.position offset.toNat

/-- The offset of a position. -/
def offsetAt (src : Source) (p : Position) : Nat :=
  if p.line < 0 then 0 else Line.offset src.lines p.line.toNat p.character.toNat

/-- **Conversion keeps the order.** -/
theorem position_mono (src : Source) {a b : Nat} (h : a ≤ b) : src.position a ≤ src.position b := by
  have := Line.locate_mono src.lines h
  simp only [position, Position.le_iff]
  omega

/-- The way back keeps it too. -/
theorem offsetAt_mono (src : Source) {p q : Position} (h : p ≤ q) :
    src.offsetAt p ≤ src.offsetAt q := by
  rw [Position.le_iff] at h
  unfold offsetAt
  split
  · exact Nat.zero_le _
  · rw [if_neg (by omega)]
    exact Line.offset_mono src.lines (by omega)

/-- The span of the `length` characters from the offset `start` on. -/
def span (src : Source) (start length : Nat) : Span :=
  ⟨src.position start, src.position (start + length), src.position_mono (Nat.le_add_right _ _)⟩

/-- The span between two offsets, if they are in order. -/
def spanBetween (src : Source) (start stop : Int) : Except ReversedSpan Span :=
  Span.between (src.positionAt start) (src.positionAt stop)

/-- The position of the end. -/
def stop (src : Source) : Position := src.position src.length

/-- The span of the whole text. -/
def fullSpan (src : Source) : Span := src.span 0 src.length

/-! ## Text of a span -/

/-- The characters from `start` up to but not including `stop`. -/
def slice (src : Source) (start stop : Nat) : List Char := (src.text.drop start).take (stop - start)

/-- The text of a span. -/
def textOf (src : Source) (s : Span) : List Char :=
  src.slice (src.offsetAt s.start) (src.offsetAt s.stop)

/-- The text of a line without its ending. A negative number counts lines from the last one back. -/
def lineText? (src : Source) (line : Int) : Option (List Char) :=
  let lines := src.lines
  let line := if line < 0 then line + lines.length else line
  if line < 0 then none else lines[line.toNat]?.map Line.text

/-- Whether the position is that of a character or of the end of a line. -/
def holds (src : Source) (p : Position) : Bool :=
  0 ≤ p.line && 0 ≤ p.character &&
    src.lines[p.line.toNat]?.any fun l => p.character ≤ l.text.length

/-- Whether both ends of the span are in the text. -/
def isValid (src : Source) (s : Span) : Bool := src.holds s.start && src.holds s.stop

/-- The offsets of a span that is in the text; those of the whole text for any other span, and for
none. -/
def bounds (src : Source) : Option Span → Nat × Nat
  | none => (0, src.length)
  | some s =>
    if src.isValid s then (src.offsetAt s.start, src.offsetAt s.stop) else (0, src.length)

/-! ## Characters by number -/

/-- The characters numbered from `start` up to but not including `stop`. Numbers below zero count
characters from the end of the text back, so that such a stretch runs through the end to the start;
none is the answer when there is no character of some number. -/
def window? (src : Source) (start stop : Int) : Option (List Char) :=
  let length : Int := src.length
  if stop ≤ start then some []
  else if start < -length || length < stop then none
  else
    let last := if stop < 0 then stop + length else length
    let wrapped := src.slice (start + length).toNat last.toNat
    let plain := src.slice start.toNat stop.toNat
    some (if start < 0 then wrapped ++ plain else plain)

/-! ## Words -/

/-- The first run of identifier characters that ends at or behind `character`, if it starts at or
before it, as its start and length. `start` is the number of the next character. -/
def wordAround (character : Int) (start : Nat) : (run : Nat) → List Char → Option (Nat × Nat)
  | run, [] =>
    if 0 < run && start ≤ character && character ≤ (start + run : Nat) then some (start, run)
    else none
  | run, c :: rest =>
    if isIdentifierPart c then wordAround character start (run + 1) rest
    else if 0 < run && start ≤ character && character ≤ (start + run : Nat) then some (start, run)
    else wordAround character (start + run + 1) 0 rest

/-- The span of the word of identifier characters that the position touches. -/
def wordAt? (src : Source) (p : Position) : Option Span :=
  if p.line < 0 then none
  else
    match src.lines[p.line.toNat]? with
    | none => none
    | some l =>
      (wordAround p.character 0 0 l.text).map fun (start, length) => Span.inLine p.line start length

end Source

end Cfml
