/-
Looking for a character at the top level.

Both searches follow string literals and pass over everything in them, quotes included. The first
one also follows brackets and stops only where all are closed; a bracket that is itself looked for
is not followed. The second one follows a single pair of characters.
-/
import Cfml.Lexical.Brackets
import Cfml.Lexical.StringState
import Cfml.Source.Basic

set_option autoImplicit false

namespace Cfml

/-- The index of the first of the targets outside of strings and brackets, with `index` that of the
next character. -/
def firstUnnestedFrom (targets : List Char) (index : Nat) (string : StringState)
    (brackets : Brackets) : List Char → Option Nat
  | [] => none
  | c :: rest =>
    let next := string.advance c
    if string.inString || next.inString then
      firstUnnestedFrom targets (index + 1) next brackets rest
    else
      match brackets.feed? targets c with
      | some brackets => firstUnnestedFrom targets (index + 1) next brackets rest
      | none =>
        if targets.contains c && brackets.isBalanced then some index
        else firstUnnestedFrom targets (index + 1) next brackets rest

/-- The index of the first of the targets outside of strings and brackets. -/
def firstUnnested (targets text : List Char) : Option Nat :=
  firstUnnestedFrom targets 0 .outside {} text

/-- The index of the character that closes a pair whose opening character has been read, with
`index` that of the next character and `depth` the number of further pairs that are open. -/
def closingIndexFrom (opening : Option Char) (closing : Char) (index depth : Nat)
    (string : StringState) : List Char → Option Nat
  | [] => none
  | c :: rest =>
    let next := string.advance c
    if string.inString || next.inString then
      closingIndexFrom opening closing (index + 1) depth next rest
    else if opening == some c then
      closingIndexFrom opening closing (index + 1) (depth + 1) next rest
    else if c == closing then
      match depth with
      | 0 => some index
      | depth + 1 => closingIndexFrom opening closing (index + 1) depth next rest
    else closingIndexFrom opening closing (index + 1) depth next rest

/-- The index of the character that closes a pair whose opening character has been read. -/
def closingIndex (closing : Char) (text : List Char) : Option Nat :=
  closingIndexFrom (openingOf? closing) closing 0 0 .outside text

/-- The closing character is one of those ahead. -/
theorem closingIndexFrom_lt {opening : Option Char} {closing : Char} {index depth found : Nat}
    {string : StringState} {text : List Char}
    (h : closingIndexFrom opening closing index depth string text = some found) :
    found < index + text.length := by
  induction text generalizing index depth string with
  | nil => exact absurd h (by simp [closingIndexFrom])
  | cons c rest ih =>
    rw [List.length_cons, ← Nat.add_assoc, Nat.add_right_comm]
    unfold closingIndexFrom at h
    simp only at h
    split at h
    · exact ih h
    · split at h
      · exact ih h
      · split at h
        · split at h
          · obtain rfl := Option.some.inj h
            omega
          · exact ih h
        · exact ih h

theorem closingIndex_lt {closing : Char} {text : List Char} {found : Nat}
    (h : closingIndex closing text = some found) : found < text.length := by
  simpa using closingIndexFrom_lt h

/-! ## In a source -/

namespace Source

/-- The position of the first of the targets at the top level from `start` up to `stop`, or the one
just behind it. It is the position of `stop` if there is none. -/
def nextUnnested (src : Source) (start stop : Nat) (targets : List Char) (behind : Bool) :
    Position :=
  match firstUnnested targets (src.slice start stop) with
  | some index => src.position (start + index + (if behind then 1 else 0))
  | none => src.position stop

/-- The position just behind the character that closes the pair opened just before `start`, or that
of `start` if there is none. -/
def closingPosition (src : Source) (start : Nat) (closing : Char) : Position :=
  match closingIndex closing (src.slice start src.length) with
  | some index => src.position (start + index + 1)
  | none => src.position start

/-- `nextUnnested` for any whole numbers. Characters are numbered as in `window?`, and the answer is
none when the search would meet a number without a character. -/
def nextUnnestedAt? (src : Source) (start stop : Int) (targets : List Char) (behind : Bool) :
    Option Position :=
  (src.window? start (min stop src.length)).map fun text =>
    match firstUnnested targets text with
    | some index => src.positionAt (start + index + (if behind then 1 else 0))
    | none => src.positionAt stop

/-- `closingPosition` for any whole number and, where `closing` is none, for no character at all. -/
def closingPositionAt? (src : Source) (start : Int) (closing : Option Char) : Option Position :=
  (src.window? start src.length).map fun text =>
    match closing.bind (closingIndex · text) with
    | some index => src.positionAt (start + index + 1)
    | none => src.positionAt start

end Source

end Cfml
