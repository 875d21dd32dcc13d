/-
Reading TOML documents.

A document is a list of statements, one on a line: a value under a key, the head of a table or the
head of a table in an array. What the text must not do is in the marks: no key gets two values, no
table two heads, and a value that is written in one piece is not added to. Reading stops at the
first thing that breaks a rule or cannot be read.
-/
import Cfml.Toml.Scalar

set_option autoImplicit false

namespace Cfml.Toml

/-! ## Values -/

/-- Skips a comment, which holds no control characters. -/
def skipComment? : List Char → Option (List Char)
  | '#' :: rest =>
    let comment := rest.takeWhile (· != '\n')
    if comment.any isControl then none else some (rest.drop comment.length)
  | text => some text

/-- Skips spaces, line ends and comments. `fuel` bounds the number of comments. -/
def skipLines? : (fuel : Nat) → List Char → Option (List Char)
  | 0, text => some text
  | fuel + 1, text => do
    let text := text.dropWhile isGapOrBreak
    match text with
    | '#' :: _ => skipLines? fuel (← skipComment? text)
    | _ => some text

/-- Skips spaces, line ends and comments. -/
def skipFiller? (text : List Char) : Option (List Char) := skipLines? (text.length + 1) text

/-- Reads a date or a time. The answer is none where there is no such value, and no reading where
there is one that does not exist. -/
def moment? (text : List Char) : Option (Option (Value × List Char)) :=
  let upTo (rest : List Char) : Value × List Char :=
    (.moment (text.take (text.length - rest.length)), rest)
  match date? text with
  | some ((year, month, day), rest) =>
    if year == 0 || daysIn year month < day then some none
    else some (some (upTo ((timeBehind? rest).getD rest)))
  | none => (time? text).map fun rest => some (upTo rest)

/-- Reads a value that holds no other values. -/
def scalar : Reading Value := fun text =>
  match string? text with
  | some (found, rest) => .ok (.string found, rest)
  | none =>
    match word? "true".toList text, word? "false".toList text with
    | some rest, _ => .ok (.boolean true, rest)
    | _, some rest => .ok (.boolean false, rest)
    | none, none =>
      match moment? text, special? text with
      | some found, _ => required found
      | none, some found => .ok found
      | none, none => number text

/-- The value is written in one piece and may not be added to. -/
def Value.isWhole : Value → Bool
  | .array _ => true
  | .table _ => true
  | _ => false

mutual

/-- Reads a value. `fuel` bounds the number of values and keys in it. -/
def valueFrom : (fuel : Nat) → Reading Value
  | 0, _ => .error .malformed
  | fuel + 1, text =>
    match text with
    | '[' :: rest => do
      let (items, rest) ← itemsFrom fuel (← required (skipFiller? rest))
      return (.array items, rest)
    | '{' :: rest =>
      match skipGap rest with
      | '}' :: rest => .ok (.table [], rest)
      | rest => do
        let (entries, rest) ← entriesFrom fuel [] [] rest
        return (.table entries, rest)
    | _ => scalar text

/-- Reads the items of an array and the bracket that closes it. -/
def itemsFrom : (fuel : Nat) → Reading (List Value)
  | 0, _ => .error .malformed
  | fuel + 1, text =>
    match text with
    | ']' :: rest => .ok ([], rest)
    | _ => do
      let (item, rest) ← valueFrom fuel text
      match ← required (skipFiller? rest) with
      | ']' :: rest => return ([item], rest)
      | ',' :: rest =>
        let (items, rest) ← itemsFrom fuel (← required (skipFiller? rest))
        return (item :: items, rest)
      | _ => .error .malformed

/-- Reads the entries of a table on one line and the brace that closes it, behind the entries that
have been read. -/
def entriesFrom : (fuel : Nat) → Table → Marks → Reading Table
  | 0, _, _, _ => .error .malformed
  | fuel + 1, table, marks, text => do
    let (key, rest) ← required (key? text)
    let (value, rest) ← valueFrom fuel (skipGap (← required (word? ['='] rest)))
    if marks.has key .frozen then .error .malformed
    else
      let put := Table.putNew (key.getLastD []) value
      let table ← required (table.changeAt false put key.dropLast)
      match skipGap rest with
      | '}' :: rest => return (table, rest)
      | ',' :: rest =>
        let marks := if value.isWhole then (key, .frozen) :: marks else marks
        entriesFrom fuel table marks (skipGap rest)
      | _ => .error .malformed

end

/-- Reads a value. -/
def value : Reading Value := fun text => valueFrom (text.length + 1) text

/-! ## Statements -/

/-- A document under way: its tables, the marks, the marks that the next head sets, and the key of
the table that statements write to. -/
structure Draft where
  root : Table := []
  marks : Marks := []
  pending : Marks := []
  head : KeyPath := []

namespace Draft

/-- The draft in which the pending marks are set. -/
def settle (draft : Draft) : Draft :=
  { draft with marks := draft.pending ++ draft.marks, pending := [] }

/-- Opens a table. -/
def openTable? (draft : Draft) (key : KeyPath) : Option Draft :=
  if draft.marks.has key .headed || draft.marks.has key .frozen then none
  else
    (draft.root.changeAt true some key).map fun root =>
      { draft with root := root, marks := (key, .headed) :: draft.marks, head := key }

/-- Opens a new table in an array. -/
def openItem? (draft : Draft) (key : KeyPath) : Option Draft :=
  if draft.marks.has key .frozen then none
  else
    (draft.root.changeAt true (Table.pushTable (key.getLastD [])) key.dropLast).map fun root =>
      { draft with root := root, marks := (key, .headed) :: draft.marks.clear key, head := key }

/-- The keys of the tables that a key of several parts passes through. -/
def passed (draft : Draft) (key : KeyPath) : List KeyPath :=
  (List.range (key.length - 1)).map fun i => draft.head ++ key.take (i + 1)

/-- Writes a value. -/
def write? (draft : Draft) (key : KeyPath) (value : Value) : Option Draft :=
  let passed := draft.passed key
  let above := draft.head ++ key.dropLast
  if passed.any (draft.marks.has · .headed) || draft.marks.has above .frozen then none
  else
    (draft.root.changeAt true (Table.putNew (key.getLastD []) value) above).map fun root =>
      { draft with
        root := root
        marks := if value.isWhole then (draft.head ++ key, .frozen) :: draft.marks else draft.marks
        pending := passed.map (·, Mark.headed) ++ draft.pending }

end Draft

/-- Reads a statement, if there is one before the end of the line. -/
def statement (draft : Draft) : Reading Draft := fun text =>
  match text with
  | '[' :: '[' :: rest => do
    let (key, rest) ← required (key? (skipGap rest))
    let draft ← required (draft.settle.openItem? key)
    return (draft, ← required (word? [']', ']'] rest))
  | '[' :: rest => do
    let (key, rest) ← required (key? (skipGap rest))
    let draft ← required (draft.settle.openTable? key)
    return (draft, ← required (word? [']'] rest))
  | [] => .ok (draft, [])
  | '\n' :: _ => .ok (draft, text)
  | '#' :: _ => .ok (draft, text)
  | _ => do
    let (key, rest) ← required (key? text)
    let (value, rest) ← value (skipGap (← required (word? ['='] rest)))
    return (← required (draft.write? key value), rest)

/-- Reads the statements of a text, of which there are at most `fuel`. -/
def statementsFrom : (fuel : Nat) → Draft → List Char → Except Fault Draft
  | 0, _, _ => .error .malformed
  | fuel + 1, draft, text => do
    let (draft, rest) ← statement draft (skipGap text)
    match ← required (skipComment? (skipGap rest)) with
    | [] => return draft
    | '\n' :: rest => statementsFrom fuel draft rest
    | _ => .error .malformed

/-- The text with every carriage return and line feed turned into a line feed. -/
def joinBreaks : List Char → List Char
  | '\r' :: '\n' :: rest => '\n' :: joinBreaks rest
  | c :: rest => c :: joinBreaks rest
  | [] => []

/-- The table that a document describes. -/
def document (text : List Char) : Except Fault Table :=
  let text := joinBreaks text
  (statementsFrom (text.length + 1) {} text).map Draft.root

end Cfml.Toml
