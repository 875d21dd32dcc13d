/-
The values of TOML that are written without other values in them, and the keys.

Every function here reads from the start of a text and gives what it has read and the rest, or
nothing if the text does not start that way. Only a whole number can be there and not be readable:
one that is written with more digits than are converted.
-/
import Cfml.Toml.Value

set_option autoImplicit false

namespace Cfml.Toml

/-- A reading step. -/
abbrev Step (α : Type) := List Char → Option (α × List Char)

/-- Why a text cannot be read. -/
inductive Fault where
  /-- It breaks a rule. -/
  | malformed
  /-- A whole number has this many digits, which are too many. -/
  | overlong (digits : Nat)
deriving DecidableEq, Repr

/-- A reading step in a text that may hold what cannot be read. -/
abbrev Reading (α : Type) := List Char → Except Fault (α × List Char)

/-- What has been found, or a broken rule. -/
def required {α : Type} (found : Option α) : Except Fault α :=
  match found with
  | some value => .ok value
  | none => .error .malformed

/-- A space or a tab. -/
def isGap (c : Char) : Bool := c == ' ' || c == '\t'

/-- A space, a tab or a line feed. -/
def isGapOrBreak (c : Char) : Bool := isGap c || c == '\n'

/-- A control character other than the tab. -/
def isControl (c : Char) : Bool := (c.toNat < 32 && c != '\t') || c.toNat == 127

/-- A control character other than the tab and the line feed. -/
def isControlInLines (c : Char) : Bool := isControl c && c != '\n'

/-- Skips spaces and tabs. -/
def skipGap (text : List Char) : List Char := text.dropWhile isGap

/-- Reads the given word. -/
def word? (word : List Char) (text : List Char) : Option (List Char) :=
  if word.isPrefixOf text then some (text.drop word.length) else none

/-! ## Strings -/

/-- The value of hexadecimal digits. -/
def hexValue (digits : List Char) : Nat :=
  digits.foldl (fun value c =>
    16 * value + (if c.isDigit then c.toNat - 48 else c.toLower.toNat - 87)) 0

/-- An ASCII hexadecimal digit. -/
def isHexDigit (c : Char) : Bool :=
  c.isDigit || ('a' ≤ c && c ≤ 'f') || ('A' ≤ c && c ≤ 'F')

/-- Reads the character with a code point of `width` hexadecimal digits. -/
def codePoint? (width : Nat) : Step Char := fun text =>
  let digits := text.take width
  let value := hexValue digits
  if digits.length == width && digits.all isHexDigit &&
      (value < 0xD800 || (0xE000 ≤ value && value < 0x110000)) then
    some (Char.ofNat value, text.drop width)
  else none

/-- Reads what follows a backslash: no character for a line end that is passed over. -/
def escape? (manyLines : Bool) : Step (List Char) := fun text =>
  match text with
  | [] => none
  | c :: rest =>
    if manyLines && isGapOrBreak c then
      match (c :: rest).dropWhile isGap with
      | [] => some ([], [])
      | d :: rest => if d == '\n' then some ([], rest.dropWhile isGapOrBreak) else none
    else
      match c with
      | 'u' => (codePoint? 4 rest).map fun (c, rest) => ([c], rest)
      | 'U' => (codePoint? 8 rest).map fun (c, rest) => ([c], rest)
      | 'b' => some (['\x08'], rest)
      | 't' => some (['\t'], rest)
      | 'n' => some (['\n'], rest)
      | 'f' => some (['\x0c'], rest)
      | 'r' => some (['\r'], rest)
      | '"' => some (['"'], rest)
      | '\\' => some (['\\'], rest)
      | _ => none

/-- Reads the inside of a string with escapes and the quotes that close it. `fuel` bounds the number
of characters. -/
def basicFrom (manyLines : Bool) : (fuel : Nat) → Step (List Char)
  | 0, _ => none
  | fuel + 1, text =>
    match text with
    | [] => none
    | '\\' :: rest => do
      let (escaped, rest) ← escape? manyLines rest
      let (tail, rest) ← basicFrom manyLines fuel rest
      return (escaped ++ tail, rest)
    | '"' :: rest =>
      if !manyLines then some ([], rest)
      else
        match rest with
        | '"' :: '"' :: rest => some ([], rest)
        | _ => (basicFrom manyLines fuel rest).map fun (tail, rest) => ('"' :: tail, rest)
    | c :: rest =>
      if (if manyLines then isControlInLines c else isControl c) then none
      else (basicFrom manyLines fuel rest).map fun (tail, rest) => (c :: tail, rest)

/-- Reads the inside of a string with escapes and the quotes that close it. -/
def basic? (manyLines : Bool) : Step (List Char) := fun text =>
  basicFrom manyLines (text.length + 1) text

/-- Reads the inside of a string without escapes and the quotes that close it. -/
def literal? (manyLines : Bool) (closer : List Char) : Step (List Char)
  | [] => none
  | c :: rest =>
    match word? closer (c :: rest) with
    | some behind => some ([], behind)
    | none =>
      if (if manyLines then isControlInLines c else isControl c) then none
      else (literal? manyLines closer rest).map fun (tail, rest) => (c :: tail, rest)

/-- Adds up to two quotes that stand behind the closing ones of a string of many lines. -/
def extraQuotes (quote : Char) (found : List Char) : List Char → List Char × List Char
  | c :: d :: rest =>
    if c != quote then (found, c :: d :: rest)
    else if d != quote then (found ++ [quote], d :: rest)
    else (found ++ [quote, quote], rest)
  | [c] => if c == quote then (found ++ [quote], []) else (found, [c])
  | [] => (found, [])

/-- Drops a line feed at the start. -/
def dropBreak : List Char → List Char
  | '\n' :: rest => rest
  | text => text

/-- Reads a string on one line. -/
def lineString? : Step (List Char)
  | '"' :: rest => basic? false rest
  | '\'' :: rest => literal? false ['\''] rest
  | _ => none

/-- Reads a string. -/
def string? : Step (List Char)
  | '"' :: '"' :: '"' :: rest =>
    (basic? true (dropBreak rest)).map fun (found, rest) => extraQuotes '"' found rest
  | '\'' :: '\'' :: '\'' :: rest =>
    (literal? true ['\'', '\'', '\''] (dropBreak rest)).map fun (found, rest) =>
      extraQuotes '\'' found rest
  | text => lineString? text

/-! ## Numbers -/

/-- Reads digits between which single underscores may stand; the answer leaves these out. -/
def moreDigits (isDigit : Char → Bool) : List Char → List Char × List Char
  | '_' :: c :: rest =>
    if isDigit c then let (digits, rest) := moreDigits isDigit rest; (c :: digits, rest)
    else ([], '_' :: c :: rest)
  | c :: rest =>
    if isDigit c then let (digits, rest) := moreDigits isDigit rest; (c :: digits, rest)
    else ([], c :: rest)
  | [] => ([], [])

/-- Reads one or more digits between which single underscores may stand. -/
def digits? (isDigit : Char → Bool) : Step (List Char)
  | c :: rest =>
    if isDigit c then let (digits, rest) := moreDigits isDigit rest; some (c :: digits, rest)
    else none
  | [] => none

/-- The value of digits to a base. -/
def valueIn (base : Nat) (digits : List Char) : Nat :=
  digits.foldl (fun value c => base * value + hexValue [c]) 0

/-- Reads a whole number that is written with its base. -/
def based? : Step Int
  | '0' :: 'x' :: rest => (digits? isHexDigit rest).map fun (d, rest) => (valueIn 16 d, rest)
  | '0' :: 'o' :: rest =>
    (digits? (fun c => '0' ≤ c && c ≤ '7') rest).map fun (d, rest) => (valueIn 8 d, rest)
  | '0' :: 'b' :: rest =>
    (digits? (fun c => c == '0' || c == '1') rest).map fun (d, rest) => (valueIn 2 d, rest)
  | _ => none

/-- Reads a sign, and tells whether it is a minus. -/
def sign : List Char → Bool × List Char
  | '-' :: rest => (true, rest)
  | '+' :: rest => (false, rest)
  | text => (false, text)

/-- Reads the digits of a whole number, which has no zero before other digits. -/
def whole? : Step (List Char)
  | '0' :: rest => some (['0'], rest)
  | text => digits? Char.isDigit text

/-- Reads the rest of a number: a point and digits. -/
def fraction? (text : List Char) : Option (List Char) := do
  return (← digits? Char.isDigit (← word? ['.'] text)).2

/-- Reads the rest of a number: an exponent. -/
def exponent? : List Char → Option (List Char)
  | c :: rest =>
    if c == 'e' || c == 'E' then (digits? Char.isDigit (sign rest).2).map Prod.snd else none
  | [] => none

/-- How many digits a whole number may have that is not written with its base. -/
def maxDigits : Nat := 4300

/-- The whole number with some decimal digits. -/
def decimal (negative : Bool) (digits : List Char) : Except Fault Value :=
  if maxDigits < digits.length then .error (.overlong digits.length)
  else
    let value : Int := valueIn 10 digits
    .ok (.integer (if negative then -value else value))

/-- Reads a number. -/
def number : Reading Value := fun text =>
  match based? text with
  | some (value, rest) => .ok (.integer value, rest)
  | none => do
    let (negative, unsigned) := sign text
    let (digits, rest) ← required (whole? unsigned)
    let behindFraction := (fraction? rest).getD rest
    let behind := (exponent? behindFraction).getD behindFraction
    if behind.length == rest.length then return (← decimal negative digits, rest)
    else return (.float (text.take (text.length - behind.length)), behind)

/-- Reads an infinity or what is no number. -/
def special? : Step Value := fun text =>
  let unsigned := (sign text).2
  (word? "inf".toList unsigned <|> word? "nan".toList unsigned).map fun rest =>
    (.float (text.take (text.length - rest.length)), rest)

/-! ## Dates and times -/

/-- Reads a number of exactly `width` digits from `low` to `high`. -/
def fixed? (width low high : Nat) : Step Nat := fun text =>
  let digits := text.take width
  let value := valueIn 10 digits
  if digits.length == width && digits.all Char.isDigit && low ≤ value && value ≤ high then
    some (value, text.drop width)
  else none

/-- Reads a time of day, with any number of digits behind the seconds. -/
def time? (text : List Char) : Option (List Char) := do
  let (_, rest) ← fixed? 2 0 23 text
  let (_, rest) ← fixed? 2 0 59 (← word? [':'] rest)
  let (_, rest) ← fixed? 2 0 59 (← word? [':'] rest)
  match rest with
  | '.' :: c :: more => if c.isDigit then some (more.dropWhile Char.isDigit) else some rest
  | _ => some rest

/-- Reads the distance of a time from the universal one. -/
def zone? : List Char → Option (List Char)
  | c :: rest =>
    if c == 'Z' || c == 'z' then some rest
    else if c == '+' || c == '-' then do
      let (_, rest) ← fixed? 2 0 23 rest
      return (← fixed? 2 0 59 (← word? [':'] rest)).2
    else none
  | [] => none

/-- The number of days of a month. -/
def daysIn (year month : Nat) : Nat :=
  if month == 2 then
    if year % 4 == 0 && (year % 100 != 0 || year % 400 == 0) then 29 else 28
  else if [4, 6, 9, 11].contains month then 30
  else 31

/-- Reads a date as its year, its month and its day, which need not be one of that month. -/
def date? : Step (Nat × Nat × Nat) := fun text => do
  let (year, rest) ← fixed? 4 0 9999 text
  let (month, rest) ← fixed? 2 1 12 (← word? ['-'] rest)
  let (day, rest) ← fixed? 2 1 31 (← word? ['-'] rest)
  return ((year, month, day), rest)

/-- Reads a time behind a date. -/
def timeBehind? : List Char → Option (List Char)
  | c :: rest =>
    if c == 'T' || c == 't' || c == ' ' then (time? rest).map fun rest => (zone? rest).getD rest
    else none
  | [] => none

/-! ## Keys -/

/-- A character of a key without quotes. -/
def isBareKey (c : Char) : Bool := c.isAlphanum || c == '-' || c == '_'

/-- Reads one part of a key. -/
def keyPart? : Step (List Char)
  | [] => none
  | c :: rest =>
    if isBareKey c then some ((c :: rest).takeWhile isBareKey, (c :: rest).dropWhile isBareKey)
    else lineString? (c :: rest)

/-- Reads the parts of a key, of which there are at most `fuel`. -/
def keyFrom : (fuel : Nat) → Step KeyPath
  | 0, _ => none
  | fuel + 1, text => do
    let (part, rest) ← keyPart? text
    match skipGap rest with
    | '.' :: rest =>
      let (parts, rest) ← keyFrom fuel (skipGap rest)
      return (part :: parts, rest)
    | rest => return ([part], rest)

/-- Reads a key of one or more parts, and the spaces behind it. -/
def key? : Step KeyPath := fun text => keyFrom (text.length + 1) text

end Cfml.Toml
