/-
JSON values and their text.

A value is written over several lines, each level two spaces deeper than the one around it, and in
ASCII alone: other characters are escaped as the UTF-16 units that they consist of.
-/
import Cfml.Text.Quoted

set_option autoImplicit false

namespace Cfml.Json

/-- A JSON value. Members keep their order. -/
inductive Value where
  | null
  | boolean (value : Bool)
  | number (value : Int)
  | string (text : List Char)
  | array (items : List Value)
  | object (members : List (String × Value))

/-! ## Strings -/

/-- The escape of a UTF-16 unit. -/
def escapeUnit (unit : Nat) : List Char := '\\' :: 'u' :: hexDigits 4 unit

/-- One character within a string. -/
def escapeChar (c : Char) : List Char :=
  if c == '"' || c == '\\' then ['\\', c]
  else if c == '\n' then ['\\', 'n']
  else if c == '\r' then ['\\', 'r']
  else if c == '\t' then ['\\', 't']
  else if c == '\x08' then ['\\', 'b']
  else if c == '\x0c' then ['\\', 'f']
  else if ' ' ≤ c && c ≤ '~' then [c]
  else if c.toNat < 0x10000 then escapeUnit c.toNat
  else
    let above := c.toNat - 0x10000
    escapeUnit (0xD800 + above / 0x400) ++ escapeUnit (0xDC00 + above % 0x400)

/-- A string in its quotes. -/
def quote (text : List Char) : List Char := '"' :: text.flatMap escapeChar ++ ['"']

/-! ## Values -/

/-- A line end and the spaces of a level. -/
def newLine (level : Nat) : List Char := '\n' :: List.replicate (2 * level) ' '

/-- Items between brackets, each on lines of its own. -/
def enclose (opening closing : Char) (level : Nat) (items : List (List Char)) : List Char :=
  if items.isEmpty then [opening, closing]
  else
    opening :: newLine (level + 1) ++ (',' :: newLine (level + 1)).intercalate items ++
      newLine level ++ [closing]

mutual

/-- The text of a value that stands at a level. -/
def Value.renderAt (level : Nat) : Value → List Char
  | .null => "null".toList
  | .boolean true => "true".toList
  | .boolean false => "false".toList
  | .number value => (toString value).toList
  | .string text => quote text
  | .array items => enclose '[' ']' level (renderItems (level + 1) items)
  | .object members => enclose '{' '}' level (renderMembers (level + 1) members)

/-- The texts of items at a level. -/
def renderItems (level : Nat) : List Value → List (List Char)
  | [] => []
  | item :: rest => item.renderAt level :: renderItems level rest

/-- The texts of members at a level, each with its name. -/
def renderMembers (level : Nat) : List (String × Value) → List (List Char)
  | [] => []
  | (name, value) :: rest =>
    (quote name.toList ++ ':' :: ' ' :: value.renderAt level) :: renderMembers level rest

end

/-- The text of a value. -/
def Value.render (value : Value) : String := String.ofList (value.renderAt 0)

end Cfml.Json
