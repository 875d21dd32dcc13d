/-
White space, and the functions that cut it off.

Every rule of the library that speaks of white space, in patterns as in trimming, means this one
set: the separators of Unicode together with the ASCII controls from tab to carriage return, the
four information separators and the next-line control. The zero-width characters are not in it.
-/
import Cfml.Text.RangeTable

set_option autoImplicit false

namespace Cfml

/-- The code points of white space. -/
def blankTable : RangeTable := [
  (0x9, 0xD), (0x1C, 0x20), (0x85, 0x85), (0xA0, 0xA0), (0x1680, 0x1680), (0x2000, 0x200A),
  (0x2028, 0x2029), (0x202F, 0x202F), (0x205F, 0x205F), (0x3000, 0x3000)]

/-- White space. -/
def isBlank (c : Char) : Bool := blankTable.contains c.toNat

/-- A character that ends a line, alone or as half of a pair. -/
def isLineBreak (c : Char) : Bool := c == '\r' || c == '\n'

theorem isLineBreak_eq_false_iff {c : Char} :
    isLineBreak c = false ↔ c ≠ '\r' ∧ c ≠ '\n' := by
  rw [isLineBreak, Bool.or_eq_false_iff, beq_eq_false_iff_ne, beq_eq_false_iff_ne]

/-- The text without the white space at its start. -/
def trimLeft (text : List Char) : List Char := text.dropWhile isBlank

/-- The text without the white space at its end. -/
def trimRight (text : List Char) : List Char := (text.reverse.dropWhile isBlank).reverse

/-- The text without the white space at either end. -/
def trim (text : List Char) : List Char := trimRight (trimLeft text)

theorem length_trimRight_le (text : List Char) : (trimRight text).length ≤ text.length := by
  have := (List.dropWhile_suffix isBlank (l := text.reverse)).length_le
  rw [List.length_reverse] at this
  rwa [trimRight, List.length_reverse]

end Cfml
