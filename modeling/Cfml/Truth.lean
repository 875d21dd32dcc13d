/-
Boolean values as they are written in attributes.

True is written `true`, `yes` or as a number that is not zero. A number is read as a double, so one
that is closer to zero than to the least double counts as zero: that is everything up to half of the
least double, which is 2 to the power of -1075.
-/
import Cfml.Text.Digit
import Cfml.Text.LowerCase
import Cfml.Text.Reader

set_option autoImplicit false

namespace Cfml

/-- The size of a decimal number: `digits` times ten to the power `exponent`. -/
structure Magnitude where
  digits : Nat
  exponent : Int
deriving DecidableEq, Repr

namespace Magnitude

/-- The value of a run of decimal digits. -/
def digitsValue (text : List Char) : Nat :=
  text.foldl (fun value c => 10 * value + (digitValue? c).getD 0) 0

/-- Steps over a sign, and tells whether it is a minus. -/
def sign (r : Reader) : Bool × Reader :=
  match r.one? (· == '-') with
  | some behind => (true, behind)
  | none => (false, (r.one? (· == '+')).getD r)

/-- Reads an exponent, if there is one. -/
def exponentPart? (r : Reader) : Option (Int × Reader) := do
  let r ← r.one? fun c => c == 'e' || c == 'E'
  let (negative, r) := sign r
  let behind ← r.some? isDecimalDigit
  let value : Int := digitsValue (r.upTo behind).text
  return (if negative then -value else value, behind)

/-- Reads a whole text as a decimal number: a sign, digits with a point among, before or behind
them, and an exponent. -/
def ofText? (text : List Char) : Option Magnitude := do
  let (_, r) := sign (Reader.ofText text 0)
  let (whole, r) := r.takeWhile isDecimalDigit
  let (fraction, r) :=
    match r.one? (· == '.') with
    | none => ((⟨r.offset, []⟩ : Capture), r)
    | some r => r.takeWhile isDecimalDigit
  if whole.text.isEmpty && fraction.text.isEmpty then none
  else
    let (exponent, r) := (exponentPart? r).getD (0, r)
    if r.ahead.isEmpty then
      some ⟨digitsValue (whole.text ++ fraction.text), exponent - fraction.text.length⟩
    else none

/-- Whether the number is more than half of the least double. The number of digits settles it
without computing a large power unless the number is near that bound. -/
def isNonzero (m : Magnitude) : Bool :=
  if m.digits == 0 then false
  else
    let size := m.exponent + (Nat.toDigits 10 m.digits).length
    if -300 < size then true
    else if size < -330 then false
    else Nat.pow 10 (-m.exponent).toNat < m.digits * Nat.pow 2 1075

end Magnitude

/-- Whether a text is written to mean true. -/
def isTruthy (text : List Char) : Bool :=
  let text := lower (trim text)
  text == "true".toList || text == "yes".toList ||
    (Magnitude.ofText? text).any Magnitude.isNonzero

end Cfml
