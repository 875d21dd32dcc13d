/-
Decoding UTF-8 bytes.

A lead byte tells how many continuation bytes follow and which values the first of them may have;
the bounds on the first one exclude overlong forms, surrogates and code points beyond the last. The
first place where bytes do not fit is reported with the bytes concerned: a byte that begins nothing
alone, a cut-off sequence as far as it was good. A reader that must not fail puts a replacement
character for each such place instead.
-/
import Cfml.Text.Quoted

set_option autoImplicit false

namespace Cfml.Utf8

/-- Why bytes are not text. -/
inductive Fault where
  /-- The byte begins no character. -/
  | invalidStart
  /-- A byte that should continue a character does not. -/
  | invalidContinuation
  /-- The bytes end within a character. -/
  | unexpectedEnd
deriving DecidableEq, Repr

/-- The fault in words. -/
def Fault.message : Fault → String
  | .invalidStart => "invalid start byte"
  | .invalidContinuation => "invalid continuation byte"
  | .unexpectedEnd => "unexpected end of data"

/-- A fault, where it is, and the bytes of the character that was being read. -/
structure DecodeError where
  fault : Fault
  position : Nat
  bytes : List UInt8
deriving DecidableEq, Repr

/-- The error in words: one byte is shown, of several only the places. -/
def DecodeError.message (e : DecodeError) : String :=
  "'utf-8' codec can't decode " ++
    (match e.bytes with
    | [byte] =>
      "byte 0x" ++ String.ofList (hexDigits 2 byte.toNat) ++ " in position " ++ toString e.position
    | bytes =>
      "bytes in position " ++ toString e.position ++ "-" ++
        toString (e.position + bytes.length - 1)) ++
    ": " ++ e.fault.message

/-- What a lead byte announces: its bits of the code point, the bounds of the second byte, and how
many more bytes follow that one. -/
structure Lead where
  bits : Nat
  low : Nat
  high : Nat
  more : Nat

/-- The announcement of a lead byte of two, three or four bytes. -/
def lead? (b : Nat) : Option Lead :=
  if b < 0xC2 then none
  else if b < 0xE0 then some ⟨b - 0xC0, 0x80, 0xBF, 0⟩
  else if b == 0xE0 then some ⟨0, 0xA0, 0xBF, 1⟩
  else if b == 0xED then some ⟨13, 0x80, 0x9F, 1⟩
  else if b < 0xF0 then some ⟨b - 0xE0, 0x80, 0xBF, 1⟩
  else if b == 0xF0 then some ⟨0, 0x90, 0xBF, 2⟩
  else if b < 0xF4 then some ⟨b - 0xF0, 0x80, 0xBF, 2⟩
  else if b == 0xF4 then some ⟨4, 0x80, 0x8F, 2⟩
  else none

/-- A character that is being read: its bits so far, its bytes so far (last first), the bounds of
the next byte, and how many follow that one. -/
structure Pending where
  bits : Nat
  bytes : List UInt8
  low : Nat
  high : Nat
  more : Nat

/-- What the first byte of a character is. -/
inductive Begun where
  /-- The whole character. -/
  | whole (c : Char)
  /-- The first byte of several. -/
  | part (pending : Pending)

/-- What a byte begins, if it can begin anything. -/
def begun? (byte : UInt8) : Option Begun :=
  if byte.toNat < 0x80 then some (.whole (Char.ofNat byte.toNat))
  else (lead? byte.toNat).map fun l => .part ⟨l.bits, [byte], l.low, l.high, l.more⟩

namespace Pending

/-- Whether the byte can come next. -/
def admits (p : Pending) (byte : UInt8) : Bool := p.low ≤ byte.toNat && byte.toNat ≤ p.high

/-- The character with one more byte. -/
def extend (p : Pending) (byte : UInt8) : Begun :=
  let bits := p.bits * 64 + (byte.toNat - 0x80)
  match p.more with
  | 0 => .whole (Char.ofNat bits)
  | more + 1 => .part ⟨bits, byte :: p.bytes, 0x80, 0xBF, more⟩

end Pending

/-! ## Decoding -/

/-- Decodes the bytes from `position` on, with `pending` the character that has begun, if any. -/
def decodeFrom (position : Nat) : (pending : Option Pending) → List UInt8 →
    Except DecodeError (List Char)
  | none, [] => .ok []
  | some p, [] => .error ⟨.unexpectedEnd, position - p.bytes.length, p.bytes.reverse⟩
  | none, byte :: rest =>
    match begun? byte with
    | none => .error ⟨.invalidStart, position, [byte]⟩
    | some (.whole c) => (decodeFrom (position + 1) none rest).map (c :: ·)
    | some (.part p) => decodeFrom (position + 1) (some p) rest
  | some p, byte :: rest =>
    if p.admits byte then
      match p.extend byte with
      | .whole c => (decodeFrom (position + 1) none rest).map (c :: ·)
      | .part p => decodeFrom (position + 1) (some p) rest
    else .error ⟨.invalidContinuation, position - p.bytes.length, p.bytes.reverse⟩

/-- The text that the bytes encode. -/
def decode (bytes : List UInt8) : Except DecodeError (List Char) := decodeFrom 0 none bytes

/-- The character that stands for bytes that are no text. -/
def replacement : Char := Char.ofNat 0xFFFD

/-- The characters that one byte completes, and the character that is then being read. -/
def step (pending : Option Pending) (byte : UInt8) : List Char × Option Pending :=
  let found (before : List Char) : Option Begun → List Char × Option Pending
    | none => (before ++ [replacement], none)
    | some (.whole c) => (before ++ [c], none)
    | some (.part p) => (before, some p)
  match pending with
  | none => found [] (begun? byte)
  | some p =>
    if p.admits byte then found [] (some (p.extend byte)) else found [replacement] (begun? byte)

/-- Decodes bytes with a replacement character for each place where they are no text. -/
def decodeLossyFrom (pending : Option Pending) : List UInt8 → List Char
  | [] => if pending.isSome then [replacement] else []
  | byte :: rest =>
    let (found, pending) := step pending byte
    found ++ decodeLossyFrom pending rest

/-- The text of bytes that may be no text in places. -/
def decodeLossy (bytes : List UInt8) : List Char := decodeLossyFrom none bytes

/-! ## Encoding -/

/-- The bytes of one character. -/
def encodeChar (c : Char) : List UInt8 := String.utf8EncodeChar c

/-- The bytes of a text. -/
def encode (text : List Char) : List UInt8 := text.flatMap encodeChar

end Cfml.Utf8
