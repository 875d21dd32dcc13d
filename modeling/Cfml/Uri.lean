/-
Uniform resource identifiers, as far as files need them.

A URI is cut into scheme, authority and path; what follows the path is cut off. Parts are written
with percent signs: each byte of the UTF-8 form that is not plain stands as two hexadecimal digits.
Reading replaces bytes that are no text, so every URI has a path. Only the scheme `file` names a
file; an authority or a drive letter then becomes part of its path.
-/
import Cfml.Path
import Cfml.Text.Utf8

set_option autoImplicit false

namespace Cfml

/-! ## Percent signs -/

namespace Percent

/-- An ASCII letter. -/
def isLetter (c : Char) : Bool := ('a' ≤ c && c ≤ 'z') || ('A' ≤ c && c ≤ 'Z')

/-- An ASCII digit. -/
def isDigit (c : Char) : Bool := '0' ≤ c && c ≤ '9'

/-- A character that a path shows as it is. -/
def isPlain (c : Char) : Bool := isLetter c || isDigit c || "_.-~/".toList.contains c

/-- One byte as written. -/
def encodeByte (byte : UInt8) : List Char :=
  let c := Char.ofNat byte.toNat
  if isPlain c then [c] else '%' :: (hexDigits 2 byte.toNat).map Char.toUpper

/-- A text as written in a URI. -/
def encode (text : List Char) : List Char := (Utf8.encode text).flatMap encodeByte

/-- The value of a hexadecimal digit. -/
def hexValue? (c : Char) : Option Nat :=
  if isDigit c then some (c.toNat - '0'.toNat)
  else if 'a' ≤ c && c ≤ 'f' then some (c.toNat - 'a'.toNat + 10)
  else if 'A' ≤ c && c ≤ 'F' then some (c.toNat - 'A'.toNat + 10)
  else none

/-- The bytes that a written text stands for. A percent sign without two digits is itself. -/
def bytes : List Char → List UInt8
  | [] => []
  | [c] => Utf8.encodeChar c
  | [c, d] => Utf8.encodeChar c ++ Utf8.encodeChar d
  | c :: d :: e :: rest =>
    match c == '%', hexValue? d, hexValue? e with
    | true, some high, some low => (high * 16 + low).toUInt8 :: bytes rest
    | _, _, _ => Utf8.encodeChar c ++ bytes (d :: e :: rest)

/-- The text that was written. -/
def decode (written : List Char) : List Char := Utf8.decodeLossy (bytes written)

end Percent

/-! ## Parts -/

/-- A URI as written. -/
structure Uri where
  text : List Char
deriving DecidableEq, Repr

/-- The parts of a URI that say where a file is. -/
structure UriParts where
  scheme : List Char
  authority : List Char
  path : List Char
deriving DecidableEq, Repr

namespace Uri

/-- The URI without percent signs. URIs that differ only in how they are written have one key. -/
def key (uri : Uri) : List Char := Percent.decode uri.text

/-- The schemes, besides none, whose last path segment can be followed by parameters. -/
def schemesWithParameters : List String :=
  ["ftp", "hdl", "prospero", "http", "imap", "https", "shttp", "rtsp", "rtspu", "sip", "sips",
    "mms", "sftp", "tel"]

/-- A character of a scheme. -/
def isSchemePart (c : Char) : Bool :=
  Percent.isLetter c || Percent.isDigit c || c == '+' || c == '-' || c == '.'

/-- The text without control characters and spaces in front and without tabs and line ends. -/
def clean (text : List Char) : List Char :=
  (text.dropWhile fun c => c.toNat ≤ 0x20).filter fun c => c != '\t' && c != '\r' && c != '\n'

/-- The scheme in lower case and what follows its colon. -/
def splitScheme (text : List Char) : List Char × List Char :=
  let scheme := text.takeWhile (· != ':')
  match text.drop scheme.length with
  | [] => ([], text)
  | _ :: rest =>
    if scheme.head?.any Percent.isLetter && scheme.all isSchemePart then
      (scheme.map Char.toLower, rest)
    else ([], text)

/-- The authority between two slashes and the next part, and what follows it. -/
def splitAuthority : List Char → List Char × List Char
  | '/' :: '/' :: rest =>
    let authority := rest.takeWhile fun c => c != '/' && c != '?' && c != '#'
    (authority, rest.drop authority.length)
  | text => ([], text)

/-- The path without the parameters of its last segment. -/
def dropParameters (path : List Char) : List Char :=
  let last := (path.reverse.takeWhile (· != '/')).reverse
  path.take (path.length - last.length) ++ last.takeWhile (· != ';')

/-- The parts of a URI, read. -/
def parts (uri : Uri) : UriParts :=
  let (scheme, rest) := splitScheme (clean uri.text)
  let (authority, rest) := splitAuthority rest
  let path := (rest.takeWhile (· != '#')).takeWhile (· != '?')
  let hasParameters := scheme.isEmpty || schemesWithParameters.any fun s => s.toList == scheme
  let path := if hasParameters then dropParameters path else path
  ⟨scheme, Percent.decode authority, Percent.decode path⟩

/-! ## Files -/

/-- The path of a file from the authority and path of its URI. -/
def filePathOf (authority path : List Char) : List Char :=
  if !authority.isEmpty && !path.isEmpty then '/' :: '/' :: authority ++ path
  else
    match path with
    | '/' :: letter :: ':' :: rest =>
      if Percent.isLetter letter then letter.toLower :: ':' :: rest else path
    | _ => path

/-- The path of the file that the URI names, as written. -/
def filePath? (uri : Uri) : Option (List Char) :=
  let parts := uri.parts
  if parts.scheme == "file".toList then some (filePathOf parts.authority parts.path) else none

/-- The path that a document with this URI has: that of the file it names, or else the path in the
URI. -/
def documentPath (uri : Uri) : List Char := uri.filePath?.getD uri.parts.path

/-- The URI of a file at an absolute path. -/
def ofFilePath (path : List Char) : Uri := ⟨"file://".toList ++ Percent.encode path⟩

end Uri

/-- The URI of the file that the path names from the directory `base`. -/
def Path.uri (base p : Path) : Uri := Uri.ofFilePath (Path.resolveFrom base p).text

end Cfml
