/-
Comparing characters without regard to case.

Two characters are the same letter when their lower cases agree, or when their lower cases belong to
one of a few classes of letters that share an upper case: the dotless i goes with i, the long s with
s, the micro sign with mu, and so on. Keywords and tag names are compared this way.
-/
import Cfml.Text.LowerCase

set_option autoImplicit false

namespace Cfml

/-- Lower-case letters with one upper case between them. -/
def caseClasses : List (List Char) := [
  ['i', '\u0131'], ['s', '\u017F'], ['\u00B5', '\u03BC'], ['\u0345', '\u03B9', '\u1FBE'],
  ['\u0390', '\u1FD3'], ['\u03B0', '\u1FE3'], ['\u03B2', '\u03D0'], ['\u03B5', '\u03F5'],
  ['\u03B8', '\u03D1'], ['\u03BA', '\u03F0'], ['\u03C0', '\u03D6'], ['\u03C1', '\u03F1'],
  ['\u03C2', '\u03C3'], ['\u03C6', '\u03D5'], ['\u0432', '\u1C80'], ['\u0434', '\u1C81'],
  ['\u043E', '\u1C82'], ['\u0441', '\u1C83'], ['\u0442', '\u1C84', '\u1C85'],
  ['\u044A', '\u1C86'], ['\u0463', '\u1C87'], ['\u1C88', '\uA64B'], ['\u1E61', '\u1E9B'],
  ['\uFB05', '\uFB06']]

/-- Whether two characters differ at most in case. -/
def sameLetter (c d : Char) : Bool :=
  let c := lowerChar c
  let d := lowerChar d
  c == d || caseClasses.any fun letters => letters.contains c && letters.contains d

/-- Whether the character is one of the 26 letters in some case. -/
def isLatinLetter (c : Char) : Bool :=
  let c := lowerChar c
  ('a' ≤ c && c ≤ 'z') || c == '\u0131' || c == '\u017F'

end Cfml
