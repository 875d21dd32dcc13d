/-
Function declarations.

In script a function is declared by optional words for access and staticness, an optional type, the
word `function`, a name and an argument list. What follows the list decides where the declaration
ends: a body in braces, a semicolon, or neither. In tag markup a function is a `<cffunction>` pair
with a name. Comments are blanked out before either is looked for.
-/
import Cfml.Attribute
import Cfml.Comment.Spans
import Cfml.Nesting
import Cfml.Truth

set_option autoImplicit false

namespace Cfml

/-- A function that is declared in a source. -/
structure FunctionDecl where
  name : List Char
  access : List Char
  returnType : List Char
  isStatic : Bool
  /-- The dialect it is declared in. -/
  dialect : Dialect
  nameSpan : Span
  span : Span

namespace FunctionDecl

/-! ## In script -/

/-- The words of a declaration up to the parenthesis that opens its arguments. -/
structure Header where
  access : Option (List Char)
  isStatic : Bool
  returnType : Option (List Char)
  name : Capture

/-- A character that can begin a name. -/
def isNameStart (c : Char) : Bool := c == '_' || c == '$' || isLatinLetter c

/-- Reads a word in any case and the white space that has to follow it. -/
def modifier? (word : List Char) (r : Reader) : Option (Capture × Reader) := do
  let behind ← r.caseless? word
  return (r.upTo behind, ← behind.some? isBlank)

/-- The words for access. -/
def accessWords : List (List Char) :=
  ["private".toList, "package".toList, "public".toList, "remote".toList]

/-- Reads a type, perhaps of an array, and the white space that has to follow it. -/
def type? (r : Reader) : Option (Capture × Reader) := do
  let (_, behind) ← r.name? (fun c => c == '_' || isLatinLetter c) (fun c => isWord c || c == '.')
  let behind := (behind.literal? ['[', ']']).getD behind
  return (r.upTo behind, ← behind.some? isBlank)

/-- Reads the word `function`, a name and the parenthesis that opens the arguments. -/
def signature? (r : Reader) : Option (Capture × Reader) := do
  let (_, r) ← modifier? "function".toList r
  let (name, r) ← r.name? isNameStart isIdentifierPart
  return (name, ← r.blanks.one? (· == '('))

/-- Reads one of the words if there is one. -/
def anyModifier (words : List (List Char)) (r : Reader) : Option (List Char) × Reader :=
  match words.findSome? (modifier? · r) with
  | some (word, later) => (some word.text, later)
  | none => (none, r)

/-- Reads an optional type and the signature. The word before `function` is the type if there is
one. -/
def typed? (r : Reader) : Option ((Option (List Char) × Capture) × Reader) :=
  -- the word before `function` has to be a type, if it is there at all
  let typed := do
    let (type, r) ← type? r
    let (name, r) ← signature? r
    return ((some type.text, name), r)
  typed <|> (signature? r).map fun (name, r) => ((none, name), r)

/-- Reads a declaration up to the parenthesis that opens its arguments. -/
def header? (r : Reader) : Option (Header × Reader) := do
  -- within a longer name, or behind a dot, there is no declaration
  if r.isAfter fun c => isIdentifierPart c || c == '.' then none
  else
    let (access, r) := anyModifier accessWords r
    let (static, r) := anyModifier ["static".toList] r
    let ((type, name), r) ← typed? r
    return (⟨access, static.isSome, type, name⟩, r)

/-- Just behind the brace or the semicolon at the top level that follows an argument list, or the
end of the text if neither does. -/
def opener (text : List Char) (behind : Nat) : Nat :=
  match firstUnnested ['{', ';'] (text.drop behind) with
  | some index => behind + index + 1
  | none => text.length

/-- The offset where a declaration ends whose argument list ends at `behind`. Without a body or a
semicolon at the top level, the last character of the text is looked at in its place. -/
def stopBehind (text : List Char) (behind : Nat) : Nat :=
  let opener := opener text behind
  -- the character that decides is the one before the offset
  if text[opener - 1]? == some '{' then
    match closingIndex '}' (text.drop opener) with
    | some index => opener + index + 1
    | none => text.length
  else if text[opener - 1]? == some ';' then opener
  else behind

/-- The offset where a declaration ends whose arguments begin at `arguments`. -/
def stop (text : List Char) (arguments : Nat) : Nat :=
  match closingIndex ')' (text.drop arguments) with
  | none => arguments
  | some index => stopBehind text (arguments + index + 1)

/-! A declaration is read forward, and it does not end before its arguments begin. -/

variable {r later : Reader}

theorem modifier?_reaches {word : List Char} {found : Capture}
    (h : modifier? word r = some (found, later)) : r.Reaches later := by
  simp only [modifier?, Option.bind_eq_bind, Option.bind_eq_some_iff] at h
  obtain ⟨behind, hword, _, hblank, heq⟩ := h
  obtain ⟨-, rfl⟩ := by simpa using heq
  exact (Reader.caseless?_reaches hword).trans (Reader.some?_reaches hblank)

theorem type?_reaches {type : Capture} (h : type? r = some (type, later)) : r.Reaches later := by
  simp only [type?, Option.bind_eq_bind, Option.bind_eq_some_iff, Prod.exists] at h
  obtain ⟨_, behind, hname, _, hblank, heq⟩ := h
  obtain ⟨-, rfl⟩ := by simpa using heq
  exact ((Reader.name?_reaches hname).trans (Reader.getD_literal?_reaches _ _)).trans
    (Reader.some?_reaches hblank)

theorem signature?_reaches {name : Capture} (h : signature? r = some (name, later)) :
    r.Reaches later := by
  simp only [signature?, Option.bind_eq_bind, Option.bind_eq_some_iff, Prod.exists] at h
  obtain ⟨_, _, hword, _, behind, hname, _, hopen, heq⟩ := h
  obtain ⟨-, rfl⟩ := by simpa using heq
  exact ((modifier?_reaches hword).trans (Reader.name?_reaches hname)).trans
    (behind.blanks_reaches.trans (Reader.one?_reaches hopen))

theorem anyModifier_reaches (words : List (List Char)) (r : Reader) :
    r.Reaches (anyModifier words r).2 := by
  unfold anyModifier
  split
  · next hword =>
    obtain ⟨_, -, hmodifier⟩ := List.exists_of_findSome?_eq_some hword
    exact modifier?_reaches hmodifier
  · exact .refl r

theorem typed?_reaches {found : Option (List Char) × Capture} (h : typed? r = some (found, later)) :
    r.Reaches later := by
  rcases Reader.eq_some_of_orElse h with htyped | huntyped
  · simp only [Option.bind_eq_bind, Option.bind_eq_some_iff, Prod.exists] at htyped
    obtain ⟨_, _, htype, _, _, hsignature, heq⟩ := htyped
    obtain ⟨-, rfl⟩ := by simpa using heq
    exact (type?_reaches htype).trans (signature?_reaches hsignature)
  · simp only [Option.map_eq_some_iff, Prod.exists] at huntyped
    obtain ⟨_, _, hsignature, heq⟩ := huntyped
    obtain ⟨-, rfl⟩ := by simpa using heq
    exact signature?_reaches hsignature

/-- The pattern of a declaration up to the parenthesis that opens its arguments. -/
def header : Pattern Header where
  read := header?
  forward h := by
    unfold header? at h
    split at h
    · exact absurd h (by simp)
    · simp only [Option.bind_eq_bind, Option.bind_eq_some_iff, Prod.exists] at h
      obtain ⟨_, _, _, htyped, heq⟩ := h
      obtain ⟨-, rfl⟩ := by simpa using heq
      -- access, staticness, and the rest
      exact ((anyModifier_reaches _ _).trans (anyModifier_reaches _ _)).trans
        (typed?_reaches htyped)

theorem le_opener {text : List Char} {behind : Nat} (h : behind ≤ text.length) :
    behind ≤ opener text behind := by
  unfold opener
  split
  · omega
  · exact h

theorem le_stopBehind {text : List Char} {behind : Nat} (h : behind ≤ text.length) :
    behind ≤ stopBehind text behind := by
  have hopener := le_opener h
  unfold stopBehind
  simp only
  split
  · split
    · omega
    · exact h
  · split
    · exact hopener
    · exact Nat.le_refl _

theorem le_stop (text : List Char) (arguments : Nat) : arguments ≤ stop text arguments := by
  unfold stop
  split
  · exact Nat.le_refl _
  · next index hclosing =>
    have hindex := closingIndex_lt hclosing
    rw [List.length_drop] at hindex
    -- the closing parenthesis is a character of the text, so what is behind it is in reach
    have hbehind : arguments + index + 1 ≤ text.length := by omega
    exact Nat.le_trans (by omega) (le_stopBehind hbehind)

/-- Words that are not taken for a type. -/
def isModifierWord (word : List Char) : Bool :=
  (("static".toList :: accessWords).contains (lower word))

/-- A declaration of which the header has been found in the text. -/
def ofHeader (src : Source) (text : List Char) (found : Occurrence Header) : FunctionDecl :=
  let header := found.value
  -- a word of access that stands where a type would is not the type
  let type := (header.returnType.filter (!isModifierWord ·)).getD "any".toList
  { name := header.name.text
    access := lower (header.access.getD "public".toList)
    returnType := type
    isStatic := header.isStatic
    dialect := .script
    nameSpan := src.spanOf header.name.stretch
    span := src.spanOf
      ⟨found.start, stop text found.stop, Nat.le_trans found.start_le_stop (le_stop text _)⟩ }

/-! ## In tag markup -/

/-- The attributes of a `<cffunction>` that count. -/
def tagAttributes : List (List Char) :=
  ["name".toList, "access".toList, "returntype".toList, "static".toList]

/-- The function that a pair of tags declares, if it has a name. -/
def ofTag? (src : Source) (tag : Tag) : Option FunctionDecl := do
  let attributes := src.attributes (some tag.attributes) (some tagAttributes)
  let name ← attributes.find? "name".toList
  if name.value.isEmpty then none
  else
    some
      { name := name.value
        access := ((attributes.value? "access").map lower).getD "public".toList
        returnType := (attributes.value? "returntype").getD "any".toList
        isStatic :=
          (attributes.find? "static".toList).any fun a => a.value.isEmpty || isTruthy a.value
        dialect := .tag
        nameSpan := name.span
        span := tag.whole }

end FunctionDecl

namespace Source

/-- The functions declared in script, where the source as a whole is written in `dialect`. -/
def scriptFunctions (src : Source) (dialect : Dialect) : List FunctionDecl :=
  let clean := src.withoutComments dialect false
  (clean.occurrencesIn none FunctionDecl.header).map (FunctionDecl.ofHeader src clean.text)

/-- The functions declared in tag markup. -/
def tagFunctions (src : Source) : List FunctionDecl :=
  let clean := src.withoutComments .tag false
  (clean.tags "cffunction".toList none).filterMap (FunctionDecl.ofTag? clean)

end Source

end Cfml
