/-
The head of a component declaration.

A head is an optional documentation block with white space behind it, an optional `<cf`, one of the
words `component` and `interface`, and the attributes up to the first `>` or `{`. To find it the
text is cut into tokens, so that a word within a documentation block or within a longer word does
not count, and the first head that begins at a token is taken.
-/
import Cfml.Comment.Form
import Cfml.Region
import Cfml.Source.Stretch

set_option autoImplicit false

namespace Cfml

/-- The kinds of tokens. -/
inductive HeadToken.Kind where
  /-- A documentation block with its delimiters, and what stands between them. -/
  | doc (inside : Stretch)
  /-- White space. -/
  | blank
  /-- The `<cf` directly before a keyword. -/
  | tagOpen
  /-- One of the two words that declare something. -/
  | keyword
  /-- Any other run of identifier characters. -/
  | word
  /-- Any other character. -/
  | other
deriving DecidableEq, Repr

/-- A token and where it stands. -/
structure HeadToken where
  kind : HeadToken.Kind
  stretch : Stretch
deriving DecidableEq, Repr

namespace HeadToken

/-- Reads a documentation block: it ends at the first `*/` that does not overlap the three opening
characters. -/
def doc? (r : Reader) : Option (Stretch × Reader) := do
  (← r.literal? ['/', '*', '*']).through? (.literal ['*', '/'])

/-- Reads one of the two words that declare something. -/
def keyword? (r : Reader) : Option Reader := do
  let behind ← r.caseless? "component".toList <|> r.caseless? "interface".toList
  if behind.ahead.head?.any isIdentifierPart then none else some behind

/-- Reads a `<cf` that a keyword follows. -/
def tagOpen? (r : Reader) : Option Reader := do
  let behind ← (← r.one? (· == '<')).caseless? ['c', 'f']
  if (keyword? behind).isSome then some behind else none

/-- Reads the next token. There is one at every character. -/
def next? (r : Reader) : Option (Kind × Reader) :=
  (doc? r).map (fun (inside, later) => (.doc inside, later)) <|>
    (r.some? isBlank).map (Kind.blank, ·) <|> (tagOpen? r).map (Kind.tagOpen, ·) <|>
    (keyword? r).map (Kind.keyword, ·) <|> (r.some? isIdentifierPart).map (Kind.word, ·) <|>
    (r.one? fun _ => true).map (Kind.other, ·)

variable {r later : Reader}

theorem doc?_reaches {inside : Stretch} (h : doc? r = some (inside, later)) :
    r.Reaches later := by
  simp only [doc?, Option.bind_eq_bind, Option.bind_eq_some_iff] at h
  obtain ⟨_, hopener, hthrough⟩ := h
  exact (Reader.literal?_reaches hopener).trans (Reader.through?_reaches hthrough)

theorem keyword?_reaches (h : keyword? r = some later) : r.Reaches later := by
  simp only [keyword?, Option.bind_eq_bind, Option.bind_eq_some_iff] at h
  obtain ⟨behind, hword, hend⟩ := h
  obtain rfl : behind = later := by
    split at hend
    · exact absurd hend (by simp)
    · exact Option.some.inj hend
  exact (Reader.eq_some_of_orElse hword).elim Reader.caseless?_reaches Reader.caseless?_reaches

theorem tagOpen?_reaches (h : tagOpen? r = some later) : r.Reaches later := by
  simp only [tagOpen?, Option.bind_eq_bind, Option.bind_eq_some_iff, Option.ite_none_right_eq_some,
    Option.some.injEq] at h
  obtain ⟨_, hopen, _, hname, -, rfl⟩ := h
  exact (Reader.one?_reaches hopen).trans (Reader.caseless?_reaches hname)

/-- A token of one of the plain kinds. -/
theorem reaches_of_map {read : Option Reader} {kind kind' : Kind}
    (hread : ∀ {later}, read = some later → r.Reaches later)
    (h : read.map (kind, ·) = some (kind', later)) : r.Reaches later := by
  obtain ⟨_, hsome, heq⟩ := Option.map_eq_some_iff.mp h
  obtain ⟨-, rfl⟩ := Prod.mk.inj heq
  exact hread hsome

/-- The pattern of a token. -/
def next : Pattern Kind where
  read := next?
  forward h := by
    rcases Reader.eq_some_of_orElse h with hdoc | h
    · obtain ⟨_, hread, heq⟩ := Option.map_eq_some_iff.mp hdoc
      obtain ⟨-, rfl⟩ := Prod.mk.inj heq
      exact doc?_reaches hread
    rcases Reader.eq_some_of_orElse h with hblank | h
    · exact reaches_of_map Reader.some?_reaches hblank
    rcases Reader.eq_some_of_orElse h with htag | h
    · exact reaches_of_map tagOpen?_reaches htag
    rcases Reader.eq_some_of_orElse h with hkeyword | h
    · exact reaches_of_map keyword?_reaches hkeyword
    rcases Reader.eq_some_of_orElse h with hword | hother
    · exact reaches_of_map Reader.some?_reaches hword
    · exact reaches_of_map Reader.one?_reaches hother

/-- The tokens of a text. Together they are the text. -/
def tokens (text : List Char) : List HeadToken :=
  (occurrences next (Reader.ofText text 0)).map fun found => ⟨found.value, found.stretch⟩

end HeadToken

/-- The parts of a component declaration up to its body, by offset. -/
structure ComponentHead where
  start : Nat
  /-- Where the attributes end. -/
  stop : Nat
  keyword : Capture
  /-- The dialect of the declaration, and with it of the source. -/
  dialect : Dialect
  /-- The inside of the documentation block. -/
  doc : Option Stretch

namespace ComponentHead

/-- Where the attributes begin. -/
def attributesStart (head : ComponentHead) : Nat := head.keyword.stop

/-- Whether an interface is declared. -/
def isInterface (head : ComponentHead) : Bool := lower head.keyword.text == "interface".toList

/-- The tokens of a head that begins with the first token, and the inside of its documentation
block. -/
structure Parts where
  doc : Option (HeadToken × Stretch)
  tag : Option HeadToken
  keyword : HeadToken

/-- A head without a documentation block at the first token. -/
def withoutDoc? : List HeadToken → Option Parts
  | first :: second :: _ =>
    if first.kind == .tagOpen && second.kind == .keyword then some ⟨none, some first, second⟩
    else if first.kind == .keyword then some ⟨none, none, first⟩
    else none
  | [first] => if first.kind == .keyword then some ⟨none, none, first⟩ else none
  | [] => none

/-- A head at the first token. -/
def atFirst? : List HeadToken → Option Parts
  | [] => none
  | first :: rest =>
    match first.kind with
    | .doc inside =>
      match rest with
      | [] => none
      | second :: rest =>
        if second.kind == .blank then
          (withoutDoc? rest).map fun parts => { parts with doc := some (first, inside) }
        else none
    | _ => withoutDoc? (first :: rest)

/-- The first head among the tokens. -/
def first? : List HeadToken → Option Parts
  | [] => none
  | token :: rest => atFirst? (token :: rest) <|> first? rest

/-- The head of which the tokens have been found. -/
def ofParts (text : List Char) (parts : Parts) : ComponentHead :=
  let keyword := parts.keyword.stretch
  let attributes := (text.drop keyword.stop).takeWhile fun c => c != '>' && c != '{'
  { start := ((parts.doc.map Prod.fst <|> parts.tag).getD parts.keyword).stretch.start
    stop := keyword.stop + attributes.length
    keyword := ⟨keyword.start, (text.drop keyword.start).take (keyword.stop - keyword.start)⟩
    dialect := if parts.tag.isSome then .tag else .script
    doc := parts.doc.map Prod.snd }

/-- The first head in a text. -/
def find? (text : List Char) : Option ComponentHead :=
  (first? (HeadToken.tokens text)).map (ofParts text)

end ComponentHead

/-- Whether the source is a component file that is written in script. A source without a file may be
one. -/
def Source.isScriptComponent (src : Source) : Bool :=
  (src.path.map Path.isComponent).getD true &&
    (ComponentHead.find? src.text).any fun head => head.dialect == .script

/-- Whether what stands at the position is read as script. -/
def Source.isScriptAt (src : Source) (p : Position) : Bool :=
  src.isScriptComponent || src.inCfscript p

/-- The dialect in which a source is read that may or may not declare a component. -/
def Source.dialect (src : Source) : Dialect := if src.isScriptComponent then .script else .tag

end Cfml
