/-
Where the tokens of a text stand.

The tokens of a text are the text, one behind the other: a text in which a token ends is cut into
the tokens before that place and those of what follows (`Meets`), and any other place lies within
one token (`meets_or_within`). With what a token of each kind is made of (`takes_of_next?`) it can
then be seen from the characters alone where a token begins. The documentation blocks among the
tokens are the ones that a search for nothing but such blocks finds (`docBlocks_eq`).
-/
import Cfml.Proofs.Component.HeadTokens
import Cfml.Proofs.Declaration.Header
import Cfml.Proofs.Text.Letters

set_option autoImplicit false

namespace Cfml

open JumpLexer

/-- The text is one of the two words that declare something, in any case. -/
def IsDeclaringWord (written : List Char) : Prop :=
  ∃ word ∈ ["component".toList, "interface".toList],
    List.Forall₂ (sameLetter · · = true) word written

/-- The text is a `<cf`, in any case. -/
def IsTagOpen (written : List Char) : Prop :=
  ∃ letters, written = '<' :: letters ∧ List.Forall₂ (sameLetter · · = true) ['c', 'f'] letters

/-- A word with letters of keywords is made of characters of identifiers in any case. -/
theorem isIdentifierPart_of_written {word written : List Char}
    (hword : ∀ c ∈ word, c ∈ keywordLetters)
    (h : List.Forall₂ (sameLetter · · = true) word written) :
    ∀ d ∈ written, isIdentifierPart d = true := by
  intro d hd
  by_contra hpart
  refine Tag.notMem_of_forall₂ h (fun c hc => ?_) hd
  rw [Bool.eq_false_iff]
  exact fun hsame => hpart (isIdentifierPart_of_sameLetter (hword c hc) hsame)

theorem mem_keywordLetters : ∀ word ∈ ["component".toList, "interface".toList], ∀ c ∈ word,
    c ∈ keywordLetters := by decide

theorem IsDeclaringWord.isIdentifierPart {written : List Char} (h : IsDeclaringWord written) :
    ∀ d ∈ written, isIdentifierPart d = true := by
  obtain ⟨word, hword, hwritten⟩ := h
  exact isIdentifierPart_of_written (mem_keywordLetters word hword) hwritten

theorem IsDeclaringWord.length_eq {written : List Char} (h : IsDeclaringWord written) :
    written.length = 9 := by
  obtain ⟨word, hword, hwritten⟩ := h
  have hall : ∀ word ∈ ["component".toList, "interface".toList], word.length = 9 := by decide
  rw [← hwritten.length_eq, hall word hword]

theorem IsTagOpen.isIdentifierPart_of_mem_tail {c : Char} {letters : List Char}
    (h : IsTagOpen (c :: letters)) : ∀ d ∈ letters, isIdentifierPart d = true := by
  obtain ⟨letters', heq, hletters⟩ := h
  obtain ⟨rfl, rfl⟩ := List.cons.inj heq
  have hall : ∀ c ∈ ['c', 'f'], c ∈ keywordLetters := by decide
  exact isIdentifierPart_of_written hall hletters

theorem IsTagOpen.length_eq {written : List Char} (h : IsTagOpen written) :
    written.length = 3 := by
  obtain ⟨letters, rfl, hletters⟩ := h
  rw [List.length_cons, ← hletters.length_eq]
  rfl

namespace HeadToken

variable {r later : Reader} {kind : Kind} {passed rest : List Char} {offset : Nat}

/-! ## What a token is made of -/

/-- What a token of the kind takes up, and what can then follow it. -/
def Kind.Takes : Kind → (passed rest : List Char) → Prop
  | .doc _, passed, _ => ['/', '*', '*'] <+: passed ∧ ['*', '/'] <:+ passed
  | .blank, passed, _ => ∀ c ∈ passed, isBlank c = true
  | .tagOpen, passed, rest => IsTagOpen passed ∧ ∃ written back, rest = written ++ back ∧
    IsDeclaringWord written ∧ back.head?.any isIdentifierPart = false
  | .keyword, passed, rest => IsDeclaringWord passed ∧ rest.head?.any isIdentifierPart = false
  | .word, passed, rest =>
    (∀ c ∈ passed, isIdentifierPart c = true) ∧ rest.head?.any isIdentifierPart = false
  | .other, passed, _ => ∃ c, passed = [c] ∧ isIdentifierPart c = false

/-- A documentation block goes to the first closing delimiter behind its three opening characters,
and what stands between them is its inside. -/
theorem doc?_eq_some {inside : Stretch} (h : doc? r = some (inside, later)) :
    ∃ rest, r.ahead = ['/', '*', '*'] ++ rest ∧ ['*', '/'] <:+: rest ∧
      later = r.passing (['/', '*', '*'] ++ rest.take (through ['*', '/'] rest))
        (rest.drop (through ['*', '/'] rest)) ∧
      inside.start = r.offset + 3 ∧ inside.stop + 2 = later.offset := by
  simp only [doc?, Option.bind_eq_bind, Option.bind_eq_some_iff] at h
  obtain ⟨_, hopener, hthrough⟩ := h
  obtain ⟨rest, hahead, rfl⟩ := Reader.literal?_eq_some_iff.mp hopener
  obtain ⟨hclosed, hlater, hstart, hstop⟩ := ahead_of_through?_literal (by simp) hthrough
  rw [Reader.passing_passing] at hlater
  exact ⟨rest, hahead, hclosed, hlater, hstart, hstop⟩

theorem keyword?_eq_some_iff : keyword? r = some later ↔
    ∃ written rest, IsDeclaringWord written ∧ rest.head?.any isIdentifierPart = false ∧
      r.ahead = written ++ rest ∧ later = r.passing written rest := by
  have hends : ∀ behind : Reader,
      (if behind.ahead.head?.any isIdentifierPart then none else some behind) = some later ↔
        behind = later ∧ later.ahead.head?.any isIdentifierPart = false := by
    intro behind
    split
    · next hnot =>
      refine iff_of_false (by simp) ?_
      rintro ⟨rfl, hnone⟩
      exact Bool.false_ne_true (hnone.symm.trans hnot)
    · next hnot =>
      rw [Option.some_inj, Bool.eq_false_iff]
      constructor
      · rintro rfl
        exact ⟨rfl, hnot⟩
      · exact And.left
  -- the first of the two words that is there is the only one
  have hword : ∀ behind : Reader, (r.caseless? "component".toList <|>
      r.caseless? "interface".toList) = some behind ↔ ∃ written rest, IsDeclaringWord written ∧
        r.ahead = written ++ rest ∧ behind = r.passing written rest := by
    intro behind
    constructor
    · intro h
      rcases Reader.eq_some_of_orElse h with h | h
      · obtain ⟨written, rest, hsame, hahead, hpassing⟩ := Reader.caseless?_eq_some_iff.mp h
        exact ⟨written, rest, ⟨_, by simp, hsame⟩, hahead, hpassing⟩
      · obtain ⟨written, rest, hsame, hahead, hpassing⟩ := Reader.caseless?_eq_some_iff.mp h
        exact ⟨written, rest, ⟨_, by simp, hsame⟩, hahead, hpassing⟩
    · rintro ⟨written, rest, ⟨word, hmem, hsame⟩, hahead, hpassing⟩
      have hread := Reader.caseless?_eq_some_iff.mpr ⟨written, rest, hsame, hahead, hpassing⟩
      rcases List.mem_cons.mp hmem with rfl | hmem
      · rw [hread]
        rfl
      · obtain rfl := List.mem_singleton.mp hmem
        cases hfirst : r.caseless? "component".toList with
        | none => exact hread
        | some other =>
          obtain ⟨written', rest', hsame', hahead', -⟩ := Reader.caseless?_eq_some_iff.mp hfirst
          obtain ⟨c, _, hc, -, rfl⟩ := List.forall₂_cons_left_iff.mp hsame
          obtain ⟨d, _, hd, -, rfl⟩ := List.forall₂_cons_left_iff.mp hsame'
          obtain ⟨rfl, -⟩ := List.cons.inj (hahead.symm.trans hahead')
          exact absurd (eq_of_sameLetter (by decide) (by decide) hc hd) (by decide)
  simp only [keyword?, Option.bind_eq_bind, Option.bind_eq_some_iff, hends, hword]
  constructor
  · rintro ⟨_, ⟨written, rest, hdeclaring, hahead, rfl⟩, rfl, hend⟩
    exact ⟨written, rest, hdeclaring, hend, hahead, rfl⟩
  · rintro ⟨written, rest, hdeclaring, hend, hahead, rfl⟩
    exact ⟨_, ⟨written, rest, hdeclaring, hahead, rfl⟩, rfl, hend⟩

/-- A `<cf` is a token of its own in front of a keyword. -/
theorem tagOpen?_eq_some (h : tagOpen? r = some later) : ∃ letters rest,
    List.Forall₂ (sameLetter · · = true) ['c', 'f'] letters ∧ r.ahead = ('<' :: letters) ++ rest ∧
      later = r.passing ('<' :: letters) rest ∧ (keyword? later).isSome := by
  simp only [tagOpen?, Option.bind_eq_bind, Option.bind_eq_some_iff, Option.ite_none_right_eq_some,
    Option.some.injEq] at h
  obtain ⟨_, hbracket, _, hname, hkeyword, rfl⟩ := h
  obtain ⟨c, behind, hahead, hc, rfl⟩ := Reader.one?_eq_some_iff.mp hbracket
  obtain rfl : c = '<' := by simpa using hc
  obtain ⟨letters, rest, hletters, hbehind, rfl⟩ := Reader.caseless?_eq_some_iff.mp hname
  rw [Reader.ahead_passing] at hbehind
  refine ⟨letters, rest, hletters, ?_, Reader.passing_passing .., hkeyword⟩
  rw [hahead, hbehind]
  rfl

theorem passing_inj {passed' rest' : List Char} (hahead : r.ahead = passed ++ rest)
    (hahead' : r.ahead = passed' ++ rest') (h : r.passing passed rest = r.passing passed' rest') :
    passed = passed' ∧ rest = rest' := by
  obtain rfl : rest = rest' := congrArg Reader.ahead h
  exact ⟨List.append_cancel_right (hahead.symm.trans hahead'), rfl⟩

/-- **What a token is made of**, and what follows it. -/
theorem takes_of_next? (hahead : r.ahead = passed ++ rest)
    (h : next? r = some (kind, r.passing passed rest)) : kind.Takes passed rest := by
  simp only [next?, Option.orElse_eq_orElse, Option.orElse_eq_or, Option.or_eq_some_iff,
    Option.map_eq_some_iff, Option.map_eq_none_iff, Prod.mk.injEq, Prod.exists] at h
  rcases h with ⟨inside, later, hdoc, rfl, rfl⟩ | ⟨-, h⟩
  · obtain ⟨behind, hbehind, hclosed, hlater, -⟩ := doc?_eq_some hdoc
    have hsplit : r.ahead = (['/', '*', '*'] ++ behind.take (through ['*', '/'] behind))
        ++ behind.drop (through ['*', '/'] behind) := by
      rw [hbehind, List.append_assoc, List.take_append_drop]
    obtain ⟨rfl, -⟩ := passing_inj hahead hsplit hlater
    exact ⟨List.prefix_append _ _,
      ( through_eq_of_infix (by simp) hclosed).trans (List.suffix_append _ _)⟩
  rcases h with ⟨later, hblank, rfl, rfl⟩ | ⟨-, h⟩
  · obtain ⟨blanks, hblanks, -, hall, hlater⟩ := Reader.exists_of_some? hblank
    obtain ⟨rfl, -⟩ := passing_inj hahead hblanks hlater
    exact hall
  rcases h with ⟨later, htag, rfl, rfl⟩ | ⟨-, h⟩
  · obtain ⟨letters, behind, hletters, hbehind, hlater, hkeyword⟩ := tagOpen?_eq_some htag
    obtain ⟨rfl, rfl⟩ := passing_inj hahead hbehind hlater
    obtain ⟨_, hsome⟩ := Option.isSome_iff_exists.mp hkeyword
    obtain ⟨written, back, hdeclaring, hend, hrest, -⟩ := keyword?_eq_some_iff.mp hsome
    exact ⟨⟨letters, rfl, hletters⟩, written, back, hrest, hdeclaring, hend⟩
  rcases h with ⟨later, hkeyword, rfl, rfl⟩ | ⟨-, h⟩
  · obtain ⟨written, behind, hdeclaring, hend, hbehind, hlater⟩ := keyword?_eq_some_iff.mp hkeyword
    obtain ⟨rfl, rfl⟩ := passing_inj hahead hbehind hlater
    exact ⟨hdeclaring, hend⟩
  rcases h with ⟨later, hword, rfl, rfl⟩ | ⟨hword, later, hother, rfl, rfl⟩
  · obtain ⟨word, hword', -, hall, hlater⟩ := Reader.exists_of_some? hword
    obtain ⟨rfl, hrest⟩ := passing_inj hahead hword' hlater
    refine ⟨hall, ?_⟩
    obtain ⟨first, -, hskip⟩ := Option.map_eq_some_iff.mp hword
    have hend := Reader.head?_skipWhile isIdentifierPart first
    rw [hskip] at hend
    exact hend
  · obtain ⟨c, behind, hbehind, -, hlater⟩ := Reader.one?_eq_some_iff.mp hother
    obtain ⟨rfl, -⟩ := passing_inj hahead hbehind hlater
    refine ⟨c, rfl, ?_⟩
    by_contra hpart
    rw [Bool.not_eq_false] at hpart
    rw [Reader.some?, Reader.one?_of_cons hbehind hpart] at hword
    exact absurd hword (by simp)

/-! ## Places in a text -/

/-- A token begins at the place between the two parts, or the text ends there. These are the tokens
before it. -/
def Meets (offset : Nat) (front back : List Char) (before : List HeadToken) : Prop :=
  tokensFrom offset (front ++ back) = before ++ tokensFrom (offset + front.length) back

/-- The token begins at the place between the two parts, and takes up the characters. -/
structure StandsAt (offset : Nat) (front passed rest : List Char) (t : HeadToken) : Prop where
  start : t.stretch.start = offset + front.length
  stop : t.stretch.stop = offset + front.length + passed.length
  ne_nil : passed ≠ []
  read : next? (Reader.ofText (passed ++ rest) t.stretch.start)
    = some (t.kind, (Reader.ofText (passed ++ rest) t.stretch.start).passing passed rest)

theorem StandsAt.takes {front : List Char} {t : HeadToken}
    (h : StandsAt offset front passed rest t) : t.kind.Takes passed rest :=
  takes_of_next? (r := Reader.ofText (passed ++ rest) t.stretch.start) rfl h.read

theorem StandsAt.start_lt_stop {front : List Char} {t : HeadToken}
    (h : StandsAt offset front passed rest t) : t.stretch.start < t.stretch.stop := by
  have hpos := List.length_pos_of_ne_nil h.ne_nil
  rw [h.start, h.stop]
  omega

/-- What stands in a text stands in a longer one. -/
theorem StandsAt.append {front front' : List Char} {t : HeadToken}
    (h : StandsAt (offset + front.length) front' passed rest t) :
    StandsAt offset (front ++ front') passed rest t where
  start := by rw [h.start, List.length_append, Nat.add_assoc]
  stop := by rw [h.stop, List.length_append, Nat.add_assoc offset]
  ne_nil := h.ne_nil
  read := h.read

/-- The tokens before a place are determined by it. -/
theorem Meets.unique {front back : List Char} {before before' : List HeadToken}
    (h : Meets offset front back before) (h' : Meets offset front back before') :
    before = before' :=
  List.append_cancel_right (h.symm.trans h')

theorem meets_nil (offset : Nat) (text : List Char) : Meets offset [] text [] := rfl

theorem tokensFrom_nil (offset : Nat) : tokensFrom offset [] = [] := rfl

/-- The first token of a text. -/
theorem exists_standsAt (offset : Nat) {text : List Char} (hne : text ≠ []) :
    ∃ t passed rest, text = passed ++ rest ∧ StandsAt offset [] passed rest t ∧
      tokensFrom offset text = t :: tokensFrom (offset + passed.length) rest := by
  obtain ⟨kind, c, passed, rest, hahead, hread⟩ := exists_next? (r := Reader.ofText text offset) hne
  obtain rfl : text = (c :: passed) ++ rest := hahead
  exact ⟨⟨kind, offset, offset + (c :: passed).length, Nat.le_add_right _ _⟩, c :: passed, rest,
    rfl, ⟨rfl, rfl, List.cons_ne_nil c passed, hread⟩, tokensFrom_eq_cons hread⟩

theorem exists_first_of_tokensFrom {offset : Nat} {text : List Char} {t : HeadToken}
    {behind : List HeadToken} (h : tokensFrom offset text = t :: behind) :
    ∃ passed rest, text = passed ++ rest ∧ StandsAt offset [] passed rest t ∧
      behind = tokensFrom (offset + passed.length) rest := by
  have hne : text ≠ [] := by
    rintro rfl
    exact absurd h (by simp [tokensFrom_nil])
  obtain ⟨first, passed, rest, rfl, hstands, htokens⟩ := exists_standsAt offset hne
  obtain ⟨rfl, rfl⟩ := List.cons.inj (htokens.symm.trans h)
  exact ⟨passed, rest, rfl, hstands, rfl⟩

/-- Where a part of the tokens begins, the text can be cut. -/
theorem exists_meets {offset : Nat} {text : List Char} {before : List HeadToken} {t : HeadToken}
    {behind : List HeadToken} (h : tokensFrom offset text = before ++ t :: behind) :
    ∃ front passed rest, text = front ++ (passed ++ rest) ∧
      Meets offset front (passed ++ rest) before ∧ StandsAt offset front passed rest t ∧
      behind = tokensFrom (offset + front.length + passed.length) rest := by
  induction before generalizing offset text with
  | nil =>
    obtain ⟨passed, rest, rfl, hstands, hbehind⟩ := exists_first_of_tokensFrom h
    exact ⟨[], passed, rest, rfl, meets_nil _ _, hstands, hbehind⟩
  | cons u before ih =>
    obtain ⟨passed, rest, rfl, -, hbehind⟩ := exists_first_of_tokensFrom h
    obtain ⟨front, passed', rest', rfl, hmeets, hstands', hrest⟩ := ih hbehind.symm
    refine ⟨passed ++ front, passed', rest', (List.append_assoc ..).symm, ?_, hstands'.append, ?_⟩
    · rw [Meets, List.append_assoc, List.length_append, ← Nat.add_assoc, h]
      exact congrArg (u :: ·) (hbehind.trans hmeets)
    · rw [hrest, List.length_append, Nat.add_assoc offset]

theorem exists_standsAt_of_mem {offset : Nat} {text : List Char} {t : HeadToken}
    (h : t ∈ tokensFrom offset text) : ∃ front passed rest, text = front ++ (passed ++ rest) ∧
      StandsAt offset front passed rest t := by
  obtain ⟨before, behind, hsplit⟩ := List.append_of_mem h
  obtain ⟨front, passed, rest, htext, -, hstands, -⟩ := exists_meets hsplit
  exact ⟨front, passed, rest, htext, hstands⟩

/-- **Every place lies between two tokens or within one.** The induction is on the number of
characters before the place, token by token. -/
theorem meets_or_within (offset : Nat) (front back : List Char) :
    (∃ before, Meets offset front back before) ∨
      ∃ first passed passed' behind, ∃ t ∈ tokensFrom offset (front ++ back),
        front = first ++ passed ∧ back = passed' ++ behind ∧ passed ≠ [] ∧ passed' ≠ [] ∧
          StandsAt offset first (passed ++ passed') behind t := by
  induction hlength : front.length using Nat.strongRecOn generalizing front offset with
  | ind length ih =>
    subst hlength
    by_cases hfront : front = []
    · subst hfront
      exact Or.inl ⟨[], meets_nil offset back⟩
    obtain ⟨t, passed, rest, hsplit, hstands, htokens⟩ :=
      exists_standsAt offset (List.append_ne_nil_of_left_ne_nil hfront back)
    have hmem : t ∈ tokensFrom offset (front ++ back) := by
      rw [htokens]
      exact List.mem_cons_self
    rcases List.append_eq_append_iff.mp hsplit with ⟨more, rfl, rfl⟩ | ⟨more, rfl, rfl⟩
    -- the token reaches over the place, or just up to it
    · by_cases hmore : more = []
      · subst hmore
        left
        simp only [List.append_nil, List.nil_append] at htokens
        exact ⟨[t], htokens⟩
      · right
        exact ⟨[], front, more, rest, t, hmem, rfl, rfl, hfront, hmore, hstands⟩
    · have hlt : more.length < (passed ++ more).length := by
        have := List.length_pos_of_ne_nil hstands.ne_nil
        rw [List.length_append]
        omega
      rcases ih more.length hlt (offset + passed.length) more rfl with
        ⟨before, hmeets⟩ | ⟨first, inner, inner', behind, u, hu, rfl, rfl, hne, hne', hstands'⟩
      · left
        refine ⟨t :: before, ?_⟩
        rw [Meets, htokens, show tokensFrom _ _ = _ from hmeets, List.length_append, Nat.add_assoc]
        rfl
      · right
        refine ⟨passed ++ first, inner, inner', behind, u, ?_, (List.append_assoc ..).symm, rfl,
          hne, hne', hstands'.append⟩
        rw [htokens]
        exact List.mem_cons_of_mem t hu

/-! ## Documentation blocks -/

/-- The pattern of a documentation block. -/
def docBlock : Pattern Stretch := ⟨doc?, doc?_reaches⟩

/-- The documentation blocks of a text: the leftmost ones that do not overlap, each with what stands
between its delimiters. -/
def docBlocks (text : List Char) : List (Occurrence Stretch) :=
  occurrences docBlock (Reader.ofText text 0)

/-- The documentation block that a token is, if it is one. -/
def docBlock? (t : HeadToken) : Option (Occurrence Stretch) :=
  match t.kind with
  | .doc inside => some ⟨t.stretch.start, t.stretch.stop, inside, t.stretch.start_le_stop⟩
  | _ => none

theorem mem_filterMap_docBlock?_iff {ts : List HeadToken} {o : Occurrence Stretch} :
    o ∈ ts.filterMap docBlock? ↔ ⟨.doc o.value, o.stretch⟩ ∈ ts := by
  constructor
  · intro h
    obtain ⟨⟨kind, stretch⟩, ht, hblock⟩ := List.mem_filterMap.mp h
    cases kind with
    | doc inside =>
      obtain rfl := Option.some.inj hblock
      exact ht
    | _ => exact absurd hblock (by simp [docBlock?])
  · exact fun h => List.mem_filterMap.mpr ⟨_, h, rfl⟩

/-- What is ahead decides what block is read. -/
theorem doc?_congr (r' : Reader) {inside : Stretch} (hahead : r'.ahead = r.ahead)
    (hoffset : r'.offset = r.offset) (h : doc? r = some (inside, later)) :
    ∃ later', doc? r' = some (inside, later') ∧ later'.offset = later.offset := by
  have hmoved : r.Moved 0 [] r' := ⟨by rw [hahead, List.append_nil], hoffset⟩
  have hrel := doc?_moved hmoved (by simp) (Or.inl rfl)
  rw [h] at hrel
  obtain ⟨⟨inside', later'⟩, hread, hinside, hlater⟩ := exists_of_rel hrel
  obtain rfl : inside' = inside := hinside
  exact ⟨later', hread, hlater.offset⟩

/-- A token that is a documentation block was read as one. -/
theorem StandsAt.doc? {front : List Char} {t : HeadToken} {inside : Stretch}
    (h : StandsAt offset front passed rest t) (hdoc : t.kind = .doc inside) :
    doc? (Reader.ofText (passed ++ rest) t.stretch.start) = some (inside,
      (Reader.ofText (passed ++ rest) t.stretch.start).passing passed rest) := by
  have hread := h.read
  rw [hdoc, next?, Option.orElse_eq_orElse, Option.orElse_eq_or, Option.or_eq_some_iff] at hread
  rcases hread with hread | ⟨-, hread⟩
  · obtain ⟨⟨inside', later⟩, hdoc', heq⟩ := Option.map_eq_some_iff.mp hread
    cases heq
    exact hdoc'
  · simp at hread

/-- The inside of a documentation block stands between its delimiters. -/
theorem StandsAt.inside {front : List Char} {t : HeadToken} {inside : Stretch}
    (h : StandsAt offset front passed rest t) (hdoc : t.kind = .doc inside) :
    inside.start = t.stretch.start + 3 ∧ inside.stop + 2 = t.stretch.stop := by
  obtain ⟨_, -, -, -, hstart, hstop⟩ := doc?_eq_some (h.doc? hdoc)
  refine ⟨hstart, ?_⟩
  rw [hstop, h.stop, ← h.start]
  rfl

/-- Behind the first character of a token of any other kind stand white space and characters of
identifiers only. -/
theorem isDoc_of_within {d : Char} {more : List Char} (hblank : isBlank d = false)
    (hpart : isIdentifierPart d = false) (hne : passed ≠ [])
    (h : kind.Takes (passed ++ d :: more) rest) : kind.isDoc = true := by
  have hmem : d ∈ passed ++ d :: more := by simp
  have hnot : ¬ isIdentifierPart d = true := by simp [hpart]
  cases kind with
  | doc inside => rfl
  | blank => exact absurd (hblank.symm.trans (h d hmem)) Bool.false_ne_true
  | tagOpen =>
    obtain ⟨c, passed, rfl⟩ := List.exists_cons_of_ne_nil hne
    exact absurd (h.1.isIdentifierPart_of_mem_tail d (by simp)) hnot
  | keyword => exact absurd (h.1.isIdentifierPart d hmem) hnot
  | word => exact absurd (h.1 d hmem) hnot
  | other =>
    obtain ⟨c, heq, -⟩ := h
    have hlength := congrArg List.length heq
    have hpos := List.length_pos_of_ne_nil hne
    simp at hlength
    omega

theorem exists_of_isDoc (h : kind.isDoc = true) : ∃ inside, kind = .doc inside := by
  cases kind with
  | doc inside => exact ⟨inside, rfl⟩
  | _ => exact absurd h Bool.false_ne_true

theorem pairwise_tokensFrom (offset : Nat) (text : List Char) : (tokensFrom offset text).Pairwise
    fun t u => t.stretch.stop ≤ u.stretch.start :=
  List.Pairwise.map _ (fun _ _ => id) (occurrencesFrom_pairwise next 0 offset none text)

/-- A text that begins with a documentation block has it as the first token. -/
theorem exists_first_doc {text : List Char} {inside : Stretch}
    (h : doc? (Reader.ofText text offset) = some (inside, later)) :
    ∃ t ∈ tokensFrom offset text, t.kind = .doc inside ∧ t.stretch.start = offset := by
  have hne : text ≠ [] := by
    rintro rfl
    obtain ⟨rest, hnil, -⟩ := doc?_eq_some h
    exact absurd hnil (by simp [Reader.ofText])
  obtain ⟨kind, _, t, hread, hmem, rfl, hstart⟩ := @exists_first offset text hne
  refine ⟨t, hmem, ?_, hstart⟩
  rw [next?, h] at hread
  exact (Prod.mk.inj (Option.some.inj hread)).1.symm

/-- A token that is a documentation block is one that is read in the text. -/
theorem isRead_of_mem_tokens {text : List Char} {o : Occurrence Stretch}
    (h : ⟨.doc o.value, o.stretch⟩ ∈ tokens text) : o.IsRead docBlock (Reader.ofText text 0) := by
  obtain ⟨front, passed, rest, rfl, hstands⟩ := exists_standsAt_of_mem h
  have hstart : o.start = 0 + front.length := hstands.start
  have hahead : passed ++ rest = (Reader.ofText (passed ++ rest) o.start).ahead := rfl
  obtain ⟨later, hread, hlater⟩ := doc?_congr
    ((Reader.ofText (front ++ (passed ++ rest)) 0).passing front (passed ++ rest)) hahead
    hstart.symm (hstands.doc? rfl)
  refine ⟨front, passed ++ rest, later, rfl, ?_, hstart, hread, ?_⟩
  · exact List.append_ne_nil_of_left_ne_nil hstands.ne_nil rest
  · rw [hlater, show o.stop = _ from hstands.stop, ← hstart]
    rfl

/-- A documentation block that is read in the text is a token, or begins within one. -/
theorem exists_doc_of_read {front back : List Char} {inside : Stretch}
    (h : doc? ((Reader.ofText (front ++ back) 0).passing front back) = some (inside, later)) :
    ∃ t ∈ tokens (front ++ back), t.kind.isDoc = true ∧
      t.stretch.start ≤ front.length ∧ front.length < t.stretch.stop := by
  rcases meets_or_within 0 front back with
    ⟨before, hmeets⟩ | ⟨first, passed, passed', behind, t, ht, rfl, rfl, hpassed, hpassed', hstands⟩
  · obtain ⟨later', hdoc, -⟩ := doc?_congr (Reader.ofText back (0 + front.length)) rfl rfl h
    obtain ⟨t, ht, hkind, hstart⟩ := exists_first_doc hdoc
    have hmem : t ∈ tokens (front ++ back) := by
      rw [show tokens _ = _ from hmeets]
      exact List.mem_append_right before ht
    obtain ⟨_, _, _, -, hstands⟩ := exists_standsAt_of_mem hmem
    have hlt := hstands.start_lt_stop
    refine ⟨t, hmem, ?_, by omega, by omega⟩
    rw [hkind]
    rfl
  -- the slash that begins the block is in no other token but at its start
  · obtain ⟨rest, hslash, -⟩ := doc?_eq_some h
    obtain ⟨c, more, rfl⟩ := List.exists_cons_of_ne_nil hpassed'
    obtain rfl : c = '/' := (List.cons.inj hslash).1
    refine ⟨t, ht, isDoc_of_within (by decide) (by decide) hpassed hstands.takes, ?_, ?_⟩
    · rw [hstands.start, List.length_append]
      omega
    · rw [hstands.stop, List.length_append, List.length_append, List.length_cons]
      omega

/-- **The documentation blocks are the tokens of that kind.** -/
theorem docBlocks_eq (text : List Char) : docBlocks text = (tokens text).filterMap docBlock? := by
  apply occurrences_eq_of_isRead
  · intro o ho
    obtain ⟨_, _, _, -, hstands⟩ := exists_standsAt_of_mem (mem_filterMap_docBlock?_iff.mp ho)
    exact hstands.start_lt_stop
  · exact fun o ho => isRead_of_mem_tokens (mem_filterMap_docBlock?_iff.mp ho)
  · refine (pairwise_tokensFrom 0 text).filterMap docBlock? ?_
    rintro ⟨kind, stretch⟩ ⟨kind', stretch'⟩ hle o ho o' ho'
    cases kind <;> cases kind' <;> cases ho <;> cases ho'
    exact hle
  · intro front back hahead hne hspares
    obtain rfl : text = front ++ back := hahead
    rw [Option.eq_none_iff_forall_ne_some]
    rintro ⟨inside, later⟩ hread
    obtain ⟨⟨kind, stretch⟩, ht, hdoc, hstart, hstop⟩ := exists_doc_of_read hread
    obtain ⟨inside', rfl⟩ := exists_of_isDoc hdoc
    have hspared := hspares ⟨stretch.start, stretch.stop, inside', stretch.start_le_stop⟩
      (mem_filterMap_docBlock?_iff.mpr ht)
    simp only [Occurrence.Spares, Reader.ofText] at hspared hstart hstop
    omega

theorem mem_docBlocks_iff {text : List Char} {block : Occurrence Stretch} :
    block ∈ docBlocks text ↔ ⟨.doc block.value, block.stretch⟩ ∈ tokens text := by
  rw [docBlocks_eq, mem_filterMap_docBlock?_iff]

end HeadToken

end Cfml
