/-
The same functions, however lines end.

The words of a declaration up to its arguments are read by steps that correspond. Where it ends is
looked for character by character, past string literals and brackets; line breaks are none of these,
so both searches stop at the same character (`firstUnnestedFrom_restyle`,
`closingIndexFrom_restyle`) and the declaration ends at the corresponding offset (`stop_restyle`).
With the tags and the comments this makes the whole analysis independent of how lines end
(`LineEnd.analysis_restyle`).
-/
import Cfml.Proofs.Declaration.Outside
import Cfml.Proofs.LineEnd.Comments

set_option autoImplicit false

namespace Cfml

variable {e : LineEnd} {text : List Char}

/-! ## Headers -/

namespace FunctionDecl

variable {r r' : Reader}

/-- The headers have the same words, and their names stand at corresponding places. -/
structure Header.Restyled (e : LineEnd) (text : List Char) (header header' : Header) : Prop where
  access_eq : header'.access = header.access
  isStatic_eq : header'.isStatic = header.isStatic
  returnType_eq : header'.returnType = header.returnType
  name : header.name.Restyled e text header'.name

theorem modifier?_restyled {word : List Char} (hword : ∀ c ∈ word, isLineBreak c = false)
    (h : r.Restyled e text r') :
    Option.Rel (fun found found' => found.1.Restyled e text found'.1 ∧
        found.2.Restyled e text found'.2) (modifier? word r) (modifier? word r') := by
  apply rel_bind (h.caseless? hword)
  intro behind behind' hbehind
  apply rel_bind ((h.step hbehind).some? (by decide))
  intro later later' hlater
  exact .some ⟨hbehind.upTo h, hlater⟩

theorem type?_restyled (h : r.Restyled e text r') :
    Option.Rel (fun found found' => found.1.Restyled e text found'.1 ∧
        found.2.Restyled e text found'.2) (type? r) (type? r') := by
  apply rel_bind (h.name? (by decide) (by decide))
  rintro ⟨name, behind⟩ ⟨name', behind'⟩ ⟨-, hname⟩
  have hbrackets := hname.trans ((h.step hname).getD_literal? ['[', ']'] (by decide))
  apply rel_bind ((h.step hbrackets).some? (by decide))
  intro later later' hlater
  exact .some ⟨hbrackets.upTo h, hlater⟩

theorem signature?_restyled (h : r.Restyled e text r') :
    Option.Rel (fun found found' => found.1.Restyled e text found'.1 ∧
        found.2.Restyled e text found'.2) (signature? r) (signature? r') := by
  apply rel_bind (modifier?_restyled (by decide) h)
  rintro ⟨word, behind⟩ ⟨word', behind'⟩ ⟨-, hword⟩
  apply rel_bind (hword.name? (by decide) (by decide))
  rintro ⟨name, last⟩ ⟨name', last'⟩ ⟨hcapture, hname⟩
  have hblanks := (hword.step hname).skipWhile (p := isBlank) (by decide)
  apply rel_bind (hblanks.one? (by decide))
  intro later later' hlater
  exact .some ⟨hcapture, hblanks.step hlater⟩

theorem anyModifier_restyled (words : List (List Char))
    (hwords : ∀ word ∈ words, ∀ c ∈ word, isLineBreak c = false) (h : r.Restyled e text r') :
    (anyModifier words r').1 = (anyModifier words r).1 ∧
      (anyModifier words r).2.Restyled e text (anyModifier words r').2 := by
  have hfound : Option.Rel _ (words.findSome? (modifier? · r)) (words.findSome? (modifier? · r')) :=
    rel_findSome? fun word hword => modifier?_restyled (hwords word hword) h
  unfold anyModifier
  generalize words.findSome? (modifier? · r) = found, words.findSome? (modifier? · r') = found'
    at hfound ⊢
  cases hfound with
  | some hword => exact ⟨congrArg some hword.1.2, hword.2⟩
  | none => exact ⟨rfl, h⟩

theorem typed?_restyled (h : r.Restyled e text r') :
    Option.Rel (fun found found' => found'.1.1 = found.1.1 ∧
        found.1.2.Restyled e text found'.1.2 ∧ found.2.Restyled e text found'.2)
      (typed? r) (typed? r') := by
  apply rel_orElse
  · apply rel_bind (type?_restyled h)
    rintro ⟨type, behind⟩ ⟨type', behind'⟩ ⟨htype, hbehind⟩
    apply rel_bind (signature?_restyled hbehind)
    rintro ⟨name, later⟩ ⟨name', later'⟩ ⟨hname, hlater⟩
    exact .some ⟨congrArg some htype.2, hname, hlater⟩
  · apply rel_map (signature?_restyled h)
    rintro ⟨name, later⟩ ⟨name', later'⟩ ⟨hname, hlater⟩
    exact ⟨rfl, hname, hlater⟩

theorem header?_restyled (h : r.Restyled e text r') :
    Option.Rel (fun found found' => found.1.Restyled e text found'.1 ∧
        found.2.Restyled e text found'.2) (header? r) (header? r') := by
  have hafter : (r'.isAfter fun c => isIdentifierPart c || c == '.') =
      r.isAfter fun c => isIdentifierPart c || c == '.' := h.before _ (by decide)
  unfold header?
  rw [hafter]
  split
  · exact .none
  · obtain ⟨haccess, hbehind⟩ := anyModifier_restyled accessWords (by decide) h
    obtain ⟨hstatic, hlast⟩ := anyModifier_restyled ["static".toList] (by decide) hbehind
    apply rel_bind (typed?_restyled hlast)
    rintro ⟨⟨type, name⟩, later⟩ ⟨⟨type', name'⟩, later'⟩ ⟨htype, hname, hlater⟩
    exact .some ⟨⟨haccess, congrArg Option.isSome hstatic, htype, hname⟩, hlater⟩

/-- The parenthesis that opens the arguments is read. -/
theorem signature?_advances {later : Reader} {name : Capture}
    (h : signature? r = some (name, later)) : r.offset < later.offset := by
  simp only [signature?, Option.bind_eq_bind, Option.bind_eq_some_iff, Prod.exists] at h
  obtain ⟨_, _, hword, _, behind, hname, _, hopen, heq⟩ := h
  obtain ⟨-, rfl⟩ := by simpa using heq
  have hreaches := ((modifier?_reaches hword).trans (Reader.name?_reaches hname)).trans
    behind.blanks_reaches
  exact Nat.lt_of_le_of_lt hreaches.offset_le (Reader.one?_advances hopen)

theorem typed?_advances {later : Reader} {found : Option (List Char) × Capture}
    (h : typed? r = some (found, later)) : r.offset < later.offset := by
  rcases Reader.eq_some_of_orElse h with htyped | huntyped
  · simp only [Option.bind_eq_bind, Option.bind_eq_some_iff, Prod.exists] at htyped
    obtain ⟨_, _, htype, _, _, hsignature, heq⟩ := htyped
    obtain ⟨-, rfl⟩ := by simpa using heq
    exact Nat.lt_of_le_of_lt (type?_reaches htype).offset_le (signature?_advances hsignature)
  · simp only [Option.map_eq_some_iff, Prod.exists] at huntyped
    obtain ⟨_, _, hsignature, heq⟩ := huntyped
    obtain ⟨-, rfl⟩ := by simpa using heq
    exact signature?_advances hsignature

theorem restyles_header : header.Restyles e text (Header.Restyled e text) where
  read := header?_restyled
  read_lineBreak {r} h := by
    cases hread : header.read r with
    | none => rfl
    | some found =>
      -- a line break is no visible character
      obtain ⟨c, rest, hahead, hc⟩ := atVisible_of_header? hread
      rw [hahead] at h
      exact absurd (Or.inr h) hc
  advances {r later found} h := by
    change header? r = _ at h
    unfold header? at h
    split at h
    · exact absurd h (by simp)
    · simp only [Option.bind_eq_bind, Option.bind_eq_some_iff, Prod.exists] at h
      obtain ⟨_, _, _, htyped, heq⟩ := h
      obtain ⟨-, rfl⟩ := by simpa using heq
      have hreaches := (anyModifier_reaches accessWords r).trans
        (anyModifier_reaches ["static".toList] _)
      exact Nat.lt_of_le_of_lt hreaches.offset_le (typed?_advances htyped)

end FunctionDecl

/-! ## Searches at the top level -/

/-- The characters with these indices, in the text and in the one with the line ending, are the same
one, and it is no line break. -/
structure LineEnd.SameCharacter (e : LineEnd) (text : List Char) (i i' : Nat) : Prop where
  lt : i < text.length
  eq : i' = e.offset text i
  behind : e.offset text (i + 1) = i' + 1

theorem LineEnd.sameCharacter_of_prefix {c : Char} {rest : List Char} {i : Nat}
    (h : c :: rest <+: text.drop i) (hc : c ≠ '\n') : e.SameCharacter text i (e.offset text i) where
  lt := by
    have hle := h.length_le
    rw [List.length_cons, List.length_drop] at hle
    omega
  eq := rfl
  behind := by
    have hstop := e.offset_succ_of_prefix h
    rwa [e.restyle_cons hc] at hstop

namespace StringState

variable {s : StringState} {c : Char}

/-- The delimiter, if there is one, is a quote. -/
def IsQuoted (s : StringState) : Prop := s.delimiter.all isQuote = true

theorem isQuoted_outside : outside.IsQuoted := rfl

theorem IsQuoted.advance (h : s.IsQuoted) (c : Char) : (s.advance c).IsQuoted := by
  obtain ⟨delimiter, embedded⟩ := s
  cases delimiter with
  | none =>
    by_cases hc : isQuote c = true <;> simp [IsQuoted, StringState.advance, hc]
  | some quote =>
    unfold StringState.advance
    simp only
    split
    · exact h
    · split
      · exact isQuoted_outside
      · exact h

/-- A line break is part of a literal like any other character. -/
theorem advance_lineBreak (h : s.IsQuoted) (hc : isLineBreak c = true) : s.advance c = s := by
  have hnot : ∀ d, isLineBreak d = false → (c == d) = false := fun d hd =>
    beq_eq_false_iff_ne.mpr (ne_of_isLineBreak hc hd)
  obtain ⟨delimiter, embedded⟩ := s
  cases delimiter with
  | none => simp [advance, isQuote, hnot '"' (by decide), hnot '\'' (by decide)]
  | some quote =>
    simp [advance, hnot quote (JumpLexer.isLineBreak_of_isQuote h), hnot '#' (by decide)]

end StringState

section Nesting

variable {targets : List Char} {opening : Option Char} {closing c : Char} {string : StringState}
  {brackets : Brackets} {t : List Char} {depth i : Nat}

/-! Both searches pass over line breaks, in a string literal and out of it. -/

theorem firstUnnestedFrom_lineBreak (htargets : ∀ c ∈ targets, isLineBreak c = false)
    (hstring : string.IsQuoted) (i : Nat) (c : Char) (t : List Char) (hc : isLineBreak c = true) :
    firstUnnestedFrom targets i string brackets (c :: t) =
      firstUnnestedFrom targets (i + 1) string brackets t := by
  have htarget : targets.contains c = false := by
    rw [← Bool.not_eq_true, List.contains_iff_mem]
    exact fun hmem => ne_of_isLineBreak hc (htargets c hmem) rfl
  have hbracket : BracketKind.of? c = none := by
    rcases Bool.or_eq_true_iff.mp hc with heq | heq
    · exact beq_iff_eq.mp heq ▸ rfl
    · exact beq_iff_eq.mp heq ▸ rfl
  have hfeed : brackets.feed? targets c = none := by
    rw [Brackets.feed?, htarget, hbracket]
    rfl
  rw [firstUnnestedFrom]
  simp only [StringState.advance_lineBreak hstring hc, hfeed, htarget, Bool.false_and,
    Bool.false_eq_true, if_false, ite_self]

theorem closingIndexFrom_lineBreak (hopening : ∀ c ∈ opening, isLineBreak c = false)
    (hclosing : isLineBreak closing = false) (hstring : string.IsQuoted) (i : Nat) (c : Char)
    (t : List Char) (hc : isLineBreak c = true) :
    closingIndexFrom opening closing i depth string (c :: t) =
      closingIndexFrom opening closing (i + 1) depth string t := by
  have hopens : (opening == some c) = false := by
    rw [beq_eq_false_iff_ne]
    exact fun heq => ne_of_isLineBreak hc (hopening c heq) rfl
  have hcloses : (c == closing) = false :=
    beq_eq_false_iff_ne.mpr (ne_of_isLineBreak hc hclosing)
  rw [closingIndexFrom.eq_def]
  simp only [StringState.advance_lineBreak hstring hc, hopens, hcloses, Bool.false_eq_true,
    if_false, ite_self]

/-- **The search past brackets stops at the same character.** -/
theorem firstUnnestedFrom_restyle (htargets : ∀ c ∈ targets, isLineBreak c = false)
    (hstring : string.IsQuoted) (h : t <+: text.drop i) :
    Option.Rel (e.SameCharacter text) (firstUnnestedFrom targets i string brackets t)
      (firstUnnestedFrom targets (e.offset text i) string brackets (e.restyle t)) := by
  induction t generalizing i string brackets with
  | nil => exact .none
  | cons c rest ih =>
    have hbehind := prefix_drop_succ h
    by_cases hc : c = '\n'
    · subst hc
      have hpass := @firstUnnestedFrom_lineBreak _ _ brackets htargets hstring
      rw [hpass _ _ _ rfl, e.pass_feed hpass h]
      exact ih hstring hbehind
    · have hsame := e.sameCharacter_of_prefix h hc
      have hnext := hstring.advance c
      rw [e.restyle_cons hc, firstUnnestedFrom, firstUnnestedFrom, ← hsame.behind]
      split
      · exact ih hnext hbehind
      · split
        · exact ih hnext hbehind
        · split
          · exact .some hsame
          · exact ih hnext hbehind

/-- **The search for the end of a pair stops at the same character.** -/
theorem closingIndexFrom_restyle (hopening : ∀ c ∈ opening, isLineBreak c = false)
    (hclosing : isLineBreak closing = false) (hstring : string.IsQuoted) (h : t <+: text.drop i) :
    Option.Rel (e.SameCharacter text) (closingIndexFrom opening closing i depth string t)
      (closingIndexFrom opening closing (e.offset text i) depth string (e.restyle t)) := by
  induction t generalizing i depth string with
  | nil => exact .none
  | cons c rest ih =>
    have hbehind := prefix_drop_succ h
    by_cases hc : c = '\n'
    · subst hc
      have hpass := @closingIndexFrom_lineBreak _ _ _ depth hopening hclosing hstring
      rw [hpass _ _ _ rfl, e.pass_feed hpass h]
      exact ih hstring hbehind
    · have hsame := e.sameCharacter_of_prefix h hc
      have hnext := hstring.advance c
      rw [e.restyle_cons hc, closingIndexFrom.eq_def, closingIndexFrom.eq_def _ _ _ _ _ (c :: _),
        ← hsame.behind]
      simp only
      split
      · exact ih hnext hbehind
      · split
        · exact ih hnext hbehind
        · split
          · split
            · exact .some hsame
            · exact ih hnext hbehind
          · exact ih hnext hbehind

theorem firstUnnested_restyle (targets : List Char)
    (htargets : ∀ c ∈ targets, isLineBreak c = false)
    (text : List Char) : Option.Rel (e.SameCharacter text) (firstUnnested targets text)
      (firstUnnested targets (e.restyle text)) :=
  firstUnnestedFrom_restyle htargets StringState.isQuoted_outside (List.prefix_refl text)

/-- No pair begins with a line break. -/
theorem isLineBreak_of_mem_openingOf? (closing : Char) :
    ∀ c ∈ openingOf? closing, isLineBreak c = false := by
  intro c hc
  rw [Option.mem_def] at hc
  unfold openingOf? at hc
  split at hc <;> cases hc <;> rfl

theorem closingIndex_restyle (closing : Char) (hclosing : isLineBreak closing = false)
    (text : List Char) : Option.Rel (e.SameCharacter text) (closingIndex closing text)
      (closingIndex closing (e.restyle text)) :=
  closingIndexFrom_restyle (isLineBreak_of_mem_openingOf? closing) hclosing
    StringState.isQuoted_outside (List.prefix_refl text)

end Nesting

/-! ## Where declarations end -/

namespace LineEnd

variable (e) {a i i' o : Nat} {p : Char → Bool}

/-- Just behind the same character, found in what is left. -/
theorem SameCharacter.offset_behind (h : e.SameCharacter (text.drop a) i i') :
    e.offset text a + i' + 1 = e.offset text (a + i + 1) := by
  rw [Nat.add_assoc, ← h.behind, ← e.offset_add, Nat.add_assoc]

theorem SameCharacter.behind_le (h : e.SameCharacter (text.drop a) i i') :
    a + i + 1 ≤ text.length := by
  have hlt := h.lt
  rw [List.length_drop] at hlt
  omega

/-- The character before corresponding offsets, or the first one where there is none before. -/
theorem any_getElem?_restyle (hp : p '\r' = p '\n') (ho : o ≤ text.length) :
    (e.restyle text)[e.offset text o - 1]?.any p = text[o - 1]?.any p := by
  cases o with
  | zero =>
    have hhead := e.any_head?_restyle hp text
    rwa [List.head?_eq_getElem?, List.head?_eq_getElem?] at hhead
  | succ o =>
    have hlast : ∀ {text : List Char} {n : Nat}, 0 < n → n ≤ text.length →
        (text.take n).getLast? = text[n - 1]? := by
      intro text n hpos hle
      rw [List.getLast?_take, if_neg (by omega), List.getElem?_eq_getElem (by omega)]
      rfl
    have hnonempty : 0 < text.length := Nat.lt_of_lt_of_le (Nat.succ_pos o) ho
    have hpos := (e.offset_lt_iff hnonempty).mpr (Nat.succ_pos o)
    have hle : e.offset text (o + 1) ≤ (e.restyle text).length :=
      e.offset_length text ▸ e.offset_mono text ho
    have hgetLast : ((e.restyle (text.take (o + 1))).getLast?.or none).any p =
        ((text.take (o + 1)).getLast?.or none).any p := e.any_getLast?_restyle hp rfl _
    rwa [Option.or_none, Option.or_none, ← e.take_restyle, hlast hpos hle,
      hlast (Nat.succ_pos o) ho] at hgetLast

end LineEnd

namespace FunctionDecl

theorem opener_restyle (text : List Char) (o : Nat) :
    opener (e.restyle text) (e.offset text o) = e.offset text (opener text o) ∧
      opener text o ≤ text.length := by
  have hfound := firstUnnested_restyle (e := e) ['{', ';'] (by decide) (text.drop o)
  unfold opener
  rw [e.drop_restyle]
  generalize firstUnnested ['{', ';'] (text.drop o) = found,
    firstUnnested ['{', ';'] (e.restyle (text.drop o)) = found' at hfound ⊢
  cases hfound with
  | some hsame => exact ⟨hsame.offset_behind, hsame.behind_le⟩
  | none => exact ⟨(e.offset_length text).symm, Nat.le_refl _⟩

theorem beq_some_eq_any (found : Option Char) (c : Char) :
    (found == some c) = found.any (· == c) := by
  cases found <;> rfl

theorem stopBehind_restyle (text : List Char) (o : Nat) :
    stopBehind (e.restyle text) (e.offset text o) = e.offset text (stopBehind text o) := by
  obtain ⟨hopener, hle⟩ := opener_restyle (e := e) text o
  have hfound := closingIndex_restyle (e := e) '}' (by decide) (text.drop (opener text o))
  unfold stopBehind
  simp only [hopener, beq_some_eq_any, e.drop_restyle]
  rw [e.any_getElem?_restyle (by decide) hle, e.any_getElem?_restyle (by decide) hle]
  split
  -- a body in braces
  · generalize closingIndex '}' (text.drop (opener text o)) = found,
      closingIndex '}' (e.restyle (text.drop (opener text o))) = found' at hfound ⊢
    cases hfound with
    | some hsame => exact hsame.offset_behind
    | none => exact (e.offset_length text).symm
  · split <;> rfl

/-- **A declaration ends at the corresponding offset.** -/
theorem stop_restyle (text : List Char) (arguments : Nat) :
    stop (e.restyle text) (e.offset text arguments) = e.offset text (stop text arguments) := by
  have hfound := closingIndex_restyle (e := e) ')' (by decide) (text.drop arguments)
  unfold stop
  rw [e.drop_restyle]
  generalize closingIndex ')' (text.drop arguments) = found,
    closingIndex ')' (e.restyle (text.drop arguments)) = found' at hfound ⊢
  cases hfound with
  | some hsame =>
    simp only [hsame.offset_behind]
    exact stopBehind_restyle text _
  | none => rfl

/-- Declarations with corresponding headers are the same. -/
theorem ofHeader_restyle {src src' : Source} {found found' : Occurrence Header}
    (hspan : ∀ s, src'.spanOf (e.stretch text s) = src.spanOf s)
    (hstretch : found'.stretch = e.stretch text found.stretch)
    (hheader : found.value.Restyled e text found'.value) :
    ofHeader src' (e.restyle text) found' = ofHeader src text found := by
  have hstart : found'.start = e.offset text found.start := congrArg Stretch.start hstretch
  have hstop : stop (e.restyle text) found'.stop = e.offset text (stop text found.stop) := by
    rw [show found'.stop = e.offset text found.stop from congrArg Stretch.stop hstretch]
    exact stop_restyle text found.stop
  have hwhole : src'.spanOf ⟨found'.start, stop (e.restyle text) found'.stop,
      Nat.le_trans found'.start_le_stop (le_stop _ _)⟩ = src.spanOf ⟨found.start,
        stop text found.stop, Nat.le_trans found.start_le_stop (le_stop _ _)⟩ := by
    rw [← hspan]
    exact congrArg src'.spanOf (Stretch.ends_inj _ _ (Prod.ext hstart hstop))
  obtain ⟨hname, hword⟩ := hheader.name
  simp only [ofHeader, hheader.access_eq, hheader.isStatic_eq, hheader.returnType_eq, hword, hname,
    hspan, hwhole]

end FunctionDecl

/-! ## The analysis -/

/-- **The functions are the same.** -/
theorem Source.Restyled.scriptFunctions_eq {src src' : Source} (h : src.Restyled e src')
    (dialect : Dialect) : src'.scriptFunctions dialect = src.scriptFunctions dialect := by
  have hclean := h.withoutComments dialect false
  apply map_eq_of_forall₂ (hclean.occurrencesIn none FunctionDecl.restyles_header)
  rintro found found' ⟨hstretch, hheader⟩
  rw [hclean.text_eq]
  apply FunctionDecl.ofHeader_restyle _ hstretch hheader
  intro s
  rw [← src'.spanOf_withoutComments dialect false, hclean.spanOf_eq, src.spanOf_withoutComments]

/-- **How lines end makes no difference.** A text without carriage returns and the same text with
another line ending for each line feed have the same comments, whichever way one looks for them, the
same tags with any name, and the same functions in script, all of them at the same positions. -/
theorem LineEnd.analysis_restyle (e : LineEnd) (text : List Char) (path : Option Path)
    (h : '\r' ∉ text) :
    let src := Source.ofText text path
    let src' := Source.ofText (e.restyle text) path
    (∀ dialect within fast,
      src'.comments dialect within fast = src.comments dialect within fast) ∧
    (∀ name within, (∀ c ∈ name, isWord c = true) → src'.tags name within = src.tags name within) ∧
    ∀ dialect, src'.scriptFunctions dialect = src.scriptFunctions dialect := by
  intro src src'
  have hrestyled : src.Restyled e src' := ⟨rfl, h⟩
  refine ⟨hrestyled.comments_eq, ?_, hrestyled.scriptFunctions_eq⟩
  intro name within hname
  apply hrestyled.tags_eq
  intro c hc
  -- no line break is a character of a word
  rw [isLineBreak_eq_false_iff]
  constructor
  · rintro rfl
    exact absurd (hname _ hc) (by decide)
  · rintro rfl
    exact absurd (hname _ hc) (by decide)

/-- A comment to the end of the line, a tag over two lines and a function over three, with a
carriage return and a line feed at the end of each line. -/
theorem LineEnd.analysis_restyle_pair :
    let text := "// isn't\n<cfif\na>b</cfif>\nfunction f(\n) \x7b\n\x7d".toList
    let src := Source.ofText text none
    let src' := Source.ofText (pair.restyle text) none
    '\r' ∉ text ∧ (∀ c ∈ "cfif".toList, isWord c = true) ∧
      pair.restyle text =
        "// isn't\r\n<cfif\r\na>b</cfif>\r\nfunction f(\r\n) \x7b\r\n\x7d".toList ∧
      src'.comments .script none true = src.comments .script none true ∧
      (src'.tags "cfif".toList none).map Tag.body = [⟨⟨2, 2⟩, ⟨2, 3⟩, by decide⟩] ∧
      (src'.scriptFunctions .script).map FunctionDecl.span = [⟨⟨3, 0⟩, ⟨5, 1⟩, by decide⟩] := by
  intro text src src'
  have hreturn : '\r' ∉ text := by decide
  have hword : ∀ c ∈ "cfif".toList, isWord c = true := by decide
  obtain ⟨hcomments, htags, hfunctions⟩ := pair.analysis_restyle text none hreturn
  refine ⟨hreturn, hword, by decide, hcomments .script none true, ?_, ?_⟩
  · rw [htags "cfif".toList none hword]
    decide
  · rw [hfunctions .script]
    decide +kernel

end Cfml
