/-
Texts with their comments blanked out.

Blanking puts a space for a character and leaves line breaks alone, so offsets and positions mean
the same before and after. What it puts can be no part of a delimiter, and it is never put into a
string literal: the lexer passes over what has been blanked out and takes every other step as it did
before. So there is no comment left behind (`comments_blankOut`), and whatever is found in a source
without its comments is found there again when comments are blanked out of it once more
(`Source.withoutComments_spec`).
-/
import Cfml.Declaration.Assignment
import Cfml.Declaration.Property
import Cfml.Proofs.Comment.Delimited
import Cfml.Proofs.Source.Lines

set_option autoImplicit false

namespace Cfml

namespace Source

/-! ## What blanking does to a text -/

variable {stretches : List Stretch} {offset : Nat} {text : List Char}

theorem length_blankOut (stretches : List Stretch) (offset : Nat) (text : List Char) :
    (blankOut stretches offset text).length = text.length := by
  induction text generalizing offset with
  | nil => rfl
  | cons c rest ih => rw [blankOut, List.length_cons, ih, List.length_cons]

theorem getElem?_blankOut (stretches : List Stretch) (offset : Nat) (text : List Char) (i : Nat) :
    (blankOut stretches offset text)[i]? = text[i]?.map fun c =>
      if !isLineBreak c && stretches.any (·.holds (offset + i)) then ' ' else c := by
  induction text generalizing offset i with
  | nil => rfl
  | cons c rest ih =>
    cases i with
    | zero => rfl
    | succ i => rw [blankOut, List.getElem?_cons_succ, List.getElem?_cons_succ, ih, Nat.add_assoc,
        Nat.add_comm 1]

theorem blankOut_append (stretches : List Stretch) (offset : Nat) (front back : List Char) :
    blankOut stretches offset (front ++ back) =
      blankOut stretches offset front ++ blankOut stretches (offset + front.length) back := by
  induction front generalizing offset with
  | nil => rfl
  | cons c front ih =>
    rw [List.cons_append, blankOut, blankOut, ih, List.length_cons, List.cons_append]
    apply congrArg (_ :: ·)
    apply congrArg (_ ++ blankOut stretches · back)
    omega

/-- Stretches that lie beside the text do not matter. -/
theorem blankOut_congr {stretches' : List Stretch}
    (h : ∀ o, offset ≤ o → o < offset + text.length →
      stretches.any (·.holds o) = stretches'.any (·.holds o)) :
    blankOut stretches offset text = blankOut stretches' offset text := by
  induction text generalizing offset with
  | nil => rfl
  | cons c rest ih =>
    rw [List.length_cons] at h
    have hrest : blankOut stretches (offset + 1) rest = blankOut stretches' (offset + 1) rest := by
      apply ih
      intro o hle hlt
      exact h o (by omega) (by omega)
    rw [blankOut, blankOut, hrest, h offset (Nat.le_refl _) (by omega)]

theorem blankOut_nil (offset : Nat) (text : List Char) : blankOut [] offset text = text := by
  induction text generalizing offset with
  | nil => rfl
  | cons c rest ih =>
    rw [blankOut, ih, List.any_nil, Bool.and_false]
    rfl

/-- Text that lies beside the stretches is left as it is. -/
theorem blankOut_of_beside
    (h : ∀ s ∈ stretches, s.stop ≤ offset ∨ offset + text.length ≤ s.start) :
    blankOut stretches offset text = text := by
  rw [blankOut_congr, blankOut_nil offset text]
  intro o hle hlt
  rw [List.any_nil, List.any_eq_false]
  intro s hs hholds
  have hwhere := Stretch.holds_iff.mp hholds
  rcases h s hs with hbefore | hbehind <;> omega

/-- A stretch that ends before the text does not matter. -/
theorem blankOut_cons_of_stop_le {s : Stretch} (h : s.stop ≤ offset) :
    blankOut (s :: stretches) offset text = blankOut stretches offset text := by
  apply blankOut_congr
  intro o hle _
  have hnot : s.holds o = false := by
    apply eq_false_of_ne_true
    intro hholds
    have hwhere := Stretch.holds_iff.mp hholds
    omega
  rw [List.any_cons, hnot, Bool.false_or]

/-- The character is a space or a line break. -/
def IsBlanked (c : Char) : Prop := c = ' ' ∨ isLineBreak c = true

theorem isBlanked_iff {c : Char} : IsBlanked c ↔ c ∈ [' ', '\r', '\n'] := by
  simp [IsBlanked, isLineBreak]

/-- What is put for a character that is blanked out. -/
def blankedChar (c : Char) : Char := if isLineBreak c then c else ' '

theorem isBlanked_blankedChar (c : Char) : IsBlanked (blankedChar c) := by
  unfold blankedChar
  by_cases hbreak : isLineBreak c = true
  · rw [if_pos hbreak]
    exact Or.inr hbreak
  · rw [if_neg hbreak]
    exact Or.inl rfl

/-- A stretch that covers the text blanks it out. -/
theorem blankOut_of_covered {s : Stretch} (hs : s ∈ stretches) (hstart : s.start ≤ offset)
    (hstop : offset + text.length ≤ s.stop) :
    blankOut stretches offset text = text.map blankedChar := by
  induction text generalizing offset with
  | nil => rfl
  | cons c rest ih =>
    rw [List.length_cons] at hstop
    have hany : stretches.any (·.holds offset) = true :=
      List.any_eq_true.mpr ⟨s, hs, Stretch.holds_iff.mpr ⟨hstart, by omega⟩⟩
    rw [blankOut, hany, Bool.and_true, ih (by omega) (by omega), List.map_cons, blankedChar]
    by_cases hbreak : isLineBreak c = true
    · simp only [hbreak, Bool.not_true, Bool.false_eq_true, if_false, if_true]
    · simp only [hbreak, Bool.not_false, if_true, Bool.false_eq_true, if_false]

theorem isBlanked_of_mem_blankOut {s : Stretch} (hs : s ∈ stretches) (hstart : s.start ≤ offset)
    (hstop : offset + text.length ≤ s.stop) :
    ∀ c ∈ blankOut stretches offset text, IsBlanked c := by
  intro c hc
  rw [blankOut_of_covered hs hstart hstop] at hc
  obtain ⟨d, -, rfl⟩ := List.mem_map.mp hc
  exact isBlanked_blankedChar d

/-- Line breaks stay, and no others are put. -/
theorem sameBreaks_blankOut (stretches : List Stretch) (offset : Nat) (text : List Char) :
    SameBreaks (blankOut stretches offset text) text := by
  induction text generalizing offset with
  | nil => exact .nil
  | cons c rest ih =>
    refine .cons ?_ (ih (offset + 1))
    intro hbreak
    split
    · next hblanked =>
      -- a space is no line break, and no line break has been blanked out
      rw [if_pos hblanked] at hbreak
      rw [Bool.and_eq_true, Bool.not_eq_true'] at hblanked
      rcases hbreak with hspace | hbreak
      · exact absurd hspace (by decide)
      · exact absurd hbreak (by simp [hblanked.1])
    · rfl

/-- A word without spaces that stands in the blanked text stands in the text. -/
theorem prefix_of_prefix_blankOut {word : List Char} (hspace : ' ' ∉ word)
    (h : word <+: blankOut stretches offset text) : word <+: text := by
  induction text generalizing offset word with
  | nil => exact h
  | cons c rest ih =>
    cases word with
    | nil => exact List.nil_prefix
    | cons d word =>
      obtain ⟨hd, hrest⟩ := List.cons_prefix_cons.mp h
      rw [List.mem_cons, not_or] at hspace
      split at hd
      · exact absurd hd.symm hspace.1
      · exact List.cons_prefix_cons.mpr ⟨hd, ih hspace.2 hrest⟩

end Source

/-! ## The lexer on blanked text -/

namespace JumpLexer

open Source

variable {dialect : Dialect} {form : CommentForm}

/-- No delimiter begins with what is put, and none of it is a quote. -/
theorem opener_of_isBlanked (hform : form ∈ dialect.comments) {c : Char} (h : IsBlanked c)
    (rest : List Char) : ¬ form.opener <+: c :: rest := by
  have hall : ∀ form ∈ Dialect.script.comments ++ Dialect.tag.comments,
      ∃ d opener, form.opener = d :: opener ∧ d ≠ ' ' ∧ isLineBreak d = false := by
    simp only [Dialect.comments, List.cons_append, List.nil_append, List.forall_mem_cons]
    refine ⟨⟨'/', ['/'], rfl, ?_⟩, ⟨'/', ['*'], rfl, ?_⟩, ⟨'<', ['!', '-', '-', '-'], rfl, ?_⟩, ?_⟩
    · decide
    · decide
    · decide
    · simp
  obtain ⟨d, opener, hopener, hspace, hbreak⟩ := hall form (mem_forms hform)
  intro hbegins
  rw [hopener] at hbegins
  obtain rfl := (List.cons_prefix_cons.mp hbegins).1
  rcases h with rfl | h
  · exact hspace rfl
  · exact absurd h (by simp [hbreak])

theorem isQuote_of_isBlanked {c : Char} (h : IsBlanked c) : isQuote c = false := by
  have hall : ∀ c ∈ [' ', '\r', '\n'], isQuote c = false := by decide
  exact hall c (isBlanked_iff.mp h)

/-- The lexer passes over what has been blanked out. -/
theorem comments_append_of_isBlanked {front : List Char} (h : ∀ c ∈ front, IsBlanked c)
    (offset : Nat) (rest : List Char) :
    comments dialect offset (front ++ rest) = comments dialect (offset + front.length) rest := by
  induction front generalizing offset with
  | nil => rfl
  | cons c front ih =>
    obtain ⟨hc, hfront⟩ := List.forall_mem_cons.mp h
    have hquote : (dialect == .script && isQuote c) = false := by
      rw [isQuote_of_isBlanked hc, Bool.and_false]
    rw [List.cons_append, CommentScan.comments_cons offset _ hquote fun form hform =>
      opener_of_isBlanked hform hc _, ih hfront, List.length_cons]
    apply congrArg (comments dialect · rest)
    omega

/-- A string literal is as long as it is whatever follows it. -/
theorem literal_append {quote : Char} {odd : Bool} {text front back back' : List Char}
    (htext : text = front ++ back) (hfront : front.length = literal quote odd text)
    (hback : back.length = back'.length) : literal quote odd (front ++ back') = front.length := by
  induction front generalizing text odd with
  | nil =>
    obtain rfl : text = back := htext
    cases text with
    | nil =>
      obtain rfl := List.length_eq_zero_iff.mp hback.symm
      rfl
    -- a literal has the character that closes it
    | cons c rest =>
      rw [literal] at hfront
      split at hfront <;> simp at hfront
  | cons c front ih =>
    subst htext
    rw [List.cons_append, literal] at hfront ⊢
    split
    · next hclose =>
      rw [if_pos hclose] at hfront
      exact hfront.symm
    · next hclose =>
      rw [if_neg hclose, List.length_cons] at hfront
      rw [ih rfl (Nat.succ.inj hfront), List.length_cons]

/-! ### What the lexer finds in blanked text

One lemma for each rule of the lexer, for stretches that do not start before what the rule takes. -/

variable {stretches : List Stretch} {offset : Nat}

/-- A comment that is blanked out is passed over. -/
theorem comments_blankOut_form {s : Stretch} (rest : List Char) (hstart : s.start = offset)
    (hstop : s.stop = offset + (form.opener.length + toEnd form rest)) :
    comments dialect offset (blankOut (s :: stretches) offset (form.opener ++ rest))
      = comments dialect s.stop (blankOut stretches s.stop (rest.drop (toEnd form rest))) := by
  let passed := form.opener ++ rest.take (toEnd form rest)
  have hpassed : offset + passed.length = s.stop := by
    rw [hstop, List.length_append, List.length_take, Nat.min_eq_left (toEnd_le_length form rest)]
  have hsplit : form.opener ++ rest = passed ++ rest.drop (toEnd form rest) := by
    rw [List.append_assoc, List.take_append_drop]
  have hblanked : ∀ c ∈ blankOut (s :: stretches) offset passed, IsBlanked c := by
    apply isBlanked_of_mem_blankOut List.mem_cons_self
    · exact Nat.le_of_eq hstart
    · exact Nat.le_of_eq hpassed
  rw [hsplit, blankOut_append, comments_append_of_isBlanked hblanked, length_blankOut, hpassed,
    blankOut_cons_of_stop_le (Nat.le_refl _)]

/-- A string literal is left as it is, and passed over as before. -/
theorem comments_blankOut_quote {quote : Char} (hquote : isQuote quote = true) (rest : List Char)
    (hbehind : ∀ s ∈ stretches, offset + 1 + literal quote false rest ≤ s.start) :
    comments .script offset (blankOut stretches offset (quote :: rest))
      = comments .script (offset + 1 + literal quote false rest)
        (blankOut stretches (offset + 1 + literal quote false rest)
          (rest.drop (literal quote false rest))) := by
  let n := literal quote false rest
  have hlength : (rest.take n).length = n := by
    rw [List.length_take, Nat.min_eq_left (literal_le_length quote false rest)]
  have hliteral : blankOut stretches offset (quote :: rest.take n) = quote :: rest.take n := by
    apply blankOut_of_beside
    intro s hs
    have hle := hbehind s hs
    right
    rw [List.length_cons, hlength]
    omega
  have hsplit : quote :: rest = quote :: rest.take n ++ rest.drop n := by
    rw [List.cons_append, List.take_append_drop]
  have hstart : offset + (quote :: rest.take n).length = offset + 1 + n := by
    rw [List.length_cons, hlength]
    omega
  have hsame : literal quote false
      (rest.take n ++ blankOut stretches (offset + 1 + n) (rest.drop n))
        = (rest.take n).length := by
    apply literal_append (List.take_append_drop n rest).symm hlength
    rw [length_blankOut]
  rw [hsplit, blankOut_append, hliteral, hstart, List.cons_append,
    CommentScan.comments_quote hquote, hsame, List.drop_left, hlength]

/-- Any other character is left as it is, and no delimiter begins with it that did not before. -/
theorem comments_blankOut_cons {c : Char} {rest : List Char}
    (hquote : (dialect == .script && isQuote c) = false)
    (hnone : ∀ form ∈ dialect.comments, ¬ form.opener <+: c :: rest)
    (hbehind : ∀ s ∈ stretches, offset + 1 ≤ s.start) :
    comments dialect offset (blankOut stretches offset (c :: rest))
      = comments dialect (offset + 1) (blankOut stretches (offset + 1) rest) := by
  have hkept : blankOut stretches offset [c] = [c] := by
    apply blankOut_of_beside
    intro s hs
    right
    exact hbehind s hs
  have hcons : blankOut stretches offset (c :: rest)
      = c :: blankOut stretches (offset + 1) rest := by
    have happend := blankOut_append stretches offset [c] rest
    rw [hkept] at happend
    exact happend
  have hspace : ∀ form ∈ dialect.comments, ' ' ∉ form.opener := by
    cases dialect <;> decide
  have hnone' : ∀ form ∈ dialect.comments,
      ¬ form.opener <+: c :: blankOut stretches (offset + 1) rest := by
    intro form hform hbegins
    rw [← hcons] at hbegins
    exact hnone form hform (prefix_of_prefix_blankOut (hspace form hform) hbegins)
  rw [hcons, CommentScan.comments_cons offset _ hquote hnone']

/-- **No comment is left behind.** -/
theorem comments_blankOut (dialect : Dialect) (offset : Nat) (text : List Char) :
    comments dialect offset (blankOut (comments dialect offset text) offset text) = [] := by
  -- what is found behind a rule starts where the rule ends, or further on
  have hbehind : ∀ offset text, ∀ s ∈ comments dialect offset text, offset ≤ s.start :=
    fun offset text s hs => (comments_within _ _ _ s hs).1
  induction text using rule_induction dialect generalizing offset with
  | nil => exact comments_nil dialect offset
  | comment form hform rest ih =>
    rw [comments_form hform]
    refine (comments_blankOut_form rest ?_ ?_).trans (ih _)
    · rfl
    · rfl
  | string quote rest hscript hquote ih =>
    subst hscript
    rw [CommentScan.comments_quote hquote, comments_blankOut_quote hquote rest (hbehind _ _)]
    exact ih _
  | code c rest hquote hnone ih =>
    rw [CommentScan.comments_cons offset rest hquote hnone,
      comments_blankOut_cons hquote hnone (hbehind _ _)]
    exact ih _

end JumpLexer

/-! ## Sources without their comments -/

namespace Source

variable {src : Source} {dialect : Dialect} {fast : Bool}

theorem sameBreaks_withoutComments (src : Source) (dialect : Dialect) (fast : Bool) :
    SameBreaks (src.withoutComments dialect fast).text src.text := sameBreaks_blankOut _ 0 src.text

/-- Outside of its comments a source is left as it is. -/
theorem getElem?_withoutComments {i : Nat}
    (h : ∀ c ∈ src.comments dialect none fast, (src.stretchOf c).holds i = false) :
    (src.withoutComments dialect fast).text[i]? = src.text[i]? := by
  have hnone :
      ((src.comments dialect none fast).map src.stretchOf).any (·.holds (0 + i)) = false := by
    rw [Nat.zero_add, List.any_map, List.any_eq_false]
    intro c hc
    rw [Function.comp_apply, h c hc]
    exact Bool.false_ne_true
  apply (getElem?_blankOut _ 0 src.text i).trans
  rw [hnone]
  simp

/-- It has the line breaks of the source. -/
theorem getElem?_withoutComments_eq_break (src : Source) (dialect : Dialect) (fast : Bool) (i : Nat)
    {c : Char} (hbreak : isLineBreak c = true) :
    (src.withoutComments dialect fast).text[i]? = some c ↔ src.text[i]? = some c := by
  rw [withoutComments, ofText, getElem?_blankOut]
  cases htext : src.text[i]? with
  | none => simp
  | some d =>
    rw [Option.map_some, Option.some_inj, Option.some_inj]
    split
    · next hblanked =>
      -- a space is no line break, and no line break has been blanked out
      rw [Bool.and_eq_true, Bool.not_eq_true'] at hblanked
      constructor
      · rintro rfl
        exact absurd hbreak (by decide)
      · rintro rfl
        exact absurd hbreak (by simp [hblanked.1])
    · rfl

/-- In script nothing is embedded, so the comments are those of the one scan. -/
theorem comments_script (src : Source) :
    src.comments .script none false = (JumpLexer.comments .script 0 src.text).map src.spanOf := by
  have hscanned : src.scannedComments .script none
      = (JumpLexer.comments .script 0 src.text).map src.spanOf := by
    rw [scannedComments_eq, bounds, slice_all]
  have haccurate : src.commentsAccurate .script none = src.scannedComments .script none := by
    simp [commentsAccurate, embeddedSpans, Spans.covers]
  rw [comments, if_neg Bool.false_ne_true, haccurate, hscanned]
  apply Spans.normalize_of_perm (List.Perm.refl _)
  rw [Spans.Apart, List.pairwise_map]
  exact (JumpLexer.comments_pairwise .script 0 src.text).imp fun h => src.position_mono h

theorem text_withoutComments_script (src : Source) : (src.withoutComments .script false).text
    = blankOut (JumpLexer.comments .script 0 src.text) 0 src.text := by
  have hstretches : (src.comments .script none false).map src.stretchOf
      = JumpLexer.comments .script 0 src.text := by
    rw [comments_script, List.map_map]
    apply (List.map_congr_left _).trans (List.map_id _)
    intro c hc
    have hcomment := isComment_of_mem_comments_text hc
    exact stretchOf_spanOf hcomment.place_start hcomment.place_stop
  rw [withoutComments, ofText, hstretches]

/-- **No comment is left**, so there is nothing to blank out a second time. -/
theorem comments_withoutComments_script (src : Source) :
    (src.withoutComments .script false).comments .script none false = [] := by
  rw [comments_script, text_withoutComments_script, JumpLexer.comments_blankOut, List.map_nil]

theorem withoutComments_script_idem (src : Source) :
    (src.withoutComments .script false).withoutComments .script false
      = src.withoutComments .script false := by
  rw [withoutComments, comments_withoutComments_script, List.map_nil, blankOut_nil]
  rfl

theorem spanOf_withoutComments (src : Source) (dialect : Dialect) (fast : Bool) :
    (src.withoutComments dialect fast).spanOf = src.spanOf :=
  spanOf_of_sameBreaks (src.sameBreaks_withoutComments dialect fast)

/-! ### What is declared -/

theorem scriptFunctions_withoutComments (src : Source) :
    (src.withoutComments .script false).scriptFunctions .script = src.scriptFunctions .script := by
  rw [scriptFunctions, scriptFunctions, withoutComments_script_idem]
  apply List.map_congr_left
  intro found _
  -- a declaration has its spans by the positions of the source
  rw [FunctionDecl.ofHeader, FunctionDecl.ofHeader, spanOf_withoutComments]

theorem properties_withoutComments (src : Source) :
    (src.withoutComments .script false).properties .script = src.properties .script := by
  rw [properties, properties, withoutComments_script_idem]

theorem assignments_withoutComments (src : Source) (within : Option Span) :
    (src.withoutComments .script false).assignments .script within
      = src.assignments .script within := by
  rw [assignments, assignments, withoutComments_script_idem, spanOf_withoutComments]

/-- **Blanking out comments changes nothing but comments.** Whichever comments are blanked out, the
text keeps its length, its line breaks, the position of every offset, and all characters outside of
comments. In script that is scanned accurately no comment is left, blanking out once more changes
nothing, and the declarations found are those of the source itself. -/
theorem withoutComments_spec (src : Source) :
    (∀ dialect fast,
      (src.withoutComments dialect fast).length = src.length ∧
      (∀ (i : Nat) (c : Char), isLineBreak c = true →
        ((src.withoutComments dialect fast).text[i]? = some c ↔ src.text[i]? = some c)) ∧
      (∀ offset : Int,
        (src.withoutComments dialect fast).positionAt offset = src.positionAt offset) ∧
      ∀ i : Nat, (∀ c ∈ src.comments dialect none fast, (src.stretchOf c).holds i = false) →
        (src.withoutComments dialect fast).text[i]? = src.text[i]?) ∧
    (src.withoutComments .script false).comments .script none false = [] ∧
    (src.withoutComments .script false).withoutComments .script false
      = src.withoutComments .script false ∧
    (src.withoutComments .script false).scriptFunctions .script = src.scriptFunctions .script ∧
    (src.withoutComments .script false).properties .script = src.properties .script ∧
    ∀ within, (src.withoutComments .script false).assignments .script within
      = src.assignments .script within := by
  refine ⟨?_, src.comments_withoutComments_script, src.withoutComments_script_idem,
    src.scriptFunctions_withoutComments, src.properties_withoutComments,
    src.assignments_withoutComments⟩
  intro dialect fast
  have hbreaks := src.sameBreaks_withoutComments dialect fast
  refine ⟨hbreaks.length_eq, ?_, ?_, ?_⟩
  · intro i c hbreak
    exact src.getElem?_withoutComments_eq_break dialect fast i hbreak
  · intro offset
    exact position_of_sameBreaks hbreaks offset.toNat
  · intro i houtside
    exact getElem?_withoutComments houtside

end Source

end Cfml
