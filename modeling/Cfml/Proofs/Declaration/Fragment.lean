/-
Fragments of script.

A fragment is a piece of script in which nothing is left open: each string literal is complete,
each comment is closed, and brackets are matched. Wherever a fragment stands, the lexer of comments
blanks out the comments in it and goes on behind it as if nothing had been there
(`Fragment.cleans`), and the search for a closing bracket passes over what is left
(`Fragment.skips`).
-/
import Cfml.Proofs.Comment.Blanked

set_option autoImplicit false

namespace Cfml

/-! ## What a fragment is made of -/

/-- The characters that open and close a pair of brackets. -/
def BracketKind.opening : BracketKind → Char
  | brace => '{'
  | square => '['
  | paren => '('

@[inherit_doc BracketKind.opening]
def BracketKind.closing : BracketKind → Char
  | brace => '}'
  | square => ']'
  | paren => ')'

/-- What can stand between the quotes of a literal: characters other than the quote, with number
signs in pairs, and anything between the signs of a pair. -/
inductive LiteralBody (quote : Char) : List Char → Prop
  | nil : LiteralBody quote []
  | char {c : Char} {rest : List Char} (hquote : c ≠ quote) (hsign : c ≠ '#')
      (hrest : LiteralBody quote rest) : LiteralBody quote (c :: rest)
  | embedded {inside rest : List Char} (hinside : '#' ∉ inside)
      (hrest : LiteralBody quote rest) : LiteralBody quote ('#' :: (inside ++ '#' :: rest))

/-- A string literal that is complete. -/
structure StringLiteral where
  quote : Char
  body : List Char
  isDelimiter : isQuote quote = true
  complete : LiteralBody quote body

def StringLiteral.text (l : StringLiteral) : List Char := l.quote :: (l.body ++ [l.quote])

/-- A comment that is closed: one to the end of the line with the line break, or one between
delimiters. -/
inductive ClosedComment where
  | line (inside : List Char) (ending : Char) (oneLine : ∀ c ∈ inside, isLineBreak c = false)
      (isEnding : isLineBreak ending = true)
  | block (inside : List Char) (notClosed : ¬ ['*', '/'] <:+: inside)

def ClosedComment.text : ClosedComment → List Char
  | line inside ending _ _ => CommentForm.scriptLine.opener ++ (inside ++ [ending])
  | block inside _ => CommentForm.scriptBlock.opener ++ (inside ++ CommentForm.scriptBlock.closer)

/-- The comment blanked out. -/
def ClosedComment.blanked (c : ClosedComment) : List Char := c.text.map Source.blankedChar

/-- A character that begins neither a literal nor a comment and is no bracket. -/
def isCode (c : Char) : Bool := !isQuote c && (BracketKind.of? c).isNone && c != '/'

/-- A piece of script in which nothing is left open. -/
inductive Fragment where
  | nil
  | code (c : Char) (isCode : isCode c = true) (rest : Fragment)
  | literal (l : StringLiteral) (rest : Fragment)
  | comment (c : ClosedComment) (rest : Fragment)
  | nested (kind : BracketKind) (inside rest : Fragment)

namespace Fragment

/-- The fragment as it is written, if comments are written in this way. -/
def render (comment : ClosedComment → List Char) : Fragment → List Char
  | nil => []
  | code c _ rest => c :: rest.render comment
  | literal l rest => l.text ++ rest.render comment
  | .comment c rest => comment c ++ rest.render comment
  | nested kind inside rest =>
    kind.opening :: (inside.render comment ++ kind.closing :: rest.render comment)

/-- The text of the fragment. -/
def text (f : Fragment) : List Char := f.render ClosedComment.text

/-- The text of the fragment with its comments blanked out. -/
def withoutComments (f : Fragment) : List Char := f.render ClosedComment.blanked

theorem length_withoutComments (f : Fragment) : f.withoutComments.length = f.text.length := by
  unfold withoutComments text
  induction f with
  | nil => rfl
  | code c _ rest ih => rw [render, render, List.length_cons, List.length_cons, ih]
  | literal l rest ih => rw [render, render, List.length_append, List.length_append, ih]
  | comment c rest ih =>
    rw [render, render, List.length_append, List.length_append, ih, ClosedComment.blanked,
      List.length_map]
  | nested kind inside rest ih ih' =>
    simp only [render, List.length_cons, List.length_append, ih, ih']

end Fragment

/-! ## Literals -/

namespace JumpLexer

/-- Within a pair of number signs nothing closes the literal. -/
theorem literal_embedded {quote : Char} {inside : List Char} (hinside : '#' ∉ inside)
    (rest : List Char) :
    literal quote true (inside ++ '#' :: rest) = inside.length + 1 + literal quote false rest := by
  induction inside with
  | nil =>
    rw [List.nil_append, literal, Bool.not_true, Bool.and_false, if_neg Bool.false_ne_true,
      if_pos (beq_self_eq_true '#'), List.length_nil]
    omega
  | cons c inside ih =>
    rw [List.mem_cons, not_or] at hinside
    rw [List.cons_append, literal, Bool.not_true, Bool.and_false, if_neg Bool.false_ne_true,
      if_neg (by simpa using Ne.symm hinside.1), ih hinside.2, List.length_cons]
    omega

/-- A literal goes to its closing quote. -/
theorem literal_of_literalBody {quote : Char} (hquote : isQuote quote = true) {body : List Char}
    (hbody : LiteralBody quote body) (rest : List Char) :
    literal quote false (body ++ quote :: rest) = body.length + 1 := by
  induction hbody with
  | nil =>
    rw [List.nil_append, literal, beq_self_eq_true, Bool.not_false, Bool.and_true, if_pos rfl]
    rfl
  | char hc hsign _ ih =>
    rw [List.cons_append, literal, if_neg (by simpa using hc), if_neg (by simpa using hsign), ih,
      List.length_cons]
  | embedded hinside _ ih =>
    have hsign : ('#' == quote) = false := by
      apply beq_false_of_ne
      rintro rfl
      exact absurd hquote (by decide)
    rw [List.cons_append, List.append_assoc, List.cons_append, literal, hsign, Bool.false_and,
      if_neg Bool.false_ne_true, if_pos (beq_self_eq_true '#'), Bool.not_false,
      literal_embedded hinside, ih]
    simp only [List.length_cons, List.length_append]
    omega

end JumpLexer

theorem StringLiteral.literal_text (l : StringLiteral) (rest : List Char) :
    JumpLexer.literal l.quote false (l.body ++ l.quote :: rest) = l.body.length + 1 :=
  JumpLexer.literal_of_literalBody l.isDelimiter l.complete rest

/-- Behind the closing quote the rest follows. -/
theorem StringLiteral.drop_text (l : StringLiteral) (rest : List Char) :
    (l.body ++ l.quote :: rest).drop (l.body.length + 1) = rest := by
  rw [List.append_cons]
  exact List.drop_left' List.length_append

/-! ## Comments in a fragment -/

open JumpLexer Source

/-- The text with the comments blanked out that script has in it. -/
def blankedScript (offset : Nat) (text : List Char) : List Char :=
  blankOut (JumpLexer.comments .script offset text) offset text

/-- What is left of the text when comments are blanked out, wherever it stands and whatever follows
it. -/
def Cleans (text left : List Char) : Prop := ∀ offset rest,
  blankedScript offset (text ++ rest) = left ++ blankedScript (offset + text.length) rest

theorem cleans_nil : Cleans [] [] := fun _ _ => rfl

theorem Cleans.append {text text' left left' : List Char} (h : Cleans text left)
    (h' : Cleans text' left') : Cleans (text ++ text') (left ++ left') := by
  intro offset rest
  rw [List.append_assoc, h, h', List.append_assoc, List.length_append, Nat.add_assoc]

/-- Text is left as it is if the lexer goes on behind it. -/
theorem cleans_of_comments {text : List Char} (h : ∀ offset rest,
    JumpLexer.comments .script offset (text ++ rest)
      = JumpLexer.comments .script (offset + text.length) rest) : Cleans text text := by
  intro offset rest
  have hbeside : blankOut (JumpLexer.comments .script (offset + text.length) rest) offset text
      = text := by
    apply blankOut_of_beside
    intro s hs
    right
    exact (comments_within _ _ _ s hs).1
  rw [blankedScript, h, blankOut_append, hbeside]
  rfl

/-- No comment begins with a character other than a slash. -/
theorem cleans_char {c : Char} (hquote : isQuote c = false) (hslash : c ≠ '/') :
    Cleans [c] [c] := by
  apply cleans_of_comments
  intro offset rest
  apply CommentScan.comments_cons
  · rw [hquote, Bool.and_false]
  · have hall : ∀ form ∈ Dialect.script.comments, form.opener.head? = some '/' := by decide
    intro form hform hopener
    obtain ⟨more, hmore⟩ := List.head?_eq_some_iff.mp (hall form hform)
    rw [hmore] at hopener
    exact hslash (List.cons_prefix_cons.mp hopener).1.symm

theorem cleans_of_forall {text : List Char} (h : ∀ c ∈ text, isQuote c = false ∧ c ≠ '/') :
    Cleans text text := by
  induction text with
  | nil => exact cleans_nil
  | cons c rest ih =>
    obtain ⟨⟨hquote, hslash⟩, hrest⟩ := List.forall_mem_cons.mp h
    exact (cleans_char hquote hslash).append (ih hrest)

theorem cleans_literal (l : StringLiteral) : Cleans l.text l.text := by
  apply cleans_of_comments
  intro offset rest
  rw [StringLiteral.text, List.cons_append, List.append_assoc, List.singleton_append,
    CommentScan.comments_quote l.isDelimiter, l.literal_text, l.drop_text, List.length_cons,
    List.length_append, List.length_singleton]
  apply congrArg (JumpLexer.comments .script · rest)
  omega

/-- A comment is blanked out up to its end. -/
theorem blankedScript_form {form : CommentForm} (hform : form ∈ Dialect.script.comments)
    {inside rest : List Char} (hend : toEnd form (inside ++ rest) = inside.length) (offset : Nat) :
    blankedScript offset (form.opener ++ inside ++ rest)
      = (form.opener ++ inside).map blankedChar
        ++ blankedScript (offset + (form.opener ++ inside).length) rest := by
  let passed := form.opener ++ inside
  let comment : Stretch := ⟨offset, offset + passed.length, Nat.le_add_right _ _⟩
  have hfound : JumpLexer.comments .script offset (passed ++ rest)
      = comment :: JumpLexer.comments .script (offset + passed.length) rest := by
    rw [List.append_assoc, comments_form hform, hend, List.drop_left, ← List.length_append]
  have hcovered : blankOut (comment :: JumpLexer.comments .script (offset + passed.length) rest)
      offset passed = passed.map blankedChar :=
    blankOut_of_covered List.mem_cons_self (Nat.le_refl _) (Nat.le_refl _)
  rw [blankedScript, hfound, blankOut_append, hcovered, blankOut_cons_of_stop_le (Nat.le_refl _)]
  rfl

/-- The line break behind a comment is not in it. -/
theorem cleans_line {inside : List Char} {ending : Char}
    (oneLine : ∀ c ∈ inside, isLineBreak c = false) (isEnding : isLineBreak ending = true) :
    let passed := CommentForm.scriptLine.opener ++ inside
    Cleans (passed ++ [ending]) (passed.map blankedChar ++ [ending]) := by
  intro passed
  have hend : ∀ rest, toEnd .scriptLine (inside ++ ending :: rest) = inside.length := by
    have hinside : ∀ c ∈ inside, (!isLineBreak c) = true := by
      intro c hc
      rw [oneLine c hc]
      rfl
    intro rest
    show (List.takeWhile (fun c => !isLineBreak c) (inside ++ ending :: rest)).length = _
    rw [List.takeWhile_append_of_pos hinside, List.takeWhile_cons_of_neg (by simp [isEnding]),
      List.append_nil]
  have hbreak : Cleans [ending] [ending] := by
    apply cleans_char (isQuote_of_isBlanked (Or.inr isEnding))
    rintro rfl
    exact absurd isEnding (by decide)
  intro offset rest
  calc blankedScript offset (passed ++ [ending] ++ rest)
      = blankedScript offset (passed ++ ending :: rest) := by rw [List.append_assoc]; rfl
    _ = passed.map blankedChar ++ blankedScript (offset + passed.length) ([ending] ++ rest) :=
      blankedScript_form (by decide) (hend rest) offset
    _ = passed.map blankedChar ++ [ending]
        ++ blankedScript (offset + (passed ++ [ending]).length) rest := by
      rw [hbreak, List.append_assoc, Nat.add_assoc, ← List.length_append]

/-- A comment between delimiters ends with the first closing one. -/
theorem cleans_block {inside : List Char} (notClosed : ¬ ['*', '/'] <:+: inside) :
    let text := CommentForm.scriptBlock.opener ++ (inside ++ CommentForm.scriptBlock.closer)
    Cleans text (text.map blankedChar) := by
  intro text offset rest
  let closer := CommentForm.scriptBlock.closer
  have hnot : ¬ closer <:+: inside ++ closer.dropLast := by
    have hdrop : closer.dropLast = ['*'] := rfl
    rw [hdrop, List.infix_concat_iff, not_or]
    refine ⟨?_, notClosed⟩
    rintro ⟨front, hfront⟩
    have hlast := congrArg List.getLast? hfront
    simp [closer, CommentForm.scriptBlock] at hlast
  have hend : toEnd .scriptBlock (inside ++ closer ++ rest) = (inside ++ closer).length := by
    rw [List.length_append]
    exact through_append (by decide) inside rest hnot
  exact blankedScript_form (by decide) hend offset

theorem cleans_comment (c : ClosedComment) : Cleans c.text c.blanked := by
  cases c with
  | line inside ending oneLine isEnding =>
    have hkept : [ending].map blankedChar = [ending] := by
      rw [List.map_singleton, blankedChar, if_pos isEnding]
    have htext : ClosedComment.text (.line inside ending oneLine isEnding)
        = CommentForm.scriptLine.opener ++ inside ++ [ending] := (List.append_assoc _ _ _).symm
    rw [ClosedComment.blanked, htext, List.map_append, hkept]
    exact cleans_line oneLine isEnding
  | block inside notClosed => exact cleans_block notClosed

theorem isCode_iff {c : Char} : isCode c = true ↔
    isQuote c = false ∧ BracketKind.of? c = none ∧ c ≠ '/' := by
  simp [isCode, and_assoc]

theorem isCode_of_isBlanked {c : Char} (h : IsBlanked c) : isCode c = true := by
  have hall : ∀ c ∈ [' ', '\r', '\n'], isCode c = true := by decide
  exact hall c (isBlanked_iff.mp h)

theorem BracketKind.ne_of_of?_eq_none (kind : BracketKind) {c : Char} (h : of? c = none) :
    c ≠ kind.opening ∧ c ≠ kind.closing := by
  constructor
  · rintro rfl
    cases kind <;> exact absurd h (by decide)
  · rintro rfl
    cases kind <;> exact absurd h (by decide)

/-- With a bracket neither a literal nor a comment begins. -/
theorem BracketKind.not_isQuote_opening (kind : BracketKind) :
    isQuote kind.opening = false ∧ kind.opening ≠ '/' := by
  cases kind <;> decide

theorem BracketKind.not_isQuote_closing (kind : BracketKind) :
    isQuote kind.closing = false ∧ kind.closing ≠ '/' := by
  cases kind <;> decide

/-- **The comments of a fragment are blanked out**, wherever the fragment stands. -/
theorem Fragment.cleans (f : Fragment) : Cleans f.text f.withoutComments := by
  unfold text withoutComments
  induction f with
  | nil => exact cleans_nil
  | code c hcode rest ih =>
    obtain ⟨hquote, -, hslash⟩ := isCode_iff.mp hcode
    exact (cleans_char hquote hslash).append ih
  | literal l rest ih => exact (cleans_literal l).append ih
  | comment c rest ih => exact (cleans_comment c).append ih
  | nested kind inside rest ih ih' =>
    obtain ⟨hquote, hslash⟩ := kind.not_isQuote_opening
    obtain ⟨hquote', hslash'⟩ := kind.not_isQuote_closing
    exact (cleans_char hquote hslash).append (ih.append ((cleans_char hquote' hslash').append ih'))

/-! ## Brackets in a fragment -/

section Searching

variable {opening : Option Char} {closing c : Char} {index depth : Nat} {string : StringState}
  {rest : List Char}

/-- What belongs to a literal is passed over. -/
theorem closingIndexFrom_cons_of_inString
    (h : (string.inString || (string.advance c).inString) = true) :
    closingIndexFrom opening closing index depth string (c :: rest)
      = closingIndexFrom opening closing (index + 1) depth (string.advance c) rest := by
  conv_lhs => unfold closingIndexFrom
  exact if_pos h

/-- A literal that is open is passed over up to its closing quote. -/
theorem closingIndexFrom_literal {quote : Char} (odd : Bool) (hquote : isQuote quote = true) :
    closingIndexFrom opening closing index depth ⟨some quote, odd⟩ rest
      = closingIndexFrom opening closing (index + literal quote odd rest) depth .outside
        (rest.drop (literal quote odd rest)) := by
  have hsign : ('#' == quote) = false := by
    apply beq_false_of_ne
    rintro rfl
    exact absurd hquote (by decide)
  induction rest generalizing index odd with
  | nil => rfl
  | cons c rest ih =>
    rw [closingIndexFrom_cons_of_inString rfl, literal, StringState.advance]
    simp only
    by_cases hc : c = '#'
    · subst hc
      rw [hsign, Bool.false_and, if_pos (beq_self_eq_true '#'), if_neg Bool.false_ne_true, ih,
        if_pos (beq_self_eq_true '#'), List.drop_succ_cons, Nat.add_assoc, Nat.add_comm 1]
    · have hother : ¬ (c == '#') = true := by simpa using hc
      rw [if_neg hother, if_neg hother, Bool.and_comm]
      by_cases hclose : (c == quote && !odd) = true
      · rw [if_pos hclose, if_pos hclose]
        rfl
      · rw [if_neg hclose, if_neg hclose, ih, List.drop_succ_cons, Nat.add_assoc, Nat.add_comm 1]

theorem advance_outside (hquote : isQuote c = false) :
    StringState.outside.advance c = .outside := by
  show (if isQuote c then _ else _) = _
  rw [hquote, if_neg Bool.false_ne_true]

/-- Outside of literals the brackets of the pair are followed. -/
theorem closingIndexFrom_cons (hquote : isQuote c = false) :
    closingIndexFrom opening closing index depth .outside (c :: rest)
      = if opening == some c then
          closingIndexFrom opening closing (index + 1) (depth + 1) .outside rest
        else if c == closing then
          match depth with
          | 0 => some index
          | depth + 1 => closingIndexFrom opening closing (index + 1) depth .outside rest
        else closingIndexFrom opening closing (index + 1) depth .outside rest := by
  conv_lhs => unfold closingIndexFrom
  rw [advance_outside hquote]
  exact if_neg Bool.false_ne_true

end Searching

/-- The search for the bracket that closes a pair passes over the text. -/
def Skips (pair : BracketKind) (text : List Char) : Prop := ∀ index depth rest,
  closingIndexFrom (some pair.opening) pair.closing index depth .outside (text ++ rest)
    = closingIndexFrom (some pair.opening) pair.closing (index + text.length) depth .outside rest

variable {pair : BracketKind}

theorem skips_nil : Skips pair [] := fun _ _ _ => rfl

theorem Skips.append {text text' : List Char} (h : Skips pair text) (h' : Skips pair text') :
    Skips pair (text ++ text') := by
  intro index depth rest
  rw [List.append_assoc, h, h', List.length_append, Nat.add_assoc]

/-- A character that is neither a quote nor a bracket of the pair is passed over. -/
theorem skips_char {c : Char} (hquote : isQuote c = false) (hopening : c ≠ pair.opening)
    (hclosing : c ≠ pair.closing) : Skips pair [c] := by
  intro index depth rest
  rw [List.singleton_append, closingIndexFrom_cons hquote, if_neg (by simpa using hopening.symm),
    if_neg (by simpa using hclosing)]
  rfl

theorem skips_code {text : List Char} (h : ∀ c ∈ text, isCode c = true) : Skips pair text := by
  induction text with
  | nil => exact skips_nil
  | cons c rest ih =>
    obtain ⟨hcode, hrest⟩ := List.forall_mem_cons.mp h
    obtain ⟨hquote, hbracket, -⟩ := isCode_iff.mp hcode
    obtain ⟨hopening, hclosing⟩ := pair.ne_of_of?_eq_none hbracket
    exact (skips_char hquote hopening hclosing).append (ih hrest)

theorem skips_literal (l : StringLiteral) : Skips pair l.text := by
  intro index depth rest
  have hadvance : StringState.outside.advance l.quote = ⟨some l.quote, false⟩ := by
    show (if isQuote l.quote then _ else _) = _
    rw [if_pos l.isDelimiter]
  rw [StringLiteral.text, List.cons_append, List.append_assoc, List.singleton_append,
    closingIndexFrom_cons_of_inString (by rw [hadvance]; rfl), hadvance,
    closingIndexFrom_literal false l.isDelimiter, l.literal_text, l.drop_text, List.length_cons,
    List.length_append, List.length_singleton]
  apply congrArg (closingIndexFrom _ _ · depth .outside rest)
  omega

/-- A pair of the same kind is closed before the one that is looked for. -/
theorem skips_nested (kind : BracketKind) {inside : List Char} (h : Skips pair inside) :
    Skips pair (kind.opening :: (inside ++ [kind.closing])) := by
  obtain ⟨hquote, -⟩ := kind.not_isQuote_opening
  obtain ⟨hquote', -⟩ := kind.not_isQuote_closing
  by_cases hkind : kind = pair
  · subst hkind
    have hne : ¬ (some kind.opening == some kind.closing) = true := by cases kind <;> decide
    intro index depth rest
    rw [List.cons_append, closingIndexFrom_cons hquote, if_pos (beq_self_eq_true _),
      List.append_assoc, h, List.singleton_append, closingIndexFrom_cons hquote', if_neg hne,
      if_pos (beq_self_eq_true _), List.length_cons, List.length_append, List.length_singleton]
    apply congrArg (closingIndexFrom _ _ · depth .outside rest)
    omega
  · have hne : ∀ kind' : BracketKind, kind' ≠ kind → kind.opening ≠ kind'.opening ∧
        kind.opening ≠ kind'.closing ∧ kind.closing ≠ kind'.opening ∧
          kind.closing ≠ kind'.closing := by
      intro kind' hkind'
      cases kind <;> cases kind' <;> first | decide | exact absurd rfl hkind'
    obtain ⟨h1, h2, h3, h4⟩ := hne pair (Ne.symm hkind)
    exact (skips_char hquote h1 h2).append (h.append (skips_char hquote' h3 h4))

/-- **No bracket is left open in a fragment**, so the search for a closing bracket passes over it.
Comments must not be in the way. -/
theorem Fragment.skips (f : Fragment) : Skips pair f.withoutComments := by
  unfold withoutComments
  induction f with
  | nil => exact skips_nil
  | code c hcode rest ih =>
    have hchar : Skips pair [c] := skips_code (List.forall_mem_singleton.mpr hcode)
    exact hchar.append ih
  | literal l rest ih => exact (skips_literal l).append ih
  | comment c rest ih =>
    have hblanked : Skips pair c.blanked := by
      apply skips_code
      intro d hd
      obtain ⟨d, -, rfl⟩ := List.mem_map.mp hd
      exact isCode_of_isBlanked (isBlanked_blankedChar d)
    exact hblanked.append ih
  | nested kind inside rest ih ih' =>
    have h := (skips_nested kind ih).append ih'
    rw [List.cons_append, List.append_assoc] at h
    exact h

theorem BracketKind.openingOf?_closing (kind : BracketKind) :
    openingOf? kind.closing = some kind.opening := by
  cases kind <;> rfl

/-- The bracket behind a fragment closes what was opened before it. -/
theorem Fragment.closingIndex_eq (f : Fragment) (pair : BracketKind) (rest : List Char) :
    closingIndex pair.closing (f.withoutComments ++ pair.closing :: rest)
      = some f.withoutComments.length := by
  have hne : ¬ (some pair.opening == some pair.closing) = true := by cases pair <;> decide
  rw [closingIndex, pair.openingOf?_closing, f.skips,
    closingIndexFrom_cons pair.not_isQuote_closing.1, if_neg hne, if_pos (beq_self_eq_true _),
    Nat.zero_add]

end Cfml
