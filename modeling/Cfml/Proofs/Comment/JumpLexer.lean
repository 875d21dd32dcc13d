/-
A lexer of comments that jumps.

The scan of `Cfml.Comment.Scan` goes through a text one character at a time and recognises a
delimiter when its last character arrives. The lexer here looks ahead instead: where a comment or a
string literal begins, it finds the end of it and goes on from there. Both find the same comments in
every text (`scanComments_eq_jumpComments`).

Between two jumps the scan knows the characters since the last one, and the lexer stands at some
place among them. What makes the two meet is `Quiet`: no opening delimiter begins among the
characters that the scan remembers. An opening delimiter at the place of the lexer is then the one
that the scan recognises first, because all opening delimiters of a dialect have one length.
-/
import Cfml.Comment.Scan
import Mathlib.Data.List.Infix

set_option autoImplicit false

namespace Cfml

/-! ## The lexer -/

namespace JumpLexer

/-- The number of characters before the first place where the delimiter stands. -/
def distance? (delimiter : List Char) : List Char → Option Nat
  | [] => none
  | c :: rest =>
    if delimiter.isPrefixOf (c :: rest) then some 0
    else (distance? delimiter rest).map (· + 1)

/-- The number of characters up to and with the first closing delimiter, or of all if there is
none. -/
def through (closer text : List Char) : Nat :=
  match distance? closer text with
  | some n => n + closer.length
  | none => text.length

/-- The number of characters up to the end of the line. -/
def toLineEnd (text : List Char) : Nat := (text.takeWhile (!isLineBreak ·)).length

/-- The number of characters of a string literal behind its opening quote. The quote closes it
unless an odd number of number signs stands before; a literal that is not closed goes to the end. -/
def literal (quote : Char) (odd : Bool) : List Char → Nat
  | [] => 0
  | c :: rest =>
    if c == quote && !odd then 1
    else literal quote (if c == '#' then !odd else odd) rest + 1

/-- The comments of a text in script that begins at the offset `offset`. -/
def script (offset : Nat) : List Char → List Stretch
  | '/' :: '/' :: rest =>
    let n := toLineEnd rest
    ⟨offset, offset + 2 + n, by omega⟩ :: script (offset + 2 + n) (rest.drop n)
  | '/' :: '*' :: rest =>
    let n := through ['*', '/'] rest
    ⟨offset, offset + 2 + n, by omega⟩ :: script (offset + 2 + n) (rest.drop n)
  | c :: rest =>
    if isQuote c then script (offset + 1 + literal c false rest) (rest.drop (literal c false rest))
    else script (offset + 1) rest
  | [] => []
termination_by text => text.length

/-- The comments of a text in tag markup that begins at the offset `offset`. -/
def tag (offset : Nat) : List Char → List Stretch
  | '<' :: '!' :: '-' :: '-' :: '-' :: rest =>
    let n := through ['-', '-', '-', '>'] rest
    ⟨offset, offset + 5 + n, by omega⟩ :: tag (offset + 5 + n) (rest.drop n)
  | _ :: rest => tag (offset + 1) rest
  | [] => []
termination_by text => text.length

/-- The comments of a text that begins at the offset `offset`. -/
def comments : Dialect → Nat → List Char → List Stretch
  | .script => script
  | .tag => tag

/-! ## Where a delimiter stands first -/

theorem distance?_eq_some_iff {delimiter text : List Char} (hne : delimiter ≠ []) {n : Nat} :
    distance? delimiter text = some n ↔
      delimiter <+: text.drop n ∧ ∀ m < n, ¬ delimiter <+: text.drop m := by
  induction text generalizing n with
  | nil => simp [distance?, hne]
  | cons c rest ih =>
    rw [distance?]
    by_cases hpre : delimiter <+: c :: rest
    · rw [if_pos (List.isPrefixOf_iff_prefix.mpr hpre), Option.some_inj]
      constructor
      · rintro rfl
        exact ⟨hpre, fun m hm => absurd hm (Nat.not_lt_zero m)⟩
      · rintro ⟨_, hfirst⟩
        by_contra hn
        exact hfirst 0 (by omega) hpre
    · rw [if_neg fun h => hpre (List.isPrefixOf_iff_prefix.mp h)]
      cases n with
      | zero => simp [hpre]
      | succ n =>
        rw [Option.map_eq_some_iff]
        constructor
        · rintro ⟨m, hm, hmn⟩
          obtain rfl : m = n := by omega
          obtain ⟨hat, hfirst⟩ := ih.mp hm
          refine ⟨hat, ?_⟩
          rintro (_ | k) hk
          · exact hpre
          · exact hfirst k (by omega)
        · rintro ⟨hat, hfirst⟩
          exact ⟨n, ih.mpr ⟨hat, fun m hm => hfirst (m + 1) (by omega)⟩, rfl⟩

theorem distance?_eq_none_iff {delimiter text : List Char} (hne : delimiter ≠ []) :
    distance? delimiter text = none ↔ ¬ delimiter <:+: text := by
  induction text with
  | nil => simp [distance?, hne]
  | cons c rest ih =>
    rw [distance?, List.infix_cons_iff, not_or]
    by_cases hpre : delimiter <+: c :: rest
    · simp [hpre]
    · simp [hpre, ih]

/-- Without a closing delimiter all is read. -/
theorem through_of_not_infix {closer text : List Char} (hne : closer ≠ [])
    (h : ¬ closer <:+: text) : through closer text = text.length := by
  rw [through, (distance?_eq_none_iff hne).mpr h]

/-- The first closing delimiter is the one that has none before it, not even an overlapping one. -/
theorem through_append {closer : List Char} (hne : closer ≠ []) (inside rest : List Char)
    (h : ¬ closer <:+: inside ++ closer.dropLast) :
    through closer (inside ++ closer ++ rest) = inside.length + closer.length := by
  have hfirst : distance? closer (inside ++ closer ++ rest) = some inside.length := by
    rw [distance?_eq_some_iff hne]
    refine ⟨?_, ?_⟩
    · rw [List.append_assoc, List.drop_left]
      exact List.prefix_append closer rest
    · intro m hm hat
      -- an earlier delimiter would end before the last character of this one does
      have hdrop : (inside ++ closer ++ rest).drop m
          = inside.drop m ++ closer.dropLast ++ ([closer.getLast hne] ++ rest) := by
        rw [List.append_assoc, List.drop_append_of_le_length (Nat.le_of_lt hm)]
        simp only [List.append_assoc]
        rw [← List.append_assoc closer.dropLast, List.dropLast_append_getLast]
      rw [hdrop] at hat
      have hlength : closer.length ≤ (inside.drop m ++ closer.dropLast).length := by
        have := List.length_pos_of_ne_nil hne
        simp only [List.length_append, List.length_drop, List.length_dropLast]
        omega
      have hinside := List.prefix_of_prefix_length_le hat (List.prefix_append _ _) hlength
      apply h
      apply hinside.isInfix.trans
      exact ⟨inside.take m, [], by rw [← List.append_assoc]; simp⟩
  rw [through, hfirst]

end JumpLexer

/-! ## The scan from jump to jump -/

namespace CommentScan

open JumpLexer

theorem justRead_iff {delimiter recent : List Char} :
    justRead delimiter recent = true ↔ delimiter <:+ recent.reverse := by
  rw [justRead, List.isPrefixOf_iff_prefix, ← List.reverse_prefix, List.reverse_reverse]

/-- The number of characters that the scan reads in a block comment until it is closed. -/
def toClose (closer recent : List Char) : List Char → Nat
  | [] => 0
  | c :: rest =>
    if justRead closer (c :: recent) then 1 else toClose closer (c :: recent) rest + 1

/-- The scan closes a block comment at the first closing delimiter behind the opening one. -/
theorem toClose_add_length {closer : List Char} (hne : closer ≠ []) (inside rest : List Char)
    (h : ¬ closer <:+: inside) :
    toClose closer inside.reverse rest + inside.length = through closer (inside ++ rest) := by
  induction rest generalizing inside with
  | nil => rw [toClose, List.append_nil, through_of_not_infix hne h, Nat.zero_add]
  | cons c rest ih =>
    rw [toClose]
    -- what has been read holds no delimiter; with `c` it may end in one
    by_cases hread : closer <:+ inside ++ [c]
    · rw [if_pos (justRead_iff.mpr (by simpa using hread))]
      obtain ⟨before, hbefore⟩ := hread
      -- all of that delimiter but its last character had been read before
      have hsplit : before ++ closer.dropLast = inside := by
        have := congrArg List.dropLast hbefore
        rwa [List.dropLast_append_of_ne_nil hne, List.dropLast_concat] at this
      have hlength := congrArg List.length hbefore
      rw [show inside ++ c :: rest = before ++ closer ++ rest by rw [hbefore]; simp,
        through_append hne before rest (by rwa [hsplit])]
      simp only [List.length_append, List.length_singleton] at hlength
      omega
    · rw [if_neg fun hjust => hread (by simpa using justRead_iff.mp hjust)]
      have hinside : ¬ closer <:+: inside ++ [c] := by
        rw [List.infix_concat_iff, not_or]
        exact ⟨hread, h⟩
      have := ih (inside ++ [c]) hinside
      rw [List.reverse_concat] at this
      simp only [List.length_append, List.length_singleton, List.append_assoc,
        List.singleton_append] at this
      omega

theorem toClose_nil {closer : List Char} (hne : closer ≠ []) (rest : List Char) :
    toClose closer [] rest = through closer rest := by
  have := toClose_add_length hne [] rest (by rwa [List.infix_nil])
  simpa using this

variable {dialect : Dialect} {form : CommentForm} {found : List (Nat × Nat)}

/-- A block comment is read up to its end, and the scan starts afresh behind it. -/
theorem run_block (hkind : form.kind = .block) (start offset : Nat) (recent rest : List Char) :
    run dialect ⟨.comment form start recent, found⟩ offset rest =
      let n := toClose form.closer recent rest
      run dialect ⟨.code [], (start, offset + n) :: found⟩ (offset + n) (rest.drop n) := by
  induction rest generalizing offset recent with
  | nil => rfl
  | cons c rest ih =>
    rw [run, step, toClose]
    simp only [hkind]
    by_cases hread : justRead form.closer (c :: recent) = true
    · simp only [hread, if_true, List.drop_one, List.tail_cons]
    · simp only [hread, Bool.false_eq_true, if_false]
      rw [ih (offset + 1) (c :: recent)]
      simp only [List.drop_succ_cons, Nat.add_assoc, Nat.add_comm 1]

/-- A comment to the end of the line is read up to there; the line break belongs to no comment and
to no delimiter. -/
theorem run_line (hkind : form.kind = .line) (start offset : Nat) (recent rest : List Char) :
    run dialect ⟨.comment form start recent, found⟩ offset rest =
      let n := toLineEnd rest
      run dialect ⟨.code [], (start, offset + n) :: found⟩ (offset + n + 1)
        (rest.drop (n + 1)) := by
  induction rest generalizing offset with
  | nil => rfl
  | cons c rest ih =>
    rw [run, step, toLineEnd, List.takeWhile_cons]
    simp only [hkind]
    by_cases hbreak : isLineBreak c = true
    · simp [hbreak]
    · have := ih (offset + 1)
      simp only [hbreak, Bool.false_eq_true, if_false, Bool.not_false, if_true, List.length_cons,
        List.drop_succ_cons]
      rw [this, toLineEnd]
      simp only [Nat.add_assoc, Nat.add_comm 1]

/-- A string literal is read up to its end, and the scan starts afresh behind it. -/
theorem run_literal {quote : Char} (hquote : isQuote quote = true) (odd : Bool) (offset : Nat)
    (rest : List Char) :
    run dialect ⟨.literal ⟨some quote, odd⟩, found⟩ offset rest =
      let n := literal quote odd rest
      run dialect ⟨.code [], found⟩ (offset + n) (rest.drop n) := by
  -- so the test for the quote and the one for the sign exclude each other
  have hsign : quote ≠ '#' := by
    rintro rfl
    exact absurd hquote (by decide)
  induction rest generalizing offset odd with
  | nil => rfl
  | cons c rest ih =>
    rw [run, step, literal]
    simp only [StringState.advance]
    by_cases hc : c = '#'
    · subst hc
      have hne : ('#' == quote) = false := by simpa using hsign.symm
      simp only [hne, Bool.false_and, Bool.false_eq_true, if_false, beq_self_eq_true, if_true,
        StringState.inString, Option.isSome_some, List.drop_succ_cons]
      rw [ih (!odd) (offset + 1)]
      simp only [Nat.add_assoc, Nat.add_comm 1]
    · have hc' : (c == '#') = false := by simpa using hc
      simp only [hc', Bool.false_eq_true, if_false, Bool.and_comm (!odd)]
      by_cases hclose : (c == quote && !odd) = true
      · simp only [hclose, if_true]
        rfl
      · simp only [hclose, Bool.false_eq_true, if_false, StringState.inString,
          Option.isSome_some, if_true, List.drop_succ_cons]
        rw [ih odd (offset + 1)]
        simp only [Nat.add_assoc, Nat.add_comm 1]

/-! ## Where the scan and the lexer meet -/

/-- No opening delimiter begins among the remembered characters. -/
def Quiet (dialect : Dialect) (recent text : List Char) : Prop :=
  ∀ form ∈ dialect.comments, ∀ behind, behind ≠ [] → behind <:+ recent.reverse →
    ¬ form.opener <+: behind ++ text

theorem quiet_nil (dialect : Dialect) (text : List Char) : Quiet dialect [] text := by
  intro form _ behind hne hsuffix
  exact absurd (List.suffix_nil.mp hsuffix) hne

/-- The opening delimiters of a dialect are of one length, and of two characters at least. -/
def openerLength : Dialect → Nat
  | .script => 2
  | .tag => 5

theorem length_opener {dialect : Dialect} {form : CommentForm} (h : form ∈ dialect.comments) :
    form.opener.length = openerLength dialect := by
  cases dialect <;> simp only [Dialect.comments, List.mem_cons, List.not_mem_nil, or_false] at h
  · rcases h with rfl | rfl <;> rfl
  · rw [h]; rfl

theorem Quiet.cons {recent text : List Char} {c : Char} (h : Quiet dialect recent (c :: text))
    (hc : ∀ form ∈ dialect.comments, ¬ form.opener <+: c :: text) :
    Quiet dialect (c :: recent) text := by
  intro form hform behind hne hsuffix
  rw [List.reverse_cons, List.suffix_concat_iff] at hsuffix
  rcases hsuffix with rfl | ⟨behind, rfl, hsuffix⟩
  · exact absurd rfl hne
  · rw [List.append_assoc, List.singleton_append]
    -- a delimiter that begins with `c` itself, or one that began before
    by_cases hbehind : behind = []
    · rw [hbehind, List.nil_append]
      exact hc form hform
    · exact h form hform behind hbehind hsuffix

theorem exists_suffix_of_length_lt {α : Type} {xs front back : List α} (h : xs <:+ front ++ back)
    (hlength : back.length < xs.length) :
    ∃ behind, behind ≠ [] ∧ behind <:+ front ∧ xs = behind ++ back := by
  obtain ⟨before, hbefore⟩ := h
  rcases List.append_eq_append_iff.mp hbefore with ⟨behind, hfront, hxs⟩ | ⟨_, _, hback⟩
  · refine ⟨behind, ?_, ⟨before, hfront.symm⟩, hxs⟩
    rintro rfl
    rw [hxs, List.nil_append] at hlength
    exact absurd hlength (Nat.lt_irrefl _)
  · have := congrArg List.length hback
    rw [List.length_append] at this
    omega

/-- As long as an opening delimiter is not complete, no other one is complete either: it would begin
among the remembered characters. -/
theorem Quiet.not_justRead {form other : CommentForm} {recent done todo rest : List Char}
    (h : Quiet dialect recent (form.opener ++ rest)) (hform : form ∈ dialect.comments)
    (hother : other ∈ dialect.comments) (hopener : form.opener = done ++ todo) (htodo : todo ≠ []) :
    ¬ justRead other.opener (done.reverse ++ recent) = true := by
  intro hread
  rw [justRead_iff, List.reverse_append, List.reverse_reverse] at hread
  -- delimiters are equally long, so one that ends in `done` begins before it
  have hlength : done.length < other.opener.length := by
    have hsame := congrArg List.length hopener
    rw [length_opener hform, List.length_append] at hsame
    have := List.length_pos_of_ne_nil htodo
    rw [length_opener hother]
    omega
  obtain ⟨behind, hbehind, hsuffix, heq⟩ := exists_suffix_of_length_lt hread hlength
  apply h other hother behind hbehind hsuffix
  rw [heq, hopener, List.append_assoc]
  exact (List.prefix_append_right_inj behind).mpr (List.prefix_append done (todo ++ rest))

theorem not_isQuote_of_mem_opener {form : CommentForm} (h : form ∈ dialect.comments) :
    ∀ c ∈ form.opener, isQuote c = false := by
  have hnone : form.opener.any isQuote = false := by
    cases dialect <;> simp only [Dialect.comments, List.mem_cons, List.not_mem_nil, or_false] at h
    · rcases h with rfl | rfl <;> decide
    · subst h
      decide
  intro c hc
  exact eq_false_of_ne_true (List.any_eq_false.mp hnone c hc)

theorem eq_of_opener_eq {form other : CommentForm} (h : form ∈ dialect.comments)
    (h' : other ∈ dialect.comments) (heq : form.opener = other.opener) : form = other := by
  cases dialect <;>
    simp only [Dialect.comments, List.mem_cons, List.not_mem_nil, or_false] at h h'
  · rcases h with rfl | rfl <;> rcases h' with rfl | rfl
    · rfl
    · exact absurd heq (by decide)
    · exact absurd heq (by decide)
    · rfl
  · rw [h, h']

theorem closer_ne_nil {form : CommentForm} (h : form ∈ dialect.comments)
    (hkind : form.kind = .block) : form.closer ≠ [] := by
  cases dialect <;> simp only [Dialect.comments, List.mem_cons, List.not_mem_nil, or_false] at h
  · rcases h with rfl | rfl
    · exact absurd hkind (by decide)
    · exact List.cons_ne_nil _ _
  · rw [h]
    exact List.cons_ne_nil _ _

/-- One more character of code, if it is no quote and completes no opening delimiter. -/
theorem run_code_cons {recent : List Char} {c : Char} (offset : Nat) (rest : List Char)
    (hquote : (dialect == .script && isQuote c) = false)
    (hread : ∀ form ∈ dialect.comments, ¬ justRead form.opener (c :: recent) = true) :
    run dialect ⟨.code recent, found⟩ offset (c :: rest)
      = run dialect ⟨.code (c :: recent), found⟩ (offset + 1) rest := by
  have hnone : dialect.comments.find? (fun form => justRead form.opener (c :: recent)) = none :=
    List.find?_eq_none.mpr hread
  rw [run, step]
  simp only [hquote, Bool.false_eq_true, if_false, hnone]

/-- The scan reads an opening delimiter up to its last character. -/
theorem run_opener_init {form : CommentForm} (hform : form ∈ dialect.comments) {recent : List Char}
    (rest : List Char) (h : Quiet dialect recent (form.opener ++ rest)) (offset : Nat)
    (done todo : List Char) (hopener : form.opener = done ++ todo) (htodo : todo ≠ []) :
    run dialect ⟨.code recent, found⟩ offset (form.opener ++ rest)
      = run dialect ⟨.code (done.reverse ++ recent), found⟩ (offset + done.length)
          (todo ++ rest) := by
  -- the last character is the one that is read last, so the induction takes it off first
  induction done using List.reverseRecOn generalizing todo with
  | nil => rw [hopener]; rfl
  | append_singleton done c ih =>
    have hopener' : form.opener = done ++ c :: todo := by rw [hopener]; simp
    rw [ih (c :: todo) hopener' (List.cons_ne_nil c todo), List.cons_append, run_code_cons]
    · rw [List.length_append, List.length_singleton, ← Nat.add_assoc, List.reverse_concat]
      rfl
    · have := not_isQuote_of_mem_opener hform c (by rw [hopener']; simp)
      rw [this, Bool.and_false]
    · intro other hother
      have := h.not_justRead hform hother hopener htodo
      rwa [List.reverse_concat] at this

/-- Behind an opening delimiter that is the form that has just been read. -/
theorem find?_justRead {form : CommentForm} (hform : form ∈ dialect.comments)
    (recent : List Char) : dialect.comments.find? (fun other =>
      justRead other.opener (form.opener.reverse ++ recent)) = some form := by
  have hread : justRead form.opener (form.opener.reverse ++ recent) = true := by
    rw [justRead_iff, List.reverse_append, List.reverse_reverse]
    exact List.suffix_append recent.reverse form.opener
  cases hfind : dialect.comments.find? (fun other =>
      justRead other.opener (form.opener.reverse ++ recent)) with
  | none => exact absurd hread (List.find?_eq_none.mp hfind form hform)
  | some other =>
    have hother := List.mem_of_find?_eq_some hfind
    have hjust := List.find?_some hfind
    rw [justRead_iff] at hread hjust
    have hlength : other.opener.length = form.opener.length := by
      rw [length_opener hother, length_opener hform]
    -- two suffixes of one text that are equally long are the same
    have hsuffix := List.suffix_of_suffix_length_le hjust hread (Nat.le_of_eq hlength)
    rw [eq_of_opener_eq hother hform (hsuffix.eq_of_length hlength)]

/-- The scan recognises an opening delimiter where the lexer does. -/
theorem run_opener {form : CommentForm} (hform : form ∈ dialect.comments) {recent : List Char}
    (rest : List Char) (h : Quiet dialect recent (form.opener ++ rest)) (offset : Nat) :
    run dialect ⟨.code recent, found⟩ offset (form.opener ++ rest)
      = run dialect ⟨.comment form offset [], found⟩ (offset + form.opener.length) rest := by
  have hne : form.opener ≠ [] := by
    intro hnil
    have := length_opener hform
    rw [hnil] at this
    cases dialect <;> exact absurd this (by decide)
  have hopener := (List.dropLast_append_getLast hne).symm
  have hlength : form.opener.dropLast.length + 1 = form.opener.length := by
    rw [List.length_dropLast]
    exact Nat.sub_add_cancel (List.length_pos_of_ne_nil hne)
  have hrecent : form.opener.getLast hne :: (form.opener.dropLast.reverse ++ recent)
      = form.opener.reverse ++ recent := by
    conv_rhs => rw [hopener]
    simp
  have hquote := not_isQuote_of_mem_opener hform _ (List.getLast_mem hne)
  have hstart : offset + form.opener.length - form.opener.length = offset := by omega
  rw [run_opener_init hform rest h offset _ _ hopener (List.cons_ne_nil _ _), List.singleton_append,
    run, step]
  simp only [hquote, Bool.and_false, Bool.false_eq_true, if_false, hrecent, find?_justRead hform,
    Nat.add_assoc, hlength, hstart]

/-! ## The lexer, rule by rule -/

/-- Where nothing begins the lexer goes on by one character. -/
theorem comments_cons {c : Char} (offset : Nat) (rest : List Char)
    (hquote : (dialect == .script && isQuote c) = false)
    (hopener : ∀ form ∈ dialect.comments, ¬ form.opener <+: c :: rest) :
    comments dialect offset (c :: rest) = comments dialect (offset + 1) rest := by
  cases dialect with
  | script =>
    have hquote : isQuote c = false := by simpa using hquote
    -- the other rules of the lexer begin with one of these
    have hline := hopener .scriptLine (by simp [Dialect.comments])
    have hblock := hopener .scriptBlock (by simp [Dialect.comments])
    simp only [comments]
    rw [script]
    · simp only [hquote, Bool.false_eq_true, if_false]
    · rintro rest rfl rfl
      exact hline (List.prefix_append ['/', '/'] rest)
    · rintro rest rfl rfl
      exact hblock (List.prefix_append ['/', '*'] rest)
  | tag =>
    have hblock := hopener .tagBlock (by simp [Dialect.comments])
    simp only [comments]
    rw [tag]
    rintro rest rfl rfl
    exact hblock (List.prefix_append ['<', '!', '-', '-', '-'] rest)

/-- A comment that goes to the end of the line. -/
theorem comments_line {form : CommentForm} (hform : form ∈ dialect.comments)
    (hkind : form.kind = .line) (offset : Nat) (rest : List Char) :
    comments dialect offset (form.opener ++ rest) =
      let stop := offset + form.opener.length + toLineEnd rest
      ⟨offset, stop, by omega⟩ :: comments dialect stop (rest.drop (toLineEnd rest)) := by
  cases dialect <;> simp only [Dialect.comments, List.mem_cons, List.not_mem_nil, or_false] at hform
  · rcases hform with rfl | rfl
    · simp only [comments, CommentForm.scriptLine, List.cons_append, List.nil_append]
      rw [script]
      rfl
    · exact absurd hkind (by decide)
  · subst hform
    exact absurd hkind (by decide)

/-- A comment between delimiters. -/
theorem comments_block {form : CommentForm} (hform : form ∈ dialect.comments)
    (hkind : form.kind = .block) (offset : Nat) (rest : List Char) :
    comments dialect offset (form.opener ++ rest) =
      let stop := offset + form.opener.length + through form.closer rest
      ⟨offset, stop, by omega⟩ :: comments dialect stop (rest.drop (through form.closer rest)) := by
  cases dialect <;> simp only [Dialect.comments, List.mem_cons, List.not_mem_nil, or_false] at hform
  · rcases hform with rfl | rfl
    · exact absurd hkind (by decide)
    · simp only [comments, CommentForm.scriptBlock, List.cons_append, List.nil_append]
      rw [script]
      rfl
  · subst hform
    simp only [comments, CommentForm.tagBlock, List.cons_append, List.nil_append]
    rw [tag]
    rfl

/-- A line break in script belongs to nothing. -/
theorem comments_lineBreak {c : Char} (h : isLineBreak c = true) (offset : Nat)
    (rest : List Char) :
    comments dialect offset (c :: rest) = comments dialect (offset + 1) rest := by
  have hc : c = '\r' ∨ c = '\n' := by simpa [isLineBreak] using h
  refine comments_cons offset rest ?_ ?_
  · rcases hc with rfl | rfl <;> cases dialect <;> rfl
  · intro form hform hbegins
    cases dialect <;>
      simp only [Dialect.comments, List.mem_cons, List.not_mem_nil, or_false] at hform
    · rcases hform with rfl | rfl <;> rcases hc with rfl | rfl <;>
        simp [CommentForm.scriptLine, CommentForm.scriptBlock] at hbegins
    · subst hform
      rcases hc with rfl | rfl <;> simp [CommentForm.tagBlock] at hbegins

/-- A string literal in script. -/
theorem comments_quote {c : Char} (hquote : isQuote c = true) (offset : Nat) (rest : List Char) :
    comments .script offset (c :: rest) =
      comments .script (offset + 1 + literal c false rest) (rest.drop (literal c false rest)) := by
  have hc : c ≠ '/' := by
    rintro rfl
    exact absurd hquote (by decide)
  simp only [comments]
  rw [script]
  · rw [if_pos hquote]
  · rintro rest rfl
    exact absurd rfl hc
  · rintro rest rfl
    exact absurd rfl hc

/-! ## The scan and the lexer agree -/

/-- Behind a comment to the end of the line the lexer stands at the line break and the scan is
already past it. -/
theorem comments_drop_toLineEnd (offset : Nat) (rest : List Char) :
    comments dialect (offset + toLineEnd rest) (rest.drop (toLineEnd rest))
      = comments dialect (offset + toLineEnd rest + 1) (rest.drop (toLineEnd rest + 1)) := by
  induction rest generalizing offset with
  | nil => cases dialect <;> simp [comments, script, tag]
  | cons c rest ih =>
    rw [toLineEnd, List.takeWhile_cons]
    by_cases hbreak : isLineBreak c = true
    · simp only [hbreak, Bool.not_true, Bool.false_eq_true, if_false, List.length_nil,
        List.drop_zero, Nat.add_zero, Nat.zero_add, List.drop_one, List.tail_cons]
      exact comments_lineBreak hbreak offset rest
    · have := ih (offset + 1)
      simp only [hbreak, Bool.not_false, if_true, List.length_cons, List.drop_succ_cons]
      simpa only [toLineEnd, Nat.add_assoc, Nat.add_comm 1] using this

/-- **From a place outside of strings and comments the scan finds what the lexer finds.** The
induction is on the number of characters left, because both jump. -/
theorem run_code (n : Nat) (recent text : List Char) (hlength : text.length ≤ n)
    (h : Quiet dialect recent text) (offset : Nat) (found : List (Nat × Nat)) :
    run dialect ⟨.code recent, found⟩ offset text
      = found.reverse ++ (comments dialect offset text).map Stretch.ends := by
  induction n generalizing recent text offset found with
  | zero =>
    rw [List.eq_nil_of_length_eq_zero (Nat.le_zero.mp hlength)]
    cases dialect <;> simp [run, finish, comments, script, tag]
  | succ n ih =>
    -- the rules of the lexer, in its order
    by_cases hopener : ∃ form ∈ dialect.comments, form.opener <+: text
    -- a comment begins here
    · obtain ⟨form, hform, rest, rfl⟩ := hopener
      have hpos : 2 ≤ form.opener.length := by
        rw [length_opener hform]
        cases dialect <;> decide
      rw [List.length_append] at hlength
      rw [run_opener hform rest h]
      cases hkind : form.kind with
      | line =>
        rw [run_line hkind, comments_line hform hkind]
        simp only
        -- the scan is past the line break already, the lexer is not
        rw [ih [] _ (by rw [List.length_drop]; omega) (quiet_nil dialect _),
          comments_drop_toLineEnd, List.reverse_cons, List.append_assoc, List.singleton_append,
          List.map_cons, Stretch.ends]
      | block =>
        have hcloser := closer_ne_nil hform hkind
        rw [run_block hkind, comments_block hform hkind, toClose_nil hcloser]
        simp only
        rw [ih [] _ (by rw [List.length_drop]; omega) (quiet_nil dialect _), List.reverse_cons,
          List.append_assoc, List.singleton_append, List.map_cons, Stretch.ends]
    · have hnone : ∀ form ∈ dialect.comments, ¬ form.opener <+: text := fun form hform hbegins =>
        hopener ⟨form, hform, hbegins⟩
      cases text with
      | nil => cases dialect <;> simp [run, finish, comments, script, tag]
      | cons c rest =>
        rw [List.length_cons] at hlength
        by_cases hquote : (dialect == .script && isQuote c) = true
        -- a string literal begins here
        · obtain ⟨rfl, hc⟩ : dialect = .script ∧ isQuote c = true := by simpa using hquote
          have hadvance : StringState.outside.advance c = ⟨some c, false⟩ := by
            simp [StringState.advance, StringState.outside, hc]
          rw [run, step]
          simp only [hquote, if_true, hadvance]
          rw [run_literal hc, comments_quote hc]
          exact ih [] _ (by rw [List.length_drop]; omega) (quiet_nil _ _) _ found
        · have hquote := eq_false_of_ne_true hquote
          rw [run_code_cons offset rest hquote, comments_cons offset rest hquote hnone]
          · exact ih (c :: recent) rest (by omega) (h.cons hnone) (offset + 1) found
          -- a delimiter that is complete here would begin among the remembered characters
          · intro form hform hread
            rw [justRead_iff, List.reverse_cons] at hread
            have hlong : [c].length < form.opener.length := by
              rw [length_opener hform]
              cases dialect <;> simp [openerLength]
            obtain ⟨behind, hbehind, hsuffix, heq⟩ := exists_suffix_of_length_lt hread hlong
            apply h form hform behind hbehind hsuffix
            rw [heq, List.prefix_append_right_inj]
            exact List.prefix_append [c] rest

end CommentScan

/-- What is found, as offsets. -/
theorem map_ends_scanComments (dialect : Dialect) (offset : Nat) (text : List Char) :
    (scanComments dialect offset text).map Stretch.ends
      = CommentScan.start.run dialect offset text := by
  rw [scanComments, List.map_pmap]
  exact List.pmap_eq_self.mpr fun _ _ => rfl

theorem scanComments_eq_comments (dialect : Dialect) (offset : Nat) (text : List Char) :
    scanComments dialect offset text = JumpLexer.comments dialect offset text := by
  apply (List.map_inj_right Stretch.ends_inj).mp
  rw [map_ends_scanComments, CommentScan.start, CommentScan.run_code _ _ _ (Nat.le_refl _)
    (CommentScan.quiet_nil dialect _), List.reverse_nil, List.nil_append]

/-- **The scan is the lexer.** In either dialect, and on every part of every text, going through the
characters one at a time finds the same comments as jumping from one to the next. -/
theorem scanComments_eq_jumpComments (dialect : Dialect) (src : Source) (start stop : Nat) :
    scanComments dialect start (src.slice start stop)
      = JumpLexer.comments dialect start (src.slice start stop) :=
  scanComments_eq_comments dialect start (src.slice start stop)

end Cfml
