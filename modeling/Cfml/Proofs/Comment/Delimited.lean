/-
How comments are delimited.

Whatever finds a comment, the scan or a pattern, it begins with an opening delimiter, and it ends
where the search ends or behind a character that is no carriage return. So neither of its ends lies
within a line ending, and the positions that are reported lead back to them. That the comments of a
source follow each other is what `Spans.normalize` is for (`comments_spec`).
-/
import Cfml.Comment.Spans
import Cfml.Proofs.Comment.Parts
import Cfml.Proofs.Source.Position
import Cfml.Proofs.Source.Spans
import Cfml.Proofs.Text.Occurrences
import Cfml.Proofs.Text.TagPair

set_option autoImplicit false

namespace Cfml

/-! ## In a text -/

/-- The delimiters that a comment of the dialect can begin with. -/
def commentOpeners : Dialect → List (List Char)
  | .script => [['/', '/'], ['/', '*']]
  | .tag => [['<', '!', '-', '-']]

/-- How a comment stands in a text that begins at the offset. -/
structure Delimited (dialect : Dialect) (offset : Nat) (text : List Char) (c : Stretch) : Prop where
  begins : ∃ opener ∈ commentOpeners dialect,
    opener <+: text.drop (c.start - offset) ∧ c.start + opener.length ≤ c.stop
  ends : c.stop = offset + text.length ∨ (text.take (c.stop - offset)).getLast? ≠ some '\r'

variable {dialect : Dialect}

theorem commentOpeners_length {opener : List Char} (h : opener ∈ commentOpeners dialect) :
    2 ≤ opener.length := by
  have hall : (commentOpeners dialect).all (2 ≤ ·.length) = true := by cases dialect <;> decide
  simpa using List.all_eq_true.mp hall opener h

theorem Delimited.start_lt_stop {offset : Nat} {text : List Char} {c : Stretch}
    (h : Delimited dialect offset text c) : c.start < c.stop := by
  obtain ⟨opener, hopener, -, hle⟩ := h.begins
  have := commentOpeners_length hopener
  omega

/-- A comment at the start of a text. -/
theorem delimited_prefix {opener passed rest : List Char} (offset : Nat)
    (hopener : opener ∈ commentOpeners dialect) (hbegins : opener <+: passed)
    (hlast : rest = [] ∨ passed.getLast? ≠ some '\r') {c : Stretch} (hstart : c.start = offset)
    (hstop : c.stop = offset + passed.length) : Delimited dialect offset (passed ++ rest) c where
  begins := by
    refine ⟨opener, hopener, ?_, ?_⟩
    · rw [hstart, Nat.sub_self]
      exact hbegins.trans (List.prefix_append passed rest)
    · have := hbegins.length_le
      omega
  ends := by
    rcases hlast with rfl | hlast
    · left
      rw [hstop, List.append_nil]
    · right
      rwa [hstop, Nat.add_sub_cancel_left, List.take_left]

/-- A comment of what follows a text. -/
theorem Delimited.append {offset : Nat} {front back : List Char} {c : Stretch}
    (h : Delimited dialect (offset + front.length) back c)
    (hstart : offset + front.length ≤ c.start) : Delimited dialect offset (front ++ back) c := by
  obtain ⟨opener, hopener, hbegins, hle⟩ := h.begins
  have hpos := commentOpeners_length hopener
  refine ⟨⟨opener, hopener, ?_, hle⟩, ?_⟩
  · have hsplit : c.start - offset = front.length + (c.start - (offset + front.length)) := by omega
    rwa [hsplit, List.drop_length_add_append]
  · rcases h.ends with hend | hlast
    · left
      rw [hend, List.length_append, Nat.add_assoc]
    · right
      have hsplit : c.stop - offset = front.length + (c.stop - (offset + front.length)) := by omega
      rw [hsplit, List.take_length_add_append, List.getLast?_append]
      -- there are characters of the comment, so the last one is one of them
      have hne : back.take (c.stop - (offset + front.length)) ≠ [] := by
        intro hnil
        rcases List.take_eq_nil_iff.mp hnil with hzero | rfl
        · omega
        · rw [List.drop_nil, List.prefix_nil] at hbegins
          rw [hbegins, List.length_nil] at hpos
          omega
      rw [List.getLast?_eq_some_getLast hne] at hlast ⊢
      exact hlast

/-! ### What the scan finds -/

open JumpLexer

variable {form : CommentForm}

theorem mem_forms (hform : form ∈ dialect.comments) :
    form ∈ Dialect.script.comments ++ Dialect.tag.comments := by
  cases dialect with
  | script => exact List.mem_append_left _ hform
  | tag => exact List.mem_append_right _ hform

theorem exists_commentOpener (hform : form ∈ dialect.comments) :
    ∃ opener ∈ commentOpeners dialect, opener <+: form.opener := by
  have hall : ∀ form ∈ dialect.comments,
      ∃ opener ∈ commentOpeners dialect, opener <+: form.opener := by
    cases dialect <;> decide
  exact hall form hform

/-- Neither delimiter of a comment has a carriage return in it. -/
theorem return_notMem_delimiters (hform : form ∈ dialect.comments) :
    '\r' ∉ form.opener ∧ '\r' ∉ form.closer := by
  have hall : ∀ form ∈ Dialect.script.comments ++ Dialect.tag.comments,
      '\r' ∉ form.opener ∧ '\r' ∉ form.closer := by decide
  exact hall form (mem_forms hform)

/-- A comment ends with the text, at the end of its line, or with its closing delimiter. -/
theorem getLast?_comment (hform : form ∈ dialect.comments) (rest : List Char) :
    rest.drop (toEnd form rest) = [] ∨
      (form.opener ++ rest.take (toEnd form rest)).getLast? ≠ some '\r' := by
  obtain ⟨hopener, hcloser⟩ := return_notMem_delimiters hform
  cases hkind : form.kind with
  | line =>
    right
    simp only [toEnd, hkind]
    intro hlast
    have htake : rest.take (toLineEnd rest) = rest.takeWhile (!isLineBreak ·) :=
      (List.prefix_iff_eq_take.mp (List.takeWhile_prefix _)).symm
    rw [htake] at hlast
    rcases List.mem_append.mp (List.mem_of_getLast? hlast) with hmem | hmem
    · exact hopener hmem
    · exact absurd (List.mem_takeWhile_imp hmem) (by decide)
  | block =>
    have hne := CommentScan.closer_ne_nil hform hkind
    simp only [toEnd, hkind]
    by_cases hclosed : form.closer <:+: rest
    · right
      obtain ⟨inside, hinside⟩ := through_eq_of_infix hne hclosed
      rw [← hinside, ← List.append_assoc, List.getLast?_append,
        List.getLast?_eq_some_getLast hne]
      intro hlast
      exact hcloser (Option.some.inj hlast ▸ List.getLast_mem hne)
    · left
      rw [ through_of_not_infix hne hclosed, List.drop_length]

/-- **What is written as a comment is delimited.** -/
theorem delimited_of_isWritten (hform : form ∈ dialect.comments) {offset : Nat} {text : List Char}
    {c : Stretch} (h : form.IsWritten offset text c) : Delimited dialect offset text c := by
  obtain ⟨passed, rest, htext, hstart, hstop⟩ := h
  obtain ⟨opener, hopener, hbegins⟩ := exists_commentOpener hform
  have hle := toEnd_le_length form rest
  rw [htext, ← List.take_append_drop (toEnd form rest) rest, ← List.append_assoc form.opener]
  apply Delimited.append
  · apply delimited_prefix _ hopener (hbegins.trans (List.prefix_append _ _))
    · exact getLast?_comment hform rest
    · exact hstart
    · rw [hstop, hstart, List.length_append, List.length_take, Nat.min_eq_left hle]
  · exact Nat.le_of_eq hstart.symm

/-- The scan finds delimited comments. -/
theorem delimited_of_mem_comments {offset : Nat} {text : List Char} {c : Stretch}
    (h : c ∈ comments dialect offset text) : Delimited dialect offset text c := by
  obtain ⟨form, hform, hwritten⟩ := exists_isWritten_of_mem_comments h
  exact delimited_of_isWritten hform hwritten

/-! ### What the patterns find -/

/-- Reading through a delimiter goes as far as the lexer goes. -/
theorem ahead_of_through?_literal {closer : List Char} (hne : closer ≠ []) {r later : Reader}
    {inside : Stretch} (h : r.through? (.literal closer) = some (inside, later)) :
    closer <:+: r.ahead ∧ later = r.passing (r.ahead.take (through closer r.ahead))
      (r.ahead.drop (through closer r.ahead)) ∧
      inside.start = r.offset ∧ inside.stop + closer.length = later.offset := by
  obtain ⟨⟨⟩, place, hfirst, hstart, hstop⟩ := Reader.through?_eq_some h
  obtain ⟨passed, hahead, hplace, -, hmisses, hread⟩ := firstOccurrence?_misses hfirst
  obtain ⟨rest, hrest, hlater⟩ := Pattern.read_literal_iff.mp hread
  have hdistance : distance? closer r.ahead = some passed.length := by
    rw [distance?_eq_some_iff hne]
    refine ⟨?_, ?_⟩
    · rw [hahead, hrest, List.drop_left]
      exact List.prefix_append closer rest
    · intro m hm
      have hback : passed.drop m ≠ [] := by
        apply List.ne_nil_of_length_pos
        rw [List.length_drop]
        omega
      have hmiss := hmisses (passed.take m) (passed.drop m) hback (List.take_append_drop m _).symm
      rw [Pattern.read_literal_eq_none_iff, Reader.ahead_passing] at hmiss
      rwa [hahead, List.drop_append_of_le_length (Nat.le_of_lt hm)]
  have hlength : through closer r.ahead = (passed ++ closer).length := by
    rw [through, hdistance, List.length_append]
  have hsplit : r.ahead = (passed ++ closer) ++ rest := by
    rw [hahead, hrest, List.append_assoc]
  refine ⟨⟨passed, rest, hsplit.symm⟩, ?_, hstart, ?_⟩
  · rw [hlength, hsplit, List.take_left, List.drop_left, hlater, hplace, Reader.passing_passing]
  · rw [hstop, hlater]
    rfl

/-- Where the delimiter stands somewhere ahead it is read through. -/
theorem exists_through?_literal {closer : List Char} (hne : closer ≠ []) {r : Reader}
    (h : closer <:+: r.ahead) : ∃ inside, r.through? (.literal closer)
      = some (inside, r.passing (r.ahead.take (through closer r.ahead))
          (r.ahead.drop (through closer r.ahead))) := by
  cases hdistance : distance? closer r.ahead with
  | none => exact absurd h ((distance?_eq_none_iff hne).mp hdistance)
  | some n =>
    obtain ⟨⟨rest, hrest⟩, hbefore⟩ := (distance?_eq_some_iff hne).mp hdistance
    have hahead := (List.take_append_drop n r.ahead).symm
    have hmisses : (Pattern.literal closer).Misses r (r.ahead.take n) (r.ahead.drop n) := by
      intro front back hback hfront
      have hlength := congrArg List.length hfront
      have hpos := List.length_pos_of_ne_nil hback
      rw [List.length_take, List.length_append] at hlength
      have hmiss := hbefore front.length (by omega)
      rw [hahead, hfront, List.append_assoc, List.drop_left] at hmiss
      rwa [Pattern.read_literal_eq_none_iff, Reader.ahead_passing]
    have hplace : r.ahead.drop n ≠ [] := by
      rw [← hrest]
      exact List.append_ne_nil_of_left_ne_nil hne rest
    obtain ⟨inside, hthrough, -⟩ := Reader.through?_eq hahead hmisses hplace
      (Pattern.read_literal_iff.mpr ⟨rest, hrest.symm, rfl⟩)
    have htake : r.ahead.take (n + closer.length) = r.ahead.take n ++ closer := by
      rw [List.take_add, ← hrest, List.take_left]
    have hdrop : r.ahead.drop (n + closer.length) = rest := by
      rw [← List.drop_drop, ← hrest, List.drop_left]
    refine ⟨inside, ?_⟩
    rw [hthrough, through, hdistance, htake, hdrop, Reader.passing_passing]

namespace CommentPattern

variable {r later : Reader}

theorem scriptLine?_eq_some_iff : scriptLine? r = some later ↔
    ∃ rest, r.ahead = ['/', '/'] ++ rest ∧ later = r.passing
      (['/', '/'] ++ rest.take (toLineEnd rest)) (rest.drop (toLineEnd rest)) := by
  have hskip : ∀ rest, (r.passing ['/', '/'] rest).skipWhile (!isLineBreak ·) = r.passing
      (['/', '/'] ++ rest.take (toLineEnd rest)) (rest.drop (toLineEnd rest)) := by
    intro rest
    have htake : rest.take (toLineEnd rest) = rest.takeWhile (!isLineBreak ·) :=
      (List.prefix_iff_eq_take.mp (List.takeWhile_prefix _)).symm
    have hdrop : rest.drop (toLineEnd rest) = rest.dropWhile (!isLineBreak ·) := by
      rw [← List.append_cancel_left_eq (rest.take (toLineEnd rest)), List.take_append_drop, htake,
        List.takeWhile_append_dropWhile]
    rw [Reader.skipWhile_eq, Reader.passing_passing, Reader.ahead_passing, htake, hdrop]
  simp only [scriptLine?, Option.bind_eq_bind, Option.bind_eq_some_iff,
    Reader.literal?_eq_some_iff]
  constructor
  · rintro ⟨_, ⟨rest, hahead, rfl⟩, heq⟩
    obtain rfl := Option.some.inj heq
    exact ⟨rest, hahead, hskip rest⟩
  · rintro ⟨rest, hahead, rfl⟩
    exact ⟨_, ⟨rest, hahead, rfl⟩, congrArg some (hskip rest)⟩

theorem block?_eq_some_iff {opener closer : List Char} (hne : closer ≠ []) :
    block? opener closer r = some later ↔
      ∃ rest, r.ahead = opener ++ rest ∧ closer <:+: rest ∧ later = r.passing
        (opener ++ rest.take (through closer rest)) (rest.drop (through closer rest)) := by
  simp only [block?, Option.bind_eq_bind, Option.bind_eq_some_iff, Prod.exists,
    Reader.literal?_eq_some_iff]
  constructor
  · rintro ⟨_, ⟨rest, hahead, rfl⟩, inside, behind, hthrough, heq⟩
    obtain rfl := Option.some.inj heq
    obtain ⟨hclosed, rfl, -⟩ := ahead_of_through?_literal hne hthrough
    exact ⟨rest, hahead, hclosed, Reader.passing_passing ..⟩
  · rintro ⟨rest, hahead, hclosed, rfl⟩
    obtain ⟨inside, hthrough⟩ := exists_through?_literal (r := r.passing opener rest) hne hclosed
    refine ⟨_, ⟨rest, hahead, rfl⟩, inside, _, hthrough, ?_⟩
    exact congrArg some (Reader.passing_passing ..)

variable {c : Stretch}

theorem delimited_of_scriptLine? (h : scriptLine? r = some later) (hstart : c.start = r.offset)
    (hstop : c.stop = later.offset) : Delimited .script r.offset r.ahead c := by
  obtain ⟨rest, hahead, rfl⟩ := scriptLine?_eq_some_iff.mp h
  have hopener : ['/', '/'] ∈ commentOpeners .script := by decide
  rw [hahead, ← List.take_append_drop (toLineEnd rest) rest, ← List.append_assoc]
  apply delimited_prefix r.offset hopener (List.prefix_append _ _)
  · exact @getLast?_comment .script .scriptLine (by decide) rest
  · exact hstart
  · exact hstop

theorem delimited_of_block? {opener closer : List Char} (hopener : opener ∈ commentOpeners dialect)
    (hne : closer ≠ []) (hreturn : '\r' ∉ closer) (h : block? opener closer r = some later)
    (hstart : c.start = r.offset) (hstop : c.stop = later.offset) :
    Delimited dialect r.offset r.ahead c := by
  obtain ⟨rest, hahead, hclosed, rfl⟩ := (block?_eq_some_iff hne).mp h
  obtain ⟨inside, hinside⟩ := through_eq_of_infix hne hclosed
  rw [hahead, ← List.take_append_drop (through closer rest) rest, ← List.append_assoc]
  apply delimited_prefix r.offset hopener (List.prefix_append _ _)
  · right
    rw [← hinside, ← List.append_assoc, List.getLast?_append, List.getLast?_eq_some_getLast hne]
    intro hlast
    exact hreturn (Option.some.inj hlast ▸ List.getLast_mem hne)
  · exact hstart
  · exact hstop

/-- What a pattern reads is delimited. -/
theorem delimited_of_read {pattern : Pattern Unit} (hpattern : pattern ∈ ofDialect dialect)
    {value : Unit} (hread : pattern.read r = some (value, later)) (hstart : c.start = r.offset)
    (hstop : c.stop = later.offset) : Delimited dialect r.offset r.ahead c := by
  cases dialect with
  | script =>
    rcases List.mem_cons.mp hpattern with rfl | hpattern
    · exact delimited_of_block? (by decide) (by decide) (by decide)
        (Pattern.read_plain block?_reaches hread) hstart hstop
    · obtain rfl := List.mem_singleton.mp hpattern
      exact delimited_of_scriptLine? (Pattern.read_plain scriptLine?_reaches hread) hstart hstop
  | tag =>
    obtain rfl := List.mem_singleton.mp hpattern
    exact delimited_of_block? (by decide) (by decide) (by decide)
      (Pattern.read_plain block?_reaches hread) hstart hstop

/-- **The patterns find delimited comments.** -/
theorem delimited_of_mem_occurrences {pattern : Pattern Unit}
    (hpattern : pattern ∈ ofDialect dialect) {o : Occurrence Unit} (h : o ∈ occurrences pattern r) :
    Delimited dialect r.offset r.ahead o.stretch := by
  obtain ⟨passed, rest, later, hahead, -, hstart, hread, hstop⟩ := isRead_of_mem_occurrences h
  rw [hahead]
  apply Delimited.append
  · exact delimited_of_read (r := r.passing passed rest) hpattern hread hstart hstop
  · exact Nat.le_of_eq hstart.symm

end CommentPattern

/-! ## In a source -/

namespace Source

variable {src : Source} {start stop : Nat} {c : Stretch}

/-- The stretch is a comment of the dialect that was found between the offsets. -/
structure IsComment (src : Source) (dialect : Dialect) (start stop : Nat) (c : Stretch) :
    Prop where
  start_le : start ≤ c.start
  start_lt_stop : c.start < c.stop
  stop_le : c.stop ≤ stop
  begins : ∃ opener ∈ commentOpeners dialect, opener <+: src.slice c.start c.stop
  place_start : src.IsPlace c.start
  place_stop : src.IsPlace c.stop

theorem IsComment.mono {start' stop' : Nat} (h : src.IsComment dialect start stop c)
    (hstart : start' ≤ start) (hstop : stop ≤ stop') : src.IsComment dialect start' stop' c where
  start_le := Nat.le_trans hstart h.start_le
  start_lt_stop := h.start_lt_stop
  stop_le := Nat.le_trans h.stop_le hstop
  begins := h.begins
  place_start := h.place_start
  place_stop := h.place_stop

/-- What begins with one of the delimiters begins at a place. -/
theorem isPlace_of_begins {opener : List Char} (hopener : opener ∈ commentOpeners dialect)
    {a b : Nat} (h : opener <+: src.slice a b) : src.IsPlace a := by
  have hall : (commentOpeners dialect).all (fun opener => opener.head?.any (· != '\n')) = true := by
    cases dialect <;> decide
  have hhead := List.all_eq_true.mp hall opener hopener
  obtain ⟨rest, hrest⟩ := h
  cases opener with
  | nil => exact absurd hhead (by simp)
  | cons d opener =>
    have hchar : src.text[a]? = some d := by
      have htext : src.text.drop a = d :: (opener ++ rest ++ (src.text.drop a).drop (b - a)) := by
        rw [← List.cons_append, ← List.cons_append, hrest, slice, List.take_append_drop]
      rw [← List.head?_drop, htext, List.head?_cons]
    exact (isBoundary_of_getElem? hchar (by simpa using hhead)).isPlace

/-- **What is delimited in a part of a source is a comment of the source.** -/
theorem isComment_of_delimited {extent : Span} (hextent : src.IsExtent start stop extent)
    (hwithin : start ≤ c.start ∧ c.stop ≤ stop)
    (h : Delimited dialect start (src.slice start stop) c) :
    src.IsComment dialect start stop c := by
  have hlt := h.start_lt_stop
  have hle := hextent.stop_le_length
  obtain ⟨opener, hopener, hbegins, hlength⟩ := h.begins
  rw [drop_slice hwithin.1] at hbegins
  have hslice := prefix_slice hbegins hlength
  have hplace := isPlace_of_begins hopener hslice
  refine ⟨hwithin.1, hlt, hwithin.2, ⟨opener, hopener, hslice⟩, hplace, ?_⟩
  rcases h.ends with hend | hlast
  · rw [length_slice hle, Nat.add_sub_cancel' hextent.start_le_stop] at hend
    rw [hend]
    exact hextent.place_stop
  · rw [take_slice hwithin.2] at hlast
    have hne : src.slice start c.stop ≠ [] := by
      apply List.ne_nil_of_length_pos
      rw [length_slice (by omega)]
      omega
    -- the last character of the comment stands before the place
    have hbefore : (src.text.take c.stop).getLast? ≠ some '\r' := by
      have hpart : start ≤ c.stop := by omega
      rw [take_eq_append_slice hpart, List.getLast?_append]
      rw [List.getLast?_eq_some_getLast hne] at hlast ⊢
      exact hlast
    have hsplit := (List.take_append_drop c.stop src.text).symm
    have hboundary := isBoundary_append hsplit (Or.inl hbefore)
    have hlength : (src.text.take c.stop).length = c.stop := by
      rw [List.length_take]
      exact Nat.min_eq_left (Nat.le_trans hwithin.2 hle)
    rw [hlength] at hboundary
    exact hboundary.isPlace

/-! ### Both ways to look -/

variable {within : Option Span} {s : Span}

theorem scannedComments_eq (src : Source) (dialect : Dialect) (within : Option Span) :
    src.scannedComments dialect within = (JumpLexer.comments dialect (src.bounds within).1
      (src.slice (src.bounds within).1 (src.bounds within).2)).map src.spanOf := by
  rw [← scanComments_eq_comments]
  rfl

theorem occurrencesIn_none {α : Type} (src : Source) (pattern : Pattern α) :
    src.occurrencesIn none pattern = occurrences pattern (Reader.ofText src.text 0) := by
  rw [occurrencesIn, bounds]
  simp only
  rw [reader, slice_all]

/-- Occurrences lie in the region in which they are looked for. -/
theorem occurrencesIn_within {α : Type} {pattern : Pattern α} {o : Occurrence α}
    (h : o ∈ src.occurrencesIn within pattern) :
    (src.bounds within).1 ≤ o.start ∧ o.stop ≤ (src.bounds within).2 := by
  have hextent := src.isExtent_bounds within
  obtain ⟨hstart, hstop⟩ := occurrences_within h
  have hlength : (src.slice (src.bounds within).1 (src.bounds within).2).length
      = (src.bounds within).2 - (src.bounds within).1 := length_slice hextent.stop_le_length
  have hend : o.stop ≤ (src.bounds within).1
      + (src.slice (src.bounds within).1 (src.bounds within).2).length := hstop
  rw [hlength, Nat.add_sub_cancel' hextent.start_le_stop] at hend
  exact ⟨hstart, hend⟩

/-- What is written in a source as a comment is one. -/
theorem isComment_of_isWritten {form : CommentForm} (hform : form ∈ dialect.comments)
    (h : form.IsWritten 0 src.text c) : src.IsComment dialect 0 src.length c := by
  have hstop := h.stop_le
  rw [Nat.zero_add] at hstop
  have hdelimited := delimited_of_isWritten hform h
  rw [← src.slice_all] at hdelimited
  exact isComment_of_delimited src.isExtent_fullSpan ⟨h.le_start, hstop⟩ hdelimited

/-- What the scan of a part finds is a comment of the source. -/
theorem isComment_of_mem_comments {extent : Span} (hextent : src.IsExtent start stop extent)
    (h : c ∈ JumpLexer.comments dialect start (src.slice start stop)) :
    src.IsComment dialect start stop c := by
  obtain ⟨hstart, -, hstop⟩ := JumpLexer.comments_within _ _ _ c h
  rw [length_slice hextent.stop_le_length, Nat.add_sub_cancel' hextent.start_le_stop] at hstop
  exact isComment_of_delimited hextent ⟨hstart, hstop⟩ (delimited_of_mem_comments h)

theorem isComment_of_mem_comments_text (h : c ∈ JumpLexer.comments dialect 0 src.text) :
    src.IsComment dialect 0 src.length c := by
  rw [← src.slice_all] at h
  exact isComment_of_mem_comments src.isExtent_fullSpan h

theorem exists_isComment_of_mem_scanned (h : s ∈ src.scannedComments dialect within) :
    ∃ c, src.IsComment dialect (src.bounds within).1 (src.bounds within).2 c ∧
      src.spanOf c = s := by
  rw [scannedComments_eq] at h
  obtain ⟨c, hc, hspan⟩ := List.mem_map.mp h
  exact ⟨c, isComment_of_mem_comments (src.isExtent_bounds within) hc, hspan⟩

theorem exists_isComment_of_mem_matched (h : s ∈ src.matchedComments dialect within) :
    ∃ c, src.IsComment dialect (src.bounds within).1 (src.bounds within).2 c ∧
      src.spanOf c = s := by
  have hextent := src.isExtent_bounds within
  obtain ⟨pattern, hpattern, h⟩ := List.mem_flatMap.mp h
  obtain ⟨o, ho, hspan⟩ := List.mem_map.mp h
  have hdelimited := CommentPattern.delimited_of_mem_occurrences hpattern ho
  exact ⟨o.stretch, isComment_of_delimited hextent (occurrencesIn_within ho) hdelimited, hspan⟩

/-- An embedded region lies in the region that it is embedded in. -/
theorem bounds_of_mem_embeddedSpans {inner : Span} (h : inner ∈ src.embeddedSpans within dialect) :
    (src.bounds within).1 ≤ (src.bounds (some inner)).1 ∧
      (src.bounds (some inner)).2 ≤ (src.bounds within).2 := by
  have hextent := src.isExtent_bounds within
  cases dialect with
  | script => exact absurd h List.not_mem_nil
  | tag =>
    obtain ⟨tag, htag, rfl⟩ := List.mem_map.mp (List.mem_filter.mp h).1
    obtain ⟨o, ho, rfl⟩ := List.mem_map.mp htag
    obtain ⟨hstart, hstop⟩ := occurrencesIn_within ho
    obtain ⟨hbegin, hend⟩ := Tag.body_within ho
    have hbody : src.bounds (some (src.spanOf o.value.body))
        = (src.offsetAt (src.position o.value.body.start),
          src.offsetAt (src.position o.value.body.stop)) := if_pos (src.isValid_spanOf _)
    rw [hbody]
    -- the ends of the body are between two places, and positions keep the order
    constructor
    · calc (src.bounds within).1
        _ = src.offsetAt (src.position (src.bounds within).1) := hextent.place_start.symm
        _ ≤ src.offsetAt (src.position o.value.body.start) :=
          src.offsetAt_mono (src.position_mono (Nat.le_trans hstart (Nat.le_of_lt hbegin)))
    · calc src.offsetAt (src.position o.value.body.stop)
        _ ≤ src.offsetAt (src.position (src.bounds within).2) :=
          src.offsetAt_mono (src.position_mono (Nat.le_trans hend hstop))
        _ = (src.bounds within).2 := hextent.place_stop

/-- **What is reported as a comment is one**, whichever way one looks. -/
theorem exists_isComment_of_mem_comments {fast : Bool} (h : s ∈ src.comments dialect within fast) :
    ∃ dialect c, src.IsComment dialect (src.bounds within).1 (src.bounds within).2 c ∧
      src.spanOf c = s := by
  have hinner : ∀ inner ∈ src.embeddedSpans within dialect,
      (∃ c, src.IsComment .script (src.bounds (some inner)).1 (src.bounds (some inner)).2 c ∧
        src.spanOf c = s) →
      ∃ dialect c, src.IsComment dialect (src.bounds within).1 (src.bounds within).2 c ∧
        src.spanOf c = s := by
    intro inner hmem hfound
    obtain ⟨c, hc, hspan⟩ := hfound
    obtain ⟨hstart, hstop⟩ := bounds_of_mem_embeddedSpans hmem
    exact ⟨.script, c, hc.mono hstart hstop, hspan⟩
  have hmem := Spans.mem_of_mem_normalize h
  cases fast with
  | true =>
    rcases List.mem_append.mp hmem with hown | hembedded
    · exact ⟨dialect, exists_isComment_of_mem_matched hown⟩
    · obtain ⟨inner, hin, hs⟩ := List.mem_flatMap.mp hembedded
      exact hinner inner hin (exists_isComment_of_mem_matched hs)
  | false =>
    rcases List.mem_append.mp hmem with hown | hembedded
    · exact ⟨dialect, exists_isComment_of_mem_scanned (List.mem_filter.mp hown).1⟩
    · obtain ⟨inner, hin, hs⟩ := List.mem_flatMap.mp hembedded
      exact hinner inner (List.mem_filter.mp hin).1 (exists_isComment_of_mem_scanned hs)

/-- **The comments of a source.** In every source, for either dialect and either way to look, the
comments of a region follow each other in it. None of them is empty, positions of their ends lead
back to themselves, and the text of each begins with an opening delimiter. -/
theorem comments_spec (src : Source) (dialect : Dialect) (within : Option Span) (fast : Bool) :
    ((src.comments dialect within fast).Pairwise fun c c' =>
      c.start < c'.start ∧ c.stop ≤ c'.start) ∧
    ∀ c ∈ src.comments dialect within fast,
      c.start < c.stop ∧ (src.extent within).start ≤ c.start ∧ c.stop ≤ (src.extent within).stop ∧
      src.position (src.offsetAt c.start) = c.start ∧ src.position (src.offsetAt c.stop) = c.stop ∧
      ∃ opener ∈ [['/', '/'], ['/', '*'], ['<', '!', '-', '-']], opener <+: src.textOf c := by
  have hextent := src.isExtent_bounds within
  have hlt : ∀ c ∈ src.comments dialect within fast, c.start < c.stop := by
    intro s hs
    obtain ⟨_, c, hc, rfl⟩ := exists_isComment_of_mem_comments hs
    exact position_lt hc.place_start hc.place_stop hc.start_lt_stop
  constructor
  · apply List.Pairwise.imp_of_mem _ (Spans.apart_normalize _)
    intro c c' hc _ hle
    refine ⟨?_, hle⟩
    have := hlt c hc
    rw [Position.lt_iff] at this ⊢
    rw [Position.le_iff] at hle
    omega
  · intro s hs
    refine ⟨hlt s hs, ?_⟩
    obtain ⟨found, c, hc, rfl⟩ := exists_isComment_of_mem_comments hs
    refine ⟨?_, ?_, ?_, ?_, ?_⟩
    · rw [← hextent.position_start]
      exact src.position_mono hc.start_le
    · rw [← hextent.position_stop]
      exact src.position_mono hc.stop_le
    · exact congrArg src.position hc.place_start
    · exact congrArg src.position hc.place_stop
    · have hslice : src.textOf (src.spanOf c) = src.slice c.start c.stop :=
        congrArg₂ src.slice hc.place_start hc.place_stop
      obtain ⟨opener, hopener, hbegins⟩ := hc.begins
      rw [hslice]
      refine ⟨opener, ?_, hbegins⟩
      cases found with
      | script => exact List.mem_append_left [['<', '!', '-', '-']] hopener
      | tag => exact List.mem_append_right [['/', '/'], ['/', '*']] hopener

end Source

end Cfml
