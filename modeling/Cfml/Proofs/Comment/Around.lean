/-
A text with a comment of markup in it.

A closed comment hides what it has between its delimiters from the scan, so blanking that out leaves
the scan where it was (`TagComments.comments_around_eq`). It does not hide it from the search for
`<cfscript>`, which runs before comments are known: a tag that begins or ends inside a comment can
be half of a pair. If there is no such pair, the pairs that are found once the inside is blank are
those that did not lie in the comment as a whole (`TagComments.occurrences_around`).
-/
import Cfml.Proofs.Comment.Blanked
import Cfml.Proofs.Comment.Template

set_option autoImplicit false

namespace Cfml

/-- A word without the character lies before it or behind it. -/
theorem isInfix_or_of_notMem {α : Type} {c : α} {word before behind : List α} (hc : c ∉ word)
    (h : word <:+: before ++ c :: behind) : word <:+: before ∨ word <:+: behind := by
  obtain ⟨front, back, hsplit⟩ := h
  rcases List.append_eq_append_iff.mp hsplit with ⟨more, hbefore, -⟩ | ⟨more, hfront, hbehind⟩
  · left
    exact ⟨front, more, hbefore.symm⟩
  · cases more with
    | nil =>
      left
      rw [List.append_nil] at hfront
      exact ⟨front, [], by rw [List.append_nil, hfront]⟩
    | cons d more =>
      obtain ⟨rfl, rfl⟩ := List.cons.inj hbehind
      -- the word ends behind the character, so it begins there too
      rcases List.append_eq_append_iff.mp hfront with ⟨rest, -, hword⟩ | ⟨rest, -, hmore⟩
      · exact absurd (hword ▸ List.mem_append_right _ List.mem_cons_self) hc
      · cases rest with
        | nil =>
          obtain rfl : c :: more = word := hmore
          exact absurd List.mem_cons_self hc
        | cons e rest =>
          obtain ⟨-, rfl⟩ := List.cons.inj hmore
          right
          exact (List.suffix_append rest word).isInfix.trans (List.prefix_append _ back).isInfix

namespace TagComments

/-! ## A text with a comment in it -/

/-- The text with a closed comment in it. -/
def around (before inside after : List Char) : List Char :=
  before ++ (opener ++ (inside ++ (closer ++ after)))

/-- Where the comment stands. -/
def place (before inside : List Char) : Stretch :=
  ⟨before.length, before.length + (opener.length + (inside.length + closer.length)),
    Nat.le_add_right _ _⟩

/-- What a comment has between its delimiters. -/
def between (c : Stretch) : Stretch :=
  ⟨c.start + opener.length, max (c.start + opener.length) (c.stop - closer.length),
    Nat.le_max_left _ _⟩

variable {before inside blank after : List Char}

theorem start_between_place :
    (between (place before inside)).start = before.length + opener.length := rfl

theorem stop_between_place : (between (place before inside)).stop
    = before.length + opener.length + inside.length := by
  simp only [between, place]
  omega

/-! ### The scan -/

theorem noneAcross_opener (text rest : List Char) : NoneAcross text (opener ++ rest) :=
  noneAcross_bracket text _

/-- Blanks are passed over on the way to a delimiter. -/
theorem distance?_closer_append (hblank : ∀ c ∈ blank, Source.IsBlanked c) (rest : List Char) :
    JumpLexer.distance? closer (blank ++ rest)
      = (JumpLexer.distance? closer rest).map (· + blank.length) := by
  induction blank with
  | nil => simp
  | cons c blank ih =>
    obtain ⟨hc, hrest⟩ := List.forall_mem_cons.mp hblank
    have hnot : ¬ closer.isPrefixOf (c :: (blank ++ rest)) = true := by
      intro hbegins
      obtain rfl : '-' = c :=
        (List.cons_prefix_cons.mp (List.isPrefixOf_iff_prefix.mp hbegins)).1
      rcases hc with hspace | hbreak
      · exact absurd hspace (by decide)
      · exact absurd hbreak (by decide)
    rw [List.cons_append, JumpLexer.distance?, if_neg hnot, ih hrest, Option.map_map,
      List.length_cons]
    apply congrArg (Option.map · _)
    funext n
    exact Nat.add_assoc n blank.length 1

theorem through_closer_append (hblank : ∀ c ∈ blank, Source.IsBlanked c) (after : List Char) :
    JumpLexer.through closer (blank ++ (closer ++ after)) = blank.length + closer.length := by
  have hhere : JumpLexer.distance? closer (closer ++ after) = some 0 := by
    apply (JumpLexer.distance?_eq_some_iff closer_ne_nil).mpr
    refine ⟨List.prefix_append closer after, ?_⟩
    intro m hm
    exact absurd hm (Nat.not_lt_zero m)
  rw [JumpLexer.through, distance?_closer_append hblank, hhere, Option.map_some, Nat.zero_add]

/-- The scan finds what is before the comment, the comment, and what is behind it. -/
theorem comments_around (hcomment : place before inside
      ∈ JumpLexer.comments .tag 0 (around before inside after)) :
    ClosesTagComments before ∧
      JumpLexer.through closer (inside ++ (closer ++ after)) = inside.length + closer.length := by
  have hcloses : ClosesTagComments before := by
    by_contra hopen
    obtain ⟨front, open', hbefore, hnot, hacross⟩ := exists_open hopen
    -- the comment that is left open would swallow this one
    obtain ⟨c, hc, hstart, hstop⟩ := hacross 0 (opener ++ (inside ++ (closer ++ after)))
      (noneAcross_opener _ _)
    have hne : opener ++ (inside ++ (closer ++ after)) ≠ [] := List.cons_ne_nil _ _
    have hlt := JumpLexer.lt_through_append closer_ne_nil hnot hne
    have hlength : before.length = front.length + (opener.length + open'.length) := by
      rw [hbefore, List.length_append, List.length_append]
    have hopener : opener.length = 5 := rfl
    have hbegin : c.start < (place before inside).start := by
      simp only [hstart, place]
      omega
    have hle := JumpLexer.stop_le_start .tag 0 _ hc hcomment hbegin
    simp only [hstop, place] at hle
    omega
  refine ⟨hcloses, ?_⟩
  rw [around, comments_append hcloses (noneAcross_opener _ _), comments_opener,
    Nat.zero_add] at hcomment
  rcases List.mem_append.mp hcomment with hbefore | hhere
  · have hwithin := JumpLexer.comments_within _ _ _ _ hbefore
    simp only [JumpLexer.Within, place] at hwithin
    omega
  · rcases List.mem_cons.mp hhere with heq | hbehind
    · have hstop := congrArg Stretch.stop heq
      simp only [place] at hstop
      omega
    · have hwithin := (JumpLexer.comments_within _ _ _ _ hbehind).1
      simp only [place] at hwithin
      have hopener : opener.length = 5 := rfl
      omega

/-- **The scan does not see what is inside.** -/
theorem comments_around_eq (hblank : ∀ c ∈ blank, Source.IsBlanked c)
    (hlength : blank.length = inside.length)
    (hcomment : place before inside ∈ JumpLexer.comments .tag 0 (around before inside after)) :
    JumpLexer.comments .tag 0 (around before blank after)
      = JumpLexer.comments .tag 0 (around before inside after) := by
  obtain ⟨hcloses, hthrough⟩ := comments_around hcomment
  have hdrop : ∀ text : List Char, (text ++ (closer ++ after)).drop (text.length + closer.length)
      = after := by
    intro text
    rw [List.drop_length_add_append, List.drop_left]
  rw [around, around, comments_append hcloses (noneAcross_opener _ _),
    comments_append hcloses (noneAcross_opener _ _), comments_opener, comments_opener, hthrough,
    through_closer_append hblank, hdrop, hdrop, hlength]

/-! ### The pairs of tags -/

open Tag Template

/-- The closing delimiter up to its bracket. -/
def dashes : List Char := ['-', '-', '-']

/-- The text up to the bracket of the comment, and what is behind it. -/
theorem around_eq (before inside after : List Char) : around before inside after
    = (before ++ (opener ++ (inside ++ dashes))) ++ '>' :: after := by
  simp [around, closer, CommentForm.tagBlock, dashes]

/-- A tag does not begin like a comment. -/
theorem not_opener_prefix {tag rest : List Char} (h : IsOpening tagName tag) :
    ¬ tag <+: opener ++ rest := by
  obtain ⟨written, attributes, rfl, hwritten, -⟩ := h
  obtain ⟨d, written, hsame, -, rfl⟩ := List.forall₂_cons_left_iff.mp
    (show List.Forall₂ (sameLetter · · = true) ('c' :: "fscript".toList) written from hwritten)
  intro hbegins
  obtain ⟨-, htail⟩ := List.cons_prefix_cons.mp hbegins
  obtain rfl : d = '!' := (List.cons_prefix_cons.mp htail).1
  exact absurd hsame (by decide)

theorem dash_notMem_closing {tag : List Char} (h : IsClosing tagName tag) : '-' ∉ tag := by
  obtain ⟨written, blanks, rfl, hwritten, hblanks⟩ := h
  have hname : tagName.all (fun c => !sameLetter c '-') = true := by decide
  have hnot : '-' ∉ written := by
    apply notMem_of_forall₂ hwritten
    intro c hc
    simpa using List.all_eq_true.mp hname c hc
  have hnotBlank : '-' ∉ blanks := fun hmem => absurd (hblanks _ hmem) (by decide)
  simp [hnot, hnotBlank]

theorem bracket_notMem (hblank : ∀ c ∈ blank, Source.IsBlanked c) : '<' ∉ blank ∧ '>' ∉ blank := by
  constructor
  · intro hmem
    rcases hblank _ hmem with hspace | hbreak
    · exact absurd hspace (by decide)
    · exact absurd hbreak (by decide)
  · intro hmem
    rcases hblank _ hmem with hspace | hbreak
    · exact absurd hspace (by decide)
    · exact absurd hbreak (by decide)

/-- A closing tag lies before what has been blanked out or behind it. -/
theorem isInfix_around {tag : List Char} (hblank : ∀ c ∈ blank, Source.IsBlanked c)
    (htag : IsClosing tagName tag) (h : tag <:+: around before blank after) :
    tag <:+: around before inside after := by
  have hdash := dash_notMem_closing htag
  -- a dash stands on either side
  let front := before ++ ['<', '!', '-', '-']
  have hwhole : ∀ text, around before text after
      = front ++ '-' :: (text ++ '-' :: ('-' :: '-' :: '>' :: after)) := by
    intro text
    simp [around, opener, closer, CommentForm.tagBlock, front]
  rw [hwhole] at h ⊢
  rcases isInfix_or_of_notMem hdash h with hfront | hback
  · exact hfront.trans (List.prefix_append _ _).isInfix
  · rcases isInfix_or_of_notMem hdash hback with hin | hbehind
    · obtain ⟨tail, rfl, -⟩ := htag.exists_tail isPlainName_tagName
      exact absurd (hin.subset List.mem_cons_self) (bracket_notMem hblank).1
    · apply hbehind.trans
      refine List.IsSuffix.isInfix ⟨front ++ '-' :: (inside ++ ['-']), ?_⟩
      simp

/-- What has been blanked out in an opening tag did not matter to it. -/
theorem isOpening_around {front text text' : List Char} (hfront : front ≠ [])
    (hnot : '>' ∉ text') (h : IsOpening tagName (front ++ (opener ++ (text ++ ['>'])))) :
    IsOpening tagName (front ++ (opener ++ (text' ++ ['>']))) := by
  have hmiddle : '>' ∉ ['!', '-', '-', '-'] ++ text' := by simp [hnot]
  have hbracket : IsOpening tagName (front ++ '<' :: (['!', '-', '-', '-'] ++ text ++ ['>'])) := h
  exact hbracket.of_bracket isPlainName_tagName hfront hmiddle

/-- **A pair that is read before the comment** without what is inside is read with it. -/
theorem pair?_around {r r' : Reader} (hblank : ∀ c ∈ blank, Source.IsBlanked c)
    (hbefore : before ≠ []) (hahead' : r'.ahead = around before blank after)
    (hahead : r.ahead = around before inside after) (h : pair? tagName r' ≠ none) :
    pair? tagName r ≠ none := by
  obtain ⟨⟨parts, later⟩, hpair⟩ := Option.ne_none_iff_exists'.mp h
  obtain ⟨opening, body, closing, rest, hopening, hclosing, -, hsplit⟩ := exists_pair hpair
  obtain ⟨init, rfl, hinit⟩ := hopening.exists_init isPlainName_tagName
  rw [hahead', List.append_assoc, List.singleton_append] at hsplit
  by_cases hmem : '>' ∈ before
  -- the opening tag ends before the comment
  · obtain ⟨front, back, rfl, hfront⟩ := List.eq_append_cons_of_mem hmem
    have hwhole : ∀ text, around (front ++ '>' :: back) text after
        = front ++ '>' :: around back text after := by
      intro text
      rw [around, around, List.append_assoc, List.cons_append]
    rw [hwhole] at hsplit hahead
    obtain rfl := append_cons_inj_of_notMem hfront hinit hsplit
    have hrest := List.cons.inj (List.append_cancel_left hsplit)
    have hread : r.ahead = (front ++ ['>']) ++ around back inside after := by
      rw [hahead, List.append_assoc, List.singleton_append]
    apply pair?_ne_none hopening hclosing hread
    apply isInfix_around hblank hclosing
    rw [hrest.2]
    exact List.infix_append' _ _ _
  -- it ends with the comment, or where a bracket stands inside
  · have hnot : '>' ∉ before ++ (opener ++ (blank ++ dashes)) := by
      simp [hmem, (bracket_notMem hblank).2, opener, CommentForm.tagBlock, dashes]
    rw [around_eq] at hsplit hahead
    obtain rfl := append_cons_inj_of_notMem hnot hinit hsplit
    obtain ⟨-, hafter⟩ := List.cons.inj (List.append_cancel_left hsplit)
    obtain ⟨front, back, hbracket, hfront⟩ : ∃ front back,
        inside ++ dashes ++ ['>'] = front ++ '>' :: back ∧ '>' ∉ front :=
      List.eq_append_cons_of_mem (List.mem_append_right _ List.mem_cons_self)
    have hopening' : IsOpening tagName (before ++ (opener ++ (blank ++ dashes ++ ['>']))) := by
      simpa using hopening
    have hread : r.ahead = (before ++ (opener ++ (front ++ ['>']))) ++ (back ++ after) := by
      have hmore := congrArg (· ++ after) hbracket
      simp only [List.append_assoc, List.cons_append, List.nil_append] at hmore
      simp only [hahead, List.append_assoc, List.cons_append, List.nil_append, hmore]
    apply pair?_ne_none (isOpening_around hbefore hfront hopening') hclosing hread
    rw [hafter]
    exact (List.infix_append' _ _ _).trans (List.suffix_append _ _).isInfix

/-! ### The pairs that are found -/

/-- The pair lies in the stretch. -/
def liesIn (s : Stretch) (o : Occurrence TagParts) : Bool := s.start ≤ o.start && o.stop ≤ s.stop

theorem liesIn_iff {s : Stretch} {o : Occurrence TagParts} :
    liesIn s o = true ↔ s.start ≤ o.start ∧ o.stop ≤ s.stop := by
  rw [liesIn, Bool.and_eq_true, decide_eq_true_iff, decide_eq_true_iff]

/-- The pair lies beside the stretch, or the stretch lies in its opening tag. -/
def LiesBeside (s : Stretch) (o : Occurrence TagParts) : Prop :=
  o.stop ≤ s.start ∨ s.stop ≤ o.start ∨ (o.start ≤ s.start ∧ s.stop ≤ o.value.body.start)

/-- A text that ends with a bracket and begins an opening tag is the whole of it. -/
theorem eq_opening_of_prefix {opening text : List Char} (hopening : IsOpening tagName opening)
    (h : text ++ ['>'] <+: opening) : text ++ ['>'] = opening := by
  obtain ⟨init, rfl, hinit⟩ := hopening.exists_init isPlainName_tagName
  obtain ⟨more, hmore⟩ := h
  rcases List.eq_nil_or_concat' more with rfl | ⟨more, c, rfl⟩
  · rwa [List.append_nil] at hmore
  · rw [← List.append_assoc] at hmore
    obtain ⟨rfl, -⟩ := List.append_inj' hmore rfl
    exact absurd (by simp) hinit

section Beside

variable {o : Occurrence TagParts} (hlength : blank.length = inside.length)
  (ho : o ∈ occurrences (pair tagName) (Reader.ofText (around before inside after) 0))
include ho

/-- A pair before the comment is still read. -/
theorem isRead_of_before (hbefore : o.stop ≤ (place before inside).start) :
    o.IsRead (pair tagName) (Reader.ofText (around before blank after) 0) := by
  obtain ⟨front, opening, body, closing, rest, hopening, hclosing, hbody, hsplit, hstart, hparts,
    hstop⟩ := exists_of_mem_occurrences ho
  have hwhole : around before inside after = front ++ (opening ++ (body ++ (closing ++ rest))) :=
    hsplit
  have hfront : o.start = front.length := hstart.trans (Nat.zero_add _)
  have hoffset : ∀ text, o.start = (Reader.ofText text 0).offset + front.length := fun _ => hstart
  have hpair : front ++ (opening ++ (body ++ closing)) <+: before := by
    have hin : front ++ (opening ++ (body ++ closing)) <+: around before inside after :=
      ⟨rest, by rw [hwhole]; simp only [List.append_assoc]⟩
    apply List.prefix_of_prefix_length_le hin (List.prefix_append _ _)
    rw [List.length_append, ← hfront, ← hstop]
    exact hbefore
  obtain ⟨more, rfl⟩ := hpair
  have hbody' := hbody.congr isPlainName_tagName hclosing
    (more ++ (opener ++ (blank ++ (closer ++ after))))
  apply isRead_pair hopening hclosing hbody' _ (hoffset _) hparts hstop
  simp only [Reader.ofText, around, List.append_assoc]

include hlength

/-- So is a pair behind it. -/
theorem isRead_of_behind (hbehind : (place before inside).stop ≤ o.start) :
    o.IsRead (pair tagName) (Reader.ofText (around before blank after) 0) := by
  obtain ⟨front, opening, body, closing, rest, hopening, hclosing, hbody, hsplit, hstart, hparts,
    hstop⟩ := exists_of_mem_occurrences ho
  have hwhole : around before inside after = front ++ (opening ++ (body ++ (closing ++ rest))) :=
    hsplit
  have hfront : o.start = front.length := hstart.trans (Nat.zero_add _)
  have haround : ∀ text, around before text after
      = (before ++ (opener ++ (text ++ closer))) ++ after := by
    intro text
    simp only [around, List.append_assoc]
  have hpassed : before ++ (opener ++ (inside ++ closer)) <+: front := by
    have hin : before ++ (opener ++ (inside ++ closer)) <+: around before inside after :=
      ⟨after, (haround inside).symm⟩
    apply List.prefix_of_prefix_length_le hin ⟨_, hwhole.symm⟩
    simp only [List.length_append]
    rw [← hfront]
    exact hbehind
  obtain ⟨more, rfl⟩ := hpassed
  have hafter : after = more ++ (opening ++ (body ++ (closing ++ rest))) := by
    rw [haround, List.append_assoc _ more] at hwhole
    exact List.append_cancel_left hwhole
  apply isRead_pair hopening hclosing hbody _ _ hparts hstop
  · exact before ++ (opener ++ (blank ++ closer)) ++ more
  · rw [Reader.ofText, haround, hafter]
    simp only [List.append_assoc]
  · rw [hstart]
    simp only [List.length_append, hlength]
    rfl

/-- So is a pair with the comment in its opening tag. -/
theorem isRead_of_opening (hblank : ∀ c ∈ blank, Source.IsBlanked c)
    (hbegin : o.start ≤ (place before inside).start)
    (hend : (place before inside).stop ≤ o.value.body.start) :
    o.IsRead (pair tagName) (Reader.ofText (around before blank after) 0) := by
  obtain ⟨front, opening, body, closing, rest, hopening, hclosing, hbody, hsplit, hstart, hparts,
    hstop⟩ := exists_of_mem_occurrences ho
  have hwhole : around before inside after = front ++ (opening ++ (body ++ (closing ++ rest))) :=
    hsplit
  have hfront : o.start = front.length := hstart.trans (Nat.zero_add _)
  have hoffset : ∀ text, o.start = (Reader.ofText text 0).offset + front.length := fun _ => hstart
  have hpassed : front <+: before := by
    apply List.prefix_of_prefix_length_le ⟨_, hwhole.symm⟩ (List.prefix_append _ _)
    rw [← hfront]
    exact hbegin
  obtain ⟨more, rfl⟩ := hpassed
  have haround : ∀ text, around (front ++ more) text after
      = front ++ ((more ++ (opener ++ (text ++ dashes)) ++ ['>']) ++ after) := by
    intro text
    rw [around_eq]
    simp only [List.append_assoc, List.singleton_append]
  rw [haround] at hwhole
  have hrest := List.append_cancel_left hwhole
  -- the comment ends in the opening tag, so its bracket is that of the tag
  have hwholeTag : more ++ (opener ++ (inside ++ dashes)) ++ ['>'] = opening := by
    apply eq_opening_of_prefix hopening
    apply List.prefix_of_prefix_length_le ⟨_, hrest⟩ (List.prefix_append _ _)
    rw [hparts.body_start, hfront] at hend
    simp only [place, List.length_append, closer, CommentForm.tagBlock, dashes,
      List.length_cons, List.length_nil] at hend ⊢
    omega
  subst hwholeTag
  have hafter := List.append_cancel_left hrest
  have hmore : more ≠ [] := by
    rintro rfl
    have hbegins : [] ++ (opener ++ (inside ++ dashes)) ++ ['>']
        <+: opener ++ (inside ++ dashes ++ ['>']) := ⟨[], by simp⟩
    exact not_opener_prefix hopening hbegins
  have hnot : '>' ∉ blank ++ dashes := by simp [(bracket_notMem hblank).2, dashes]
  have hopen : IsOpening tagName (more ++ (opener ++ (inside ++ dashes ++ ['>']))) := by
    simpa using hopening
  have hopening' := isOpening_around hmore hnot hopen
  apply isRead_pair hopening' hclosing hbody _ (hoffset _) (hparts.of_length_eq _) _
  · rw [Reader.ofText, haround, hafter]
    simp only [List.append_assoc]
  · simp only [List.length_append, hlength, Nat.add_assoc]
  · rw [hstop]
    simp only [List.length_append, hlength, Nat.add_assoc]

/-- **A pair beside the comment stays.** -/
theorem isRead_around (hblank : ∀ c ∈ blank, Source.IsBlanked c)
    (hbeside : LiesBeside (place before inside) o) :
    o.IsRead (pair tagName) (Reader.ofText (around before blank after) 0) := by
  rcases hbeside with hbefore | hbehind | ⟨hbegin, hend⟩
  · exact isRead_of_before ho hbefore
  · exact isRead_of_behind hlength ho hbehind
  · exact isRead_of_opening hlength ho hblank hbegin hend

end Beside

/-- A pair that is read at a place is one that is found, or the place is not spared by one. -/
theorem exists_not_spares {r : Reader} {passed rest : List Char} (hahead : r.ahead = passed ++ rest)
    (h : pair? tagName (r.passing passed rest) ≠ none) :
    ∃ o ∈ occurrences (pair tagName) r, ¬ o.Spares (r.offset + passed.length) := by
  by_contra hall
  apply h
  apply nothingBeside_occurrences (pair tagName) r passed rest hahead
  · rintro rfl
    obtain ⟨⟨parts, later⟩, hpair⟩ := Option.ne_none_iff_exists'.mp h
    obtain ⟨_, _, _, _, ⟨_, _, rfl, -⟩, -, -, hsplit⟩ := exists_pair hpair
    exact absurd hsplit (by simp)
  · intro o ho
    by_contra hnot
    exact hall ⟨o, ho, hnot⟩

/-- If the pairs that do not lie in the stretch spare the place, then it is one that lies in it. -/
theorem exists_liesIn_of_read {r : Reader} {s : Stretch} {passed rest : List Char}
    (hahead : r.ahead = passed ++ rest) (h : pair? tagName (r.passing passed rest) ≠ none)
    (hspares : ∀ o ∈ (occurrences (pair tagName) r).filter (!liesIn s ·),
      o.Spares (r.offset + passed.length)) :
    ∃ o ∈ occurrences (pair tagName) r,
      (s.start ≤ o.start ∧ o.stop ≤ s.stop) ∧ ¬ o.Spares (r.offset + passed.length) := by
  obtain ⟨o, ho, hnot⟩ := exists_not_spares hahead h
  refine ⟨o, ho, ?_, hnot⟩
  rw [← liesIn_iff]
  by_contra hout
  exact hnot (hspares o (List.mem_filter.mpr ⟨ho, by simp [hout]⟩))

/-- No pair begins in the comment once it has been blanked out. -/
theorem pair?_eq_none_inside {r : Reader} {front back : List Char}
    (hblank : ∀ c ∈ blank, Source.IsBlanked c)
    (hsplit : opener ++ (blank ++ closer) = front ++ back) (hback : back ≠ [])
    (hahead : r.ahead = back ++ after) : pair? tagName r = none := by
  apply pair?_eq_none
  intro tag htag hbegins
  rw [hahead] at hbegins
  cases front with
  | nil =>
    obtain rfl : opener ++ (blank ++ closer) = back := hsplit
    rw [List.append_assoc] at hbegins
    exact not_opener_prefix htag hbegins
  | cons b front =>
    -- a tag begins with a bracket, and there is none behind the first character
    obtain ⟨c, back, rfl⟩ := List.exists_cons_of_ne_nil hback
    obtain ⟨_, _, rfl, -⟩ := htag
    obtain rfl : '<' = c := (List.cons_prefix_cons.mp hbegins).1
    have htail : ['!', '-', '-', '-'] ++ (blank ++ closer) = front ++ '<' :: back :=
      (List.cons.inj hsplit).2
    have hmem : '<' ∈ ['!', '-', '-', '-'] ++ (blank ++ closer) := by
      rw [htail]
      exact List.mem_append_right _ List.mem_cons_self
    have hnot := (bracket_notMem hblank).1
    simp [hnot, closer, CommentForm.tagBlock] at hmem

/-- **No pair appears.** -/
theorem nothingBeside_around (hblank : ∀ c ∈ blank, Source.IsBlanked c)
    (hlength : blank.length = inside.length) :
    NothingBeside (pair tagName) (Reader.ofText (around before blank after) 0)
      ((occurrences (pair tagName) (Reader.ofText (around before inside after) 0)).filter
        (!liesIn (place before inside) ·)) := by
  intro passed rest hahead _ hspares
  by_contra hpair
  let r := Reader.ofText (around before inside after) 0
  have hwhole : before ++ ((opener ++ (blank ++ closer)) ++ after) = passed ++ rest := by
    simp only [List.append_assoc]
    exact hahead
  have hbehind : ∀ more, passed = before ++ ((opener ++ (blank ++ closer)) ++ more) →
      after = more ++ rest → False := by
    rintro more rfl rfl
    let passed' := before ++ ((opener ++ (inside ++ closer)) ++ more)
    have hsame : passed'.length = (before ++ ((opener ++ (blank ++ closer)) ++ more)).length := by
      simp only [passed', List.length_append, hlength]
    have hahead' : r.ahead = passed' ++ rest := by
      simp only [r, passed', Reader.ofText, around, List.append_assoc]
    -- a pair that is read here was read here before
    have hread : pair? tagName (r.passing passed' rest) ≠ none :=
      pair?_ne_none_of_ahead (by rfl) hpair
    obtain ⟨o, ho, ⟨-, hstop⟩, hnot⟩ := exists_liesIn_of_read hahead' hread (hsame ▸ hspares)
    have hlt := start_lt_stop ho
    apply hnot
    right
    simp only [place, passed', List.length_append] at hstop ⊢
    omega
  rcases List.append_eq_append_iff.mp hwhole with ⟨more, rfl, hmore⟩ | ⟨more, rfl, rfl⟩
  · rcases List.append_eq_append_iff.mp hmore with ⟨last, rfl, hafter⟩ | ⟨back, hsplit, rfl⟩
    · exact hbehind last rfl hafter
    · by_cases hback : back = []
      · subst hback
        rw [List.append_nil] at hsplit
        exact hbehind [] (by rw [hsplit, List.append_nil]) rfl
      · exact hpair (pair?_eq_none_inside hblank hsplit hback rfl)
  · by_cases hmore : more = []
    · subst hmore
      have hsplit : opener ++ (blank ++ closer) = [] ++ (opener ++ (blank ++ closer)) := rfl
      exact hpair (pair?_eq_none_inside hblank hsplit (List.cons_ne_nil _ _) rfl)
    -- one that is read before the comment can only have been longer
    · have hahead' : r.ahead = passed ++ around more inside after := by
        simp only [r, Reader.ofText, around, List.append_assoc]
      have hread : pair? tagName (r.passing passed (around more inside after)) ≠ none :=
        pair?_around hblank hmore (by simp only [around, List.append_assoc]; rfl) rfl hpair
      obtain ⟨o, -, ⟨hstart, -⟩, hnot⟩ := exists_liesIn_of_read hahead' hread hspares
      have hpos := List.length_pos_of_ne_nil hmore
      have hoffset : r.offset + passed.length = passed.length := Nat.zero_add _
      rw [hoffset] at hnot
      apply hnot
      left
      simp only [place, List.length_append] at hstart
      omega

/-- **The pairs that are found** are those that lie beside the comment. -/
theorem occurrences_around (hblank : ∀ c ∈ blank, Source.IsBlanked c)
    (hlength : blank.length = inside.length)
    (hbeside : ∀ o ∈ occurrences (pair tagName) (Reader.ofText (around before inside after) 0),
      liesIn (place before inside) o = false → LiesBeside (place before inside) o) :
    occurrences (pair tagName) (Reader.ofText (around before blank after) 0)
      = (occurrences (pair tagName) (Reader.ofText (around before inside after) 0)).filter
        (!liesIn (place before inside) ·) := by
  apply occurrences_eq_of_isRead
  · intro o ho
    exact start_lt_stop (List.mem_filter.mp ho).1
  · intro o ho
    obtain ⟨ho, hout⟩ := List.mem_filter.mp ho
    rw [Bool.not_eq_true'] at hout
    exact isRead_around hlength ho hblank (hbeside o ho hout)
  · exact (occurrencesFrom_pairwise _ _ _ _ _).filter _
  · exact nothingBeside_around hblank hlength

/-- No comment lies in a closing tag. -/
theorem not_in_closing {o : Occurrence TagParts}
    (ho : o ∈ occurrences (pair tagName) (Reader.ofText (around before inside after) 0))
    (hbegin : o.value.body.stop ≤ before.length) : ¬ (place before inside).stop ≤ o.stop := by
  intro hend
  obtain ⟨front, opening, body, closing, rest, -, hclosing, -, hsplit, hstart, hparts, hstop⟩ :=
    exists_of_mem_occurrences ho
  have hfront : o.start = front.length := hstart.trans (Nat.zero_add _)
  have hwhole : around before inside after = (front ++ (opening ++ body)) ++ (closing ++ rest) := by
    simp only [List.append_assoc]
    exact hsplit
  have hpassed : front ++ (opening ++ body) <+: before := by
    apply List.prefix_of_prefix_length_le ⟨_, hwhole.symm⟩ (List.prefix_append _ _)
    rw [hparts.body_stop, hfront] at hbegin
    simp only [List.length_append]
    omega
  obtain ⟨more, rfl⟩ := hpassed
  have hrest : (more ++ (opener ++ (inside ++ closer))) ++ after = closing ++ rest := by
    rw [around, List.append_assoc] at hwhole
    have := List.append_cancel_left hwhole
    simpa using this
  -- the tag would have the opening delimiter in it
  have hin : more ++ (opener ++ (inside ++ closer)) <+: closing := by
    apply List.prefix_of_prefix_length_le ⟨_, hrest⟩ (List.prefix_append _ _)
    rw [hstop, hfront] at hend
    simp only [place, List.length_append] at hend ⊢
    omega
  obtain ⟨tail, rfl, htail⟩ := hclosing.exists_tail isPlainName_tagName
  cases more with
  | nil =>
    obtain ⟨_, _, heq, -⟩ := hclosing
    rw [heq] at hin
    have hsecond := (List.cons_prefix_cons.mp (List.cons_prefix_cons.mp hin).2).1
    exact absurd hsecond (by decide)
  | cons c more =>
    have hmem : '<' ∈ more ++ (opener ++ (inside ++ closer)) :=
      List.mem_append_right _ (List.mem_append_left _ List.mem_cons_self)
    exact htail ((List.cons_prefix_cons.mp hin).2.subset hmem)

/-- No tag of the pair begins or ends within the stretch, unless the whole pair lies in it. -/
def IsClearOf (s : Stretch) (o : Occurrence TagParts) : Prop :=
  (s.start ≤ o.start ∧ o.stop ≤ s.stop) ∨
    ∀ place ∈ [o.start, o.value.body.start, o.value.body.stop, o.stop],
      place ≤ s.start ∨ s.stop ≤ place

instance (s : Stretch) (o : Occurrence TagParts) : Decidable (IsClearOf s o) :=
  inferInstanceAs (Decidable ((s.start ≤ o.start ∧ o.stop ≤ s.stop) ∨
    ∀ place ∈ [o.start, o.value.body.start, o.value.body.stop, o.stop],
      place ≤ s.start ∨ s.stop ≤ place))

theorem liesBeside_of_isClearOf {o : Occurrence TagParts}
    (ho : o ∈ occurrences (pair tagName) (Reader.ofText (around before inside after) 0))
    (hclear : IsClearOf (place before inside) o) (hout : liesIn (place before inside) o = false)
    (hbody : ¬ (o.value.body.start ≤ (place before inside).start ∧
      (place before inside).stop ≤ o.value.body.stop)) : LiesBeside (place before inside) o := by
  rcases hclear with hin | hclear
  · rw [liesIn_iff.mpr hin] at hout
    exact absurd hout Bool.true_eq_false.mp
  · simp only [List.forall_mem_cons, List.not_mem_nil, false_imp_iff, implies_true, and_true]
      at hclear
    obtain ⟨hstart, hbegin, hend, hstop⟩ := hclear
    have hlt : (place before inside).start < (place before inside).stop := by
      have hopener : opener.length = 5 := rfl
      simp only [place]
      omega
    -- what is left is that the comment lies in the closing tag
    have hclosing : o.value.body.stop ≤ (place before inside).start →
        ¬ (place before inside).stop ≤ o.stop := not_in_closing ho
    unfold LiesBeside
    omega

end TagComments

end Cfml
