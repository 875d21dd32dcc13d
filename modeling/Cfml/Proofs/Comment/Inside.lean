/-
What is written inside a comment of markup.

The regions of script are located in the text as it is, comments included, and are set against the
comments only afterwards: a comment in a region is dropped, and so is a region in a comment. A
region that begins inside a comment and ends outside of it is neither, so what is written inside a
comment can matter. It does not if no tag of a pair begins or ends within the comment, other than
those of pairs that lie in it as a whole (`Source.comments_withBlank`).
-/
import Cfml.Proofs.Comment.Around

set_option autoImplicit false

namespace Cfml

namespace Source

open TagComments

/-- The source with spaces for the characters of the stretch. Line breaks stay. -/
def withBlank (src : Source) (s : Stretch) : Source := ofText (blankOut [s] 0 src.text) src.path

variable {src : Source} {s : Stretch}

theorem sameBreaks_withBlank (src : Source) (s : Stretch) :
    SameBreaks (src.withBlank s).text src.text := sameBreaks_blankOut [s] 0 src.text

theorem getElem?_withBlank {i : Nat} (h : s.holds i = false) :
    (src.withBlank s).text[i]? = src.text[i]? := by
  apply (getElem?_blankOut [s] 0 src.text i).trans
  simp [h]

/-- The bodies of the pairs that are not empty. -/
def bodySpans (src : Source) (found : List (Occurrence TagParts)) : List Span :=
  (found.map fun o => src.spanOf o.value.body).filter (!·.isEmpty)

theorem embeddedSpans_eq (src : Source) : src.embeddedSpans none .tag
    = src.bodySpans (src.occurrencesIn none (Tag.pair Template.tagName)) := by
  rw [embeddedSpans, cfscriptSpans, tags, List.map_map]
  rfl

variable {o : Occurrence TagParts}

/-- The ends of a body are places. -/
theorem isPlace_body (ho : o ∈ src.occurrencesIn none (Tag.pair Template.tagName)) :
    src.IsPlace o.value.body.start ∧ src.IsPlace o.value.body.stop := by
  rw [occurrencesIn_none] at ho
  obtain ⟨front, opening, body, closing, rest, hopening, hclosing, -, hsplit, hstart, hparts, -⟩ :=
    Tag.exists_of_mem_occurrences ho
  have htext : src.text = front ++ (opening ++ (body ++ (closing ++ rest))) := hsplit
  have hfront : o.start = front.length := hstart.trans (Nat.zero_add _)
  obtain ⟨init, rfl, -⟩ := hopening.exists_init Template.isPlainName_tagName
  obtain ⟨tail, rfl, -⟩ := hclosing.exists_tail Template.isPlainName_tagName
  constructor
  · have hsplit : src.text = (front ++ (init ++ ['>'])) ++ (body ++ ('<' :: tail ++ rest)) := by
      rw [htext]
      simp only [List.append_assoc]
    have hlast : (front ++ (init ++ ['>'])).getLast? ≠ some '\r' := by
      rw [← List.append_assoc, List.getLast?_concat]
      decide
    have hplace := (isBoundary_append hsplit (Or.inl hlast)).isPlace
    rwa [List.length_append, ← hfront, ← hparts.body_start] at hplace
  · have hsplit : src.text = (front ++ (init ++ ['>'] ++ body)) ++ ('<' :: tail ++ rest) := by
      rw [htext]
      simp only [List.append_assoc]
    have hhead : ('<' :: tail ++ rest).head? ≠ some '\n' := by
      rw [List.cons_append, List.head?_cons]
      decide
    have hplace := (isBoundary_append hsplit (Or.inr hhead)).isPlace
    rwa [List.length_append, List.length_append, ← hfront, ← Nat.add_assoc,
      ← hparts.body_stop] at hplace

/-! ### The comment -/

variable {r : Span} {inside : List Char}

/-- A comment that begins with the delimiter of markup is one that the scan of the markup finds, and
it lies in no body. -/
theorem exists_scanned_of_textOf (hr : r ∈ src.comments .tag none false)
    (htext : src.textOf r = opener ++ (inside ++ closer)) :
    (∃ c ∈ JumpLexer.comments .tag 0 src.text, src.spanOf c = r ∧ src.stretchOf r = c) ∧
      Spans.covers (src.embeddedSpans none .tag) r = false := by
  rcases List.mem_append.mp (Spans.mem_of_mem_normalize hr) with hown | hembedded
  · obtain ⟨hscanned, hcovers⟩ := List.mem_filter.mp hown
    rw [scannedComments_eq, bounds, slice_all] at hscanned
    obtain ⟨c, hc, rfl⟩ := List.mem_map.mp hscanned
    have hcomment := isComment_of_mem_comments_text hc
    refine ⟨⟨c, hc, rfl, stretchOf_spanOf hcomment.place_start hcomment.place_stop⟩, ?_⟩
    rwa [Bool.not_eq_true'] at hcovers
  -- a comment of a body begins with a slash
  · obtain ⟨inner, -, hscanned⟩ := List.mem_flatMap.mp hembedded
    obtain ⟨c, hcomment, rfl⟩ := exists_isComment_of_mem_scanned hscanned
    obtain ⟨slashes, hslashes, hbegins⟩ := hcomment.begins
    have hslice : src.slice c.start c.stop = opener ++ (inside ++ closer) := by
      rw [← htext, textOf, spanOf]
      exact congrArg₂ src.slice hcomment.place_start.symm hcomment.place_stop.symm
    have hall : ∀ slashes ∈ commentOpeners .script, ∃ rest, slashes = '/' :: rest := by
      intro slashes hmem
      rcases List.mem_cons.mp hmem with rfl | hmem
      · exact ⟨_, rfl⟩
      · exact ⟨_, List.mem_singleton.mp hmem⟩
    obtain ⟨rest, rfl⟩ := hall slashes hslashes
    rw [hslice] at hbegins
    exact absurd (List.cons_prefix_cons.mp hbegins).1 (by decide)

/-- What is beside the inside is left as it is. -/
theorem text_withBlank {before after : List Char} (htext : src.text = around before inside after) :
    (src.withBlank (between (place before inside))).text
      = around before (blankOut [between (place before inside)] (before.length + opener.length)
        inside) after := by
  have hbeside : ∀ (offset : Nat) (text : List Char),
      before.length + opener.length + inside.length ≤ offset ∨
        offset + text.length ≤ before.length + opener.length →
      blankOut [between (place before inside)] offset text = text := by
    intro offset text hside
    apply blankOut_of_beside
    intro s hs
    obtain rfl := List.mem_singleton.mp hs
    rwa [start_between_place, stop_between_place]
  rw [withBlank, ofText, htext, around, blankOut_append, blankOut_append, blankOut_append,
    Nat.zero_add, hbeside 0 before (by omega), hbeside _ opener (by omega),
    hbeside _ (closer ++ after) (by omega)]
  rfl

/-- The text with the comment in it, before and after its inside is blanked out. -/
theorem exists_around {c : Stretch} (hc : c ∈ JumpLexer.comments .tag 0 src.text)
    (hslice : src.slice c.start c.stop = opener ++ (inside ++ closer)) :
    ∃ before after blank, src.text = around before inside after ∧ c = place before inside ∧
      (src.withBlank (between c)).text = around before blank after ∧
      (∀ x ∈ blank, IsBlanked x) ∧ blank.length = inside.length := by
  obtain ⟨-, hlt, hstop⟩ := JumpLexer.comments_within _ _ _ c hc
  rw [Nat.zero_add] at hstop
  have hwhole := congrArg List.length hslice
  rw [length_slice hstop, List.length_append, List.length_append] at hwhole
  let before := src.text.take c.start
  let after := src.text.drop c.stop
  have htext : src.text = around before inside after := by
    calc src.text
      _ = src.text.take c.stop ++ after := (List.take_append_drop c.stop src.text).symm
      _ = (before ++ (opener ++ (inside ++ closer))) ++ after := by
        rw [take_eq_append_slice (Nat.le_of_lt hlt), hslice]
      _ = around before inside after := by simp only [around, List.append_assoc]
  have hbefore : before.length = c.start := by
    rw [List.length_take]
    exact Nat.min_eq_left (by omega)
  have hplace : c = place before inside := by
    apply Stretch.ends_inj
    simp only [Stretch.ends, place, hbefore]
    exact Prod.ext rfl (by simp only; omega)
  refine ⟨before, after, blankOut [between c] (before.length + opener.length) inside, htext, hplace,
    ?_, ?_, length_blankOut _ _ _⟩
  · rw [hplace]
    exact text_withBlank htext
  · rw [hplace]
    apply isBlanked_of_mem_blankOut (List.mem_singleton_self _)
    · exact Nat.le_refl _
    · exact Nat.le_of_eq stop_between_place.symm

/-! ### What the comment hides -/

/-- A closed comment of the markup, in which no pair of tags begins or ends. -/
structure IsSealed (src : Source) (c : Stretch) : Prop where
  scanned : c ∈ JumpLexer.comments .tag 0 src.text
  closed : ∃ inside, src.slice c.start c.stop = opener ++ (inside ++ closer)
  outside : Spans.covers (src.embeddedSpans none .tag) (src.spanOf c) = false
  clear : ∀ o ∈ src.occurrencesIn none (Tag.pair Template.tagName), IsClearOf c o

namespace IsSealed

variable {c : Stretch} (h : src.IsSealed c)
include h

theorem isComment : src.IsComment .tag 0 src.length c := isComment_of_mem_comments_text h.scanned

/-- The scan of the markup finds the same comments. -/
theorem scannedComments_eq_none :
    (src.withBlank (between c)).scannedComments .tag none = src.scannedComments .tag none := by
  obtain ⟨inside, hinside⟩ := h.closed
  obtain ⟨before, after, blank, htext, rfl, htext', hblank, hlength⟩ :=
    exists_around h.scanned hinside
  have hcomment := h.scanned
  rw [htext] at hcomment
  rw [scannedComments_eq, scannedComments_eq, bounds, bounds, slice_all, slice_all, htext, htext',
    comments_around_eq hblank hlength hcomment, spanOf_of_sameBreaks (src.sameBreaks_withBlank _)]

/-- A body that is not empty does not have the comment in it. -/
theorem not_body (ho : o ∈ src.occurrencesIn none (Tag.pair Template.tagName)) :
    ¬ (o.value.body.start ≤ c.start ∧ c.stop ≤ o.value.body.stop) := by
  rintro ⟨hbegin, hend⟩
  obtain ⟨hstart, hstop⟩ := isPlace_body ho
  have hlt := h.isComment.start_lt_stop
  have hbody : src.spanOf o.value.body ∈ src.embeddedSpans none .tag := by
    rw [embeddedSpans_eq, bodySpans, List.mem_filter, Bool.not_eq_true', ← Bool.not_eq_true,
      isEmpty_spanOf hstart hstop]
    exact ⟨List.mem_map_of_mem ho, by omega⟩
  have hcovers : Spans.covers (src.embeddedSpans none .tag) (src.spanOf c) = true :=
    List.any_eq_true.mpr ⟨_, hbody, covers_spanOf hbegin hend⟩
  rw [h.outside] at hcovers
  exact absurd hcovers Bool.false_ne_true

theorem liesBeside (ho : o ∈ src.occurrencesIn none (Tag.pair Template.tagName))
    (hout : liesIn c o = false) : LiesBeside c o := by
  have hclear := h.clear o ho
  have hbody := h.not_body ho
  obtain ⟨inside, hinside⟩ := h.closed
  obtain ⟨before, after, blank, htext, rfl, -⟩ := exists_around h.scanned hinside
  rw [occurrencesIn_none, htext] at ho
  exact liesBeside_of_isClearOf ho hclear hout hbody

/-- The pairs are those that do not lie in the comment. -/
theorem occurrencesIn_eq :
    (src.withBlank (between c)).occurrencesIn none (Tag.pair Template.tagName)
      = (src.occurrencesIn none (Tag.pair Template.tagName)).filter (!liesIn c ·) := by
  have hbeside := fun o => h.liesBeside (o := o)
  obtain ⟨inside, hinside⟩ := h.closed
  obtain ⟨before, after, blank, htext, rfl, htext', hblank, hlength⟩ :=
    exists_around h.scanned hinside
  rw [occurrencesIn_none, htext] at hbeside
  rw [occurrencesIn_none, occurrencesIn_none, htext, htext']
  exact occurrences_around hblank hlength hbeside

theorem embeddedSpans_withBlank : (src.withBlank (between c)).embeddedSpans none .tag
    = src.bodySpans
      ((src.occurrencesIn none (Tag.pair Template.tagName)).filter (!liesIn c ·)) := by
  rw [embeddedSpans_eq, h.occurrencesIn_eq, bodySpans, bodySpans,
    spanOf_of_sameBreaks (src.sameBreaks_withBlank _)]

/-- No comment of the markup lies in the body of a pair in the comment. -/
theorem covers_eq {s : Span} (hs : s ∈ src.scannedComments .tag none) :
    Spans.covers ((src.withBlank (between c)).embeddedSpans none .tag) s
      = Spans.covers (src.embeddedSpans none .tag) s := by
  rw [h.embeddedSpans_withBlank, embeddedSpans_eq, Bool.eq_iff_iff, Spans.covers, Spans.covers,
    List.any_eq_true, List.any_eq_true]
  constructor
  · rintro ⟨body, hbody, hcovers⟩
    obtain ⟨hmem, hne⟩ := List.mem_filter.mp hbody
    obtain ⟨o, ho, rfl⟩ := List.mem_map.mp hmem
    have ho := (List.mem_filter.mp ho).1
    exact ⟨_, List.mem_filter.mpr ⟨List.mem_map_of_mem ho, hne⟩, hcovers⟩
  · rintro ⟨body, hbody, hcovers⟩
    obtain ⟨hmem, hne⟩ := List.mem_filter.mp hbody
    obtain ⟨o, ho, rfl⟩ := List.mem_map.mp hmem
    refine ⟨_, List.mem_filter.mpr ⟨List.mem_map_of_mem (List.mem_filter.mpr ⟨ho, ?_⟩), hne⟩,
      hcovers⟩
    rw [Bool.not_eq_true']
    apply eq_false_of_ne_true
    intro hin
    obtain ⟨hstart, hstop⟩ := liesIn_iff.mp hin
    rw [scannedComments_eq, bounds, slice_all] at hs
    obtain ⟨d, hd, rfl⟩ := List.mem_map.mp hs
    have hcomment := isComment_of_mem_comments_text hd
    have hplaces := isPlace_body ho
    obtain ⟨hbegin, hend⟩ := of_covers_spanOf hplaces.1 hplaces.2 hcomment.place_start
      hcomment.place_stop hcovers
    rw [occurrencesIn_none] at ho
    obtain ⟨hfirst, hlast⟩ := Tag.body_within ho
    -- the comment would begin within the other one
    have hle := JumpLexer.stop_le_start .tag 0 src.text h.scanned hd (by omega)
    have hlt := hcomment.start_lt_stop
    omega

/-- The bodies outside of all comments are the same. -/
theorem filter_embeddedSpans {own : List Span} (hown : src.spanOf c ∈ own) :
    ((src.withBlank (between c)).embeddedSpans none .tag).filter (!Spans.covers own ·)
      = (src.embeddedSpans none .tag).filter (!Spans.covers own ·) := by
  rw [h.embeddedSpans_withBlank, embeddedSpans_eq, bodySpans, bodySpans, List.filter_filter,
    List.filter_filter, List.filter_map, List.filter_map, List.filter_filter]
  apply congrArg (List.map _)
  apply List.filter_congr
  intro o ho
  by_cases hin : liesIn c o = true
  -- the body of a pair in the comment lies in it, too
  · obtain ⟨hstart, hstop⟩ := liesIn_iff.mp hin
    rw [occurrencesIn_none] at ho
    obtain ⟨hfirst, hlast⟩ := Tag.body_within ho
    have hcovers : Spans.covers own (src.spanOf o.value.body) = true :=
      List.any_eq_true.mpr ⟨_, hown, covers_spanOf (by omega) (by omega)⟩
    simp [hcovers]
  · simp [hin]

/-- A body outside of the comment has the same comments in it. -/
theorem scannedComments_body {body : Span}
    (hbody : body ∈ (src.withBlank (between c)).embeddedSpans none .tag) :
    (src.withBlank (between c)).scannedComments .script (some body)
      = src.scannedComments .script (some body) := by
  rw [h.embeddedSpans_withBlank] at hbody
  obtain ⟨o, ho, rfl⟩ := List.mem_map.mp (List.mem_filter.mp hbody).1
  obtain ⟨ho, hout⟩ := List.mem_filter.mp ho
  rw [Bool.not_eq_true'] at hout
  have hbeside := h.liesBeside ho hout
  have hplaces := isPlace_body ho
  have hbreaks := src.sameBreaks_withBlank (between c)
  rw [scannedComments_eq, scannedComments_eq, bounds_of_sameBreaks hbreaks,
    spanOf_of_sameBreaks hbreaks, bounds_spanOf hplaces.1 hplaces.2]
  simp only
  rw [slice_congr]
  intro i hstart hstop
  apply getElem?_withBlank
  rw [occurrencesIn_none] at ho
  obtain ⟨hfirst, hlast⟩ := Tag.body_within ho
  apply eq_false_of_ne_true
  intro hholds
  obtain ⟨hbegin, hend⟩ := Stretch.holds_iff.mp hholds
  have hlt := h.isComment.start_lt_stop
  simp only [between, closer, opener, CommentForm.tagBlock, List.length_cons, List.length_nil]
    at hbegin hend
  unfold LiesBeside at hbeside
  omega

theorem comments_eq : (src.withBlank (between c)).comments .tag none false
    = src.comments .tag none false := by
  have hown : (src.scannedComments .tag none).filter
        (!Spans.covers ((src.withBlank (between c)).embeddedSpans none .tag) ·)
      = (src.scannedComments .tag none).filter (!Spans.covers (src.embeddedSpans none .tag) ·) := by
    apply List.filter_congr
    intro s hs
    rw [h.covers_eq hs]
  have hmem : src.spanOf c ∈ (src.scannedComments .tag none).filter
      (!Spans.covers (src.embeddedSpans none .tag) ·) := by
    rw [List.mem_filter, h.outside, scannedComments_eq, bounds, slice_all]
    exact ⟨List.mem_map_of_mem h.scanned, rfl⟩
  have haccurate : (src.withBlank (between c)).commentsAccurate .tag none
      = src.commentsAccurate .tag none := by
    rw [commentsAccurate, commentsAccurate, h.scannedComments_eq_none, hown,
      ← h.filter_embeddedSpans hmem]
    rw [List.append_right_inj]
    apply List.flatMap_congr
    intro body hbody
    exact h.scannedComments_body (List.mem_filter.mp hbody).1
  rw [comments, comments, if_neg Bool.false_ne_true, if_neg Bool.false_ne_true, haccurate]

end IsSealed

/-- **What is written inside a comment does not matter**, if no tag of a pair begins or ends in it
other than those of pairs that lie in it. -/
theorem comments_withBlank (src : Source) (r : Span) (inside : List Char)
    (hr : r ∈ src.comments .tag none false)
    (htext : src.textOf r = opener ++ (inside ++ closer))
    (hclear : ∀ o ∈ src.occurrencesIn none (Tag.pair Template.tagName),
      IsClearOf (src.stretchOf r) o) :
    (src.withBlank (between (src.stretchOf r))).comments .tag none false
      = src.comments .tag none false := by
  obtain ⟨⟨c, hc, rfl, hstretch⟩, houtside⟩ := exists_scanned_of_textOf hr htext
  rw [hstretch] at hclear ⊢
  have hcomment := isComment_of_mem_comments_text hc
  have hslice : src.textOf (src.spanOf c) = src.slice c.start c.stop :=
    congrArg₂ src.slice hcomment.place_start hcomment.place_stop
  have hsealed : src.IsSealed c := by
    constructor
    · exact hc
    · exact ⟨inside, hslice.symm.trans htext⟩
    · exact houtside
    · exact hclear
  exact hsealed.comments_eq

/-- A comment with a pair in it, before a region. -/
def withPairInComment : Source :=
  ofText "<!--- <cfscript>x</cfscript> ---><cfscript>a // b</cfscript>".toList none

theorem comments_withPairInComment :
    let r := withPairInComment.spanOf ⟨0, 33, Nat.zero_le _⟩
    r ∈ withPairInComment.comments .tag none false ∧
      withPairInComment.textOf r = opener ++ (" <cfscript>x</cfscript> ".toList ++ closer) ∧
      (∀ o ∈ withPairInComment.occurrencesIn none (Tag.pair Template.tagName),
        IsClearOf (withPairInComment.stretchOf r) o) ∧
      (withPairInComment.withBlank (between (withPairInComment.stretchOf r))).comments
        .tag none false = withPairInComment.comments .tag none false := by
  intro r
  have hapart : Spans.Apart (withPairInComment.commentsAccurate .tag none) := by
    unfold Spans.Apart
    decide +kernel
  have hr : r ∈ withPairInComment.comments .tag none false := by
    rw [comments, if_neg Bool.false_ne_true, Spans.normalize_of_perm (List.Perm.refl _) hapart]
    decide +kernel
  have htext : withPairInComment.textOf r
      = opener ++ (" <cfscript>x</cfscript> ".toList ++ closer) := by decide +kernel
  have hclear : ∀ o ∈ withPairInComment.occurrencesIn none (Tag.pair Template.tagName),
      IsClearOf (withPairInComment.stretchOf r) o := by decide +kernel
  exact ⟨hr, htext, hclear, withPairInComment.comments_withBlank r _ hr htext hclear⟩

/-- An opening tag in a comment can hide the next comment. -/
example :
    let src := ofText "<!--- <cfscript> ---><!--- b ---></cfscript>".toList none
    let c : Stretch := ⟨0, 21, Nat.zero_le _⟩
    src.commentsAccurate .tag none = [src.spanOf c] ∧
      (src.withBlank (between c)).commentsAccurate .tag none
        = [src.spanOf c, src.spanOf ⟨21, 33, by decide⟩] := by
  decide +kernel

end Source

end Cfml
