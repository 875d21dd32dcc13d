/-
The pairs of tags in a source.

A pair begins at the first opening tag that a closing tag follows, and ends with the first closing
tag; the search goes on behind it. `Source.IsPair` says how a pair is written and where its parts
stand, and `Source.AreTags` that a list has the pairs of a stretch in order and misses none. Where
an opening tag and then a closing one are written at a place that no pair takes up, a pair would
have been read there (`Tag.false_of_spares`); that is all it takes to show that nothing is missed.
-/
import Cfml.Proofs.Comment.Delimited
import Cfml.Proofs.LineEnd.Reading
import Cfml.Proofs.Source.Captures

set_option autoImplicit false

namespace Cfml

/-! ## Names -/

theorem sameLetter_comm (c d : Char) : sameLetter c d = sameLetter d c := by
  simp only [sameLetter, Bool.and_comm, @BEq.comm _ _ _ (lowerChar c)]

namespace Tag

variable {name opening closing : List Char}

/-- The brackets are written in one way only, and that is no part of a word. -/
theorem isPlainName_of_isWord (h : ∀ c ∈ name, isWord c = true) : IsPlainName name := by
  have hbracket : ∀ bracket ∈ ['<', '>'], (∀ d ∈ lowerClass bracket, 0 < d.toNat) ∧
      ∀ d ∈ writings bracket, isWord d = false := by
    decide +kernel
  have hother : ∀ bracket ∈ ['<', '>'], ∀ c ∈ name, sameLetter c bracket = false := by
    intro bracket hmem c hc
    obtain ⟨hclass, hwritings⟩ := hbracket bracket hmem
    by_contra hsame
    have hsame := (sameLetter_comm bracket c).trans (eq_true_of_ne_false hsame)
    have hnot := hwritings c (mem_writings hclass hsame)
    rw [h c hc] at hnot
    exact Bool.noConfusion hnot
  intro c hc
  exact ⟨hother '<' (by simp) c hc, hother '>' (by simp) c hc⟩

/-- No writing of a word ends in a carriage return. -/
theorem return_notMem_written {written : List Char} (h : ∀ c ∈ name, isWord c = true)
    (hwritten : List.Forall₂ (sameLetter · · = true) name written) : '\r' ∉ written := by
  apply notMem_of_forall₂ hwritten
  intro c hc
  have hbreak : isLineBreak c = false := by
    rw [isLineBreak_eq_false_iff]
    constructor
    · rintro rfl
      exact absurd (h _ hc) (by decide)
    · rintro rfl
      exact absurd (h _ hc) (by decide)
  exact (sparesBreaks_iff.mp (sparesBreaks_sameLetter hbreak)).1

end Tag

/-! ## What stands in a source -/

namespace Source

variable {src : Source} {a b c stop : Nat} {text front back : List Char}

/-- The text stands at the offset and ends no later than `stop`. -/
def HasAt (src : Source) (stop o : Nat) (text : List Char) : Prop :=
  o + text.length ≤ stop ∧ src.slice o (o + text.length) = text

theorem slice_append (hab : a ≤ b) (hbc : b ≤ c) :
    src.slice a b ++ src.slice b c = src.slice a c := by
  rw [← take_slice hbc, ← drop_slice hab, List.take_append_drop]

/-- What stands at an offset begins what is left from there. -/
theorem HasAt.slice_eq (h : src.HasAt stop a text) :
    src.slice a stop = text ++ src.slice (a + text.length) stop := by
  rw [← slice_append (Nat.le_add_right a text.length) h.1, h.2]

theorem HasAt.append (h : src.HasAt stop a (front ++ back)) :
    src.HasAt stop a front ∧ src.HasAt stop (a + front.length) back := by
  obtain ⟨hle, hslice⟩ := h
  rw [List.length_append, ← Nat.add_assoc] at hle hslice
  refine ⟨⟨by omega, ?_⟩, hle, ?_⟩
  · rw [← take_slice (Nat.le_add_right (a + front.length) back.length), hslice,
      Nat.add_sub_cancel_left, List.take_left]
  · rw [← drop_slice (Nat.le_add_right a front.length), hslice, Nat.add_sub_cancel_left,
      List.drop_left]

theorem offsetAt_add_length (src : Source) (s : Span) :
    src.offsetAt s.start + (src.textOf s).length = src.offsetAt s.stop := by
  have hlength : (src.textOf s).length = src.offsetAt s.stop - src.offsetAt s.start :=
    length_slice (src.offsetAt_le_length s.stop)
  rw [hlength, Nat.add_sub_cancel' (src.offsetAt_mono s.start_le_stop)]

/-- The text of a span stands where the span begins. -/
theorem hasAt_textOf {s : Span} (h : src.offsetAt s.stop ≤ stop) :
    src.HasAt stop (src.offsetAt s.start) (src.textOf s) := by
  rw [HasAt, offsetAt_add_length]
  exact ⟨h, rfl⟩

theorem eq_of_offsetAt_eq {p q : Position} (hp : src.holds p = true) (hq : src.holds q = true)
    (h : src.offsetAt p = src.offsetAt q) : p = q := by
  rw [← position_offsetAt hp, h, position_offsetAt hq]

/-- Spans that are in the text are the same if their offsets are. -/
theorem eq_of_offsets {s t : Span} (hs : src.isValid s = true) (ht : src.isValid t = true)
    (hstart : src.offsetAt s.start = src.offsetAt t.start)
    (hstop : src.offsetAt s.stop = src.offsetAt t.stop) : s = t := by
  obtain ⟨hs, hs'⟩ := Bool.and_eq_true_iff.mp hs
  obtain ⟨ht, ht'⟩ := Bool.and_eq_true_iff.mp ht
  obtain ⟨first, last, hle⟩ := s
  obtain ⟨first', last', hle'⟩ := t
  obtain rfl : first = first' := eq_of_offsetAt_eq hs ht hstart
  obtain rfl : last = last' := eq_of_offsetAt_eq hs' ht' hstop
  rfl

theorem HasAt.getElem? {i : Nat} (h : src.HasAt stop a text) (hi : i < text.length) :
    src.text[a + i]? = text[i]? := by
  conv_rhs => rw [← h.2]
  rw [slice, List.getElem?_take_of_lt (by omega), List.getElem?_drop]

end Source

/-! ## Pairs of tags -/

namespace Source

/-- How a pair of tags of the name is written, and where its parts stand. No closing tag of the name
begins in the body. -/
structure IsPair (src : Source) (name : List Char) (stop : Nat) (tag : Tag)
    (opened attributes body closing : List Char) : Prop where
  same_name : List.Forall₂ (sameLetter · · = true) name opened
  word_ends : Tag.WordBoundary opened (attributes ++ ['>'])
  no_bracket : '>' ∉ attributes
  is_closing : Tag.IsClosing name closing
  no_closing : ∀ closing o, Tag.IsClosing name closing → src.offsetAt tag.body.start ≤ o →
    o < src.offsetAt tag.body.stop → ¬ src.HasAt stop o closing
  textOf_whole :
    src.textOf tag.whole = '<' :: (opened ++ (attributes ++ '>' :: (body ++ closing)))
  textOf_attributes : src.textOf tag.attributes = attributes
  textOf_body : src.textOf tag.body = body
  attributes_start :
    src.offsetAt tag.attributes.start = src.offsetAt tag.whole.start + (opened.length + 1)
  body_start : src.offsetAt tag.body.start = src.offsetAt tag.attributes.stop + 1
  valid : src.isValid tag.whole = true ∧ src.isValid tag.attributes = true ∧
    src.isValid tag.body = true

/-- How far the tags reach that were found from an offset on. -/
def reached (src : Source) (start : Nat) (tags : List Tag) : Nat :=
  (tags.getLast?.map fun tag => src.offsetAt tag.whole.stop).getD start

/-- The tags are the pairs of the name between two offsets: each of them is one, they follow each
other, no opening tag begins before a pair that does not begin in an earlier one, and behind the
last pair no closing tag follows an opening one. -/
structure AreTags (src : Source) (name : List Char) (start stop : Nat) (tags : List Tag) :
    Prop where
  pairs : ∀ tag ∈ tags, ∃ opened attributes body closing,
    src.IsPair name stop tag opened attributes body closing
  within : ∀ tag ∈ tags,
    start ≤ src.offsetAt tag.whole.start ∧ src.offsetAt tag.whole.stop ≤ stop
  apart : tags.Pairwise fun tag later => tag.whole.stop ≤ later.whole.start
  none_before : ∀ before tag behind opening o, tags = before ++ tag :: behind →
    Tag.IsOpening name opening → src.reached start before ≤ o →
    o < src.offsetAt tag.whole.start → ¬ src.HasAt stop o opening
  none_behind : ∀ opening closing o o', Tag.IsOpening name opening → Tag.IsClosing name closing →
    src.reached start tags ≤ o → src.HasAt stop o opening → o + opening.length ≤ o' →
    ¬ src.HasAt stop o' closing

end Source

variable {src : Source} {name opening closing : List Char} {start stop a b : Nat}
  {within : Option Span} {found : Occurrence TagParts}

namespace Source

variable {tag : Tag} {opened attributes body : List Char}

/-- The tags and the body of a pair stand one behind the other. -/
theorem IsPair.hasAt (h : src.IsPair name stop tag opened attributes body closing)
    (hstop : src.offsetAt tag.whole.stop ≤ stop) :
    src.offsetAt tag.whole.start + (opened.length + attributes.length + 2) =
      src.offsetAt tag.body.start ∧
    src.offsetAt tag.body.stop + closing.length = src.offsetAt tag.whole.stop ∧
    src.HasAt stop (src.offsetAt tag.whole.start) ('<' :: (opened ++ (attributes ++ ['>']))) ∧
    src.HasAt stop (src.offsetAt tag.body.stop) closing := by
  have hwhole := src.offsetAt_add_length tag.whole
  have hattributes := src.offsetAt_add_length tag.attributes
  have hbody := src.offsetAt_add_length tag.body
  rw [h.textOf_whole] at hwhole
  rw [h.textOf_attributes] at hattributes
  rw [h.textOf_body] at hbody
  have hattributesStart := h.attributes_start
  have hbodyStart := h.body_start
  simp only [List.length_cons, List.length_append] at hwhole
  have htext : src.textOf tag.whole =
      ('<' :: (opened ++ (attributes ++ ['>'])) ++ body) ++ closing := by
    rw [h.textOf_whole]
    simp
  have hstands := hasAt_textOf hstop
  rw [htext] at hstands
  obtain ⟨hfront, hclosing⟩ := hstands.append
  refine ⟨by omega, by omega, hfront.append.1, ?_⟩
  convert hclosing using 1
  simp only [List.length_cons, List.length_append, List.length_nil]
  omega

theorem IsPair.isOpening (h : src.IsPair name stop tag opened attributes body closing) :
    Tag.IsOpening name ('<' :: (opened ++ (attributes ++ ['>']))) :=
  ⟨opened, attributes, rfl, h.same_name, h.no_bracket, h.word_ends⟩

/-- A text that ends at its only bracket does not reach behind one that begins later and ends with a
bracket. -/
theorem HasAt.length_le {init init' : List Char} (h : src.HasAt stop a (init ++ ['>']))
    (h' : src.HasAt stop b (init' ++ ['>'])) (hinit : '>' ∉ init) (hle : a ≤ b) :
    a + (init ++ ['>']).length ≤ b + (init' ++ ['>']).length := by
  by_contra hlt
  rw [List.length_append, List.length_append, List.length_singleton] at hlt
  -- the later bracket would stand in the first text, before its last character
  have hbracket := h'.append.2.getElem? (i := 0) Nat.one_pos
  have hinside := h.append.1.getElem? (i := b + init'.length - a) (by omega)
  have hplace : a + (b + init'.length - a) = b + init'.length + 0 := by omega
  rw [hplace, hbracket] at hinside
  exact hinit (List.mem_of_getElem? hinside.symm)

/-- An opening tag does not reach behind one that begins later. -/
theorem HasAt.opening_le {other : List Char} (h : src.HasAt stop a opening)
    (h' : src.HasAt stop b other) (hname : Tag.IsPlainName name)
    (hopening : Tag.IsOpening name opening) (hother : Tag.IsOpening name other) (hle : a ≤ b) :
    a + opening.length ≤ b + other.length := by
  obtain ⟨init, rfl, hinit⟩ := hopening.exists_init hname
  obtain ⟨init', rfl, -⟩ := hother.exists_init hname
  exact h.length_le h' hinit hle

end Source

/-! ## Finding them -/

/-- Behind a text without carriage returns is a boundary. -/
theorem Reader.Reads.isBoundary_of_notMem {r : Reader} {passed rest : List Char}
    (h : r.Reads src stop) (hahead : r.ahead = passed ++ rest) (hne : passed ≠ [])
    (hreturn : '\r' ∉ passed) : src.IsBoundary (r.offset + passed.length) := by
  obtain ⟨init, last, rfl⟩ := (List.eq_nil_or_concat' passed).resolve_left hne
  rw [List.append_assoc, List.singleton_append] at hahead
  apply h.isBoundary_behind hahead
  rintro rfl
  exact hreturn (by simp)

/-- A stretch that is captured has its text and its offsets. -/
theorem Capture.IsIn.of_stretch {capture : Capture} {s : Stretch} (h : capture.IsIn src)
    (hstart : s.start = capture.start) (hstop : s.stop = capture.stop) :
    src.textOf (src.spanOf s) = capture.text ∧ src.offsetAt (src.spanOf s).start = s.start ∧
      src.offsetAt (src.spanOf s).stop = s.stop := by
  obtain rfl : s = capture.stretch := Stretch.ends_inj _ _ (Prod.ext hstart hstop)
  exact ⟨h.textOf_spanOf, h.start.isPlace, h.stop.isPlace⟩

namespace Tag

/-- **Beside the pairs no pair is written.** -/
theorem false_of_spares (hstop : stop ≤ src.length)
    (hspares : ∀ found ∈ occurrences (pair name) (src.reader start stop), found.Spares a)
    (hstart : start ≤ a) (hopening : IsOpening name opening) (hclosing : IsClosing name closing)
    (hfirst : src.HasAt stop a opening) (hbehind : a + opening.length ≤ b)
    (hsecond : src.HasAt stop b closing) : False := by
  let passed := src.slice start a
  let behind := src.slice (a + opening.length) stop
  have hlt := hopening.length_lt
  have hle := hfirst.1
  have hle' := hsecond.1
  have hplace : start + passed.length = a := by
    rw [Source.length_slice (by omega)]
    omega
  have hahead : (src.reader start stop).ahead = passed ++ (opening ++ behind) := by
    rw [← hfirst.slice_eq, Source.slice_append hstart (by omega)]
    rfl
  have hne : opening ++ behind ≠ [] := by
    obtain ⟨_, _, rfl, -⟩ := hopening
    exact List.cons_ne_nil _ _
  have hnone : pair? name ((src.reader start stop).passing passed (opening ++ behind)) = none := by
    apply nothingBeside_occurrences (pair name) _ passed _ hahead hne
    intro found hfound
    rw [show (src.reader start stop).offset + passed.length = a from hplace]
    exact hspares found hfound
  refine pair?_ne_none hopening hclosing rfl ?_ hnone
  refine ⟨src.slice (a + opening.length) b, src.slice (b + closing.length) stop, ?_⟩
  rw [List.append_assoc, ← hsecond.slice_eq, Source.slice_append hbehind (by omega)]

/-- The tag that an occurrence is. -/
def ofOccurrence (src : Source) (found : Occurrence TagParts) : Tag where
  whole := src.spanOf found.stretch
  attributes := src.spanOf found.value.attributes
  body := src.spanOf found.value.body

theorem tags_eq (src : Source) (name : List Char) (within : Option Span) :
    src.tags name within = (src.occurrencesIn within (pair name)).map (ofOccurrence src) := rfl

/-- Where a pair is read, the whole of it, its attributes and its body stand between boundaries: in
front of a bracket, behind one, or behind the name. -/
theorem isIn_of_reads {r : Reader} {opened attributes body rest : List Char}
    (hreads : r.Reads src stop) (hreturn : '\r' ∉ opened) (hclosing : IsClosing name closing)
    (hahead : r.ahead = '<' :: (opened ++ (attributes ++ '>' :: (body ++ (closing ++ rest))))) :
    Capture.IsIn ⟨r.offset, '<' :: (opened ++ (attributes ++ '>' :: (body ++ closing)))⟩ src ∧
    Capture.IsIn ⟨r.offset + (opened.length + 1), attributes⟩ src ∧
    Capture.IsIn ⟨r.offset + (opened.length + 1) + (attributes.length + 1), body⟩ src := by
  have hlast : ∃ init, closing = init ++ ['>'] ∧ (closing ++ rest).head? = some '<' := by
    obtain ⟨closed, blanks, rfl, -, -⟩ := hclosing
    exact ⟨'<' :: '/' :: (closed ++ blanks), by simp, rfl⟩
  obtain ⟨init, hinit, hhead⟩ := hlast
  obtain ⟨more, hmore⟩ := List.head?_eq_some_iff.mp hhead
  -- the steps of the reader: name, attributes, bracket, body, closing tag
  have hname : r.ahead = ('<' :: opened) ++ (attributes ++ '>' :: (body ++ (closing ++ rest))) :=
    hahead
  have hreadsName := hreads.passing hname
  have hafterName := hreads.isBoundary_of_notMem hname (List.cons_ne_nil _ _)
    (by simpa using hreturn)
  have hattributesEnd := (hreadsName.passing rfl).isBoundary rfl (by decide)
  have hafterTag := hreadsName.isBoundary_behind rfl (by decide)
  have htag : attributes ++ '>' :: (body ++ (closing ++ rest)) =
      (attributes ++ ['>']) ++ (body ++ (closing ++ rest)) := by
    rw [List.append_assoc, List.singleton_append]
  have hreadsTag := hreadsName.passing htag
  have hbodyEnd := (hreadsTag.passing rfl).isBoundary hmore (by decide)
  have hbody := hreadsTag.isIn rfl hafterTag hbodyEnd
  have hwhole : r.ahead =
      '<' :: (opened ++ (attributes ++ '>' :: (body ++ closing))) ++ rest := by
    rw [hahead]
    simp
  have hbehind : r.ahead =
      '<' :: (opened ++ (attributes ++ '>' :: (body ++ init))) ++ '>' :: rest := by
    rw [hahead, hinit]
    simp
  have hafterAll := hreads.isBoundary_behind hbehind (by decide)
  refine ⟨hreads.isIn hwhole (hreads.isBoundary hahead (by decide)) ?_,
    hreadsName.isIn rfl hafterName hattributesEnd, ?_⟩
  · rw [hinit]
    simpa using hafterAll
  · simpa using hbody

/-- **What is found is a pair**, and it has the offsets at which it was found. -/
theorem isPair_ofOccurrence (hname : ∀ c ∈ name, isWord c = true)
    (h : found ∈ src.occurrencesIn within (pair name)) :
    (∃ opened attributes body closing, src.IsPair name (src.bounds within).2
      (ofOccurrence src found) opened attributes body closing) ∧
    src.offsetAt (ofOccurrence src found).whole.start = found.start ∧
    src.offsetAt (ofOccurrence src found).whole.stop = found.stop := by
  change found ∈
    occurrences (pair name) (src.reader (src.bounds within).1 (src.bounds within).2) at h
  obtain ⟨front, _, body, closing, rest, ⟨opened, attributes, rfl, hopened, hattributes, hword⟩,
    hclosing, hbody, hahead, hstart, hparts, hstop⟩ := exists_of_mem_occurrences h
  let ahead := '<' :: (opened ++ (attributes ++ '>' :: (body ++ (closing ++ rest))))
  let place := (src.reader (src.bounds within).1 (src.bounds within).2).passing front ahead
  have hwhole :
      ('<' :: (opened ++ (attributes ++ ['>']))) ++ (body ++ (closing ++ rest)) = ahead := by
    simp [ahead]
  rw [hwhole] at hahead
  have hreads : place.Reads src (src.bounds within).2 :=
    (Reader.Reads.reader src within).passing hahead
  have hplace : found.start = place.offset := hstart
  have hlength := hopened.length_eq
  have hattributesStart := hparts.attributes_start
  have hattributesStop := hparts.attributes_stop
  have hbodyStart := hparts.body_start
  have hbodyStop := hparts.body_stop
  simp only [List.length_cons, List.length_append, List.length_nil]
    at hattributesStop hbodyStart hbodyStop hstop
  obtain ⟨hwholeIn, hattributesIn, hbodyIn⟩ :=
    isIn_of_reads hreads (return_notMem_written hname hopened) hclosing rfl
  obtain ⟨htext, hfirst, hlast⟩ := hwholeIn.of_stretch (s := found.stretch) hplace (by
    simp only [Occurrence.stretch, Capture.stop, List.length_cons, List.length_append]
    omega)
  obtain ⟨htext', hfirst', hlast'⟩ := hattributesIn.of_stretch (s := found.value.attributes)
    (by simp only; omega) (by simp only [Capture.stop]; omega)
  obtain ⟨htext'', hfirst'', hlast''⟩ := hbodyIn.of_stretch (s := found.value.body)
    (by simp only; omega) (by simp only [Capture.stop]; omega)
  refine ⟨⟨opened, attributes, body, closing, hopened, hword, hattributes, hclosing, ?_, htext,
    htext', htext'', ?_, ?_, src.isValid_spanOf _, src.isValid_spanOf _, src.isValid_spanOf _⟩,
    hfirst, hlast⟩
  -- a closing tag in the body would have been the one at which it ends
  · intro tag o htag hle hlt hstands
    rw [ofOccurrence, hfirst''] at hle
    rw [ofOccurrence, hlast''] at hlt
    have hbehind : src.slice found.value.body.start (src.bounds within).2 =
        body ++ (closing ++ rest) := by
      rw [hparts.body_start, hplace]
      exact (hreads.passing hwhole.symm).ahead.symm
    apply hbody (body.take (o - found.value.body.start))
      (body.drop (o - found.value.body.start)) tag
    · rw [← List.length_pos_iff, List.length_drop]
      omega
    · exact (List.take_append_drop _ _).symm
    · exact htag
    · have hrest := hstands.slice_eq
      rw [← Source.drop_slice hle, hbehind, List.drop_append_of_le_length (by omega)] at hrest
      rw [hrest]
      exact List.prefix_append _ _
  · rw [ofOccurrence, hfirst, hfirst', hattributesStart, hlength]
    rfl
  · rw [ofOccurrence, hfirst'', hlast']
    omega

/-- What lies behind the last of some pairs lies behind all of them. -/
theorem stop_le_of_reached {before : List (Occurrence TagParts)}
    (hoffset : ∀ f ∈ before, src.offsetAt (ofOccurrence src f).whole.stop = f.stop)
    (hstart : ∀ f ∈ before, start ≤ f.start)
    (hapart : before.Pairwise fun f g => f.stop ≤ g.start)
    (h : src.reached start (before.map (ofOccurrence src)) ≤ a) :
    start ≤ a ∧ ∀ f ∈ before, f.stop ≤ a := by
  rcases List.eq_nil_or_concat' before with rfl | ⟨init, last, rfl⟩
  · exact ⟨h, by simp⟩
  · have hlast := hoffset last (by simp)
    have hle := hstart last (by simp)
    have hspan := last.start_le_stop
    rw [Source.reached, List.map_append, List.map_singleton, List.getLast?_concat, Option.map_some,
      Option.getD_some, hlast] at h
    obtain ⟨-, -, hfollow⟩ := List.pairwise_append.mp hapart
    refine ⟨by omega, ?_⟩
    intro f hf
    rcases List.mem_append.mp hf with hf | hf
    · have := hfollow f hf last (by simp)
      omega
    · obtain rfl := List.mem_singleton.mp hf
      exact h

/-- Pairs that follow each other are the tags if no opening tag that a closing one follows is
written beside them. -/
theorem areTags_map {pairs : List (Occurrence TagParts)} (hname : IsPlainName name)
    (hpair : ∀ f ∈ pairs, (∃ opened attributes body closing, src.IsPair name stop
      (ofOccurrence src f) opened attributes body closing) ∧
        src.offsetAt (ofOccurrence src f).whole.start = f.start ∧
        src.offsetAt (ofOccurrence src f).whole.stop = f.stop)
    (hwithin : ∀ f ∈ pairs, start ≤ f.start ∧ f.stop ≤ stop) (hpos : ∀ f ∈ pairs, f.start < f.stop)
    (hapart : pairs.Pairwise fun f g => f.stop ≤ g.start)
    (hbeside : ∀ opening closing a b, (∀ f ∈ pairs, f.Spares a) → start ≤ a →
      IsOpening name opening → IsClosing name closing → src.HasAt stop a opening →
      a + opening.length ≤ b → ¬ src.HasAt stop b closing) :
    src.AreTags name start stop (pairs.map (ofOccurrence src)) where
  pairs tag htag := by
    obtain ⟨f, hf, rfl⟩ := List.mem_map.mp htag
    exact (hpair f hf).1
  within tag htag := by
    obtain ⟨f, hf, rfl⟩ := List.mem_map.mp htag
    rw [(hpair f hf).2.1, (hpair f hf).2.2]
    exact hwithin f hf
  apart := by
    rw [List.pairwise_map]
    exact hapart.imp fun h => src.position_mono h
  none_before before tag behind opening o hsplit hopening hreached hlt hstands := by
    obtain ⟨front, rest, rfl, rfl, hrest⟩ := List.map_eq_append_iff.mp hsplit
    obtain ⟨f, back, rfl, rfl, rfl⟩ := List.map_eq_cons_iff.mp hrest
    have hf : f ∈ front ++ f :: back := List.mem_append_right front List.mem_cons_self
    have hfront : ∀ g ∈ front, g ∈ front ++ f :: back := fun g hg => List.mem_append_left _ hg
    obtain ⟨hapart', hfollow, -⟩ := List.pairwise_append.mp hapart
    obtain ⟨hstart, hstops⟩ := stop_le_of_reached (fun g hg => (hpair g (hfront g hg)).2.2)
      (fun g hg => (hwithin g (hfront g hg)).1) hapart' hreached
    obtain ⟨⟨opened, attributes, body, closing, htag⟩, hoffset, hoffset'⟩ := hpair f hf
    obtain ⟨hbody, -, hstands', hclosing⟩ := htag.hasAt (hoffset' ▸ (hwithin f hf).2)
    have hbehind := hstands.opening_le hstands' hname hopening htag.isOpening (Nat.le_of_lt hlt)
    have hspan := src.offsetAt_mono (ofOccurrence src f).body.start_le_stop
    simp only [List.length_cons, List.length_append, List.length_nil] at hbehind
    rw [hoffset] at hlt
    -- the closing tag of the pair follows the opening tag before it
    refine hbeside opening closing o _ ?_ hstart hopening htag.is_closing hstands (by omega)
      hclosing
    intro g hg
    rcases List.mem_append.mp hg with hg | hg
    · have hlt := hpos g (hfront g hg)
      have hle := hstops g hg
      exact Or.inr ⟨by omega, hle⟩
    · left
      rcases List.mem_cons.mp hg with rfl | hg
      · exact hlt
      · have hle := (List.pairwise_cons.mp hfollow).1 g hg
        have hspan := f.start_le_stop
        omega
  none_behind opening closing o o' hopening hclosing hreached hstands hle := by
    obtain ⟨hstart, hstops⟩ := stop_le_of_reached (fun f hf => (hpair f hf).2.2)
      (fun f hf => (hwithin f hf).1) hapart hreached
    refine hbeside opening closing o o' ?_ hstart hopening hclosing hstands hle
    intro f hf
    have hlt := hpos f hf
    have hle := hstops f hf
    exact Or.inr ⟨by omega, hle⟩

end Tag

/-- **The tags of a source are its pairs of tags**: the leftmost ones that do not overlap, in order
and without a gap in which one could begin. -/
theorem Source.areTags_tags (src : Source) (name : List Char) (within : Option Span)
    (hname : ∀ c ∈ name, isWord c = true) :
    src.AreTags name (src.bounds within).1 (src.bounds within).2 (src.tags name within) := by
  apply Tag.areTags_map (Tag.isPlainName_of_isWord hname)
  · exact fun f hf => Tag.isPair_ofOccurrence hname hf
  · exact fun f hf => occurrencesIn_within hf
  · exact fun f hf => Tag.start_lt_stop hf
  · exact occurrencesFrom_pairwise _ _ _ _ _
  · intro opening closing a b hspares hstart hopening hclosing hfirst hbehind hsecond
    exact Tag.false_of_spares (src.isExtent_bounds within).stop_le_length hspares hstart hopening
      hclosing hfirst hbehind hsecond

/-! ## There is one list of them -/

namespace Source

variable {tag tag' : Tag} {tags tags' : List Tag} {opened attributes body opened' attributes' body'
  closing' : List Char}

/-- A closing tag ends with its only bracket. -/
theorem exists_init_closing (hname : Tag.IsPlainName name) (h : Tag.IsClosing name closing) :
    ∃ init, closing = init ++ ['>'] ∧ '>' ∉ init := by
  obtain ⟨closed, blanks, rfl, hclosed, hblanks⟩ := h
  have hblank : '>' ∉ blanks := fun hmem => absurd (hblanks _ hmem) (by decide)
  refine ⟨'<' :: '/' :: (closed ++ blanks), by simp, ?_⟩
  simp [(Tag.notMem_written hname hclosed).2, hblank]

/-- The body of one pair is no longer than that of another one with the same opening tag, as it ends
where a closing tag begins. -/
theorem IsPair.body_le (h : src.IsPair name stop tag opened attributes body closing)
    (h' : src.IsPair name stop tag' opened' attributes' body' closing')
    (hstop' : src.offsetAt tag'.whole.stop ≤ stop)
    (hbody : src.offsetAt tag.body.start = src.offsetAt tag'.body.start) :
    src.offsetAt tag.body.stop ≤ src.offsetAt tag'.body.stop := by
  by_contra hlt
  have hspan' := src.offsetAt_mono tag'.body.start_le_stop
  obtain ⟨-, -, -, hclosing'⟩ := h'.hasAt hstop'
  exact h.no_closing closing' _ h'.is_closing (by omega) (by omega) hclosing'

/-- **Pairs that begin together are the same.** -/
theorem IsPair.unique (hname : Tag.IsPlainName name)
    (h : src.IsPair name stop tag opened attributes body closing)
    (h' : src.IsPair name stop tag' opened' attributes' body' closing')
    (hstop : src.offsetAt tag.whole.stop ≤ stop) (hstop' : src.offsetAt tag'.whole.stop ≤ stop)
    (hstart : src.offsetAt tag.whole.start = src.offsetAt tag'.whole.start) : tag = tag' := by
  obtain ⟨hbody, hwhole, hopening, hclosing⟩ := h.hasAt hstop
  obtain ⟨hbody', hwhole', hopening', hclosing'⟩ := h'.hasAt hstop'
  -- the opening tags end at the same bracket
  have hle := hopening.opening_le hopening' hname h.isOpening h'.isOpening hstart.le
  have hle' := hopening'.opening_le hopening hname h'.isOpening h.isOpening hstart.ge
  have hlength := h.same_name.length_eq
  have hlength' := h'.same_name.length_eq
  simp only [List.length_cons, List.length_append, List.length_nil] at hle hle'
  have hattributes := src.offsetAt_add_length tag.attributes
  have hattributes' := src.offsetAt_add_length tag'.attributes
  rw [h.textOf_attributes] at hattributes
  rw [h'.textOf_attributes] at hattributes'
  have hattributesStart := h.attributes_start
  have hattributesStart' := h'.attributes_start
  -- the bodies end at the first closing tag, and this ends at its bracket
  have hbodyStart : src.offsetAt tag.body.start = src.offsetAt tag'.body.start := by omega
  have hbodyStop := Nat.le_antisymm (h.body_le h' hstop' hbodyStart)
    (h'.body_le h hstop hbodyStart.symm)
  obtain ⟨init, rfl, hinit⟩ := exists_init_closing hname h.is_closing
  obtain ⟨init', rfl, hinit'⟩ := exists_init_closing hname h'.is_closing
  have hend := hclosing.length_le hclosing' hinit hbodyStop.le
  have hend' := hclosing'.length_le hclosing hinit' hbodyStop.ge
  have hwholeEq := eq_of_offsets h.valid.1 h'.valid.1 hstart (by omega)
  have hattributesEq := eq_of_offsets h.valid.2.1 h'.valid.2.1 (by omega) (by omega)
  have hbodyEq := eq_of_offsets h.valid.2.2 h'.valid.2.2 hbodyStart hbodyStop
  obtain ⟨whole, parts, inside⟩ := tag
  obtain ⟨whole', parts', inside'⟩ := tag'
  simp only at hwholeEq hattributesEq hbodyEq
  rw [hwholeEq, hattributesEq, hbodyEq]

theorem reached_cons (src : Source) (start : Nat) (tag : Tag) (tags : List Tag) :
    src.reached start (tag :: tags) = src.reached (src.offsetAt tag.whole.stop) tags := by
  rw [reached, List.getLast?_cons, reached]
  cases tags.getLast? <;> rfl

/-- The tags behind the first one are those behind its end. -/
theorem AreTags.tail (h : src.AreTags name start stop (tag :: tags)) :
    src.AreTags name (src.offsetAt tag.whole.stop) stop tags where
  pairs := (List.forall_mem_cons.mp h.pairs).2
  within later hlater :=
    ⟨src.offsetAt_mono ((List.pairwise_cons.mp h.apart).1 later hlater),
      (h.within later (List.mem_cons_of_mem tag hlater)).2⟩
  apart := (List.pairwise_cons.mp h.apart).2
  none_before before later behind opening o hsplit hopening hreached hlt := by
    rw [← reached_cons src start] at hreached
    exact h.none_before (tag :: before) later behind opening o (by rw [hsplit]; rfl) hopening
      hreached hlt
  none_behind opening closing o o' hopening hclosing hreached := by
    rw [← reached_cons src start] at hreached
    exact h.none_behind opening closing o o' hopening hclosing hreached

/-- A tag that is one of the pairs is not missed by others. -/
theorem AreTags.ne_nil (h : src.AreTags name start stop (tag :: tags)) :
    ¬ src.AreTags name start stop [] := by
  intro hnil
  obtain ⟨hstart, hstop⟩ := h.within tag List.mem_cons_self
  obtain ⟨opened, attributes, body, closing, hpair⟩ := h.pairs tag List.mem_cons_self
  obtain ⟨hbody, -, hopening, hclosing⟩ := hpair.hasAt hstop
  have hspan := src.offsetAt_mono tag.body.start_le_stop
  refine hnil.none_behind _ closing _ _ hpair.isOpening hpair.is_closing hstart hopening ?_ hclosing
  simp only [List.length_cons, List.length_append, List.length_nil]
  omega

/-- No tag begins before the first one. -/
theorem AreTags.start_le (h : src.AreTags name start stop (tag :: tags))
    (h' : src.AreTags name start stop (tag' :: tags')) :
    src.offsetAt tag.whole.start ≤ src.offsetAt tag'.whole.start := by
  by_contra hlt
  obtain ⟨hstart, hstop⟩ := h'.within tag' List.mem_cons_self
  obtain ⟨opened, attributes, body, closing, hpair⟩ := h'.pairs tag' List.mem_cons_self
  obtain ⟨-, -, hopening, -⟩ := hpair.hasAt hstop
  exact h.none_before [] tag tags _ _ rfl hpair.isOpening hstart (Nat.lt_of_not_le hlt) hopening

/-- **There is one list of the tags.** The induction takes the first tag of both lists. -/
theorem AreTags.unique (hname : Tag.IsPlainName name) (h : src.AreTags name start stop tags)
    (h' : src.AreTags name start stop tags') : tags = tags' := by
  induction tags generalizing start tags' with
  | nil =>
    cases tags' with
    | nil => rfl
    | cons tag' tags' => exact absurd h h'.ne_nil
  | cons tag tags ih =>
    cases tags' with
    | nil => exact absurd h' h.ne_nil
    | cons tag' tags' =>
      obtain ⟨opened, attributes, body, closing, hpair⟩ := h.pairs tag List.mem_cons_self
      obtain ⟨opened', attributes', body', closing', hpair'⟩ := h'.pairs tag' List.mem_cons_self
      have hstart := Nat.le_antisymm (h.start_le h') (h'.start_le h)
      obtain rfl : tag = tag' := hpair.unique hname hpair' (h.within tag List.mem_cons_self).2
        (h'.within tag' List.mem_cons_self).2 hstart
      rw [ih h.tail h'.tail]

/-- **The tags of a source are its pairs of tags**: for a name that is a word, they are the one list
of the leftmost pairs that do not overlap, in order and without a gap in which one could begin. -/
theorem tags_eq_iff (src : Source) (name : List Char) (within : Option Span) (tags : List Tag)
    (hname : ∀ c ∈ name, isWord c = true) : src.tags name within = tags ↔
      src.AreTags name (src.bounds within).1 (src.bounds within).2 tags := by
  have htags := src.areTags_tags name within hname
  constructor
  · rintro rfl
    exact htags
  · exact htags.unique (Tag.isPlainName_of_isWord hname)

/-- A longer name, a name in capitals, an opening tag in the body, a blank in a closing tag, and a
pair that is closed beyond the range only: one tag is found, and it is all there is in the range. -/
theorem tags_eq_iff_nested :
    let src := Source.ofText "<xy><X a><x>\r\n</x ><x></x>".toList none
    let within : Option Span := some ⟨⟨0, 4⟩, ⟨1, 9⟩, by decide⟩
    let tag : Tag := ⟨⟨⟨0, 4⟩, ⟨1, 5⟩, by decide⟩, ⟨⟨0, 6⟩, ⟨0, 8⟩, by decide⟩,
      ⟨⟨0, 9⟩, ⟨1, 0⟩, by decide⟩⟩
    (∀ c ∈ ['x'], isWord c = true) ∧ src.tags ['x'] within = [tag] ∧
      src.AreTags ['x'] (src.bounds within).1 (src.bounds within).2 [tag] := by
  intro src within tag
  have hname : ∀ c ∈ ['x'], isWord c = true := by decide
  have htags : src.tags ['x'] within = [tag] := rfl
  exact ⟨hname, htags, (tags_eq_iff src ['x'] within [tag] hname).mp htags⟩

end Source

end Cfml
