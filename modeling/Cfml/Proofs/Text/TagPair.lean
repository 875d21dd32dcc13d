/-
Pairs of tags in a text.

`Tag.IsOpening` and `Tag.IsClosing` say which texts are tags, without a reader. A pair is found
where an opening tag begins, its body ends where the first closing tag begins, and nothing else
counts. A text that has no opening tag in it can still have the beginning of one at its end; the tag
then ends with whatever follows, so the body of the pair is the same (`Tag.occurrences_pair`).
-/
import Cfml.Proofs.Text.Occurrences
import Cfml.Tag
import Mathlib.Data.List.TakeWhile
import Mathlib.Data.Nat.Find

set_option autoImplicit false

namespace Cfml

namespace Tag

/-! ## Tags as texts -/

/-- A word begins or ends between the texts. -/
def WordBoundary (before behind : List Char) : Prop :=
  before.getLast?.any isWord ≠ behind.head?.any isWord

/-- The text is an opening tag of the name, up to the first `>`. -/
def IsOpening (name tag : List Char) : Prop :=
  ∃ written attributes, tag = '<' :: (written ++ (attributes ++ ['>'])) ∧
    List.Forall₂ (sameLetter · · = true) name written ∧ '>' ∉ attributes ∧
    WordBoundary written (attributes ++ ['>'])

/-- The text is a closing tag of the name. -/
def IsClosing (name tag : List Char) : Prop :=
  ∃ written blanks, tag = '<' :: '/' :: (written ++ (blanks ++ ['>'])) ∧
    List.Forall₂ (sameLetter · · = true) name written ∧ ∀ c ∈ blanks, isBlank c = true

/-- The name has letters only: neither of the brackets is the same as one of them. -/
def IsPlainName (name : List Char) : Prop :=
  ∀ c ∈ name, sameLetter c '<' = false ∧ sameLetter c '>' = false

variable {name tag : List Char} {r later : Reader}

/-- A character that is the same as no letter of a name is not in the name however it is written. -/
theorem notMem_of_forall₂ {written : List Char} {d : Char}
    (h : List.Forall₂ (sameLetter · · = true) name written)
    (hname : ∀ c ∈ name, sameLetter c d = false) : d ∉ written := by
  induction h with
  | nil => exact List.not_mem_nil
  | cons hsame _ ih =>
    obtain ⟨hfirst, hrest⟩ := List.forall_mem_cons.mp hname
    intro hmem
    rcases List.mem_cons.mp hmem with rfl | hmem
    · exact absurd hsame (by simp [hfirst])
    · exact ih hrest hmem

theorem notMem_written {written : List Char} (hname : IsPlainName name)
    (h : List.Forall₂ (sameLetter · · = true) name written) : '<' ∉ written ∧ '>' ∉ written :=
  ⟨notMem_of_forall₂ h fun c hc => (hname c hc).1, notMem_of_forall₂ h fun c hc => (hname c hc).2⟩

/-- A closing tag has no opening bracket but its first character. -/
theorem IsClosing.exists_tail (h : IsClosing name tag) (hname : IsPlainName name) :
    ∃ tail, tag = '<' :: tail ∧ '<' ∉ tail := by
  obtain ⟨written, blanks, rfl, hwritten, hblanks⟩ := h
  refine ⟨_, rfl, ?_⟩
  -- a bracket is no letter of the name and no blank
  have hblank : '<' ∉ blanks := fun hmem => absurd (hblanks _ hmem) (by decide)
  simp [(notMem_written hname hwritten).1, hblank]

/-- An opening tag has no closing bracket but its last character. -/
theorem IsOpening.exists_init (h : IsOpening name tag) (hname : IsPlainName name) :
    ∃ init, tag = init ++ ['>'] ∧ '>' ∉ init := by
  obtain ⟨written, attributes, rfl, hwritten, hattributes, -⟩ := h
  refine ⟨'<' :: (written ++ attributes), by simp, ?_⟩
  simp [(notMem_written hname hwritten).2, hattributes]

theorem IsClosing.length_lt (h : IsClosing name tag) : name.length + 2 < tag.length := by
  obtain ⟨written, blanks, rfl, hwritten, -⟩ := h
  have := hwritten.length_eq
  simp only [List.length_cons, List.length_append, List.length_nil]
  omega

theorem IsOpening.length_lt (h : IsOpening name tag) : name.length + 1 < tag.length := by
  obtain ⟨written, attributes, rfl, hwritten, -⟩ := h
  have := hwritten.length_eq
  simp only [List.length_cons, List.length_append, List.length_nil]
  omega

/-- Behind a further opening bracket it does not matter what an opening tag has in it. -/
theorem IsOpening.of_bracket {front middle middle' : List Char} (hname : IsPlainName name)
    (hfront : front ≠ []) (hmiddle : '>' ∉ middle')
    (h : IsOpening name (front ++ '<' :: (middle ++ ['>']))) :
    IsOpening name (front ++ '<' :: (middle' ++ ['>'])) := by
  obtain ⟨written, attributes, htag, hwritten, hattributes, hword⟩ := h
  obtain ⟨b, front, rfl⟩ := List.exists_cons_of_ne_nil hfront
  obtain ⟨rfl, htail⟩ := List.cons.inj htag
  have hbracket := (notMem_written hname hwritten).1
  -- the name ends before the further bracket
  obtain ⟨more, rfl, hmore⟩ : ∃ more, front = written ++ more ∧
      attributes ++ ['>'] = more ++ '<' :: (middle ++ ['>']) := by
    rcases List.append_eq_append_iff.mp htail with ⟨more, hwhole, hrest⟩ | ⟨more, hwhole, hrest⟩
    · cases more with
      | nil =>
        rw [List.append_nil] at hwhole
        exact ⟨[], by rw [hwhole, List.append_nil], hrest.symm⟩
      | cons c more =>
        obtain rfl : '<' = c := (List.cons.inj hrest).1
        exact absurd (hwhole ▸ List.mem_append_right _ List.mem_cons_self) hbracket
    · exact ⟨more, hwhole, hrest⟩
  have hconcat : attributes ++ ['>'] = (more ++ '<' :: middle) ++ ['>'] := by
    rw [hmore, List.append_assoc, List.cons_append]
  obtain rfl := List.append_cancel_right hconcat
  refine ⟨written, more ++ '<' :: middle', ?_, hwritten, ?_, ?_⟩
  · simp only [List.cons_append, List.append_assoc]
  · intro hmem
    rcases List.mem_append.mp hmem with hmem | hmem
    · exact hattributes (List.mem_append_left _ hmem)
    · rcases List.mem_cons.mp hmem with heq | hmem
      · exact absurd heq (by decide)
      · exact hmiddle hmem
  -- the character behind the name is the same one
  · cases more <;> exact hword

/-! ## Reading them -/

theorem closing?_eq_some_iff : closing? name r = some later ↔
    ∃ tag rest, IsClosing name tag ∧ r.ahead = tag ++ rest ∧ later = r.passing tag rest := by
  simp only [closing?, Option.bind_eq_bind, Option.bind_eq_some_iff, Reader.literal?_eq_some_iff,
    Reader.caseless?_eq_some_iff, Reader.one?_eq_some_iff]
  constructor
  · rintro ⟨_, ⟨_, hahead, rfl⟩, _, ⟨written, behind, hwritten, hname, rfl⟩, c, rest, hclose, hc,
      rfl⟩
    obtain rfl := beq_iff_eq.mp hc
    rw [Reader.blanks, Reader.skipWhile_eq] at hclose ⊢
    simp only [Reader.ahead_passing] at hname hclose
    -- the blanks end at the bracket
    have hbehind : behind = behind.takeWhile isBlank ++ '>' :: rest := by
      rw [← hclose, List.takeWhile_append_dropWhile]
    refine ⟨_, rest, ⟨written, behind.takeWhile isBlank, rfl, hwritten, ?_⟩, ?_, ?_⟩
    · exact fun c hmem => List.mem_takeWhile_imp hmem
    · rw [hahead, hname]
      conv_lhs => rw [hbehind]
      simp
    · simp [Reader.passing_passing]
  · rintro ⟨_, rest, ⟨written, blanks, rfl, hwritten, hblanks⟩, hahead, rfl⟩
    refine ⟨_, ⟨written ++ (blanks ++ '>' :: rest), by simp [hahead], rfl⟩, _,
      ⟨written, blanks ++ '>' :: rest, hwritten, rfl, rfl⟩, '>', rest, ?_⟩
    have hbracket : ('>' :: rest).head?.any isBlank = false := by
      rw [List.head?_cons, Option.any_some]
      decide
    rw [Reader.blanks, Reader.skipWhile_of_append rfl hblanks hbracket]
    refine ⟨rfl, by decide, ?_⟩
    simp [Reader.passing_passing]

theorem atWordBoundary_passing (written rest : List Char) :
    (r.passing ('<' :: written) rest).atWordBoundary = true ↔ WordBoundary written rest := by
  -- the bracket is no part of a word, so an empty name is no word either
  have hbefore : (('<' :: written).getLast?.or r.before).any isWord
      = written.getLast?.any isWord := by
    rw [List.getLast?_cons]
    cases written.getLast? with
    | none =>
      show isWord '<' = false
      decide
    | some c => rfl
  rw [Reader.atWordBoundary, bne_iff_ne, Reader.passing, hbefore]
  rfl

theorem opening?_eq_some_iff : opening? name r = some later ↔
    ∃ written rest, List.Forall₂ (sameLetter · · = true) name written ∧
      r.ahead = '<' :: (written ++ rest) ∧ WordBoundary written rest ∧
      later = r.passing ('<' :: written) rest := by
  simp only [opening?, Option.bind_eq_bind, Option.bind_eq_some_iff, Reader.one?_eq_some_iff,
    Reader.caseless?_eq_some_iff, Option.ite_none_right_eq_some, Option.some_inj]
  constructor
  · rintro ⟨_, ⟨c, _, hahead, hc, rfl⟩, _, ⟨written, rest, hwritten, hrest, rfl⟩, hword, rfl⟩
    obtain rfl := beq_iff_eq.mp hc
    obtain rfl : _ = written ++ rest := hrest
    rw [Reader.passing_passing, List.singleton_append] at hword ⊢
    exact ⟨written, rest, hwritten, hahead, (atWordBoundary_passing written rest).mp hword, rfl⟩
  · rintro ⟨written, rest, hwritten, hahead, hword, rfl⟩
    refine ⟨_, ⟨'<', written ++ rest, hahead, by decide, rfl⟩, _,
      ⟨written, rest, hwritten, rfl, rfl⟩, ?_⟩
    rw [Reader.passing_passing, List.singleton_append]
    exact ⟨(atWordBoundary_passing written rest).mpr hword, rfl⟩

/-- Only the first character of what follows decides whether a word ends. -/
theorem wordBoundary_append {written attributes : List Char} (rest : List Char) :
    WordBoundary written (attributes ++ '>' :: rest) ↔
      WordBoundary written (attributes ++ ['>']) := by
  cases attributes <;> exact Iff.rfl

/-- A pair begins with an opening tag, and a closing tag is found behind it. -/
theorem exists_opening {parts : TagParts} (h : pair? name r = some (parts, later)) :
    ∃ opening rest inside, IsOpening name opening ∧ r.ahead = opening ++ rest ∧
      (r.passing opening rest).through? (Tag.closing name) = some (inside, later) := by
  simp only [pair?, Option.bind_eq_bind, Option.bind_eq_some_iff, opening?_eq_some_iff,
    Reader.one?_eq_some_iff, Reader.takeWhile, Prod.exists] at h
  obtain ⟨_, ⟨written, rest, hwritten, hahead, hword, rfl⟩, _, ⟨c, behind, hclose, hc, rfl⟩, inside,
    _, hthrough, heq⟩ := h
  obtain ⟨-, rfl⟩ := by simpa using heq
  obtain rfl := beq_iff_eq.mp hc
  rw [Reader.skipWhile_eq, Reader.ahead_passing, Reader.ahead_passing] at hclose
  -- the attributes go up to the first bracket
  have hrest : rest = rest.takeWhile (· != '>') ++ '>' :: behind := by
    rw [← hclose, List.takeWhile_append_dropWhile]
  have hattributes : '>' ∉ rest.takeWhile (· != '>') := fun hmem => by
    simpa using List.mem_takeWhile_imp hmem
  rw [hrest, wordBoundary_append] at hword
  refine ⟨_, behind, inside, ⟨written, _, rfl, hwritten, hattributes, hword⟩, ?_, ?_⟩
  · rw [hahead]
    conv_lhs => rw [hrest]
    simp
  · rw [← hthrough, Reader.skipWhile_eq, Reader.passing_passing, Reader.passing_passing]
    simp

/-- Where no opening tag begins there is no pair. -/
theorem pair?_eq_none (h : ∀ tag, IsOpening name tag → ¬ tag <+: r.ahead) :
    pair? name r = none := by
  rw [Option.eq_none_iff_forall_ne_some]
  rintro ⟨parts, later⟩ hpair
  obtain ⟨opening, rest, -, hopening, hahead, -⟩ := exists_opening hpair
  exact h opening hopening ⟨rest, hahead.symm⟩

/-- The body has no closing tag in it, nor does one begin in it that ends behind it. -/
def HasNoClosing (name body rest : List Char) : Prop :=
  ∀ front back tag, back ≠ [] → body = front ++ back → IsClosing name tag → ¬ tag <+: back ++ rest

/-- Where the parts of a pair stand that begins at the offset. -/
structure PartsAt (name : List Char) (offset : Nat) (opening body : List Char) (parts : TagParts) :
    Prop where
  attributes_start : parts.attributes.start = offset + (name.length + 1)
  attributes_stop : parts.attributes.stop + 1 = offset + opening.length
  body_start : parts.body.start = offset + opening.length
  body_stop : parts.body.stop = offset + opening.length + body.length

theorem PartsAt.of_length_eq {offset : Nat} {opening opening' body : List Char} {parts : TagParts}
    (h : PartsAt name offset opening body parts) (hlength : opening.length = opening'.length) :
    PartsAt name offset opening' body parts := by
  obtain ⟨hstart, hstop, hbegin, hend⟩ := h
  rw [hlength] at hstop hbegin hend
  exact ⟨hstart, hstop, hbegin, hend⟩

theorem PartsAt.unique {offset : Nat} {opening body : List Char} {parts parts' : TagParts}
    (h : PartsAt name offset opening body parts) (h' : PartsAt name offset opening body parts') :
    parts = parts' := by
  obtain ⟨attributes, inside⟩ := parts
  obtain ⟨attributes', inside'⟩ := parts'
  have hattributes : attributes = attributes' := by
    apply Stretch.ends_inj
    have hstart := h.attributes_start.trans h'.attributes_start.symm
    have hstop := Nat.succ.inj (h.attributes_stop.trans h'.attributes_stop.symm)
    exact Prod.ext hstart hstop
  have hinside : inside = inside' := by
    apply Stretch.ends_inj
    have hstart := h.body_start.trans h'.body_start.symm
    have hstop := h.body_stop.trans h'.body_stop.symm
    exact Prod.ext hstart hstop
  rw [hattributes, hinside]

/-- **A pair is read** from an opening tag through the first closing tag. -/
theorem pair?_eq_some {opening body closing rest : List Char} (hopening : IsOpening name opening)
    (hclosing : IsClosing name closing) (hbody : HasNoClosing name body (closing ++ rest))
    (hahead : r.ahead = opening ++ (body ++ (closing ++ rest))) :
    ∃ parts, pair? name r = some (parts, r.passing (opening ++ (body ++ closing)) rest) ∧
      PartsAt name r.offset opening body parts := by
  obtain ⟨written, attributes, rfl, hwritten, hattributes, hword⟩ := hopening
  let opening := '<' :: (written ++ (attributes ++ ['>']))
  let behind := body ++ (closing ++ rest)
  have hname : opening? name r
      = some (r.passing ('<' :: written) (attributes ++ '>' :: behind)) := by
    rw [opening?_eq_some_iff]
    refine ⟨written, _, hwritten, by simp [hahead, behind], ?_, rfl⟩
    rwa [wordBoundary_append]
  have hpassed : ∀ c ∈ attributes, (c != '>') = true := by
    intro c hc
    rw [bne_iff_ne]
    rintro rfl
    exact hattributes hc
  -- the steps of the reader: name, attributes, bracket, body, closing tag
  have hskip : (r.passing ('<' :: written) (attributes ++ '>' :: behind)).skipWhile (· != '>')
      = r.passing ('<' :: (written ++ attributes)) ('>' :: behind) := by
    rw [Reader.skipWhile_of_append rfl hpassed (by simp), Reader.passing_passing]
    rfl
  have hclose : (r.passing ('<' :: (written ++ attributes)) ('>' :: behind)).one? (· == '>')
      = some (r.passing opening behind) := by
    rw [Reader.one?_eq_some_iff]
    exact ⟨'>', behind, rfl, by decide, by simp [Reader.passing_passing, opening]⟩
  have hmisses : (Tag.closing name).Misses (r.passing opening behind) body (closing ++ rest) := by
    intro front back hne hsplit
    apply Option.map_eq_none_iff.mpr
    apply Option.eq_none_iff_forall_ne_some.mpr
    intro later hread
    obtain ⟨tag, more, htag, hmore, -⟩ := closing?_eq_some_iff.mp hread
    exact hbody front back tag hne hsplit htag ⟨more, hmore.symm⟩
  have hread : (Tag.closing name).read ((r.passing opening behind).passing body (closing ++ rest))
      = some ((), r.passing (opening ++ (body ++ closing)) rest) := by
    refine Option.map_eq_some_iff.mpr ⟨_, closing?_eq_some_iff.mpr
      ⟨closing, rest, hclosing, rfl, rfl⟩, ?_⟩
    rw [Reader.passing_passing, Reader.passing_passing]
  have hne : closing ++ rest ≠ [] := by
    obtain ⟨_, _, rfl, -⟩ := hclosing
    exact List.cons_ne_nil _ _
  obtain ⟨inside, hthrough, hstart, hstop⟩ := Reader.through?_eq rfl hmisses hne hread
  let captured := (r.passing ('<' :: written) (attributes ++ '>' :: behind)).takeWhile (· != '>')
  have hcaptured : captured.1 = ⟨r.offset + ('<' :: written).length, attributes⟩ := by
    have htake : (attributes ++ '>' :: behind).takeWhile (· != '>') = attributes := by
      rw [List.takeWhile_append_of_pos hpassed]
      simp
    exact congrArg (Capture.mk _) htake
  refine ⟨⟨captured.1.stretch, inside⟩, ?_, ?_⟩
  · simp only [pair?, hname, Option.bind_eq_bind, Option.bind_some, Reader.takeWhile, hskip, hclose,
      hthrough]
    rfl
  · have hlength := hwritten.length_eq
    rw [hcaptured]
    refine ⟨?_, ?_, hstart, hstop⟩
    · simp only [Capture.stretch, List.length_cons]
      omega
    · simp only [Capture.stretch, Capture.stop, List.length_cons, List.length_append,
        List.length_nil]
      omega

/-- What was read as a pair is an opening tag, a body and the first closing tag. -/
theorem exists_pair {parts : TagParts} (h : pair? name r = some (parts, later)) :
    ∃ opening body closing rest, IsOpening name opening ∧ IsClosing name closing ∧
      HasNoClosing name body (closing ++ rest) ∧
      r.ahead = opening ++ (body ++ (closing ++ rest)) := by
  obtain ⟨opening, behind, inside, hopening, hahead, hthrough⟩ := exists_opening h
  obtain ⟨_, place, hfirst, -, -⟩ := Reader.through?_eq_some hthrough
  obtain ⟨body, hbehind, hplace, -, hmisses, hread⟩ := firstOccurrence?_misses hfirst
  obtain ⟨_, hclosing, -⟩ := Option.map_eq_some_iff.mp hread
  obtain ⟨closing, rest, hclosing, hrest, -⟩ := closing?_eq_some_iff.mp hclosing
  rw [hrest] at hmisses hbehind
  refine ⟨opening, body, closing, rest, hopening, hclosing, ?_, ?_⟩
  · intro front back tag hne hsplit htag hbegins
    obtain ⟨more, hmore⟩ := hbegins
    -- the search would have stopped at the tag
    have hmissed := Option.map_eq_none_iff.mp (hmisses front back hne hsplit)
    rw [closing?_eq_some_iff.mpr ⟨tag, more, htag, hmore.symm, rfl⟩] at hmissed
    exact absurd hmissed (by simp)
  · rw [hahead]
    exact congrArg (opening ++ ·) hbehind

/-- A closing tag that is written somewhere behind the opening tag makes a pair. -/
theorem pair?_ne_none {opening rest closing : List Char} (hopening : IsOpening name opening)
    (hclosing : IsClosing name closing) (hahead : r.ahead = opening ++ rest)
    (hrest : closing <:+: rest) : pair? name r ≠ none := by
  -- the first place where a closing tag begins
  have hexists : ∃ n tag, IsClosing name tag ∧ tag <+: rest.drop n := by
    obtain ⟨front, back, hsplit⟩ := hrest
    refine ⟨front.length, closing, hclosing, back, ?_⟩
    rw [← hsplit, List.append_assoc, List.drop_left]
  classical
  let n := Nat.find hexists
  obtain ⟨tag, htag, more, hmore⟩ := Nat.find_spec hexists
  have hbody : HasNoClosing name (rest.take n) (tag ++ more) := by
    intro front back tag' hne hsplit htag' hbegins
    have hlt : front.length < n := by
      have hlength := congrArg List.length hsplit
      have hpos := List.length_pos_of_ne_nil hne
      rw [List.length_append, List.length_take] at hlength
      omega
    refine Nat.find_min hexists hlt ⟨tag', htag', ?_⟩
    have hwhole : rest = front ++ (back ++ (tag ++ more)) := by
      rw [← List.append_assoc, ← hsplit, hmore, List.take_append_drop]
    rwa [hwhole, List.drop_left]
  obtain ⟨parts, hpair, -⟩ := pair?_eq_some hopening htag hbody
    (by rw [hahead, hmore, List.take_append_drop])
  rw [hpair]
  exact Option.some_ne_none _

/-- Only what is ahead decides whether a pair is read. -/
theorem pair?_ne_none_of_ahead {r' : Reader} (hahead : r.ahead = r'.ahead)
    (h : pair? name r' ≠ none) : pair? name r ≠ none := by
  obtain ⟨⟨parts, later⟩, hpair⟩ := Option.ne_none_iff_exists'.mp h
  obtain ⟨opening, body, closing, rest, hopening, hclosing, -, hsplit⟩ := exists_pair hpair
  apply pair?_ne_none hopening hclosing (hahead.trans hsplit)
  exact List.infix_append' _ _ _

/-! ## Finding them -/

/-- Where the parts of a pair stand it is read, with these parts. -/
theorem isRead_pair {front opening body closing rest : List Char} {o : Occurrence TagParts}
    (hopening : IsOpening name opening) (hclosing : IsClosing name closing)
    (hbody : HasNoClosing name body (closing ++ rest))
    (hahead : r.ahead = front ++ (opening ++ (body ++ (closing ++ rest))))
    (hstart : o.start = r.offset + front.length)
    (hparts : PartsAt name o.start opening body o.value)
    (hstop : o.stop = o.start + (opening ++ (body ++ closing)).length) :
    o.IsRead (pair name) r := by
  let behind := opening ++ (body ++ (closing ++ rest))
  obtain ⟨parts, hpair, hparts'⟩ :=
    pair?_eq_some (r := r.passing front behind) hopening hclosing hbody rfl
  rw [Reader.offset_passing, ← hstart] at hparts'
  obtain rfl := hparts.unique hparts'
  have hne : behind ≠ [] := by
    obtain ⟨_, _, rfl, -⟩ := hopening
    exact List.cons_ne_nil _ _
  refine ⟨front, behind, _, hahead, hne, hstart, hpair, ?_⟩
  rw [hstop, hstart, Reader.offset_passing, Reader.offset_passing]

/-- **What is found as a pair** is an opening tag, a body and the first closing tag. -/
theorem exists_of_mem_occurrences {o : Occurrence TagParts} (h : o ∈ occurrences (pair name) r) :
    ∃ front opening body closing rest, IsOpening name opening ∧ IsClosing name closing ∧
      HasNoClosing name body (closing ++ rest) ∧
      r.ahead = front ++ (opening ++ (body ++ (closing ++ rest))) ∧
      o.start = r.offset + front.length ∧ PartsAt name o.start opening body o.value ∧
      o.stop = o.start + (opening ++ (body ++ closing)).length := by
  obtain ⟨front, behind, later, hahead, -, hstart, hread, hstop⟩ := isRead_of_mem_occurrences h
  obtain ⟨opening, body, closing, rest, hopening, hclosing, hbody, hbehind⟩ := exists_pair hread
  obtain ⟨parts, hpair, hparts⟩ := pair?_eq_some hopening hclosing hbody hbehind
  -- reading it again gives the same
  obtain ⟨rfl, rfl⟩ := Prod.mk.inj (Option.some.inj (hpair.symm.trans hread))
  rw [Reader.offset_passing, ← hstart] at hparts
  rw [Reader.offset_passing, Reader.offset_passing, ← hstart] at hstop
  refine ⟨front, opening, body, closing, rest, hopening, hclosing, hbody, ?_, hstart, hparts,
    hstop⟩
  rw [hahead]
  exact congrArg (front ++ ·) hbehind

/-- The body of a pair lies in it, behind the opening tag. -/
theorem body_within {o : Occurrence TagParts} (h : o ∈ occurrences (pair name) r) :
    o.start < o.value.body.start ∧ o.value.body.stop ≤ o.stop := by
  obtain ⟨_, _, _, _, _, hopening, -, -, -, -, hparts, hstop⟩ := exists_of_mem_occurrences h
  have hne := hopening.length_lt
  rw [hparts.body_start, hparts.body_stop, hstop, List.length_append, List.length_append]
  omega

theorem start_lt_stop {o : Occurrence TagParts} (h : o ∈ occurrences (pair name) r) :
    o.start < o.stop := by
  obtain ⟨hbegin, hend⟩ := body_within h
  exact Nat.lt_of_lt_of_le hbegin (Nat.le_trans o.value.body.start_le_stop hend)

/-- No closing tag is written in the text. -/
def NoClosingIn (name text : List Char) : Prop := ∀ tag, IsClosing name tag → ¬ tag <:+: text

/-- No opening tag is written in the text. -/
def NoOpeningIn (name text : List Char) : Prop := ∀ tag, IsOpening name tag → ¬ tag <:+: text

/-- A closing tag cannot begin in one text and end in another one that begins with a tag. -/
theorem hasNoClosing_of_noClosingIn {body closing : List Char} (hname : IsPlainName name)
    (hbody : NoClosingIn name body) (hclosing : IsClosing name closing) (rest : List Char) :
    HasNoClosing name body (closing ++ rest) := by
  rintro front back tag hne rfl htag hbegins
  obtain ⟨tail, rfl, htail⟩ := htag.exists_tail hname
  rcases List.prefix_or_prefix_of_prefix hbegins (List.prefix_append back _) with hin | hout
  · exact hbody _ htag (hin.isInfix.trans (List.suffix_append front back).isInfix)
  · obtain ⟨more, hmore⟩ := hout
    cases more with
    | nil =>
      rw [List.append_nil] at hmore
      exact hbody _ htag (hmore ▸ (List.suffix_append front back).isInfix)
    | cons c more =>
      rw [← hmore, List.prefix_append_right_inj] at hbegins
      -- the other tag begins with a bracket too, and it would lie in the tail of this one
      obtain ⟨ending, rfl, -⟩ := hclosing.exists_tail hname
      obtain rfl : c = '<' := (List.cons_prefix_cons.mp hbegins).1
      obtain ⟨b, back, rfl⟩ := List.exists_cons_of_ne_nil hne
      obtain ⟨-, rfl⟩ := List.cons.inj hmore
      exact htail (by simp)

/-- So it does not matter what follows the closing tag. -/
theorem HasNoClosing.congr {body closing rest : List Char} (hname : IsPlainName name)
    (hclosing : IsClosing name closing) (h : HasNoClosing name body (closing ++ rest))
    (rest' : List Char) : HasNoClosing name body (closing ++ rest') := by
  apply hasNoClosing_of_noClosingIn hname _ hclosing
  intro tag htag hpart
  obtain ⟨front, back, hsplit⟩ := hpart
  have hne : tag ++ back ≠ [] := by
    obtain ⟨_, _, rfl, -⟩ := htag
    exact List.cons_ne_nil _ _
  apply h front (tag ++ back) tag hne _ htag
  · rw [List.append_assoc]
    exact List.prefix_append _ _
  · rw [← hsplit, List.append_assoc]

/-- What stands before the first bracket is determined. -/
theorem append_cons_inj_of_notMem {α : Type} {c : α} {xs ys as bs : List α} (hxs : c ∉ xs)
    (hys : c ∉ ys) (h : xs ++ c :: as = ys ++ c :: bs) : xs = ys := by
  induction xs generalizing ys with
  | nil =>
    cases ys with
    | nil => rfl
    | cons y ys => exact absurd (List.cons.inj h).1 (List.ne_of_not_mem_cons hys)
  | cons x xs ih =>
    cases ys with
    | nil => exact absurd (List.cons.inj h).1.symm (List.ne_of_not_mem_cons hxs)
    | cons y ys =>
      obtain ⟨rfl, htail⟩ := List.cons.inj h
      rw [ih (List.not_mem_of_not_mem_cons hxs) (List.not_mem_of_not_mem_cons hys) htail]

/-- **An opening tag at the end of a text.** Where an opening tag begins in a text without one, it
ends with the first one behind the text. -/
theorem isOpening_append {text opening rest : List Char} (hname : IsPlainName name)
    (htext : NoOpeningIn name text) (hopening : IsOpening name opening) (htag : IsOpening name tag)
    (hbegins : tag <+: text ++ (opening ++ rest)) : tag = text ++ opening := by
  obtain ⟨init, rfl, hinit⟩ := htag.exists_init hname
  obtain ⟨front, rfl, hfront⟩ := hopening.exists_init hname
  obtain ⟨more, hmore⟩ := hbegins
  by_cases hmem : '>' ∈ text
  -- the tag ends in the text
  · obtain ⟨before, after, rfl, hbefore⟩ := List.eq_append_cons_of_mem hmem
    have hsame : init ++ '>' :: more = before ++ '>' :: (after ++ (front ++ ['>'] ++ rest)) := by
      simpa using hmore
    obtain rfl := append_cons_inj_of_notMem hinit hbefore hsame
    refine absurd ?_ (htext _ htag)
    exact List.IsPrefix.isInfix ⟨after, by simp⟩
  · have hsame : init ++ '>' :: more = (text ++ front) ++ '>' :: rest := by simpa using hmore
    have hnot : '>' ∉ text ++ front := by simp [hmem, hfront]
    obtain rfl := append_cons_inj_of_notMem hinit hnot hsame
    rw [List.append_assoc]

theorem NoOpeningIn.tail {c : Char} {text : List Char} (h : NoOpeningIn name (c :: text)) :
    NoOpeningIn name text :=
  fun tag htag hpart => h tag htag (hpart.trans (List.suffix_cons c text).isInfix)

/-- A pair that begins at the place. -/
theorem occurrences_pair_here {opening body closing rest : List Char}
    (hopening : IsOpening name opening) (hclosing : IsClosing name closing)
    (hbody : HasNoClosing name body (closing ++ rest))
    (hahead : r.ahead = opening ++ (body ++ (closing ++ rest))) :
    ∃ o, occurrences (pair name) r =
        o :: occurrences (pair name) (r.passing (opening ++ (body ++ closing)) rest) ∧
      PartsAt name r.offset opening body o.value := by
  obtain ⟨parts, hpair, hparts⟩ := pair?_eq_some hopening hclosing hbody hahead
  obtain ⟨written, attributes, rfl, -⟩ := hopening
  refine ⟨_, occurrences_eq_cons ?_ hpair, hparts⟩
  rw [hahead]
  simp

/-- **The first pair in a text** has the body that follows the first opening tag, also where that
tag began in the text before it. -/
theorem occurrences_pair {text opening body closing rest : List Char} (hname : IsPlainName name)
    (htext : NoOpeningIn name text) (hopening : IsOpening name opening)
    (hclosing : IsClosing name closing) (hbody : HasNoClosing name body (closing ++ rest))
    (hahead : r.ahead = text ++ (opening ++ (body ++ (closing ++ rest)))) :
    ∃ o, occurrences (pair name) r = o :: occurrences (pair name)
          (r.passing (text ++ (opening ++ (body ++ closing))) rest) ∧
      o.value.body.start = r.offset + (text ++ opening).length ∧
      o.value.body.stop = r.offset + (text ++ opening).length + body.length := by
  induction text generalizing r with
  | nil =>
    obtain ⟨o, ho, hparts⟩ := occurrences_pair_here hopening hclosing hbody hahead
    exact ⟨o, ho, hparts.body_start, hparts.body_stop⟩
  | cons c text ih =>
    by_cases htag : ∃ tag, IsOpening name tag ∧ tag <+: r.ahead
    -- the opening tag begins here and ends behind the text
    · obtain ⟨tag, htag, hbegins⟩ := htag
      rw [hahead] at hbegins
      obtain rfl := isOpening_append hname htext hopening htag hbegins
      have hhere : r.ahead = (c :: text ++ opening) ++ (body ++ (closing ++ rest)) := by
        rw [hahead, List.append_assoc]
      obtain ⟨o, ho, hparts⟩ := occurrences_pair_here htag hclosing hbody hhere
      rw [List.append_assoc] at ho
      exact ⟨o, ho, hparts.body_start, hparts.body_stop⟩
    · let behind := text ++ (opening ++ (body ++ (closing ++ rest)))
      have hahead' : r.ahead = [c] ++ behind := hahead
      -- nothing begins at `c`, so the search goes on behind it
      have hmisses : (pair name).Misses r [c] behind := by
        rintro front back hne hsplit
        obtain ⟨rfl, rfl⟩ : front = [] ∧ back = [c] := by
          rcases List.append_eq_singleton_iff.mp hsplit.symm with h | h
          · exact h
          · exact absurd h.2 hne
        -- in the passed character there is one place to begin
        refine pair?_eq_none fun tag htag' hbegins => htag ⟨tag, htag', ?_⟩
        rwa [hahead]
      obtain ⟨o, ho, hstart, hstop⟩ := ih (r := r.passing [c] behind) htext.tail rfl
      refine ⟨o, ?_, ?_, ?_⟩
      · apply (occurrences_append hahead' hmisses).trans
        rw [ho, Reader.passing_passing]
        rfl
      · rw [hstart]
        simp only [Reader.offset_passing, List.length_append, List.length_cons, List.length_nil]
        omega
      · rw [hstop]
        simp only [Reader.offset_passing, List.length_append, List.length_cons, List.length_nil]
        omega

theorem occurrences_pair_eq_nil (htext : NoOpeningIn name r.ahead) :
    occurrences (pair name) r = [] := by
  apply occurrences_eq_nil
  rintro front back - hsplit
  refine pair?_eq_none fun tag htag hbegins => htext tag htag ?_
  rw [hsplit]
  rw [Reader.ahead_passing, List.append_nil] at hbegins
  exact hbegins.isInfix.trans (List.suffix_append front back).isInfix

end Tag

end Cfml
