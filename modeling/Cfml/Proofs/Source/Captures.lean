/-
What a reader captures in a source.

A search reads a slice of a source, and the places that it reaches all have the same end
(`Reader.Reads`). What it captures therefore stands in the source, and where it begins and ends with
other characters than those of a line ending it stands between boundaries (`Capture.IsIn`). Then
each part of it that lies on one line is the text of its own span (`Capture.IsIn.textOf_part`).
-/
import Cfml.Proofs.Source.Position
import Cfml.Proofs.Text.Occurrences

set_option autoImplicit false

namespace Cfml

namespace Source

variable {src : Source}

/-- Behind any character but a carriage return is a boundary. -/
theorem isBoundary_succ {a : Nat} {c : Char} (h : src.text[a]? = some c) (hc : c ≠ '\r') :
    src.IsBoundary (a + 1) := by
  refine ⟨(List.getElem?_eq_some_iff.mp h).1, ?_⟩
  rintro ⟨before, behind, htext, hlength⟩
  obtain rfl : a = before.length := Nat.succ.inj hlength
  rw [htext, List.getElem?_append_right le_rfl, Nat.sub_self] at h
  exact hc (Option.some.inj h).symm

theorem getElem?_of_slice {start stop : Nat} {front back : List Char} {c : Char}
    (h : src.slice start stop = front ++ c :: back) : src.text[start + front.length]? = some c := by
  have hbound : front.length < stop - start := by
    have hle : (src.slice start stop).length ≤ stop - start := List.length_take_le _ _
    rw [h, List.length_append, List.length_cons] at hle
    omega
  have hat : (src.slice start stop)[front.length]? = some c := by
    rw [h, List.getElem?_append_right le_rfl, Nat.sub_self]
    rfl
  rwa [slice, List.getElem?_take_of_lt hbound, List.getElem?_drop] at hat

theorem getElem?_of_slice_cons {start stop : Nat} {rest : List Char} {c : Char}
    (h : src.slice start stop = c :: rest) : src.text[start]? = some c :=
  getElem?_of_slice (show src.slice start stop = [] ++ c :: rest from h)

theorem slice_part {start stop : Nat} {front part back : List Char}
    (h : src.slice start stop = front ++ (part ++ back)) :
    src.slice (start + front.length) (start + front.length + part.length) = part := by
  have htext : src.text.drop start
      = front ++ (part ++ (back ++ (src.text.drop start).drop (stop - start))) := by
    conv_lhs => rw [← List.take_append_drop (stop - start) (src.text.drop start)]
    rw [show (src.text.drop start).take (stop - start) = _ from h]
    simp only [List.append_assoc]
  rw [slice, Nat.add_sub_cancel_left, ← List.drop_drop, htext, List.drop_left, List.take_left]

end Source

variable {src : Source} {r later : Reader} {stop : Nat} {passed rest : List Char} {c : Char}

/-! ## Reading a slice -/

/-- The reader has ahead what the source has up to the offset. -/
structure Reader.Reads (r : Reader) (src : Source) (stop : Nat) : Prop where
  offset_le : r.offset ≤ stop
  stop_le : stop ≤ src.length
  ahead : r.ahead = src.slice r.offset stop

namespace Reader.Reads

theorem reader (src : Source) (within : Option Span) :
    (src.reader (src.bounds within).1 (src.bounds within).2).Reads src (src.bounds within).2 :=
  ⟨(src.isExtent_bounds within).start_le_stop, (src.isExtent_bounds within).stop_le_length, rfl⟩

theorem length_eq (h : r.Reads src stop) : r.ahead.length = stop - r.offset := by
  rw [h.ahead, Source.length_slice h.stop_le]

theorem passing (h : r.Reads src stop) (hahead : r.ahead = passed ++ rest) :
    (r.passing passed rest).Reads src stop := by
  have hlength := h.length_eq
  rw [hahead, List.length_append] at hlength
  have hle := h.offset_le
  refine ⟨?_, h.stop_le, ?_⟩
  · rw [Reader.offset_passing]
    omega
  · have hdrop : rest = r.ahead.drop passed.length := by rw [hahead, List.drop_left]
    rw [Reader.ahead_passing, Reader.offset_passing, hdrop, h.ahead,
      ← Source.drop_slice (Nat.le_add_right r.offset passed.length), Nat.add_sub_cancel_left]

theorem of_reaches (h : r.Reads src stop) (hreaches : r.Reaches later) :
    later.Reads src stop := by
  obtain ⟨passed, hahead, hlater⟩ := hreaches.exists_passing
  rw [hlater]
  exact h.passing hahead

/-- What is passed over stands in the source. -/
theorem slice_eq (h : r.Reads src stop) (hahead : r.ahead = passed ++ rest) :
    src.slice r.offset (r.offset + passed.length) = passed := by
  have hlength := h.length_eq
  rw [hahead, List.length_append] at hlength
  have hle := h.offset_le
  rw [← Source.take_slice (show r.offset + passed.length ≤ stop by omega), ← h.ahead,
    Nat.add_sub_cancel_left, hahead, List.take_left]

/-- The first part of it can be read on its own. -/
theorem front (h : r.Reads src stop) (hahead : r.ahead = passed ++ rest)
    (hoffset : later.offset = r.offset) (hpassed : later.ahead = passed) :
    later.Reads src (r.offset + passed.length) := by
  have hlength := h.length_eq
  rw [hahead, List.length_append] at hlength
  have hle := h.offset_le
  have hstop := h.stop_le
  refine ⟨by omega, by omega, ?_⟩
  rw [hpassed, hoffset, h.slice_eq hahead]

theorem isBoundary (h : r.Reads src stop) (hahead : r.ahead = c :: rest) (hc : c ≠ '\n') :
    src.IsBoundary r.offset :=
  Source.isBoundary_of_getElem? (Source.getElem?_of_slice_cons (h.ahead ▸ hahead)) hc

theorem isBoundary_behind (h : r.Reads src stop) (hahead : r.ahead = passed ++ c :: rest)
    (hc : c ≠ '\r') : src.IsBoundary (r.offset + (passed ++ [c]).length) := by
  rw [List.length_append, ← Nat.add_assoc]
  exact Source.isBoundary_succ (Source.getElem?_of_slice (h.ahead ▸ hahead)) hc

end Reader.Reads

/-! ## Captures -/

/-- What is captured stands in the source, between boundaries. -/
structure Capture.IsIn (capture : Capture) (src : Source) : Prop where
  slice : src.slice capture.start capture.stop = capture.text
  start : src.IsBoundary capture.start
  stop : src.IsBoundary capture.stop

theorem Reader.Reads.isIn (h : r.Reads src stop) (hahead : r.ahead = passed ++ rest)
    (hstart : src.IsBoundary r.offset) (hstop : src.IsBoundary (r.offset + passed.length)) :
    Capture.IsIn ⟨r.offset, passed⟩ src := ⟨h.slice_eq hahead, hstart, hstop⟩

/-- A name is the longest one from its first character on. -/
theorem Reader.name?_eq_some {first part : Char → Bool} {name : Capture}
    (h : r.name? first part = some (name, later)) : ∃ c more,
      name = ⟨r.offset, c :: more⟩ ∧ r.ahead = c :: more ++ later.ahead ∧ first c = true ∧
        (∀ d ∈ more, part d = true) ∧ later = r.passing (c :: more) later.ahead ∧
        later.ahead.head?.any part = false := by
  obtain ⟨c, more, hahead, hc, hmore, hlater⟩ := exists_of_name? h
  have hend : later.ahead.head?.any part = false := by
    obtain ⟨second, -, heq⟩ := Option.map_eq_some_iff.mp h
    rw [← (Prod.mk.inj heq).2]
    exact head?_skipWhile part second
  have hname := name?_of_append hahead hc hmore hend
  rw [h] at hname
  exact ⟨c, more, (Prod.mk.inj (Option.some.inj hname)).1, hahead, hc, hmore, hlater, hend⟩

namespace Capture.IsIn

variable {capture : Capture} {front part back : List Char}

/-- What is captured is the text of its span. -/
theorem textOf_spanOf (h : capture.IsIn src) :
    src.textOf (src.spanOf capture.stretch) = capture.text :=
  (congr (congrArg src.slice h.start.isPlace) h.stop.isPlace).trans h.slice

/-- Within a line every place is a boundary. -/
theorem isBoundary (h : capture.IsIn src) (hline : ∀ d ∈ capture.text, isLineBreak d = false)
    (hsplit : capture.text = front ++ back) : src.IsBoundary (capture.start + front.length) := by
  rcases List.eq_nil_or_concat front with rfl | ⟨init, d, rfl⟩
  · exact h.start
  · rw [List.concat_eq_append] at *
    have hd : d ≠ '\r' := by
      have hbreak := hline d (by simp [hsplit])
      rintro rfl
      exact absurd hbreak (by decide)
    rw [List.append_assoc, List.singleton_append] at hsplit
    rw [List.length_append, ← Nat.add_assoc]
    exact Source.isBoundary_succ (Source.getElem?_of_slice (h.slice.trans hsplit)) hd

/-- A part of what is captured on one line is the text of its span. -/
theorem textOf_part (h : capture.IsIn src) (hline : ∀ d ∈ capture.text, isLineBreak d = false)
    (hsplit : capture.text = front ++ (part ++ back)) {s : Stretch}
    (hstart : s.start = capture.start + front.length) (hstop : s.stop = s.start + part.length) :
    src.textOf (src.spanOf s) = part := by
  have hfirst := (h.isBoundary hline hsplit).isPlace
  rw [← List.append_assoc] at hsplit
  have hlast := (h.isBoundary hline hsplit).isPlace
  rw [List.length_append, ← Nat.add_assoc, ← hstart, ← hstop] at hlast
  rw [← hstart] at hfirst
  have hends : src.textOf (src.spanOf s) = src.slice s.start s.stop :=
    congr (congrArg src.slice hfirst) hlast
  rw [hends, hstop, hstart]
  rw [List.append_assoc] at hsplit
  exact Source.slice_part (h.slice.trans hsplit)

end Capture.IsIn

/-! ## Texts that may have been put together -/

/-- The text stands in the stretch, if that lies on one line. -/
structure Source.Spells (src : Source) (s : Stretch) (text : List Char) : Prop where
  start : src.IsBoundary s.start
  stop : src.IsBoundary s.stop
  slice : (∀ d ∈ src.slice s.start s.stop, isLineBreak d = false) →
    src.slice s.start s.stop = text

theorem Capture.IsIn.spells {capture : Capture} (h : capture.IsIn src) :
    src.Spells capture.stretch capture.text := ⟨h.start, h.stop, fun _ => h.slice⟩

/-- On one line it is captured there. -/
theorem Source.Spells.isIn {s : Stretch} {text : List Char} (h : src.Spells s text)
    (hline : ∀ d ∈ src.textOf (src.spanOf s), isLineBreak d = false) :
    Capture.IsIn ⟨s.start, text⟩ src ∧ s.stop = s.start + text.length ∧
      ∀ d ∈ text, isLineBreak d = false := by
  have hends : src.textOf (src.spanOf s) = src.slice s.start s.stop :=
    congr (congrArg src.slice h.start.isPlace) h.stop.isPlace
  rw [hends] at hline
  have hslice := h.slice hline
  have hlength : s.stop = s.start + text.length := by
    have hle := s.start_le_stop
    rw [← hslice, Source.length_slice h.stop.1]
    omega
  refine ⟨⟨?_, h.start, ?_⟩, hlength, hslice ▸ hline⟩
  · rw [Capture.stop, ← hlength]
    exact hslice
  · rw [Capture.stop, ← hlength]
    exact h.stop

end Cfml
