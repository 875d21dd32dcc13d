/-
Offsets and positions, there and back.

`Source.position` and `Source.offsetAt` are defined for every argument and keep the order, but
they are no inverses: an offset between the two characters of a line ending has the position of the
end of its line, which is the position of the offset before it. Everywhere else in the text the way
back leads to where one came from (`Source.offsetAt_position`), so positions tell such offsets
apart, and the span of a stretch between them is valid and has the same bounds.
-/
import Cfml.Source.Stretch

set_option autoImplicit false

namespace Cfml

/-! ## Lines -/

/-- The offset lies between a carriage return and a line feed. -/
def InLineEnding (text : List Char) (offset : Nat) : Prop :=
  ∃ before behind, text = before ++ '\r' :: '\n' :: behind ∧ offset = before.length + 1

theorem InLineEnding.cons {text : List Char} {offset : Nat} (c : Char)
    (h : InLineEnding text offset) : InLineEnding (c :: text) (offset + 1) := by
  obtain ⟨before, behind, rfl, rfl⟩ := h
  exact ⟨c :: before, behind, rfl, rfl⟩

/-- Where one text ends and another one begins there is a line ending only if the first one ends
with a carriage return and the second one begins with a line feed. -/
theorem inLineEnding_append {before behind : List Char}
    (h : InLineEnding (before ++ behind) before.length) :
    before.getLast? = some '\r' ∧ behind.head? = some '\n' := by
  obtain ⟨front, back, heq, hlength⟩ := h
  rw [show front ++ '\r' :: '\n' :: back = (front ++ ['\r']) ++ '\n' :: back by simp] at heq
  obtain ⟨rfl, rfl⟩ := List.append_inj heq (by simp [hlength])
  exact ⟨List.getLast?_concat, rfl⟩

namespace Line

/-- The offset that the place of an offset leads back to. -/
def snap (lines : List Line) (o : Nat) : Nat := offset lines (locate lines o).1 (locate lines o).2

theorem snap_singleton (l : Line) (o : Nat) : snap [l] o = min o l.text.length := by
  simp [snap, locate, offset]

theorem snap_cons (l : Line) {rest : List Line} (hne : rest ≠ []) (o : Nat) :
    snap (l :: rest) o =
      if o < l.width then min o l.text.length else l.width + snap rest (o - l.width) := by
  obtain ⟨m, rest, rfl⟩ := List.exists_cons_of_ne_nil hne
  rw [snap, locate]
  · split
    · simp [offset]
    · rfl
  · exact fun h => absurd h (List.cons_ne_nil m rest)

/-- A character put before the first line moves every offset by one. -/
theorem snap_consFirst (c : Char) {lines : List Line} (hne : lines ≠ []) (o : Nat) :
    snap (consFirst c lines) (o + 1) = snap lines o + 1 := by
  obtain ⟨l, rest, rfl⟩ := List.exists_cons_of_ne_nil hne
  rw [consFirst]
  by_cases hrest : rest = []
  · rw [hrest, snap_singleton, snap_singleton, List.length_cons]
    omega
  -- the first line gets wider, and what is behind it moves along
  · have hwidth : Line.width ⟨c :: l.text, l.ending⟩ = l.width + 1 := by
      simp only [width, List.length_cons]
      omega
    rw [snap_cons _ hrest, snap_cons _ hrest, hwidth, Nat.add_sub_add_right, List.length_cons]
    split <;> split <;> omega

theorem snap_consFirst_zero (c : Char) (lines : List Line) : snap (consFirst c lines) 0 = 0 := by
  rcases lines with _ | ⟨l, _ | ⟨m, rest⟩⟩
  · rfl
  · simp [consFirst, snap_singleton]
  · rw [consFirst, snap_cons _ (List.cons_ne_nil m rest), if_pos ?_]
    · exact Nat.zero_min _
    · simp only [width, List.length_cons]
      omega

theorem snap_lineBreak {c d : Char} {rest : List Char} {o : Nat} (hle : o ≤ (c :: rest).length)
    (h : ¬ InLineEnding (c :: rest) o)
    (ih : ∀ {o}, o ≤ rest.length → ¬ InLineEnding rest o → snap (split rest) o = o) :
    (if o < Line.width ⟨[], [d]⟩ then min o 0
      else Line.width ⟨[], [d]⟩ + snap (split rest) (o - Line.width ⟨[], [d]⟩)) = o := by
  rcases o with _ | o
  · rfl
  · have hback := ih (o := o) (by simpa using hle) fun hin => h (hin.cons _)
    simp only [width, List.length_nil, List.length_cons, Nat.zero_add]
    rw [if_neg (by omega), Nat.add_sub_cancel, hback, Nat.add_comm]

/-- **There and back.** Cutting a text into lines and counting in them leads back to every offset
that does not lie within a line ending. -/
theorem snap_split (text : List Char) {o : Nat} (hle : o ≤ text.length)
    (h : ¬ InLineEnding text o) : snap (split text) o = o := by
  fun_induction split text generalizing o with
  | case1 =>
    obtain rfl : o = 0 := Nat.le_zero.mp hle
    rfl
  -- a pair of line-ending characters: the offset between them is the one left out
  | case2 rest ih =>
    rw [snap_cons _ (split_ne_nil rest)]
    rcases o with _ | _ | o
    · rfl
    · exact absurd ⟨[], rest, rfl, rfl⟩ h
    · have hback := ih (o := o) (by simpa using hle) fun hin => h ((hin.cons _).cons _)
      simp only [width, List.length_nil, List.length_cons, Nat.zero_add]
      rw [if_neg (by omega), Nat.add_assoc o, Nat.add_sub_cancel, hback, Nat.add_comm]
  | case3 rest _ ih =>
    rw [snap_cons _ (split_ne_nil rest)]
    exact snap_lineBreak hle h ih
  | case4 rest ih =>
    rw [snap_cons _ (split_ne_nil rest)]
    exact snap_lineBreak hle h ih
  | case5 c rest _ _ _ ih =>
    rcases o with _ | o
    · exact snap_consFirst_zero c _
    · rw [snap_consFirst c (split_ne_nil rest)]
      exact congrArg (· + 1) (ih (by simpa using hle) fun hin => h (hin.cons _))

/-- What is located lies in a line. -/
theorem locate_lt (lines : List Line) (hne : lines ≠ []) (o : Nat) :
    ∃ l, lines[(locate lines o).1]? = some l ∧ (locate lines o).2 ≤ l.text.length := by
  induction lines generalizing o with
  | nil => exact absurd rfl hne
  | cons l rest ih =>
    cases rest with
    | nil => exact ⟨l, rfl, Nat.min_le_right _ _⟩
    | cons m rest =>
      simp only [locate]
      split
      · exact ⟨l, rfl, Nat.min_le_right _ _⟩
      · simpa using ih (List.cons_ne_nil m rest) (o - l.width)

/-! ### Back and there -/

/-- All lines but the last one have an ending. -/
theorem ending_ne_nil_of_mem_split (text : List Char) :
    ∀ l ∈ (split text).dropLast, l.ending ≠ [] := by
  -- a line break is put before what follows it
  have hcons : ∀ (ending rest : List Char), ending ≠ [] →
      (∀ l ∈ (split rest).dropLast, l.ending ≠ []) →
      ∀ l ∈ ((⟨[], ending⟩ : Line) :: split rest).dropLast, l.ending ≠ [] := by
    intro ending rest hending hrest l hl
    rw [List.dropLast_cons_of_ne_nil (split_ne_nil rest)] at hl
    rcases List.mem_cons.mp hl with rfl | hl
    · exact hending
    · exact hrest l hl
  fun_induction split text with
  | case1 => simp
  | case2 rest ih => exact hcons _ rest (List.cons_ne_nil _ _) ih
  | case3 rest _ ih => exact hcons _ rest (List.cons_ne_nil _ _) ih
  | case4 rest ih => exact hcons _ rest (List.cons_ne_nil _ _) ih
  | case5 c rest _ _ _ ih =>
    obtain ⟨m, lines, hlines⟩ := List.exists_cons_of_ne_nil (split_ne_nil rest)
    rw [hlines] at ih ⊢
    rw [consFirst]
    by_cases hone : lines = []
    · rw [hone]
      simp
    -- the character does not change what ends the first line
    · rw [List.dropLast_cons_of_ne_nil hone] at ih ⊢
      intro l hl
      rcases List.mem_cons.mp hl with rfl | hl
      · exact ih m List.mem_cons_self
      · exact ih l (List.mem_cons_of_mem _ hl)

theorem locate_cons (l : Line) {rest : List Line} (hne : rest ≠ []) (o : Nat) :
    locate (l :: rest) o =
      if o < l.width then (0, min o l.text.length)
      else ((locate rest (o - l.width)).1 + 1, (locate rest (o - l.width)).2) := by
  obtain ⟨m, rest, rfl⟩ := List.exists_cons_of_ne_nil hne
  rfl

/-- A character put before the first line moves what is located in it by one. -/
theorem locate_consFirst (c : Char) {lines : List Line} (hne : lines ≠ []) (o : Nat) :
    locate (consFirst c lines) (o + 1) =
      ((locate lines o).1, (locate lines o).2 + if (locate lines o).1 = 0 then 1 else 0) := by
  obtain ⟨l, rest, rfl⟩ := List.exists_cons_of_ne_nil hne
  rw [consFirst]
  by_cases hrest : rest = []
  · subst hrest
    simp [locate, Nat.add_min_add_right]
  · have hwidth : Line.width ⟨c :: l.text, l.ending⟩ = l.width + 1 := by
      simp only [width, List.length_cons]
      omega
    rw [locate_cons _ hrest, locate_cons _ hrest, hwidth, Nat.add_sub_add_right]
    by_cases hlt : o < l.width
    · rw [if_pos hlt, if_pos (Nat.succ_lt_succ hlt)]
      simp [Nat.add_min_add_right]
    · rw [if_neg hlt, if_neg (by omega)]
      simp

/-- A character of a line, or the end of its text, is found there again. -/
theorem locate_offset {lines : List Line} (hends : ∀ l ∈ lines.dropLast, l.ending ≠ []) {n : Nat}
    {l : Line} (hline : lines[n]? = some l) {character : Nat}
    (hle : character ≤ l.text.length) :
    locate lines (offset lines n character) = (n, character) := by
  induction lines generalizing n with
  | nil => exact absurd hline (by simp)
  | cons m rest ih =>
    by_cases hrest : rest = []
    · subst hrest
      cases n with
      | zero =>
        obtain rfl : m = l := by simpa using hline
        rw [offset, locate, Nat.min_eq_left hle, Nat.min_eq_left hle]
      | succ n => exact absurd hline (by simp)
    · rw [List.dropLast_cons_of_ne_nil hrest] at hends
      have hwidth : m.text.length < m.width := by
        have := List.length_pos_iff.mpr (hends m List.mem_cons_self)
        rw [width]
        omega
      cases n with
      | zero =>
        obtain rfl : m = l := by simpa using hline
        rw [offset, Nat.min_eq_left hle, locate_cons m hrest, if_pos (by omega),
          Nat.min_eq_left hle]
      | succ n =>
        have hback := ih (fun l hl => hends l (List.mem_cons_of_mem _ hl)) (n := n)
          (by simpa using hline)
        rw [offset, locate_cons m hrest, if_neg (by omega), Nat.add_sub_cancel_left, hback]

/-- The start of a text is the start of its first line. -/
theorem locate_split_zero (t : List Char) : locate (split t) 0 = (0, 0) := by
  obtain ⟨l, rest, hlines⟩ := List.exists_cons_of_ne_nil (split_ne_nil t)
  have hstart := locate_offset (ending_ne_nil_of_mem_split t) (n := 0) (l := l)
    (by rw [hlines]; rfl) (Nat.zero_le _)
  rwa [hlines, offset, Nat.zero_min, ← hlines] at hstart

theorem offset_consFirst_zero (c : Char) {lines : List Line} (hne : lines ≠ []) :
    offset (consFirst c lines) 0 0 = 0 := by
  obtain ⟨l, rest, rfl⟩ := List.exists_cons_of_ne_nil hne
  exact Nat.zero_min _

/-- A character put before the first line moves what is behind it by one. -/
theorem offset_consFirst_succ (c : Char) {lines : List Line} (hne : lines ≠ []) (character : Nat) :
    offset (consFirst c lines) 0 (character + 1) = offset lines 0 character + 1 := by
  obtain ⟨l, rest, rfl⟩ := List.exists_cons_of_ne_nil hne
  simp only [consFirst, offset, List.length_cons]
  omega

theorem offset_consFirst_line (c : Char) {lines : List Line} (hne : lines ≠ [])
    (n character : Nat) :
    offset (consFirst c lines) (n + 1) character = offset lines (n + 1) character + 1 := by
  obtain ⟨l, rest, rfl⟩ := List.exists_cons_of_ne_nil hne
  simp only [consFirst, offset, width, List.length_cons]
  omega

theorem length_join_cons (l : Line) (rest : List Line) :
    (join (l :: rest)).length = l.width + (join rest).length := by
  rw [join, join, List.flatMap_cons, List.length_append, List.length_append, width]

theorem offset_le_length (lines : List Line) (n character : Nat) :
    offset lines n character ≤ (join lines).length := by
  induction lines generalizing n with
  | nil => exact Nat.zero_le _
  | cons l rest ih =>
    rw [length_join_cons]
    cases n with
    | zero =>
      rw [offset, width]
      omega
    | succ n =>
      rw [offset]
      exact Nat.add_le_add_left (ih n) _

end Line

/-! ## Sources -/

theorem Stretch.holds_iff {s : Stretch} {o : Nat} :
    s.holds o = true ↔ s.start ≤ o ∧ o < s.stop := by
  rw [holds, Bool.and_eq_true, decide_eq_true_iff, decide_eq_true_iff]

theorem Span.covers_iff {s t : Span} : s.covers t = true ↔
    (s.start ≤ t.start ∧ t.start ≤ s.stop) ∧ s.start ≤ t.stop ∧ t.stop ≤ s.stop := by
  rw [covers, hasPosition, hasPosition, Bool.and_eq_true, Bool.and_eq_true, Bool.and_eq_true]
  exact and_congr (and_congr decide_eq_true_iff decide_eq_true_iff)
    (and_congr decide_eq_true_iff decide_eq_true_iff)

namespace Source

variable {src : Source} {a b : Nat}

/-- The offset is one of the text and does not lie within a line ending. -/
def IsBoundary (src : Source) (offset : Nat) : Prop :=
  offset ≤ src.length ∧ ¬ InLineEnding src.text offset

/-- Where a text has been put together from two is a boundary, if the first one does not end with a
carriage return or the second one does not begin with a line feed. -/
theorem isBoundary_append {before behind : List Char} (htext : src.text = before ++ behind)
    (h : before.getLast? ≠ some '\r' ∨ behind.head? ≠ some '\n') :
    src.IsBoundary before.length := by
  refine ⟨?_, ?_⟩
  · rw [length, htext, List.length_append]
    exact Nat.le_add_right _ _
  · rw [htext]
    intro hin
    obtain ⟨hlast, hhead⟩ := inLineEnding_append hin
    exact h.elim (fun h => h hlast) (fun h => h hhead)

theorem offsetAt_position (h : src.IsBoundary a) : src.offsetAt (src.position a) = a := by
  -- the line of an offset is never a negative one
  have hline : ¬ (((Line.locate src.lines a).1 : Nat) : Int) < 0 := by omega
  simp only [offsetAt, position, hline, if_false, Int.toNat_natCast]
  rw [src.lines_eq]
  exact Line.snap_split src.text h.1 h.2

theorem holds_position (src : Source) (a : Nat) : src.holds (src.position a) = true := by
  have hne : src.lines ≠ [] := by
    rw [src.lines_eq]
    exact Line.split_ne_nil src.text
  obtain ⟨l, hline, hcharacter⟩ := Line.locate_lt src.lines hne a
  simp [holds, position, hline, hcharacter]

/-- Characters other than those of a line ending stand at boundaries. -/
theorem isBoundary_of_getElem? {c : Char} (h : src.text[a]? = some c) (hc : c ≠ '\n') :
    src.IsBoundary a := by
  refine ⟨Nat.le_of_lt (List.getElem?_eq_some_iff.mp h).1, ?_⟩
  rintro ⟨before, behind, htext, rfl⟩
  rw [htext, List.getElem?_append_right (Nat.le_add_right _ 1), Nat.add_sub_cancel_left] at h
  exact hc (Option.some.inj h).symm

theorem isBoundary_zero (src : Source) : src.IsBoundary 0 := by
  refine ⟨Nat.zero_le _, ?_⟩
  rintro ⟨before, behind, -, hzero⟩
  exact absurd hzero (Nat.succ_ne_zero _).symm

theorem isBoundary_length (src : Source) : src.IsBoundary src.length := by
  refine ⟨Nat.le_refl _, ?_⟩
  rintro ⟨before, behind, htext, hlength⟩
  rw [length, htext, List.length_append, List.length_cons, List.length_cons] at hlength
  omega

/-- The offset is the one that its position leads back to. -/
def IsPlace (src : Source) (offset : Nat) : Prop := src.offsetAt (src.position offset) = offset

theorem IsBoundary.isPlace (h : src.IsBoundary a) : src.IsPlace a := offsetAt_position h

/-- Positions keep places in order and apart. -/
theorem position_le_iff (ha : src.IsPlace a) (hb : src.IsPlace b) :
    src.position a ≤ src.position b ↔ a ≤ b := by
  constructor
  · intro h
    have hback := src.offsetAt_mono h
    rwa [ha, hb] at hback
  · exact src.position_mono

theorem position_inj (ha : src.IsPlace a) (hb : src.IsPlace b) :
    src.position a = src.position b ↔ a = b := by
  constructor
  · intro h
    rw [← ha, h, hb]
  · rintro rfl
    rfl

theorem position_lt (ha : src.IsPlace a) (hb : src.IsPlace b) (h : a < b) :
    src.position a < src.position b := by
  by_cases hlt : src.position a < src.position b
  · exact hlt
  · have hle := (position_le_iff hb ha).mp (Position.not_lt.mp hlt)
    omega

/-- **Back and there.** A position that is in the text is the position of its offset. -/
theorem position_offsetAt {p : Position} (h : src.holds p = true) :
    src.position (src.offsetAt p) = p := by
  simp only [holds, Bool.and_eq_true, decide_eq_true_eq, Option.any_eq_true] at h
  obtain ⟨⟨hline, hcharacter⟩, l, hl, hle⟩ := h
  have hends : ∀ l ∈ src.lines.dropLast, l.ending ≠ [] := by
    rw [src.lines_eq]
    exact Line.ending_ne_nil_of_mem_split src.text
  have hback := Line.locate_offset hends hl (Int.toNat_le.mpr hle)
  rw [offsetAt, if_neg (by omega), position, hback]
  apply Position.eq_of
  · exact Int.toNat_of_nonneg hline
  · exact Int.toNat_of_nonneg hcharacter

theorem isPlace_offsetAt {p : Position} (h : src.holds p = true) :
    src.IsPlace (src.offsetAt p) := congrArg src.offsetAt (position_offsetAt h)

theorem offsetAt_le_length (src : Source) (p : Position) : src.offsetAt p ≤ src.length := by
  unfold offsetAt
  split
  · exact Nat.zero_le _
  · have hle := Line.offset_le_length src.lines p.line.toNat p.character.toNat
    rwa [src.lines_eq, Line.join_split, ← src.lines_eq] at hle

/-! ### Slices -/

variable {start stop : Nat}

theorem slice_all (src : Source) : src.slice 0 src.length = src.text := by
  rw [slice, List.drop_zero, Nat.sub_zero]
  exact List.take_length

theorem length_slice (hle : stop ≤ src.length) : (src.slice start stop).length = stop - start := by
  rw [slice, List.length_take, List.length_drop]
  rw [length] at hle
  omega

theorem drop_slice (hle : start ≤ a) :
    (src.slice start stop).drop (a - start) = src.slice a stop := by
  have hdrop : start + (a - start) = a := by omega
  have htake : stop - start - (a - start) = stop - a := by omega
  rw [slice, slice, List.drop_take, List.drop_drop, hdrop, htake]

theorem take_slice (hle : a ≤ stop) :
    (src.slice start stop).take (a - start) = src.slice start a := by
  have htake : min (a - start) (stop - start) = a - start := by omega
  rw [slice, slice, List.take_take, htake]

/-- What stands before an offset ends with what stands between it and an earlier one. -/
theorem take_eq_append_slice (hle : start ≤ stop) :
    src.text.take stop = src.text.take start ++ src.slice start stop := by
  rw [slice, ← List.take_add, Nat.add_sub_cancel' hle]

/-- A word that stands at an offset begins every slice from there that is long enough. -/
theorem prefix_slice {word : List Char} (h : word <+: src.slice start stop)
    (hle : start + word.length ≤ a) :
    word <+: src.slice start a := by
  rw [slice, List.prefix_take_iff] at h ⊢
  exact ⟨h.1, by omega⟩

theorem slice_congr {src' : Source}
    (h : ∀ i, start ≤ i → i < stop → src.text[i]? = src'.text[i]?) :
    src.slice start stop = src'.slice start stop := by
  apply List.ext_getElem?
  intro i
  rw [slice, slice, List.getElem?_take, List.getElem?_take, List.getElem?_drop, List.getElem?_drop]
  split
  · exact h (start + i) (by omega) (by omega)
  · rfl

/-! ### What is searched -/

/-- The part of the source that is meant by a span or by none: the span if it is in the text, and
the whole text otherwise. -/
def extent (src : Source) : Option Span → Span
  | none => src.fullSpan
  | some s => if src.isValid s then s else src.fullSpan

/-- The bounds of what is searched are places, in order and in the text, and their positions are the
ends of it. -/
structure IsExtent (src : Source) (start stop : Nat) (extent : Span) : Prop where
  start_le_stop : start ≤ stop
  stop_le_length : stop ≤ src.length
  place_start : src.IsPlace start
  place_stop : src.IsPlace stop
  position_start : src.position start = extent.start
  position_stop : src.position stop = extent.stop

theorem isExtent_fullSpan (src : Source) : src.IsExtent 0 src.length src.fullSpan where
  start_le_stop := Nat.zero_le _
  stop_le_length := Nat.le_refl _
  place_start := src.isBoundary_zero.isPlace
  place_stop := src.isBoundary_length.isPlace
  position_start := rfl
  position_stop := congrArg src.position (Nat.zero_add _).symm

theorem isExtent_of_isValid {s : Span} (h : src.isValid s = true) :
    src.IsExtent (src.offsetAt s.start) (src.offsetAt s.stop) s := by
  obtain ⟨hstart, hstop⟩ := Bool.and_eq_true_iff.mp h
  constructor
  · exact src.offsetAt_mono s.start_le_stop
  · exact src.offsetAt_le_length s.stop
  · exact isPlace_offsetAt hstart
  · exact isPlace_offsetAt hstop
  · exact position_offsetAt hstart
  · exact position_offsetAt hstop

theorem isExtent_bounds (src : Source) (within : Option Span) :
    src.IsExtent (src.bounds within).1 (src.bounds within).2 (src.extent within) := by
  cases within with
  | none => exact src.isExtent_fullSpan
  | some s =>
    rw [bounds, extent]
    by_cases hvalid : src.isValid s = true
    · rw [if_pos hvalid, if_pos hvalid]
      exact isExtent_of_isValid hvalid
    · rw [if_neg hvalid, if_neg hvalid]
      exact src.isExtent_fullSpan

variable {s : Stretch}

/-- The span of a stretch of the text is in the text. -/
theorem isValid_spanOf (src : Source) (s : Stretch) : src.isValid (src.spanOf s) = true := by
  rw [isValid, Bool.and_eq_true]
  exact ⟨src.holds_position s.start, src.holds_position s.stop⟩

/-- The span of a stretch between places has the bounds of the stretch. -/
theorem bounds_spanOf (hstart : src.IsPlace s.start) (hstop : src.IsPlace s.stop) :
    src.bounds (some (src.spanOf s)) = (s.start, s.stop) := by
  rw [bounds, if_pos (src.isValid_spanOf s)]
  exact Prod.ext hstart hstop

theorem stretchOf_spanOf (hstart : src.IsPlace s.start) (hstop : src.IsPlace s.stop) :
    src.stretchOf (src.spanOf s) = s :=
  Stretch.ends_inj _ _ (Prod.ext hstart hstop)

theorem slice_between {before inside behind : List Char}
    (htext : src.text = before ++ (inside ++ behind)) :
    src.slice before.length (before.length + inside.length) = inside := by
  rw [slice, htext, List.drop_left, Nat.add_sub_cancel_left, List.take_left]

/-- Where a text has been put together from three, the one in the middle lies between places, if no
line ending goes across. -/
theorem isPlace_between {before inside behind : List Char}
    (htext : src.text = before ++ (inside ++ behind))
    (hbefore : before.getLast? ≠ some '\r' ∨ (inside ++ behind).head? ≠ some '\n')
    (hbehind : (before ++ inside).getLast? ≠ some '\r' ∨ behind.head? ≠ some '\n') :
    src.IsPlace before.length ∧ src.IsPlace (before.length + inside.length) := by
  constructor
  · exact (isBoundary_append htext hbefore).isPlace
  · rw [← List.length_append]
    rw [← List.append_assoc] at htext
    exact (isBoundary_append htext hbehind).isPlace

/-- The text of its span is the one in the middle. -/
theorem textOf_between {before inside behind : List Char}
    (htext : src.text = before ++ (inside ++ behind)) (hstart : s.start = before.length)
    (hstop : s.stop = before.length + inside.length)
    (hbefore : before.getLast? ≠ some '\r' ∨ (inside ++ behind).head? ≠ some '\n')
    (hbehind : (before ++ inside).getLast? ≠ some '\r' ∨ behind.head? ≠ some '\n') :
    src.textOf (src.spanOf s) = inside := by
  obtain ⟨hplace, hplace'⟩ := isPlace_between htext hbefore hbehind
  rw [← hstart] at hplace
  rw [← hstop] at hplace'
  have hends : src.textOf (src.spanOf s) = src.slice s.start s.stop :=
    congr (congrArg src.slice hplace) hplace'
  rw [hends, hstart, hstop, slice_between htext]

theorem isEmpty_spanOf (hstart : src.IsPlace s.start) (hstop : src.IsPlace s.stop) :
    (src.spanOf s).isEmpty = true ↔ s.start = s.stop := by
  rw [Span.isEmpty, beq_iff_eq]
  exact position_inj hstart hstop

/-- A span covers another one if its stretch does. -/
theorem covers_spanOf {t : Stretch} (hstart : s.start ≤ t.start) (hstop : t.stop ≤ s.stop) :
    (src.spanOf s).covers (src.spanOf t) = true := by
  have h₁ := src.position_mono hstart
  have h₂ := src.position_mono hstop
  have h₃ := src.position_mono t.start_le_stop
  rw [Span.covers_iff]
  exact ⟨⟨h₁, Position.le_trans h₃ h₂⟩, Position.le_trans h₁ h₃, h₂⟩

/-- Between places it covers no others. -/
theorem of_covers_spanOf {t : Stretch} (hstart : src.IsPlace s.start)
    (hstop : src.IsPlace s.stop) (hstart' : src.IsPlace t.start)
    (hstop' : src.IsPlace t.stop) (h : (src.spanOf s).covers (src.spanOf t) = true) :
    s.start ≤ t.start ∧ t.stop ≤ s.stop := by
  obtain ⟨⟨hbegin, -⟩, -, hend⟩ := Span.covers_iff.mp h
  exact ⟨(position_le_iff hstart hstart').mp hbegin, (position_le_iff hstop' hstop).mp hend⟩

end Source

end Cfml
