/-
Offsets and positions correspond in every text.

The lines of a text are what its line feeds cut it into once each of its line endings is one
(`Line.map_text_split`), and the conversions between offsets and positions are inverses of each
other but for two things: what lies outside the text is taken to the nearest end of it, and an
offset between a carriage return and its line feed to the offset before the two. Both are said with
`Line.snap`, the way from an offset to its place and back, which follows the lines as they are cut.
-/
import Cfml.Proofs.Source.Position
import Cfml.TextFile

set_option autoImplicit false

namespace Cfml

/-! ## One line ending for all -/

/-- The text with a line feed for each carriage return and line feed together. -/
def pairsToFeeds : List Char → List Char
  | [] => []
  | '\r' :: '\n' :: rest => '\n' :: pairsToFeeds rest
  | c :: rest => c :: pairsToFeeds rest

/-- The text with a line feed for each carriage return. -/
def returnsToFeeds (text : List Char) : List Char :=
  text.map fun c => if c == '\r' then '\n' else c

/-- To unify the line endings is to replace the pairs first and then what is left. -/
theorem unifyLineEnds_eq (text : List Char) :
    unifyLineEnds text = returnsToFeeds (pairsToFeeds text) := by
  fun_induction unifyLineEnds text with
  | case1 => rfl
  | case2 rest ih => exact congrArg ('\n' :: ·) ih
  | case3 c rest hpair ih =>
    rw [ih, pairsToFeeds]
    · rfl
    · exact hpair

/-- A character other than a line break stays as it is. -/
theorem unifyLineEnds_cons {c : Char} (h : c ≠ '\r') (rest : List Char) :
    unifyLineEnds (c :: rest) = c :: unifyLineEnds rest := by
  rw [unifyLineEnds, if_neg (by simpa using h)]
  intro _ hc
  exact absurd hc h

/-- A carriage return on its own is a line ending. -/
theorem unifyLineEnds_return {rest : List Char} (h : ∀ back, rest = '\n' :: back → False) :
    unifyLineEnds ('\r' :: rest) = '\n' :: unifyLineEnds rest := by
  rw [unifyLineEnds, if_pos (beq_self_eq_true _)]
  intro back _
  exact h back

/-! ## Lines -/

namespace Line

theorem map_text_consFirst (c : Char) {lines : List Line} (hne : lines ≠ []) :
    (consFirst c lines).map text = (lines.map text).modifyHead (c :: ·) := by
  obtain ⟨l, rest, rfl⟩ := List.exists_cons_of_ne_nil hne
  rfl

theorem splitOn_feed (rest : List Char) :
    ('\n' :: rest).splitOn '\n' = [] :: rest.splitOn '\n' := by
  rw [List.splitOn_cons_eq_if_modifyHead, if_pos (beq_self_eq_true _)]

/-- **The lines of a text are what its line feeds cut it into**, once all its lines end in them. -/
theorem map_text_split (t : List Char) :
    (split t).map text = (unifyLineEnds t).splitOn '\n' := by
  fun_induction split t with
  | case1 => rfl
  | case2 rest ih => rw [unifyLineEnds, splitOn_feed, List.map_cons, ih]
  | case3 rest hnot ih => rw [unifyLineEnds_return hnot, splitOn_feed, List.map_cons, ih]
  | case4 rest ih => rw [unifyLineEnds_cons (by decide), splitOn_feed, List.map_cons, ih]
  | case5 c rest _ hreturn hfeed ih =>
    rw [map_text_consFirst c (split_ne_nil rest), unifyLineEnds_cons hreturn,
      List.splitOn_cons_eq_if_modifyHead, if_neg (by simpa using hfeed), ih]

/-! ## Offsets that no position leads back to -/

theorem not_inLineEnding_zero (text : List Char) : ¬ InLineEnding text 0 := by
  rintro ⟨before, behind, -, hzero⟩
  exact absurd hzero (Nat.succ_ne_zero _).symm

/-- An offset in a line ending lies in the first one, which is where the text begins, or in one of
what follows the first character. -/
theorem inLineEnding_cons {c : Char} {rest : List Char} {o : Nat}
    (h : InLineEnding (c :: rest) (o + 1)) :
    (o = 0 ∧ c = '\r' ∧ ∃ back, rest = '\n' :: back) ∨ InLineEnding rest o := by
  obtain ⟨before, behind, htext, hlength⟩ := h
  cases before with
  | nil =>
    obtain ⟨rfl, rfl⟩ := List.cons_eq_cons.mp htext
    exact Or.inl ⟨by simpa using hlength, rfl, behind, rfl⟩
  | cons d before =>
    obtain ⟨rfl, rfl⟩ := List.cons_eq_cons.mp htext
    exact Or.inr ⟨before, behind, rfl, by simpa using hlength⟩

/-- Behind the first line the way back is that of the lines behind it. -/
theorem snap_cons_add {l : Line} {w : Nat} (hwidth : l.width = w) {rest : List Line}
    (hne : rest ≠ []) (o : Nat) : snap (l :: rest) (o + w) = snap rest o + w := by
  rw [snap_cons l hne, hwidth, if_neg (by omega), Nat.add_sub_cancel, Nat.add_comm]

/-- **An offset in a line ending leads back to the one before it.** The induction follows the lines;
only a pair of line-ending characters has such an offset itself. -/
theorem snap_split_of_inLineEnding (text : List Char) {o : Nat} (h : InLineEnding text o) :
    snap (split text) o + 1 = o := by
  fun_induction split text generalizing o with
  | case1 =>
    obtain ⟨before, behind, htext, -⟩ := h
    simp at htext
  | case2 rest ih =>
    rcases o with _ | _ | o
    · exact absurd h (not_inLineEnding_zero _)
    · rw [snap_cons _ (split_ne_nil rest)]
      rfl
    -- no line ending begins with the line feed
    · have hback : InLineEnding rest o := by
        rcases inLineEnding_cons h with ⟨hzero, -⟩ | hin
        · exact absurd hzero (Nat.succ_ne_zero o)
        · rcases inLineEnding_cons hin with ⟨-, hfeed, -⟩ | hin
          · exact absurd hfeed (by decide)
          · exact hin
      rw [snap_cons_add (w := 2) rfl (split_ne_nil rest)]
      have := ih hback
      omega
  | case3 rest hnot ih =>
    rcases o with _ | o
    · exact absurd h (not_inLineEnding_zero _)
    · rcases inLineEnding_cons h with ⟨-, -, back, hfeed⟩ | hin
      · exact absurd hfeed (hnot back)
      · rw [snap_cons_add (w := 1) rfl (split_ne_nil rest), ih hin]
  | case4 rest ih =>
    rcases o with _ | o
    · exact absurd h (not_inLineEnding_zero _)
    · rcases inLineEnding_cons h with ⟨-, hreturn, -⟩ | hin
      · exact absurd hreturn (by decide)
      · rw [snap_cons_add (w := 1) rfl (split_ne_nil rest), ih hin]
  | case5 c rest _ hreturn _ ih =>
    rcases o with _ | o
    · exact absurd h (not_inLineEnding_zero _)
    · rcases inLineEnding_cons h with ⟨-, hc, -⟩ | hin
      · exact absurd hc hreturn
      · rw [snap_consFirst c (split_ne_nil rest)]
        exact congrArg (· + 1) (ih hin)

/-! ## Offsets beyond the text -/

/-- What lies beyond the last line is at the end of it. -/
theorem locate_of_length_le (lines : List Line) {o : Nat} (h : (join lines).length ≤ o) :
    locate lines o = locate lines (join lines).length := by
  induction lines generalizing o with
  | nil => rfl
  | cons l rest ih =>
    rw [length_join_cons] at h ⊢
    by_cases hrest : rest = []
    · subst hrest
      rw [width] at h
      rw [locate, locate, width, Nat.min_eq_right (by omega), Nat.min_eq_right (by omega)]
    · have hback := ih (o := o - l.width) (by omega)
      rw [locate_cons l hrest, locate_cons l hrest, if_neg (by omega), if_neg (by omega), hback,
        Nat.add_sub_cancel_left]

end Line

namespace Source

variable (src : Source)

theorem position_of_length_le {o : Nat} (h : src.length ≤ o) :
    src.position o = src.position src.length := by
  have hlength : (Line.join src.lines).length = src.length := by
    rw [src.lines_eq, Line.join_split, length]
  have hlocate := Line.locate_of_length_le src.lines (o := o) (by omega)
  rw [position, position, hlocate, hlength]

/-- The offset of the text that is nearest to a whole number. -/
def nearest (o : Int) : Nat := min o.toNat src.length

theorem positionAt_eq (o : Int) : src.positionAt o = src.position (src.nearest o) := by
  rw [positionAt, nearest]
  by_cases hle : o.toNat ≤ src.length
  · rw [Nat.min_eq_left hle]
  · rw [Nat.min_eq_right (by omega)]
    exact src.position_of_length_le (by omega)

theorem offsetAt_positionAt {o : Int} (h : ¬ InLineEnding src.text (src.nearest o)) :
    src.offsetAt (src.positionAt o) = src.nearest o := by
  rw [positionAt_eq]
  exact offsetAt_position ⟨Nat.min_le_right _ _, h⟩

theorem offsetAt_positionAt_of_inLineEnding {o : Int}
    (h : InLineEnding src.text (src.nearest o)) :
    src.offsetAt (src.positionAt o) + 1 = src.nearest o := by
  have hsnap := Line.snap_split_of_inLineEnding src.text h
  have hline : ¬ (((Line.locate src.lines (src.nearest o)).1 : Nat) : Int) < 0 := by omega
  rw [positionAt_eq]
  simp only [offsetAt, position, hline, if_false, Int.toNat_natCast]
  rw [src.lines_eq]
  exact hsnap

theorem positionAt_mono {a b : Int} (h : a ≤ b) : src.positionAt a ≤ src.positionAt b :=
  src.position_mono (Int.toNat_le_toNat h)

/-- Between offsets of the text the characters by number are those of a slice. -/
theorem window?_eq_slice {start stop : Nat} (hstop : stop ≤ src.length) :
    src.window? start stop = some (src.slice start stop) := by
  have hlow : ¬ (start : Int) < -src.length := by omega
  have hhigh : ¬ (src.length : Int) < stop := by omega
  have hnonneg : ¬ (start : Int) < 0 := by omega
  by_cases heq : (stop : Int) ≤ start
  · rw [window?, if_pos heq, slice, Nat.sub_eq_zero_of_le (Int.ofNat_le.mp heq), List.take_zero]
  · simp [window?, heq, hlow, hhigh, hnonneg]

/-- The slice up to the end is what stands behind its start. -/
theorem slice_length (start : Nat) : src.slice start src.length = src.text.drop start := by
  rw [slice]
  apply List.take_of_length_le
  rw [List.length_drop]
  exact Nat.le_refl _

/-- The lines by their numbers are all of them. -/
theorem map_lineText? :
    (List.range src.lineCount).map (fun n : Nat => src.lineText? n) =
      (src.lines.map Line.text).map some := by
  apply List.ext_getElem?
  intro n
  have hnonneg : ¬ (n : Int) < 0 := by omega
  by_cases hlt : n < src.lines.length
  · simp [lineText?, lineCount, hnonneg, hlt]
  · simp [lineCount, Nat.not_lt.mp hlt]

/-- What it means for the conversions of a source to be exact. -/
structure Corresponds : Prop where
  /-- The lines are what the line feeds cut the text into once each line ending is one. -/
  lines : (List.range src.lineCount).map (fun n : Nat => src.lineText? n) =
    ((returnsToFeeds (pairsToFeeds src.text)).splitOn '\n').map some
  /-- An offset is found again, or the nearest one that is in the text. -/
  there_and_back : ∀ o : Int, ¬ InLineEnding src.text (src.nearest o) →
    src.offsetAt (src.positionAt o) = src.nearest o
  /-- In place of an offset in a line ending the one before it is found. -/
  in_line_ending : ∀ o : Int, InLineEnding src.text (src.nearest o) →
    src.offsetAt (src.positionAt o) + 1 = src.nearest o
  /-- A position that is in the text is found again. -/
  back_and_there : ∀ p : Position, src.isValid ⟨p, p, Position.le_refl p⟩ = true →
    src.positionAt (src.offsetAt p) = p
  /-- Both conversions keep the order, and whatever they are given. -/
  positionAt_le : ∀ {a b : Int}, a ≤ b → src.positionAt a ≤ src.positionAt b
  offsetAt_le : ∀ {p q : Position}, p ≤ q → src.offsetAt p ≤ src.offsetAt q
  /-- Between two offsets in order there is a span, and it is in the text. -/
  span_between : ∀ {a b : Int}, a ≤ b → ∃ s, src.spanBetween a b = .ok s ∧
    s.start = src.positionAt a ∧ s.stop = src.positionAt b ∧ src.isValid s = true
  /-- The bounds of what is searched are in order and in the text. -/
  bounds_le : ∀ within : Option Span,
    (src.bounds within).1 ≤ (src.bounds within).2 ∧ (src.bounds within).2 ≤ src.length

theorem exists_spanBetween {a b : Int} (h : a ≤ b) : ∃ s, src.spanBetween a b = .ok s ∧
    s.start = src.positionAt a ∧ s.stop = src.positionAt b ∧ src.isValid s = true := by
  have hle := src.positionAt_mono h
  refine ⟨⟨src.positionAt a, src.positionAt b, hle⟩, ?_, rfl, rfl, ?_⟩
  · rw [spanBetween, Span.between, dif_neg (Position.not_lt.mpr hle)]
  · rw [isValid, Bool.and_eq_true]
    exact ⟨src.holds_position a.toNat, src.holds_position b.toNat⟩

/-- **Offsets and positions correspond in every text**, however its lines end. -/
theorem corresponds : src.Corresponds where
  lines := by
    rw [map_lineText?, src.lines_eq, Line.map_text_split, unifyLineEnds_eq]
  there_and_back o h := src.offsetAt_positionAt h
  in_line_ending o h := src.offsetAt_positionAt_of_inLineEnding h
  back_and_there p h := by
    rw [isValid, Bool.and_self] at h
    exact position_offsetAt h
  positionAt_le h := src.positionAt_mono h
  offsetAt_le h := src.offsetAt_mono h
  span_between h := src.exists_spanBetween h
  bounds_le within := by
    have hextent := src.isExtent_bounds within
    exact ⟨hextent.start_le_stop, hextent.stop_le_length⟩

end Source

end Cfml
