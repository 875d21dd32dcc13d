/-
The same positions, however lines end.

A text whose lines end in line feeds can be written with another line ending for each of them. The
offsets move behind every line ending (`LineEnd.offset`), but the lines stay the same and so do the
positions: what has an offset in one text has the moved one in the other, and both have one position
(`Restyled.position_eq`). What is found in the two texts at offsets that correspond is therefore
reported alike.
-/
import Cfml.Proofs.Source.Conversion
import Cfml.Proofs.Source.Lines

set_option autoImplicit false

namespace Cfml

/-! ## What is left behind an offset -/

/-- Behind a prefix of what is left the rest is left. -/
theorem prefix_drop_add {text front back : List Char} {o : Nat}
    (h : front ++ back <+: text.drop o) : back <+: text.drop (o + front.length) := by
  obtain ⟨behind, hbehind⟩ := h
  rw [← List.drop_drop, ← hbehind, List.append_assoc, List.drop_left]
  exact List.prefix_append _ _

theorem prefix_drop_succ {c : Char} {text rest : List Char} {o : Nat}
    (h : c :: rest <+: text.drop o) : rest <+: text.drop (o + 1) :=
  prefix_drop_add (show [c] ++ rest <+: text.drop o from h)

/-! ## Line endings -/

/-- What ends a line. -/
inductive LineEnd where
  | feed
  /-- A carriage return and a line feed together. -/
  | pair
  | carriage
deriving DecidableEq, Repr

namespace LineEnd

/-- The characters of a line ending. -/
def text : LineEnd → List Char
  | feed => ['\n']
  | pair => ['\r', '\n']
  | carriage => ['\r']

/-- The character with the line ending in place of a line feed. -/
def write (e : LineEnd) (c : Char) : List Char := if c == '\n' then e.text else [c]

/-- The text with the line ending in place of every line feed. -/
def restyle (e : LineEnd) (text : List Char) : List Char := text.flatMap e.write

/-- The offset in the text with the line ending that corresponds to an offset in the text. -/
def offset (e : LineEnd) (text : List Char) (o : Nat) : Nat := (e.restyle (text.take o)).length

variable (e : LineEnd) {c : Char} {text front back rest : List Char} {a b o : Nat}

@[simp] theorem restyle_nil : e.restyle [] = [] := rfl

theorem restyle_feed_cons (rest : List Char) :
    e.restyle ('\n' :: rest) = e.text ++ e.restyle rest := rfl

theorem restyle_singleton : e.restyle ['\n'] = e.text := List.append_nil _

theorem restyle_cons (hc : c ≠ '\n') (rest : List Char) :
    e.restyle (c :: rest) = c :: e.restyle rest := by
  rw [restyle, List.flatMap_cons, write, if_neg (by simpa using hc)]
  rfl

theorem restyle_append (front back : List Char) :
    e.restyle (front ++ back) = e.restyle front ++ e.restyle back := List.flatMap_append

/-- Without line feeds the text stays as it is. -/
theorem restyle_of_notMem (h : '\n' ∉ text) : e.restyle text = text := by
  induction text with
  | nil => rfl
  | cons c rest ih =>
    have hc : c ≠ '\n' := fun heq => h (heq ▸ List.mem_cons_self)
    rw [restyle_cons e hc, ih fun hmem => h (List.mem_cons_of_mem c hmem)]

theorem text_ne_nil : e.text ≠ [] := by
  cases e <;> exact List.cons_ne_nil _ _

theorem isLineBreak_of_mem_text : ∀ c ∈ e.text, isLineBreak c = true := by
  cases e <;> decide

/-- No line begins with a line feed that the carriage return before it would take up. -/
theorem restyle_carriage_ne (h : '\r' ∉ text) (back : List Char) :
    carriage.restyle text ≠ '\n' :: back := by
  cases text with
  | nil => exact (List.cons_ne_nil _ _).symm
  | cons c rest =>
    by_cases hc : c = '\n'
    · subst hc
      simp [restyle_feed_cons, LineEnd.text]
    · rw [restyle_cons _ hc]
      exact fun heq => hc (List.cons_eq_cons.mp heq).1

/-! ## Offsets -/

theorem length_pos_restyle (hne : text ≠ []) : 0 < (e.restyle text).length := by
  obtain ⟨c, rest, rfl⟩ := List.exists_cons_of_ne_nil hne
  by_cases hc : c = '\n'
  · subst hc
    have := List.length_pos_of_ne_nil e.text_ne_nil
    rw [restyle_feed_cons, List.length_append]
    omega
  · rw [restyle_cons e hc]
    exact Nat.succ_pos _

@[simp] theorem offset_zero (text : List Char) : e.offset text 0 = 0 := rfl

theorem offset_length (text : List Char) : e.offset text text.length = (e.restyle text).length := by
  rw [offset, List.take_length]

theorem offset_feed_cons (rest : List Char) (o : Nat) :
    e.offset ('\n' :: rest) (o + 1) = e.text.length + e.offset rest o := by
  rw [offset, List.take_succ_cons, restyle_feed_cons, List.length_append, offset]

theorem offset_cons (hc : c ≠ '\n') (rest : List Char) (o : Nat) :
    e.offset (c :: rest) (o + 1) = e.offset rest o + 1 := by
  rw [offset, List.take_succ_cons, restyle_cons e hc, List.length_cons, offset]

/-- Behind an offset the offsets move on with the text that is left. -/
theorem offset_add (text : List Char) (o n : Nat) :
    e.offset text (o + n) = e.offset text o + e.offset (text.drop o) n := by
  rw [offset, List.take_add, restyle_append, List.length_append]
  rfl

theorem offset_add_of_prefix (h : front <+: text.drop o) :
    e.offset text (o + front.length) = e.offset text o + (e.restyle front).length := by
  rw [offset_add, offset, offset, ← List.prefix_iff_eq_take.mp h]

/-- Behind a character that stands at the offset. -/
theorem offset_succ_of_prefix (h : c :: rest <+: text.drop o) :
    e.offset text (o + 1) = e.offset text o + (e.restyle [c]).length :=
  e.offset_add_of_prefix ((List.prefix_append [c] rest).trans h)

theorem offset_mono (text : List Char) (h : a ≤ b) : e.offset text a ≤ e.offset text b := by
  obtain ⟨n, rfl⟩ := Nat.exists_eq_add_of_le h
  rw [offset_add]
  exact Nat.le_add_right _ _

/-- **Offsets correspond in order.** -/
theorem offset_lt_iff (ha : a < text.length) : e.offset text a < e.offset text b ↔ a < b := by
  constructor
  · intro h
    by_contra hle
    have := e.offset_mono text (Nat.le_of_not_lt hle)
    omega
  · intro h
    have hne : (text.drop a).take 1 ≠ [] := by
      rw [← List.length_pos_iff, List.length_take, List.length_drop]
      omega
    have hpos := e.length_pos_restyle hne
    have hnext := e.offset_add text a 1
    have hmono : e.offset text (a + 1) ≤ e.offset text b := e.offset_mono text h
    rw [offset.eq_def _ (text.drop a)] at hnext
    omega

/-- **What passes over line breaks one by one passes over a line ending.** -/
theorem pass_feed {α : Type} {f : Nat → List Char → α}
    (hf : ∀ i c rest, isLineBreak c = true → f i (c :: rest) = f (i + 1) rest)
    (h : '\n' :: rest <+: text.drop o) :
    f (e.offset text o) (e.restyle ('\n' :: rest)) =
      f (e.offset text (o + 1)) (e.restyle rest) := by
  have hreturn := fun i rest => hf i '\r' rest rfl
  have hfeed := fun i rest => hf i '\n' rest rfl
  rw [e.offset_succ_of_prefix h, restyle_singleton, restyle_feed_cons]
  cases e with
  | feed => exact hfeed _ _
  | pair => exact (hreturn _ _).trans (hfeed _ _)
  | carriage => exact hreturn _ _

theorem drop_restyle (text : List Char) (o : Nat) :
    (e.restyle text).drop (e.offset text o) = e.restyle (text.drop o) := by
  conv_lhs => rw [← List.take_append_drop o text, restyle_append]
  rw [offset, List.take_append_drop, List.drop_left]

theorem take_restyle (text : List Char) (o : Nat) :
    (e.restyle text).take (e.offset text o) = e.restyle (text.take o) := by
  conv_lhs => rw [← List.take_append_drop o text, restyle_append]
  rw [offset, List.take_append_drop, List.take_left]

/-! ## Lines -/

theorem split_feed (h : '\r' ∉ rest) :
    Line.split (e.text ++ e.restyle rest) = ⟨[], e.text⟩ :: Line.split (e.restyle rest) := by
  cases e with
  | feed => rfl
  | pair => rfl
  | carriage =>
    simp only [LineEnd.text, List.cons_append, List.nil_append]
    rw [Line.split]
    intro back hback
    exact restyle_carriage_ne h back hback

theorem width_text : Line.width ⟨[], e.text⟩ = e.text.length := Nat.zero_add _

theorem restyle_feed (text : List Char) : feed.restyle text = text := by
  induction text with
  | nil => rfl
  | cons c rest ih =>
    by_cases hc : c = '\n'
    · subst hc
      exact congrArg ('\n' :: ·) ih
    · rw [restyle_cons feed hc, ih]

/-- To unify the line endings is to take them back. -/
theorem unifyLineEnds_restyle (h : '\r' ∉ text) : unifyLineEnds (e.restyle text) = text := by
  induction text with
  | nil => rfl
  | cons c rest ih =>
    have hrest : '\r' ∉ rest := fun hmem => h (List.mem_cons_of_mem c hmem)
    by_cases hc : c = '\n'
    · subst hc
      rw [restyle_feed_cons]
      cases e with
      | feed => exact (unifyLineEnds_cons (by decide) _).trans (congrArg _ (ih hrest))
      | pair => exact congrArg ('\n' :: ·) (ih hrest)
      | carriage =>
        have hnot := restyle_carriage_ne hrest
        exact (unifyLineEnds_return hnot).trans (congrArg _ (ih hrest))
    · have hreturn : c ≠ '\r' := fun heq => h (heq ▸ List.mem_cons_self)
      rw [restyle_cons e hc, unifyLineEnds_cons hreturn, ih hrest]

/-- The lines stay the same. -/
theorem map_text_split_restyle (h : '\r' ∉ text) :
    (Line.split (e.restyle text)).map Line.text = (Line.split text).map Line.text := by
  have hsame := unifyLineEnds_restyle feed h
  rw [restyle_feed] at hsame
  rw [Line.map_text_split, Line.map_text_split, unifyLineEnds_restyle e h, hsame]

/-- **An offset is in the line in which the corresponding one is**, and at the same character. -/
theorem locate_offset (h : '\r' ∉ text) (o : Nat) :
    Line.locate (Line.split (e.restyle text)) (e.offset text o) =
      Line.locate (Line.split text) o := by
  induction text generalizing o with
  | nil => simp [offset, Line.split, Line.locate]
  | cons c rest ih =>
    have hrest : '\r' ∉ rest := fun hmem => h (List.mem_cons_of_mem c hmem)
    have hne := Line.split_ne_nil rest
    have hne' := Line.split_ne_nil (e.restyle rest)
    cases o with
    | zero => rw [offset_zero, Line.locate_split_zero, Line.locate_split_zero]
    | succ o =>
      by_cases hc : c = '\n'
      · subst hc
        rw [restyle_feed_cons, split_feed e hrest, Line.split, offset_feed_cons,
          Line.locate_cons _ hne', Line.locate_cons _ hne, width_text, if_neg (by omega),
          Nat.add_sub_cancel_left, ih hrest]
        rfl
      · have hbreak : isLineBreak c = false :=
          isLineBreak_eq_false_iff.mpr ⟨fun heq => h (heq ▸ List.mem_cons_self), hc⟩
        rw [restyle_cons e hc, Line.split_cons hbreak, Line.split_cons hbreak, offset_cons e hc,
          Line.locate_consFirst c hne', Line.locate_consFirst c hne, ih hrest]

/-- **A place in a line has the corresponding offset.** -/
theorem offset_split (h : '\r' ∉ text) (n character : Nat) :
    Line.offset (Line.split (e.restyle text)) n character =
      e.offset text (Line.offset (Line.split text) n character) := by
  induction text generalizing n character with
  | nil => cases n <;> simp [offset, Line.split, Line.offset, Line.width]
  | cons c rest ih =>
    have hrest : '\r' ∉ rest := fun hmem => h (List.mem_cons_of_mem c hmem)
    have hne := Line.split_ne_nil rest
    have hne' := Line.split_ne_nil (e.restyle rest)
    by_cases hc : c = '\n'
    · subst hc
      rw [restyle_feed_cons, split_feed e hrest, Line.split]
      cases n with
      | zero => simp [Line.offset]
      | succ n =>
        rw [Line.offset, Line.offset, width_text, show Line.width ⟨[], ['\n']⟩ = 1 from rfl,
          Nat.add_comm 1, offset_feed_cons, ih hrest]
    · have hbreak : isLineBreak c = false :=
        isLineBreak_eq_false_iff.mpr ⟨fun heq => h (heq ▸ List.mem_cons_self), hc⟩
      rw [restyle_cons e hc, Line.split_cons hbreak, Line.split_cons hbreak]
      cases n with
      | zero =>
        cases character with
        | zero =>
          rw [Line.offset_consFirst_zero c hne, Line.offset_consFirst_zero c hne', offset_zero]
        | succ character =>
          rw [Line.offset_consFirst_succ c hne, Line.offset_consFirst_succ c hne',
            offset_cons e hc, ih hrest]
      | succ n =>
        rw [Line.offset_consFirst_line c hne, Line.offset_consFirst_line c hne', offset_cons e hc,
          ih hrest]

end LineEnd

/-! ## Sources -/

/-- The other source has the text of the source with another line ending for each line feed. The
text of the source has no carriage returns. -/
structure Source.Restyled (e : LineEnd) (src src' : Source) : Prop where
  text_eq : src'.text = e.restyle src.text
  notMem : '\r' ∉ src.text

/-- The stretch between the corresponding offsets. -/
def LineEnd.stretch (e : LineEnd) (text : List Char) (s : Stretch) : Stretch :=
  ⟨e.offset text s.start, e.offset text s.stop, e.offset_mono text s.start_le_stop⟩

namespace Source

variable {e : LineEnd} {src src' : Source} (h : src.Restyled e src')
include h

theorem Restyled.lines_eq : src'.lines = Line.split (e.restyle src.text) := by
  rw [src'.lines_eq, h.text_eq]

theorem Restyled.length_eq : src'.length = e.offset src.text src.length := by
  rw [length, h.text_eq, length, e.offset_length]

/-- **Corresponding offsets have one position.** -/
theorem Restyled.position_eq (o : Nat) : src'.position (e.offset src.text o) = src.position o := by
  rw [position, position, h.lines_eq, src.lines_eq, e.locate_offset h.notMem]

theorem Restyled.spanOf_eq (s : Stretch) : src'.spanOf (e.stretch src.text s) = src.spanOf s := by
  simp only [spanOf, LineEnd.stretch, h.position_eq]

/-- **A position has corresponding offsets.** -/
theorem Restyled.offsetAt_eq (p : Position) :
    src'.offsetAt p = e.offset src.text (src.offsetAt p) := by
  unfold offsetAt
  rw [h.lines_eq, src.lines_eq]
  split
  · rw [e.offset_zero]
  · exact e.offset_split h.notMem _ _

theorem Restyled.stretchOf_eq (s : Span) :
    src'.stretchOf s = e.stretch src.text (src.stretchOf s) := by
  simp only [stretchOf, LineEnd.stretch, h.offsetAt_eq]

theorem Restyled.holds_eq (p : Position) : src'.holds p = src.holds p := by
  have hlines : src'.lines.map Line.text = src.lines.map Line.text := by
    rw [h.lines_eq, src.lines_eq, e.map_text_split_restyle h.notMem]
  have hany : ∀ lines : List Line, (lines[p.line.toNat]?.any fun l => p.character ≤ l.text.length) =
      (lines.map Line.text)[p.line.toNat]?.any fun text => p.character ≤ text.length := by
    intro lines
    rw [List.getElem?_map, Option.any_map]
  rw [holds, holds, hany, hany src.lines, hlines]

theorem Restyled.bounds_eq (within : Option Span) : src'.bounds within =
    (e.offset src.text (src.bounds within).1, e.offset src.text (src.bounds within).2) := by
  cases within with
  | none => rw [bounds, bounds, h.length_eq, e.offset_zero]
  | some s =>
    have hvalid : src'.isValid s = src.isValid s := by
      rw [isValid, isValid, h.holds_eq, h.holds_eq]
    rw [bounds, bounds, hvalid]
    split
    · rw [h.offsetAt_eq, h.offsetAt_eq]
    · rw [h.length_eq, e.offset_zero]

theorem Restyled.slice_eq {start stop : Nat} (hle : start ≤ stop) :
    src'.slice (e.offset src.text start) (e.offset src.text stop) =
      e.restyle (src.slice start stop) := by
  obtain ⟨n, rfl⟩ := Nat.exists_eq_add_of_le hle
  rw [slice, slice, h.text_eq, e.drop_restyle, e.offset_add, Nat.add_sub_cancel_left,
    e.take_restyle, Nat.add_sub_cancel_left]

end Source

end Cfml
