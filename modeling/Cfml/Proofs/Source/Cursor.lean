/-
A cursor is a pointer into the text before its position.

The text is the one with a single line feed for each line ending. A cursor keeps lines and the
places it was at before; seen from outside it is a number: a step backward gives the character below
the number and goes down by one, and to rewind goes up again, though never beyond the start.
`Follows` holds of a cursor and its number, and every move keeps it (`Follows.run`).
-/
import Cfml.BackwardCursor
import Cfml.Proofs.Source.Conversion
import Cfml.Proofs.Source.Lines

set_option autoImplicit false

namespace Cfml

/-! ## Lines before a position -/

namespace Line

/-- The text of lines that end in line feeds. -/
def feedTexts (lines : List (List Char)) : List Char := lines.flatMap fun line => line ++ ['\n']

theorem feedTexts_cons (line : List Char) (lines : List (List Char)) :
    feedTexts (line :: lines) = line ++ '\n' :: feedTexts lines := by
  rw [feedTexts, List.flatMap_cons, List.append_assoc]
  rfl

/-- No line has a line break in its text. -/
theorem isLineBreak_of_mem_split (t : List Char) :
    ∀ l ∈ split t, ∀ c ∈ l.text, isLineBreak c = false := by
  fun_induction split t with
  | case1 => simp
  | case2 rest ih => simpa using ih
  | case3 rest _ ih => simpa using ih
  | case4 rest ih => simpa using ih
  | case5 c rest _ hreturn hfeed ih =>
    obtain ⟨l, lines, hlines⟩ := List.exists_cons_of_ne_nil (split_ne_nil rest)
    have hc : isLineBreak c = false := isLineBreak_eq_false_iff.mpr ⟨hreturn, hfeed⟩
    rw [hlines] at ih ⊢
    obtain ⟨hl, hrest⟩ := List.forall_mem_cons.mp ih
    rw [consFirst]
    exact List.forall_mem_cons.mpr ⟨List.forall_mem_cons.mpr ⟨hc, hl⟩, hrest⟩

/-- A line ending put before the text puts a line feed before what stands before a character. -/
theorem unifyLineEnds_take_ending {ending rest : List Char}
    (hunify : ∀ o, unifyLineEnds (ending ++ rest.take o) = '\n' :: unifyLineEnds (rest.take o))
    (ih : ∀ {n : Nat} {l : Line}, (split rest)[n]? = some l → ∀ character,
      unifyLineEnds (rest.take (offset (split rest) n character)) =
        feedTexts (((split rest).take n).map text) ++ l.text.take character)
    {n : Nat} {l : Line} (hline : ((⟨[], ending⟩ : Line) :: split rest)[n]? = some l)
    (character : Nat) :
    unifyLineEnds ((ending ++ rest).take (offset (⟨[], ending⟩ :: split rest) n character)) =
      feedTexts (((⟨[], ending⟩ :: split rest).take n).map text) ++ l.text.take character := by
  cases n with
  | zero =>
    obtain rfl := Option.some.inj hline
    simp [offset, feedTexts, unifyLineEnds]
  | succ n =>
    have hwidth : width ⟨[], ending⟩ = ending.length := Nat.zero_add _
    rw [offset, hwidth, List.take_length_add_append, hunify, List.take_succ_cons,
      List.map_cons, feedTexts_cons, ih hline]
    rfl

/-- **What stands before a character of a line**: the lines above it and a part of its own. -/
theorem unifyLineEnds_take (t : List Char) {n : Nat} {l : Line} (hline : (split t)[n]? = some l)
    (character : Nat) :
    unifyLineEnds (t.take (offset (split t) n character)) =
      feedTexts (((split t).take n).map text) ++ l.text.take character := by
  fun_induction split t generalizing n l character with
  | case1 =>
    obtain ⟨rfl, rfl⟩ : n = 0 ∧ (⟨[], []⟩ : Line) = l := by
      cases n with
      | zero => exact ⟨rfl, Option.some.inj hline⟩
      | succ n => exact absurd hline (by simp)
    simp [feedTexts, unifyLineEnds]
  | case2 rest ih => exact unifyLineEnds_take_ending (fun _ => rfl) ih hline character
  | case3 rest hnot ih =>
    apply unifyLineEnds_take_ending ?_ ih hline character
    intro o
    apply unifyLineEnds_return
    -- the text is cut short, but what it begins with stays
    intro back (hback : rest.take o = '\n' :: back)
    have hprefix := List.take_prefix o rest
    rw [hback] at hprefix
    obtain ⟨tail, htail⟩ := hprefix
    exact hnot _ htail.symm
  | case4 rest ih =>
    apply unifyLineEnds_take_ending ?_ ih hline character
    intro o
    exact unifyLineEnds_cons (by decide) _
  | case5 c rest _ hreturn _ ih =>
    have hne := split_ne_nil rest
    obtain ⟨first, lines, hlines⟩ := List.exists_cons_of_ne_nil hne
    cases n with
    | zero =>
      rw [hlines] at hline
      obtain rfl := Option.some.inj hline
      cases character with
      | zero => simp [hlines, consFirst, offset, feedTexts, unifyLineEnds]
      | succ character =>
        have hback := ih (n := 0) (by rw [hlines]; rfl) character
        rw [offset_consFirst_succ c hne, List.take_succ_cons, unifyLineEnds_cons hreturn, hback]
        rfl
    | succ n =>
      rw [hlines] at hline
      have hback := ih (n := n + 1) (by rw [hlines]; exact hline) character
      rw [offset_consFirst_line c hne, List.take_succ_cons, unifyLineEnds_cons hreturn, hback,
        hlines, consFirst, List.take_succ_cons, List.take_succ_cons, List.map_cons, List.map_cons,
        feedTexts_cons, feedTexts_cons]
      rfl

/-! ## Places -/

/-- A line that ends in a line feed is cut off. -/
theorem split_append_feed {line : List Char} (h : ∀ c ∈ line, isLineBreak c = false)
    (rest : List Char) : split (line ++ '\n' :: rest) = ⟨line, ['\n']⟩ :: split rest := by
  induction line with
  | nil => rfl
  | cons c line ih =>
    obtain ⟨hc, hline⟩ := List.forall_mem_cons.mp h
    rw [List.cons_append, split_cons hc, ih hline, consFirst]

/-- Where a part of the first line ends. -/
theorem locate_split_left {left : List Char} (h : ∀ c ∈ left, isLineBreak c = false)
    (rest : List Char) : locate (split (left ++ rest)) left.length = (0, left.length) := by
  induction left with
  | nil => exact locate_split_zero rest
  | cons c left ih =>
    obtain ⟨hc, hleft⟩ := List.forall_mem_cons.mp h
    rw [List.cons_append, split_cons hc, List.length_cons,
      locate_consFirst c (split_ne_nil (left ++ rest)), ih hleft]
    rfl

/-- Where lines and a part of the next one end. -/
theorem locate_split_feedTexts (lines : List (List Char)) {left : List Char}
    (hlines : ∀ line ∈ lines, ∀ c ∈ line, isLineBreak c = false)
    (hleft : ∀ c ∈ left, isLineBreak c = false) (rest : List Char) :
    locate (split (feedTexts lines ++ (left ++ rest))) ((feedTexts lines).length + left.length) =
      (lines.length, left.length) := by
  induction lines with
  | nil =>
    rw [feedTexts, List.flatMap_nil, List.nil_append, List.length_nil, Nat.zero_add]
    exact locate_split_left hleft rest
  | cons line lines ih =>
    obtain ⟨hline, hlines⟩ := List.forall_mem_cons.mp hlines
    have hwidth : width ⟨line, ['\n']⟩ = line.length + 1 := rfl
    rw [feedTexts_cons, List.append_assoc, List.cons_append, split_append_feed hline,
      locate_cons _ (split_ne_nil _), hwidth, List.length_append, List.length_cons,
      if_neg (by omega)]
    rw [show line.length + ((feedTexts lines).length + 1) + left.length - (line.length + 1) =
      (feedTexts lines).length + left.length by omega, ih hlines, List.length_cons]

end Line

namespace BackwardCursor

/-! ## Places -/

/-- The text before a place, with a line feed for each line ending. -/
def Place.before (place : Place) : List Char :=
  Line.feedTexts place.above.reverse ++ place.left.reverse

/-- The place has no line break in its lines, as those of a source. -/
structure Place.IsClean (place : Place) : Prop where
  above : ∀ line ∈ place.above, ∀ c ∈ line, isLineBreak c = false
  left : ∀ c ∈ place.left, isLineBreak c = false

/-- The place stands in the text before its character with the number `i`. -/
structure Place.StandsAt (text : List Char) (i : Nat) (place : Place) : Prop where
  le_length : i ≤ text.length
  before_eq : place.before = text.take i
  clean : place.IsClean

/-! ## Steps -/

section Steps

variable {cursor next : BackwardCursor} {c : Char}

theorem before_of_next?_eq_none (h : cursor.next? = none) : cursor.place.before = [] := by
  obtain ⟨⟨above, left⟩, history⟩ := cursor
  cases left with
  | cons c left => cases h
  | nil =>
    cases above with
    | cons line above => cases h
    | nil => rfl

/-- **What a step can do**: it goes to the left, or to the end of the line above. -/
theorem next?_cases (h : cursor.next? = some (c, next)) :
    next.history = cursor.place :: cursor.history ∧
      ((cursor.place.left = c :: next.place.left ∧ cursor.place.above = next.place.above) ∨
        (cursor.place.left = [] ∧ c = '\n' ∧
          cursor.place.above = next.place.left.reverse :: next.place.above)) := by
  obtain ⟨⟨above, left⟩, history⟩ := cursor
  cases left with
  | cons d left =>
    cases h
    exact ⟨rfl, Or.inl ⟨rfl, rfl⟩⟩
  | nil =>
    cases above with
    | cons line above =>
      cases h
      exact ⟨rfl, Or.inr ⟨rfl, rfl, by rw [List.reverse_reverse]⟩⟩
    | nil => cases h

/-- It gives the last character before the place. -/
theorem before_of_next? (h : cursor.next? = some (c, next)) :
    cursor.place.before = next.place.before ++ [c] := by
  rcases (next?_cases h).2 with ⟨hleft, habove⟩ | ⟨hleft, rfl, habove⟩
  · rw [Place.before, Place.before, hleft, habove, List.reverse_cons, List.append_assoc]
  · rw [Place.before, Place.before, hleft, habove]
    simp [Line.feedTexts]

theorem Place.IsClean.next? (hclean : cursor.place.IsClean) (h : cursor.next? = some (c, next)) :
    next.place.IsClean := by
  obtain ⟨habove, hleft⟩ := hclean
  rcases (next?_cases h).2 with ⟨hleft', habove'⟩ | ⟨-, -, habove'⟩
  · rw [hleft'] at hleft
    rw [habove'] at habove
    exact ⟨habove, (List.forall_mem_cons.mp hleft).2⟩
  · rw [habove'] at habove
    obtain ⟨hline, habove⟩ := List.forall_mem_cons.mp habove
    exact ⟨habove, fun d hd => hline d (List.mem_reverse.mpr hd)⟩

/-- At a number above zero a step gives the character below it. -/
theorem Place.StandsAt.next? {text : List Char} {i : Nat} (hplace : cursor.place.StandsAt text i)
    (h : cursor.next? = some (c, next)) :
    ∃ j, i = j + 1 ∧ text[j]? = some c ∧ next.place.StandsAt text j := by
  have hbefore := hplace.before_eq
  have hle := hplace.le_length
  rw [before_of_next? h] at hbefore
  cases i with
  | zero => simp at hbefore
  | succ j =>
    have hlt : j < text.length := hle
    rw [List.take_succ_eq_append_getElem hlt] at hbefore
    obtain ⟨hfront, hc⟩ := List.append_inj' hbefore rfl
    have hget : text[j]? = some c := by
      rw [List.getElem?_eq_getElem hlt, (List.cons_eq_cons.mp hc).1]
    exact ⟨j, rfl, hget, Nat.le_of_lt hlt, hfront, hplace.clean.next? h⟩

/-- No step is left at zero alone. -/
theorem Place.StandsAt.eq_zero {text : List Char} {i : Nat} (hplace : cursor.place.StandsAt text i)
    (h : cursor.next? = none) : i = 0 := by
  have hbefore := hplace.before_eq
  have hle := hplace.le_length
  rw [before_of_next?_eq_none h] at hbefore
  have hlength := congrArg List.length hbefore
  rw [List.length_take, List.length_nil] at hlength
  omega

end Steps

/-! ## Moves -/

/-- What moves a cursor. -/
inductive Move where
  | next
  | rewind (count : Nat)

/-- Moves the cursor. A step gives the character, or nothing at the start. -/
def move (cursor : BackwardCursor) : Move → Option Char × BackwardCursor
  | .next =>
    match cursor.next? with
    | none => (none, cursor)
    | some (c, next) => (some c, next)
  | .rewind count => (none, cursor.rewind count)

/-- Moves a number that points into a text, between two of its characters. -/
def movePointer (text : List Char) (i : Nat) : Move → Option Char × Nat
  | .next =>
    match i with
    | 0 => (none, 0)
    | i + 1 => (text[i]?, i)
  | .rewind count => (none, min text.length (i + count))

/-- The answers to one move after the other, and where they lead. -/
def run {σ : Type} (step : σ → Move → Option Char × σ) (state : σ) :
    List Move → List (Option Char) × σ
  | [] => ([], state)
  | m :: rest =>
    let (answer, next) := step state m
    let (answers, last) := run step next rest
    (answer :: answers, last)

/-- The place stands at a number, and the ones before it at those above up to the end of the
text. -/
inductive Follows (text : List Char) : Nat → Place → List Place → Prop where
  | start {place : Place} (h : place.StandsAt text text.length) : Follows text text.length place []
  | step {i : Nat} {place previous : Place} {history : List Place}
      (hprevious : Follows text (i + 1) previous history) (h : place.StandsAt text i) :
      Follows text i place (previous :: history)

section Moves

variable {text : List Char} {i : Nat} {cursor : BackwardCursor}

theorem Follows.standsAt {place : Place} {history : List Place}
    (h : Follows text i place history) : place.StandsAt text i := by
  cases h with
  | start h => exact h
  | step _ h => exact h

/-- To rewind is to go up again, though not beyond the start. -/
theorem Follows.rewind (h : Follows text i cursor.place cursor.history) (count : Nat) :
    Follows text (min text.length (i + count)) (cursor.rewind count).place
      (cursor.rewind count).history := by
  induction count generalizing i cursor with
  | zero =>
    rw [Nat.add_zero, Nat.min_eq_right h.standsAt.le_length]
    exact h
  | succ count ih =>
    obtain ⟨place, history⟩ := cursor
    cases h with
    | start h =>
      rw [Nat.min_eq_left (Nat.le_add_right _ _)]
      exact .start h
    | step hprevious _ =>
      have hback := @ih _ ⟨_, _⟩ hprevious
      rwa [Nat.add_right_comm] at hback

/-- **Every move keeps the cursor and the pointer together**, and both answer the same. -/
theorem Follows.move (h : Follows text i cursor.place cursor.history) (m : Move) :
    (cursor.move m).1 = (movePointer text i m).1 ∧
      Follows text (movePointer text i m).2 (cursor.move m).2.place (cursor.move m).2.history := by
  cases m with
  | rewind count => exact ⟨rfl, h.rewind count⟩
  | next =>
    rw [BackwardCursor.move]
    cases hnext : cursor.next? with
    | none =>
      obtain rfl := h.standsAt.eq_zero hnext
      exact ⟨rfl, h⟩
    | some found =>
      obtain ⟨c, next⟩ := found
      obtain ⟨j, rfl, hget, hplace⟩ := h.standsAt.next? hnext
      refine ⟨hget.symm, ?_⟩
      rw [(next?_cases hnext).1]
      exact .step h hplace

theorem Follows.run (h : Follows text i cursor.place cursor.history) (moves : List Move) :
    (run BackwardCursor.move cursor moves).1 = (run (movePointer text) i moves).1 ∧
      Follows text (run (movePointer text) i moves).2
        (run BackwardCursor.move cursor moves).2.place
        (run BackwardCursor.move cursor moves).2.history := by
  induction moves generalizing i cursor with
  | nil => exact ⟨rfl, h⟩
  | cons m rest ih =>
    obtain ⟨hanswer, hnext⟩ := h.move m
    obtain ⟨hanswers, hlast⟩ := ih hnext
    exact ⟨List.cons_eq_cons.mpr ⟨hanswer, hanswers⟩, hlast⟩

end Moves

/-! ## What is seen of a place -/

theorem hasNext_eq_isSome (cursor : BackwardCursor) : cursor.hasNext = cursor.next?.isSome := by
  obtain ⟨⟨above, left⟩, history⟩ := cursor
  cases left with
  | cons c left => rfl
  | nil => cases above <;> rfl

section Views

variable {text : List Char} {i : Nat} {cursor : BackwardCursor}

theorem Place.StandsAt.hasNext_eq (h : cursor.place.StandsAt text i) :
    cursor.hasNext = decide (0 < i) := by
  rw [hasNext_eq_isSome]
  cases hnext : cursor.next? with
  | none =>
    obtain rfl := h.eq_zero hnext
    rfl
  | some found =>
    obtain ⟨c, next⟩ := found
    obtain ⟨j, rfl, -, -⟩ := h.next? hnext
    exact (decide_eq_true (Nat.succ_pos j)).symm

theorem Place.StandsAt.position_eq (h : cursor.place.StandsAt text i) :
    cursor.position = (Source.ofText text none).position i := by
  have hlength := congrArg List.length h.before_eq
  have htext : text = Line.feedTexts cursor.place.above.reverse ++
      (cursor.place.left.reverse ++ text.drop i) := by
    rw [← List.append_assoc]
    conv_lhs => rw [← List.take_append_drop i text, ← h.before_eq]
    rfl
  rw [Place.before, List.length_append, List.length_take, Nat.min_eq_left h.le_length] at hlength
  have hlocate := Line.locate_split_feedTexts cursor.place.above.reverse
    (fun line hline => h.clean.above line (List.mem_reverse.mp hline))
    (fun c hc => h.clean.left c (List.mem_reverse.mp hc)) (text.drop i)
  rw [← htext, hlength, List.length_reverse, List.length_reverse] at hlocate
  have hlines : (Source.ofText text none).lines = Line.split text := rfl
  rw [Source.position, hlines, hlocate]
  rfl

/-- **What is left to read is the text before the place**, read backward. -/
theorem map_steps (cursor : BackwardCursor) :
    cursor.steps.map Prod.fst = cursor.place.before.reverse := by
  fun_induction steps cursor with
  | case1 cursor hnext =>
    rw [before_of_next?_eq_none hnext]
    rfl
  | case2 cursor c next hnext ih =>
    rw [List.map_cons, ih, before_of_next? hnext, List.reverse_append]
    rfl

end Views

/-! ## The start -/

/-- A cursor at a line that exists has the lines above it and the part of its own line that the
position leaves of it. -/
theorem atPosition_place {src : Source} {p : Position} {l : Line}
    (hline : src.lines[p.line.toNat]? = some l) :
    (atPosition src p).place =
      ⟨((src.lines.take p.line.toNat).map Line.text).reverse,
        (l.text.take p.character.toNat).reverse⟩ := by
  have hlt : p.line.toNat < src.lines.length := (List.getElem?_eq_some_iff.mp hline).1
  have hmin : min p.line.toNat (src.lineCount - 1) = p.line.toNat := by
    rw [Source.lineCount]
    omega
  have htexts : (src.lines.take (p.line.toNat + 1)).reverse.map Line.text =
      l.text :: ((src.lines.take p.line.toNat).map Line.text).reverse := by
    rw [List.take_add_one, hline, ← List.map_reverse, List.reverse_append]
    rfl
  rw [atPosition, hmin, htexts]
  rfl

/-- A cursor starts out with the text before its position. -/
theorem standsAt_atPosition (src : Source) {p : Position} (hstart : 0 ≤ p.line)
    (hstop : p.line < src.lineCount) :
    (atPosition src p).place.StandsAt (unifyLineEnds (src.text.take (src.offsetAt p)))
      (unifyLineEnds (src.text.take (src.offsetAt p))).length := by
  have hlt : p.line.toNat < src.lines.length := by
    rw [Source.lineCount] at hstop
    omega
  obtain ⟨l, hline⟩ : ∃ l, src.lines[p.line.toNat]? = some l :=
    ⟨_, List.getElem?_eq_getElem hlt⟩
  have hplace := atPosition_place hline
  have hclean : ∀ l ∈ src.lines, ∀ c ∈ l.text, isLineBreak c = false := by
    rw [src.lines_eq]
    exact Line.isLineBreak_of_mem_split src.text
  have hbefore := hline
  rw [src.lines_eq] at hbefore
  replace hbefore := Line.unifyLineEnds_take src.text hbefore p.character.toNat
  rw [← src.lines_eq] at hbefore
  have hoffset : src.offsetAt p = Line.offset src.lines p.line.toNat p.character.toNat :=
    if_neg (by omega)
  refine ⟨Nat.le_refl _, ?_, ?_⟩
  · rw [List.take_length, hoffset, hbefore, hplace, Place.before, List.reverse_reverse,
      List.reverse_reverse]
  · rw [hplace]
    constructor
    · intro line hmem
      obtain ⟨m, hm, rfl⟩ := List.mem_map.mp (List.mem_reverse.mp hmem)
      exact hclean m (List.mem_of_mem_take hm)
    · intro c hc
      exact hclean l (List.mem_of_getElem? hline) c (List.mem_of_mem_take (List.mem_reverse.mp hc))

/-- **A cursor is a pointer into the text before its position**, with a line feed for each line
ending. Whatever the moves, it answers as the pointer does, has a next character when that is above
zero, is at the position of that in the text, and reads what is below it. -/
theorem run_eq_movePointer (src : Source) {p : Position} (hstart : 0 ≤ p.line)
    (hstop : p.line < src.lineCount) (moves : List Move) :
    let text := unifyLineEnds (src.text.take (src.offsetAt p))
    let (answers, cursor) := run move (atPosition src p) moves
    let (answers', i) := run (movePointer text) text.length moves
    answers = answers' ∧ cursor.hasNext = decide (0 < i) ∧
      cursor.position = (Source.ofText text none).position i ∧
      cursor.takeAll.1 = (text.take i).reverse := by
  intro text
  have hfollows : Follows text text.length (atPosition src p).place (atPosition src p).history :=
    .start (standsAt_atPosition src hstart hstop)
  obtain ⟨hanswers, hlast⟩ := hfollows.run moves
  have hplace := hlast.standsAt
  refine ⟨hanswers, hplace.hasNext_eq, hplace.position_eq, ?_⟩
  rw [takeAll, map_steps, hplace.before_eq]

/-- At the end of the second of three lines, which end in different ways: three steps back, all of
them and more taken back, and the first one again. -/
theorem run_eq_movePointer_second_line :
    let src := Source.ofText ['a', 'b', '\r', '\n', 'c', '\r', 'd'] none
    let p : Position := ⟨1, 9⟩
    let moves := [Move.next, .next, .next, .rewind 5, .next]
    0 ≤ p.line ∧ p.line < src.lineCount ∧
      (run move (atPosition src p) moves).1 = [some 'c', some '\n', some 'b', none, some 'c'] ∧
      (run move (atPosition src p) moves).2.position = ⟨1, 0⟩ := by
  intro src p moves
  have hstart : 0 ≤ p.line := by decide
  have hstop : p.line < src.lineCount := by decide
  obtain ⟨hanswers, -, hposition, -⟩ := run_eq_movePointer src hstart hstop moves
  exact ⟨hstart, hstop, hanswers.trans (by decide), hposition.trans (by decide)⟩

end BackwardCursor

end Cfml
