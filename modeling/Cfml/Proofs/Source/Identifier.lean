/-
The identifier before a position.

Three readers have to agree on one word: the cursor walks back over flattened lines to the last
character that is no white space, the search for words goes forward in the line of that character,
and what it finds has to be an identifier as a whole. They agree because the word of a character is
decided by the text alone. It is the run of identifier characters around it (`IsRun`), no line break
is one of these, and so the run is the same in the text and in the line (`Source.wordAt?_position`).

`Source.StandsBefore` says in the words of the rule what stands before a position, and the three
readers together find just that (`Source.identifierBefore?_spec`).
-/
import Cfml.Proofs.Source.Lines
import Cfml.Proofs.Source.Steps
import Cfml.Proofs.Text.Blank

set_option autoImplicit false

namespace Cfml

/-! ## Runs of identifier characters -/

/-- The word is a run of identifier characters, and no further one stands beside it. -/
structure IsRun (before word behind : List Char) : Prop where
  part : ∀ d ∈ word, isIdentifierPart d = true
  before : ∀ d ∈ before.getLast?, isIdentifierPart d = false
  behind : ∀ d ∈ behind.head?, isIdentifierPart d = false

/-- No line break is part of an identifier. -/
theorem isLineBreak_of_isIdentifierPart {c : Char} (h : isIdentifierPart c = true) :
    isLineBreak c = false := by
  rw [isLineBreak_eq_false_iff]
  constructor
  · rintro rfl
    exact absurd h (by decide)
  · rintro rfl
    exact absurd h (by decide)

/-- Each identifier character stands in such a run. -/
theorem exists_isRun {c : Char} (hc : isIdentifierPart c = true) (front back : List Char) :
    ∃ before word behind, front ++ c :: back = before ++ (word ++ behind) ∧
      IsRun before word behind ∧ before.length ≤ front.length ∧
      front.length < before.length + word.length := by
  have hfront : front = (front.reverse.dropWhile isIdentifierPart).reverse ++
      (front.reverse.takeWhile isIdentifierPart).reverse := by
    rw [← List.reverse_append, List.takeWhile_append_dropWhile, List.reverse_reverse]
  have hback := List.takeWhile_append_dropWhile (p := isIdentifierPart) (l := back)
  have hlength := congrArg List.length hfront
  rw [List.length_append] at hlength
  refine ⟨(front.reverse.dropWhile isIdentifierPart).reverse,
    (front.reverse.takeWhile isIdentifierPart).reverse ++ c :: back.takeWhile isIdentifierPart,
    back.dropWhile isIdentifierPart, ?_, ⟨?_, ?_, ?_⟩, by omega, ?_⟩
  · conv_lhs => rw [hfront, ← hback]
    simp only [List.append_assoc, List.cons_append]
  · intro d hd
    rcases List.mem_append.mp hd with hd | hd
    · exact List.mem_takeWhile_imp (List.mem_reverse.mp hd)
    · rcases List.mem_cons.mp hd with rfl | hd
      · exact hc
      · exact List.mem_takeWhile_imp hd
  · intro d hd
    rw [List.getLast?_reverse] at hd
    have hnot := List.head?_dropWhile_not isIdentifierPart front.reverse
    rw [Option.mem_def.mp hd] at hnot
    exact hnot
  · intro d hd
    have hnot := List.head?_dropWhile_not isIdentifierPart back
    rw [Option.mem_def.mp hd] at hnot
    exact hnot
  · rw [List.length_append, List.length_cons]
    omega

/-! ## The search in a line -/

namespace Source

variable {before word behind rest : List Char} {start run : Nat} {character : Int}

/-- A run is found at its end, if the character lies in it or touches it. -/
theorem wordAround_run (hpart : ∀ d ∈ word, isIdentifierPart d = true)
    (hbehind : ∀ d ∈ behind.head?, isIdentifierPart d = false) (hpos : 0 < run + word.length)
    (hstart : start ≤ character) (hstop : character ≤ (start + run + word.length : Nat)) :
    wordAround character start run (word ++ behind) = some (start, run + word.length) := by
  induction word generalizing run with
  | nil =>
    have hfound : (decide (0 < run) && decide ((start : Int) ≤ character) &&
        decide (character ≤ (start + run : Nat))) = true := by
      rw [List.length_nil, Nat.add_zero] at hpos hstop
      rw [decide_eq_true hpos, decide_eq_true hstart, decide_eq_true hstop]
      rfl
    rw [List.nil_append, List.length_nil, Nat.add_zero]
    cases behind with
    | nil => rw [wordAround, if_pos hfound]
    | cons d behind =>
      have hd : ¬ isIdentifierPart d = true := by simp [hbehind d rfl]
      rw [wordAround, if_neg hd, if_pos hfound]
  | cons d word ih =>
    obtain ⟨hd, hpart⟩ := List.forall_mem_cons.mp hpart
    rw [List.cons_append, wordAround, if_pos hd, List.length_cons]
    rw [List.length_cons] at hstop
    rw [ih hpart (by omega) (by omega), Nat.add_right_comm, Nat.add_assoc]

/-- What comes to an end before the character is passed over. -/
theorem wordAround_before (hlast : ∀ d ∈ before.getLast?, isIdentifierPart d = false)
    (hrun : before = [] → run = 0) (hstart : (start + run + before.length : Nat) ≤ character) :
    wordAround character start run (before ++ rest)
      = wordAround character (start + run + before.length) 0 rest := by
  induction before generalizing start run with
  | nil => simp [hrun rfl]
  | cons d before ih =>
    rw [List.length_cons] at hstart
    rw [List.cons_append, wordAround, List.length_cons]
    have hlast' : ∀ d ∈ before.getLast?, isIdentifierPart d = false := by
      intro e he
      apply hlast e
      cases before with
      | nil => exact absurd he (by simp)
      | cons f before => rwa [List.getLast?_cons_cons]
    split
    · next hd =>
      have hmore : before = [] → run + 1 = 0 := by
        rintro rfl
        exact absurd hd (by simp [hlast d rfl])
      rw [ih hlast' hmore (by omega)]
      congr 1
      omega
    · have hshort : (decide (0 < run) && decide ((start : Int) ≤ character) &&
          decide (character ≤ (start + run : Nat))) = false := by
        have hbehind : ¬ character ≤ (start + run : Nat) := by omega
        rw [decide_eq_false hbehind, Bool.and_false]
      rw [hshort, if_neg Bool.false_ne_true, ih hlast' (fun _ => rfl) (by omega)]
      congr 1
      omega

/-- **A run is found in its line** from each of its characters. -/
theorem wordAround_eq (h : IsRun before word behind) (hstart : before.length ≤ character)
    (hstop : character < (before.length + word.length : Nat)) :
    wordAround character 0 0 (before ++ (word ++ behind)) = some (before.length, word.length) := by
  rw [wordAround_before h.before (fun _ => rfl) (by omega),
    wordAround_run h.part h.behind (by omega) (by omega) (by omega)]
  simp

end Source

/-! ## The line of a word -/

namespace Line

variable {lines : List Line} {n : Nat} {l : Line}

/-- The text of a line among the lines. -/
theorem join_eq_of_getElem? (h : lines[n]? = some l) :
    join lines = join (lines.take n) ++ (l.text ++ (l.ending ++ join (lines.drop (n + 1)))) := by
  obtain ⟨hlt, rfl⟩ := List.getElem?_eq_some_iff.mp h
  conv_lhs => rw [← List.take_append_drop n lines, List.drop_eq_getElem_cons hlt]
  simp only [join, List.flatMap_append, List.flatMap_cons, List.append_assoc]

theorem offset_eq_of_getElem? (h : lines[n]? = some l) (character : Nat) :
    offset lines n character = (join (lines.take n)).length + min character l.text.length := by
  induction lines generalizing n with
  | nil => exact absurd h (by simp)
  | cons m rest ih =>
    cases n with
    | zero =>
      obtain rfl := Option.some.inj h
      rw [offset, List.take_zero, join, List.flatMap_nil, List.length_nil, Nat.zero_add]
    | succ n =>
      rw [offset, ih (by simpa using h), List.take_succ_cons, length_join_cons, Nat.add_assoc]

end Line

namespace Source

variable {src : Source} {before word behind : List Char} {k : Nat}

/-- The positions of the characters of a word without line breaks count up. -/
theorem position_add (htext : src.text = before ++ (word ++ behind))
    (h : ∀ d ∈ word, isLineBreak d = false) {i : Nat} (hi : i ≤ word.length) :
    src.position (before.length + i) = (src.position before.length).shift 0 i := by
  induction i with
  | zero => exact Position.eq_of (Int.add_zero _).symm (Int.add_zero _).symm
  | succ i ih =>
    have hget : src.text[before.length + i]? = some word[i] := by
      rw [htext, List.getElem?_append_right (Nat.le_add_right _ _), Nat.add_sub_cancel_left,
        List.getElem?_append_left hi, List.getElem?_eq_getElem hi]
    rw [← Nat.add_assoc, src.position_succ hget (h _ (List.getElem_mem hi)), ih (Nat.le_of_lt hi)]
    apply Position.eq_of
    · exact Int.add_zero _
    · simp only [Position.shift]
      omega

/-- It is captured in the source. -/
theorem isIn_of_append (htext : src.text = before ++ (word ++ behind))
    (h : ∀ d ∈ word, isLineBreak d = false) (hne : word ≠ []) :
    Capture.IsIn ⟨before.length, word⟩ src := by
  have hends : ∀ d ∈ word, d ≠ '\r' ∧ d ≠ '\n' :=
    fun d hd => isLineBreak_eq_false_iff.mp (h d hd)
  refine ⟨slice_between htext, isBoundary_append htext (Or.inr ?_), ?_⟩
  · intro hfeed
    rw [List.head?_append_of_ne_nil _ hne] at hfeed
    exact (hends _ (List.mem_of_mem_head? hfeed)).2 rfl
  · rw [Capture.stop, ← List.length_append]
    rw [← List.append_assoc] at htext
    apply isBoundary_append htext (Or.inl ?_)
    intro hreturn
    rw [List.getLast?_append_of_ne_nil _ hne] at hreturn
    exact (hends _ (List.mem_of_mem_getLast? hreturn)).1 rfl

/-- It stands in one of the lines, with what is beside it in the text as far as the line goes. -/
theorem exists_line_of_append (htext : src.text = before ++ (word ++ behind))
    (h : ∀ d ∈ word, isLineBreak d = false) (hne : word ≠ []) :
    ∃ (n : Nat) (l : Line) (above left right below : List Char), src.lines[n]? = some l ∧
      l.text = left ++ (word ++ right) ∧ before = above ++ left ∧ behind = right ++ below ∧
      src.position before.length = ⟨n, left.length⟩ := by
  generalize hplace : Line.locate src.lines before.length = place
  obtain ⟨n, start⟩ := place
  have hposition : src.position before.length = ⟨n, start⟩ := by rw [position, hplace]
  -- the place of its end is in the line, too
  obtain ⟨l, hline, hlength⟩ :
      ∃ l, src.lines[n]? = some l ∧ start + word.length ≤ l.text.length := by
    have hstop := src.holds_position (before.length + word.length)
    rw [position_add htext h (Nat.le_refl _), hposition] at hstop
    simp only [holds, Position.shift, Bool.and_eq_true, Option.any_eq_true, decide_eq_true_iff,
      Int.add_zero, Int.toNat_natCast] at hstop
    obtain ⟨-, l, hline, hlength⟩ := hstop
    exact ⟨l, hline, by omega⟩
  have hoffset : before.length = (Line.join (src.lines.take n)).length + start := by
    have hback : src.offsetAt (src.position before.length) = before.length :=
      (isIn_of_append htext h hne).start.isPlace
    rw [hposition, offsetAt, if_neg (by simp), Int.toNat_natCast, Int.toNat_natCast,
      Line.offset_eq_of_getElem? hline, Nat.min_eq_left (by omega)] at hback
    exact hback.symm
  have hlines := Line.join_eq_of_getElem? hline
  rw [src.lines_eq, Line.join_split, ← src.lines_eq] at hlines
  have hcut : l.text = l.text.take start ++
      ((l.text.drop start).take word.length ++ l.text.drop (start + word.length)) := by
    rw [← List.drop_drop, List.take_append_drop, List.take_append_drop]
  rw [htext, hcut] at hlines
  simp only [List.append_assoc] at hlines
  rw [← List.append_assoc (Line.join _)] at hlines
  obtain ⟨hbefore, hrest⟩ := List.append_inj hlines (by simp; omega)
  obtain ⟨hword, hbehind⟩ := List.append_inj hrest (by simp; omega)
  refine ⟨n, l, _, l.text.take start, l.text.drop (start + word.length), _, hline, ?_, hbefore,
    hbehind, ?_⟩
  · rw [← hword] at hcut
    exact hcut
  · rw [hposition, List.length_take, Nat.min_eq_left (by omega)]

/-- **The word of a character is the run around it**, in the text as in its line. -/
theorem wordAt?_position (htext : src.text = before ++ (word ++ behind))
    (h : IsRun before word behind) (hle : before.length ≤ k)
    (hlt : k < before.length + word.length) :
    src.wordAt? (src.position k) = some (src.spanOf (Capture.stretch ⟨before.length, word⟩)) := by
  have hne : word ≠ [] := by
    rintro rfl
    rw [List.length_nil] at hlt
    omega
  have hclean := fun d hd => isLineBreak_of_isIdentifierPart (h.part d hd)
  obtain ⟨n, l, above, left, right, below, hline, hl, rfl, rfl, hposition⟩ :=
    exists_line_of_append htext hclean hne
  -- the ends of the run are seen in the line, if there is anything beside it
  have hrun : IsRun left word right := by
    refine ⟨h.part, fun d hd => h.before d ?_, fun d hd => h.behind d ?_⟩
    · rw [Option.mem_def] at hd ⊢
      rw [List.getLast?_append, hd]
      rfl
    · rw [Option.mem_def] at hd ⊢
      rw [List.head?_append, hd]
      rfl
  have hcount : ∀ i ≤ word.length, src.position ((above ++ left).length + i)
      = ⟨n, (left.length + i : Nat)⟩ := by
    intro i hi
    rw [position_add htext hclean hi, hposition]
    apply Position.eq_of
    · exact Int.add_zero _
    · exact (Int.natCast_add _ _).symm
  obtain ⟨i, rfl⟩ := Nat.exists_eq_add_of_le hle
  have hnonneg : ¬ (n : Int) < 0 := by omega
  rw [hcount i (by omega), wordAt?]
  simp only [hnonneg, if_false, Int.toNat_natCast, hline]
  rw [hl, wordAround_eq hrun (by omega) (by omega), Option.map_some]
  simp only [Span.inLine, spanOf, Capture.stretch, Capture.stop, hposition,
    hcount word.length (Nat.le_refl _)]

/-! ## The last character that is no white space -/

/-- There is white space alone, or a last character that is none. -/
theorem blank_or_exists_last (text : List Char) : (∀ d ∈ text, isBlank d = true) ∨
    ∃ front c gap, text = front ++ c :: gap ∧ isBlank c = false ∧ ∀ d ∈ gap, isBlank d = true := by
  induction text using List.reverseRecOn with
  | nil => exact Or.inl (by simp)
  | append_singleton text c ih =>
    cases hc : isBlank c with
    | false => exact Or.inr ⟨text, c, [], rfl, hc, by simp⟩
    | true =>
      rcases ih with hblank | ⟨front, d, gap, rfl, hd, hgap⟩
      · refine Or.inl fun e he => ?_
        rcases List.mem_append.mp he with he | he
        · exact hblank e he
        · rwa [List.mem_singleton.mp he]
      · refine Or.inr ⟨front, d, gap ++ [c], by simp, hd, fun e he => ?_⟩
        rcases List.mem_append.mp he with he | he
        · exact hgap e he
        · rwa [List.mem_singleton.mp he]

/-- The text before a position ends with a character that is no white space and a gap of white
space. Line breaks are white space. -/
structure EndsIn (src : Source) (p : Position) (front : List Char) (c : Char) (gap : List Char) :
    Prop where
  take_eq : src.text.take (src.offsetAt p) = front ++ c :: gap
  visible : isBlank c = false
  blank : ∀ d ∈ gap, isBlank d = true

variable {p : Position} {front gap : List Char} {c : Char}

theorem EndsIn.isLineBreak (h : src.EndsIn p front c gap) : isLineBreak c = false := by
  have hc := h.visible
  rw [isLineBreak_eq_false_iff]
  constructor
  · rintro rfl
    exact absurd hc (by decide)
  · rintro rfl
    exact absurd hc (by decide)

theorem EndsIn.text_eq (h : src.EndsIn p front c gap) :
    src.text = front ++ c :: (gap ++ src.text.drop (src.offsetAt p)) := by
  conv_lhs => rw [← List.take_append_drop (src.offsetAt p) src.text, h.take_eq]
  rw [List.append_assoc, List.cons_append]

theorem EndsIn.offsetAt_eq (h : src.EndsIn p front c gap) :
    src.offsetAt p = (front ++ c :: gap).length := by
  have hle : src.offsetAt p ≤ src.text.length := src.offsetAt_le_length p
  rw [← h.take_eq, List.length_take, Nat.min_eq_left hle]

/-- Behind the character there is the gap. -/
theorem EndsIn.mem_gap (h : src.EndsIn p front c gap) {a : Nat} (ha : front.length < a) {d : Char}
    (hd : d ∈ src.slice a (src.offsetAt p)) : d ∈ gap := by
  obtain ⟨i, rfl⟩ := Nat.exists_eq_add_of_lt ha
  have hfront : front.length + i + 1 = (front ++ [c]).length + i := by
    rw [List.length_append, List.length_singleton]
    omega
  rw [slice, ← List.drop_take, h.take_eq, List.append_cons, hfront, List.drop_length_add_append]
    at hd
  exact List.mem_of_mem_drop hd

section Cursor

variable (hstart : 0 ≤ p.line) (hstop : p.line < src.lineCount)
include hstart hstop

/-- A cursor goes back to it, and is then at its position. -/
theorem find?_steps (h : src.EndsIn p front c gap) : ∃ cursor : BackwardCursor,
    (BackwardCursor.atPosition src p).steps.find? (fun step => !isBlank step.1)
      = some (c, cursor) ∧ cursor.position = src.position front.length := by
  obtain ⟨hreturn, hfeed⟩ := isLineBreak_eq_false_iff.mp h.isLineBreak
  have hplace := BackwardCursor.standsAt_atPosition src hstart hstop
  have hbefore := hplace.before_eq
  rw [List.take_length, h.take_eq, unifyLineEnds_append front (by simpa using hfeed),
    unifyLineEnds_cons hreturn, List.append_cons] at hbefore
  -- the gap is passed over, and the next step gives the character
  obtain ⟨passed, last, hsteps, hpassed, hlast, hclean⟩ :=
    BackwardCursor.exists_steps hplace.clean hbefore
  obtain ⟨cursor, hstep, hfront, hclean⟩ := BackwardCursor.exists_step hclean hlast
  have hblank : ∀ step ∈ passed, ¬ (!isBlank step.1) = true := by
    intro step hstep
    have hmem : step.1 ∈ unifyLineEnds gap :=
      List.mem_reverse.mp (hpassed ▸ List.mem_map_of_mem hstep)
    simp [isBlank_of_mem_unifyLineEnds h.blank _ hmem]
  refine ⟨cursor, ?_, ?_⟩
  · rw [hsteps, hstep, List.find?_append, List.find?_eq_none.mpr hblank, Option.none_or,
      List.find?_cons_of_pos (by simp [h.visible])]
  · have hget : src.text[front.length]? = some c := by
      rw [h.text_eq, List.getElem?_append_right (Nat.le_refl _), Nat.sub_self]
      rfl
    apply BackwardCursor.position_eq_of_before (isBoundary_of_getElem? hget hfeed) hclean
    rw [hfront, h.text_eq, List.take_left]

/-- Before a position with white space alone before it a cursor finds nothing. -/
theorem find?_steps_eq_none
    (h : ∀ d ∈ src.text.take (src.offsetAt p), isBlank d = true) :
    (BackwardCursor.atPosition src p).steps.find? (fun step => !isBlank step.1) = none := by
  have hplace := BackwardCursor.standsAt_atPosition src hstart hstop
  rw [List.find?_eq_none]
  intro step hstep
  have hmem : step.1 ∈ (BackwardCursor.atPosition src p).place.before := by
    rw [← List.mem_reverse, ← BackwardCursor.map_steps]
    exact List.mem_map_of_mem hstep
  rw [hplace.before_eq, List.take_length] at hmem
  simp [isBlank_of_mem_unifyLineEnds h _ hmem]

end Cursor

/-! ## What stands before a position -/

/-- A word is the run around the last character before a position that is no white space. -/
structure WordBefore (src : Source) (p : Position) (before word behind : List Char) : Prop where
  text_eq : src.text = before ++ (word ++ behind)
  isRun : IsRun before word behind
  around : ∃ front c gap, src.EndsIn p front c gap ∧ before.length ≤ front.length ∧
    front.length < before.length + word.length

/-- **The rule of what stands before a position**: the last word before it if that is an identifier,
and otherwise nothing. -/
inductive StandsBefore (src : Source) (p : Position) : Option Span → Prop
  /-- There is nothing but white space. -/
  | blank (h : ∀ d ∈ src.text.take (src.offsetAt p), isBlank d = true) : StandsBefore src p none
  /-- The last character that is no white space is of no word. -/
  | noWord {front gap : List Char} {c : Char} (h : src.EndsIn p front c gap)
      (hc : isIdentifierPart c = false) : StandsBefore src p none
  /-- The last word begins with a character that no identifier begins with. -/
  | noIdentifier {before rest behind : List Char} {first : Char}
      (h : src.WordBefore p before (first :: rest) behind)
      (hfirst : isIdentifierStart first = false) : StandsBefore src p none
  /-- The last word is an identifier. -/
  | identifier {before rest behind : List Char} {first : Char}
      (h : src.WordBefore p before (first :: rest) behind)
      (hfirst : isIdentifierStart first = true) :
      StandsBefore src p (some (src.spanOf (Capture.stretch ⟨before.length, first :: rest⟩)))

/-- The rule has a case for every position. -/
theorem exists_standsBefore (src : Source) (p : Position) :
    ∃ answer, src.StandsBefore p answer := by
  rcases blank_or_exists_last (src.text.take (src.offsetAt p)) with hblank | hlast
  · exact ⟨none, .blank hblank⟩
  · obtain ⟨front, c, gap, htake, hvisible, hgap⟩ := hlast
    have hends : src.EndsIn p front c gap := ⟨htake, hvisible, hgap⟩
    cases hc : isIdentifierPart c with
    | false => exact ⟨none, .noWord hends hc⟩
    | true =>
      obtain ⟨before, word, behind, htext, hrun, hle, hlt⟩ :=
        exists_isRun hc front (gap ++ src.text.drop (src.offsetAt p))
      cases word with
      | nil =>
        rw [List.length_nil] at hlt
        omega
      | cons first rest =>
        have hword : src.WordBefore p before (first :: rest) behind :=
          ⟨hends.text_eq.trans htext, hrun, front, c, gap, hends, hle, hlt⟩
        cases hfirst : isIdentifierStart first with
        | false => exact ⟨none, .noIdentifier hword hfirst⟩
        | true => exact ⟨_, .identifier hword hfirst⟩

theorem WordBefore.clean (h : src.WordBefore p before word behind) :
    ∀ d ∈ word, isLineBreak d = false :=
  fun d hd => isLineBreak_of_isIdentifierPart (h.isRun.part d hd)

/-- It is captured where it stands. -/
theorem WordBefore.isIn (h : src.WordBefore p before word behind) (hne : word ≠ []) :
    Capture.IsIn ⟨before.length, word⟩ src := isIn_of_append h.text_eq h.clean hne

/-- It stands on one line. -/
theorem WordBefore.line_eq (h : src.WordBefore p before word behind) :
    let span := src.spanOf (Capture.stretch ⟨before.length, word⟩)
    span.start.line = span.stop.line := by
  have hstop := position_add h.text_eq h.clean (Nat.le_refl _)
  intro span
  calc span.start.line = ((src.position before.length).shift 0 word.length).line :=
        (Int.add_zero _).symm
    _ = span.stop.line := (congrArg Position.line hstop).symm

/-- It begins before the position. -/
theorem WordBefore.start_lt (h : src.WordBefore p before word behind) (hne : word ≠ []) :
    src.offsetAt (src.spanOf (Capture.stretch ⟨before.length, word⟩)).start < src.offsetAt p := by
  have hstart : src.offsetAt (src.spanOf (Capture.stretch ⟨before.length, word⟩)).start
      = before.length := (h.isIn hne).start.isPlace
  obtain ⟨front, c, gap, hends, hle, -⟩ := h.around
  rw [hstart, hends.offsetAt_eq, List.length_append, List.length_cons]
  omega

/-- Between it and the position is the gap, or a part of that. -/
theorem WordBefore.isBlank_behind (h : src.WordBefore p before word behind) (hne : word ≠ []) :
    let span := src.spanOf (Capture.stretch ⟨before.length, word⟩)
    ∀ d ∈ src.slice (src.offsetAt span.stop) (src.offsetAt p), isBlank d = true := by
  intro span d hd
  have hstop : src.offsetAt span.stop = before.length + word.length := (h.isIn hne).stop.isPlace
  obtain ⟨front, c, gap, hends, -, hlt⟩ := h.around
  rw [hstop] at hd
  exact hends.blank d (hends.mem_gap hlt hd)

theorem WordBefore.identifierBefore? {first : Char} {rest : List Char}
    (h : src.WordBefore p before (first :: rest) behind) (hstart : 0 ≤ p.line)
    (hstop : p.line < src.lineCount) : src.identifierBefore? p =
      if isIdentifierStart first then
        some (src.spanOf (Capture.stretch ⟨before.length, first :: rest⟩)) else none := by
  obtain ⟨front, c, gap, hends, hle, hlt⟩ := h.around
  obtain ⟨cursor, hfound, hposition⟩ := find?_steps hstart hstop hends
  have hc : isIdentifierPart c = true := by
    have hget : src.text[front.length]? = some c := by
      rw [hends.text_eq, List.getElem?_append_right (Nat.le_refl _), Nat.sub_self]
      rfl
    rw [h.text_eq, List.getElem?_append_right hle, List.getElem?_append_left (by omega)] at hget
    exact h.isRun.part c (List.mem_of_getElem? hget)
  have hword := wordAt?_position h.text_eq h.isRun hle hlt
  have hrest : rest.all isIdentifierPart = true :=
    List.all_eq_true.mpr fun d hd => h.isRun.part d (List.mem_cons_of_mem first hd)
  rw [Source.identifierBefore?, hfound]
  simp only [Option.bind_eq_bind, Option.bind_some, hc, if_true, hposition, hword,
    (h.isIn (List.cons_ne_nil first rest)).textOf_spanOf, isIdentifier, hrest, Bool.and_true]

theorem StandsBefore.identifierBefore? {answer : Option Span} (h : src.StandsBefore p answer)
    (hstart : 0 ≤ p.line) (hstop : p.line < src.lineCount) :
    src.identifierBefore? p = answer := by
  cases h with
  | blank h => rw [Source.identifierBefore?, find?_steps_eq_none hstart hstop h]; rfl
  | noWord h hc =>
    obtain ⟨cursor, hfound, -⟩ := find?_steps hstart hstop h
    rw [Source.identifierBefore?, hfound]
    simp [hc]
  | noIdentifier h hfirst => rw [h.identifierBefore? hstart hstop, hfirst]; rfl
  | identifier h hfirst => rw [h.identifierBefore? hstart hstop, hfirst]; rfl

/-- **The identifier before a position is found exactly.** At every line that exists, whatever the
character, the answer is the one of the rule. The text of a span that is found is an identifier and
stands on one line; the span begins before the position, and between its end and the position is
nothing but white space. -/
theorem identifierBefore?_spec (src : Source) (p : Position) (hstart : 0 ≤ p.line)
    (hstop : p.line < src.lineCount) :
    (∀ answer, src.identifierBefore? p = answer ↔ src.StandsBefore p answer) ∧
    ∀ span, src.identifierBefore? p = some span →
      isIdentifier (src.textOf span) = true ∧ span.start.line = span.stop.line ∧
      src.offsetAt span.start < src.offsetAt p ∧
      ∀ d ∈ src.slice (src.offsetAt span.stop) (src.offsetAt p), isBlank d = true := by
  have hfound : ∀ {answer}, src.StandsBefore p answer → src.identifierBefore? p = answer :=
    fun h => h.identifierBefore? hstart hstop
  obtain ⟨answer, hanswer⟩ := src.exists_standsBefore p
  refine ⟨fun other => ⟨?_, hfound⟩, ?_⟩
  · intro heq
    rwa [← heq, hfound hanswer]
  · intro span hspan
    obtain rfl := (hfound hanswer).symm.trans hspan
    cases hanswer with
    | @identifier before rest behind first h hfirst =>
      have hne := List.cons_ne_nil first rest
      refine ⟨?_, h.line_eq, h.start_lt hne, h.isBlank_behind hne⟩
      rw [(h.isIn hne).textOf_spanOf, isIdentifier, hfirst, Bool.true_and, List.all_eq_true]
      exact fun d hd => h.isRun.part d (List.mem_cons_of_mem first hd)

/-- A call whose parenthesis stands two lines below its name. -/
theorem identifierBefore?_spec_call :
    let src := Source.ofText "x = foo\r\n\r\n  (".toList none
    let p : Position := ⟨2, 2⟩
    let span := Span.inLine 0 4 3
    0 ≤ p.line ∧ p.line < src.lineCount ∧ src.identifierBefore? p = some span ∧
      src.StandsBefore p (some span) ∧
      ∀ d ∈ src.slice (src.offsetAt span.stop) (src.offsetAt p), isBlank d = true := by
  intro src p span
  have hstart : 0 ≤ p.line := by decide
  have hstop : p.line < src.lineCount := by decide
  have hfound : src.identifierBefore? p = some span := by decide +kernel
  obtain ⟨hrule, htext⟩ := identifierBefore?_spec src p hstart hstop
  exact ⟨hstart, hstop, hfound, (hrule _).mp hfound, (htext span hfound).2.2.2⟩

/-- A word that begins with a letter beyond ASCII is no identifier. -/
example : (Source.ofText "é1 ".toList none).identifierBefore? ⟨0, 3⟩ = none := by decide +kernel

end Source

end Cfml
