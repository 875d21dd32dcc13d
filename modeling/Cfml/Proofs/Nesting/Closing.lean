/-
Which bracket closes a pair.

Of a text only what belongs to no string literal counts. There the bracket that closes a pair opened
before the text is the closing one in front of which the pair is balanced: as many are closed as
opened, and nowhere more. The search follows this with a number, that of the further pairs which are
open. A character raises it, lowers it or leaves it (`BracketKind.depthBehind?`), and the balance of
a text follows it in the same way (`BracketKind.closes_cons`), so the search finds that bracket and
no other one (`closingIndexFrom_eq_some_iff`).
-/
import Cfml.Proofs.LineEnd.Functions
import Cfml.Proofs.Nesting.WellNested
import Cfml.Proofs.Source.Captures
import Cfml.Proofs.Source.Conversion

set_option autoImplicit false

namespace Cfml

/-! ## What counts of a text -/

/-- The characters of a text that belong to no literal, behind a place with the given state. -/
def StringState.code (string : StringState) : List Char → List Char
  | [] => []
  | c :: rest =>
    let next := string.advance c
    if string.inString || next.inString then next.code rest else c :: next.code rest

namespace BracketKind

/-- The text closes as many pairs as it opens and `depth` more, and no beginning of it closes more
than that. With no depth it is balanced. -/
structure Closes (pair : BracketKind) (depth : Nat) (code : List Char) : Prop where
  count_eq : code.count pair.closing = code.count pair.opening + depth
  count_le : ∀ front, front <+: code →
    front.count pair.closing ≤ front.count pair.opening + depth

/-- The character with the number `k` closes a pair that is open together with `depth` further ones:
it is the closing bracket, belongs to no literal, and what counts of the text before it closes the
further ones. -/
structure ClosesAt (pair : BracketKind) (string : StringState) (depth : Nat) (text : List Char)
    (k : Nat) : Prop where
  isClosing : text[k]? = some pair.closing
  before : (string.after (text.take k)).inString = false
  behind : (string.after (text.take (k + 1))).inString = false
  closes : pair.Closes depth (string.code (text.take k))

variable {pair : BracketKind} {depth k : Nat} {string : StringState} {c : Char}
  {code rest : List Char}

/-! ## One character -/

/-- How many further pairs are open behind a character that counts, unless it closes the pair. -/
def depthBehind? (pair : BracketKind) (depth : Nat) (c : Char) : Option Nat :=
  if c = pair.opening then some (depth + 1)
  else if c = pair.closing then if depth = 0 then none else some (depth - 1)
  else some depth

theorem closing_ne_opening (pair : BracketKind) : pair.closing ≠ pair.opening := by
  cases pair <;> decide

theorem depthBehind?_eq_none_iff :
    pair.depthBehind? depth c = none ↔ c = pair.closing ∧ depth = 0 := by
  rw [depthBehind?]
  by_cases hopening : c = pair.opening
  · simp [hopening, Ne.symm pair.closing_ne_opening]
  · by_cases hclosing : c = pair.closing <;> simp [hopening, hclosing, pair.closing_ne_opening]

theorem closes_nil : pair.Closes depth [] ↔ depth = 0 := by
  constructor
  · rintro ⟨heq, -⟩
    simpa using heq.symm
  · rintro rfl
    exact ⟨rfl, fun front hfront => by simp [List.prefix_nil.mp hfront]⟩

/-- A character keeps the balance if it moves the depth as it moves the counts. -/
theorem closes_cons_iff {depth' : Nat}
    (h : ∀ code : List Char,
      (code.count pair.opening + depth' : Int) - code.count pair.closing
        = (c :: code).count pair.opening + depth - (c :: code).count pair.closing) :
    pair.Closes depth (c :: code) ↔ pair.Closes depth' code := by
  constructor
  · rintro ⟨heq, hle⟩
    refine ⟨?_, fun front hfront => ?_⟩
    · have := h code
      omega
    · have := h front
      have := hle (c :: front) ((List.prefix_cons_inj c).mpr hfront)
      omega
  · rintro ⟨heq, hle⟩
    refine ⟨?_, fun front hfront => ?_⟩
    · have := h code
      omega
    · rcases List.prefix_cons_iff.mp hfront with rfl | ⟨tail, rfl, htail⟩
      · exact Nat.zero_le _
      · have := h tail
        have := hle tail htail
        omega

/-- **The balance of a text follows the number of open pairs**: behind its first character it is
that of the rest, and there is none if that closes the pair. -/
theorem closes_cons :
    pair.Closes depth (c :: code) ↔
      ∃ depth', pair.depthBehind? depth c = some depth' ∧ pair.Closes depth' code := by
  have hne := pair.closing_ne_opening
  rw [depthBehind?]
  by_cases hopening : c = pair.opening
  · subst hopening
    simp only [if_true, Option.some_inj, exists_eq_left']
    apply closes_cons_iff
    intro code
    rw [List.count_cons_self, List.count_cons_of_ne hne.symm]
    omega
  by_cases hclosing : c = pair.closing
  · subst hclosing
    rw [if_neg hne, if_pos rfl]
    by_cases hdepth : depth = 0
    · -- the bracket alone is one too many
      subst hdepth
      simp only [if_true, reduceCtorEq, false_and, exists_false, iff_false]
      rintro ⟨-, hle⟩
      have hone := hle [pair.closing] (List.prefix_append [pair.closing] code)
      simp [hne] at hone
    · simp only [hdepth, if_false, Option.some_inj, exists_eq_left']
      apply closes_cons_iff
      intro code
      rw [List.count_cons_self, List.count_cons_of_ne hne]
      omega
  · simp only [hopening, hclosing, if_false, Option.some_inj, exists_eq_left']
    apply closes_cons_iff
    intro code
    rw [List.count_cons_of_ne hopening, List.count_cons_of_ne hclosing]

/-! ## Places in a text -/

/-- A character of a literal closes nothing. -/
theorem closesAt_cons_of_inString
    (h : (string.inString || (string.advance c).inString) = true) :
    pair.ClosesAt string depth (c :: rest) k ↔
      ∃ j, k = j + 1 ∧ pair.ClosesAt (string.advance c) depth rest j := by
  have hcode : ∀ text, string.code (c :: text) = (string.advance c).code text := by
    intro text
    rw [StringState.code]
    exact if_pos h
  constructor
  · rintro ⟨hget, hbefore, hbehind, hcloses⟩
    cases k with
    | zero =>
      -- then both states around it would be outside
      rw [show string.inString = false from hbefore, show (string.advance c).inString = false from
        hbehind] at h
      exact absurd h (by decide)
    | succ j =>
      rw [List.take_succ_cons, hcode] at hcloses
      exact ⟨j, rfl, hget, hbefore, hbehind, hcloses⟩
  · rintro ⟨j, rfl, hget, hbefore, hbehind, hcloses⟩
    refine ⟨hget, hbefore, hbehind, ?_⟩
    rw [List.take_succ_cons, hcode]
    exact hcloses

/-- Any other character closes the pair, or the search goes on behind it. -/
theorem closesAt_cons (h : (string.inString || (string.advance c).inString) = false) :
    pair.ClosesAt string depth (c :: rest) k ↔
      match pair.depthBehind? depth c with
      | none => k = 0
      | some depth' => ∃ j, k = j + 1 ∧ pair.ClosesAt (string.advance c) depth' rest j := by
  obtain ⟨hhere, hnext⟩ := Bool.or_eq_false_iff.mp h
  have hcode : ∀ text, string.code (c :: text) = c :: (string.advance c).code text := by
    intro text
    rw [StringState.code]
    exact if_neg (by rw [h]; exact Bool.false_ne_true)
  cases k with
  | zero =>
    have hzero : pair.ClosesAt string depth (c :: rest) 0 ↔ c = pair.closing ∧ depth = 0 := by
      constructor
      · rintro ⟨hget, -, -, hcloses⟩
        exact ⟨Option.some.inj hget, closes_nil.mp hcloses⟩
      · rintro ⟨rfl, rfl⟩
        exact ⟨rfl, hhere, hnext, closes_nil.mpr rfl⟩
    rw [hzero, ← depthBehind?_eq_none_iff]
    cases pair.depthBehind? depth c <;> simp
  | succ j =>
    have hsucc : pair.ClosesAt string depth (c :: rest) (j + 1) ↔
        ∃ depth', pair.depthBehind? depth c = some depth' ∧
          pair.ClosesAt (string.advance c) depth' rest j := by
      constructor
      · rintro ⟨hget, hbefore, hbehind, hcloses⟩
        rw [List.take_succ_cons, hcode] at hcloses
        obtain ⟨depth', hdepth, hcloses⟩ := closes_cons.mp hcloses
        exact ⟨depth', hdepth, hget, hbefore, hbehind, hcloses⟩
      · rintro ⟨depth', hdepth, hget, hbefore, hbehind, hcloses⟩
        refine ⟨hget, hbefore, hbehind, ?_⟩
        rw [List.take_succ_cons, hcode]
        exact closes_cons.mpr ⟨depth', hdepth, hcloses⟩
    rw [hsucc]
    cases pair.depthBehind? depth c <;> simp

end BracketKind

/-! ## The search -/

section Searching

variable {pair : BracketKind} {index depth found : Nat} {string : StringState} {c : Char}
  {text rest : List Char}

/-- Outside of literals the search follows the number of open pairs. -/
theorem closingIndexFrom_eq_match
    (h : (string.inString || (string.advance c).inString) = false) :
    closingIndexFrom (some pair.opening) pair.closing index depth string (c :: rest)
      = match pair.depthBehind? depth c with
        | none => some index
        | some depth' => closingIndexFrom (some pair.opening) pair.closing (index + 1) depth'
            (string.advance c) rest := by
  have hne := pair.closing_ne_opening
  conv_lhs => unfold closingIndexFrom
  rw [BracketKind.depthBehind?]
  simp only [h, Bool.false_eq_true, if_false]
  by_cases hopening : c = pair.opening
  · simp [hopening]
  by_cases hclosing : c = pair.closing
  · subst hclosing
    cases depth <;> simp [hne, hne.symm]
  · simp [hopening, hclosing, Ne.symm hopening]

/-- **The search finds the bracket that closes the pair, and nothing else.** The induction is on the
text, behind any state and with any number of further pairs open. -/
theorem closingIndexFrom_eq_some_iff :
    closingIndexFrom (some pair.opening) pair.closing index depth string text = some found ↔
      ∃ k, found = index + k ∧ pair.ClosesAt string depth text k := by
  induction text generalizing index depth string with
  | nil =>
    simp only [closingIndexFrom, reduceCtorEq, false_iff, not_exists, not_and]
    rintro k - ⟨hget, -, -, -⟩
    simp at hget
  | cons c rest ih =>
    -- a place in the rest is one further in the whole
    have hshift : ∀ depth', (∃ k, found = index + 1 + k ∧
        pair.ClosesAt (string.advance c) depth' rest k) ↔
          ∃ k, found = index + k ∧ ∃ j, k = j + 1 ∧
            pair.ClosesAt (string.advance c) depth' rest j := by
      intro depth'
      constructor
      · rintro ⟨j, rfl, hcloses⟩
        exact ⟨j + 1, by omega, j, rfl, hcloses⟩
      · rintro ⟨_, rfl, j, rfl, hcloses⟩
        exact ⟨j, by omega, hcloses⟩
    cases hstring : string.inString || (string.advance c).inString with
    | true =>
      rw [closingIndexFrom_cons_of_inString hstring, ih, hshift]
      simp only [BracketKind.closesAt_cons_of_inString hstring]
    | false =>
      rw [closingIndexFrom_eq_match hstring]
      simp only [BracketKind.closesAt_cons hstring]
      cases pair.depthBehind? depth c with
      | none => simp [eq_comm]
      | some depth' => exact ih.trans (hshift depth')

theorem closingIndex_eq_some_iff {k : Nat} :
    closingIndex pair.closing text = some k ↔ pair.ClosesAt .outside 0 text k := by
  rw [closingIndex, pair.openingOf?_closing, closingIndexFrom_eq_some_iff]
  simp

theorem closingIndex_eq_none_iff :
    closingIndex pair.closing text = none ↔ ∀ k, ¬ pair.ClosesAt .outside 0 text k := by
  simp only [← closingIndex_eq_some_iff, ← Option.not_isSome_iff_eq_none,
    Option.isSome_iff_exists, not_exists]

end Searching

/-! ## Other brackets -/

theorem StringState.advance_eq_self {string : StringState} {c : Char} (h : string.IsQuoted)
    (hquote : isQuote c = false) (hsign : c ≠ '#') : string.advance c = string := by
  obtain ⟨delimiter, embedded⟩ := string
  cases delimiter with
  | none => simp [advance, hquote]
  | some quote =>
    have hne : c ≠ quote := by
      rintro rfl
      exact Bool.false_ne_true (hquote.symm.trans h)
    simp [advance, hsign, hne]

namespace BracketKind

variable {pair : BracketKind}

/-- Whether the character is a bracket of another kind. -/
def isOther (pair : BracketKind) (c : Char) : Bool := (of? c).any fun found => found.1 != pair

/-- The text with a space for each bracket of another kind. -/
def withoutOthers (pair : BracketKind) (text : List Char) : List Char :=
  text.map fun c => if pair.isOther c then ' ' else c

theorem not_of_isOther {c : Char} (h : pair.isOther c = true) : isQuote c = false ∧ c ≠ '#' ∧
    c ≠ pair.opening ∧ c ≠ pair.closing ∧ isLineBreak c = false := by
  obtain ⟨⟨kind, opens⟩, hof, hne⟩ := (Option.any_eq_true ..).mp h
  have hother : kind ≠ pair := by simpa using hne
  obtain rfl := eq_of_of? hof
  revert hother
  cases kind <;> cases pair <;> cases opens <;> decide

/-- **Brackets of other kinds do not count.** -/
theorem closingIndexFrom_withoutOthers {string : StringState} (h : string.IsQuoted)
    (index depth : Nat) (text : List Char) :
    closingIndexFrom (some pair.opening) pair.closing index depth string (pair.withoutOthers text)
      = closingIndexFrom (some pair.opening) pair.closing index depth string text := by
  induction text generalizing index depth string with
  | nil => rfl
  | cons c rest ih =>
    let d := if pair.isOther c then ' ' else c
    have hsame : string.advance d = string.advance c ∧
        pair.depthBehind? depth d = pair.depthBehind? depth c := by
      cases hother : pair.isOther c with
      | false => simp [d, hother]
      | true =>
        obtain ⟨hquote, hsign, hopening, hclosing, -⟩ := not_of_isOther hother
        obtain ⟨hblank, hblank'⟩ := pair.ne_of_of?_eq_none (c := ' ') rfl
        rw [show d = ' ' by simp [d, hother], StringState.advance_eq_self h hquote hsign,
          StringState.advance_eq_self h (by decide) (by decide), depthBehind?, depthBehind?]
        simp [hopening, hclosing, hblank, hblank']
    obtain ⟨hadvance, hdepth⟩ := hsame
    have htext : pair.withoutOthers (c :: rest) = d :: pair.withoutOthers rest := rfl
    rw [htext]
    cases hstring : string.inString || (string.advance c).inString with
    | true =>
      rw [closingIndexFrom_cons_of_inString (by rw [hadvance, hstring]), hadvance,
        ih (h.advance c), closingIndexFrom_cons_of_inString hstring]
    | false =>
      rw [closingIndexFrom_eq_match (by rw [hadvance, hstring]), hadvance, hdepth,
        closingIndexFrom_eq_match hstring]
      simp only [ih (h.advance c)]

theorem sameBreaks_withoutOthers (pair : BracketKind) (text : List Char) :
    SameBreaks text (pair.withoutOthers text) := by
  rw [SameBreaks, withoutOthers, List.forall₂_map_right_iff, List.forall₂_same]
  intro c _ hbreak
  cases hother : pair.isOther c with
  | false => simp
  | true =>
    obtain ⟨-, -, -, -, hc⟩ := not_of_isOther hother
    rw [hc, hother, if_pos rfl] at hbreak
    exact absurd hbreak (by decide)

end BracketKind

/-! ## In a source -/

namespace Source

variable (src : Source) (pair : BracketKind)

/-- From an offset of the text on the search is one among the characters behind it. -/
theorem closingPositionAt?_natCast {start : Nat} (closing : Char) :
    src.closingPositionAt? start (some closing) = some (src.closingPosition start closing) := by
  rw [closingPositionAt?, src.window?_eq_slice (Nat.le_refl _), closingPosition, Option.map_some,
    Option.bind_some]
  cases closingIndex closing (src.slice start src.length) <;> rfl

/-- The source with a space for each bracket of another kind. -/
def withoutOtherBrackets : Source := ofText (pair.withoutOthers src.text) src.path

theorem closingPosition_withoutOtherBrackets (start : Nat) :
    (src.withoutOtherBrackets pair).closingPosition start pair.closing
      = src.closingPosition start pair.closing := by
  have hbreaks : SameBreaks src.text (src.withoutOtherBrackets pair).text :=
    pair.sameBreaks_withoutOthers src.text
  have htext : (src.withoutOtherBrackets pair).text.drop start
      = pair.withoutOthers (src.text.drop start) := List.map_drop.symm
  have hsame : closingIndex pair.closing (pair.withoutOthers (src.text.drop start))
      = closingIndex pair.closing (src.text.drop start) := by
    rw [closingIndex, closingIndex, pair.openingOf?_closing]
    exact BracketKind.closingIndexFrom_withoutOthers StringState.isQuoted_outside 0 0 _
  rw [closingPosition, closingPosition, slice_length, slice_length, htext, hsame]
  simp only [position_of_sameBreaks hbreaks]

/-- **The bracket that closes a pair is found, and nothing else.** The answer is the position just
behind the first bracket that closes the pair opened before the start, and that of the start exactly
if there is no such bracket. Brackets of other kinds do not change it. -/
theorem closingPositionAt?_spec {start : Nat} (hstart : src.IsBoundary start) :
    let Closes := pair.ClosesAt .outside 0 (src.text.drop start)
    ∃ p, src.closingPositionAt? start (some pair.closing) = some p ∧
      (∀ k, Closes k → p = src.position (start + k + 1) ∧ ∀ j < k, ¬ Closes j) ∧
      (p = src.position start ↔ ¬ ∃ k, Closes k) ∧
      (src.withoutOtherBrackets pair).closingPositionAt? start (some pair.closing) = some p := by
  intro Closes
  refine ⟨src.closingPosition start pair.closing, src.closingPositionAt?_natCast pair.closing, ?_⟩
  rw [closingPositionAt?_natCast, closingPosition_withoutOtherBrackets, closingPosition,
    slice_length]
  cases hfound : closingIndex pair.closing (src.text.drop start) with
  | none =>
    have hnone := closingIndex_eq_none_iff.mp hfound
    refine ⟨fun k hk => absurd hk (hnone k), ?_, rfl⟩
    exact iff_of_true rfl fun ⟨k, hk⟩ => hnone k hk
  | some k =>
    have hcloses := closingIndex_eq_some_iff.mp hfound
    have hunique : ∀ j, Closes j → j = k := by
      intro j hj
      exact Option.some.inj ((closingIndex_eq_some_iff.mpr hj).symm.trans hfound)
    -- behind a bracket is a boundary, and it is not the start
    have hget : src.text[start + k]? = some pair.closing := by
      rw [← List.getElem?_drop]
      exact hcloses.isClosing
    have hbehind : src.IsBoundary (start + k + 1) := by
      apply isBoundary_succ hget
      cases pair <;> decide
    refine ⟨?_, ?_, rfl⟩
    · intro j hj
      obtain rfl := hunique j hj
      refine ⟨rfl, fun i hi hcloses' => ?_⟩
      exact absurd (hunique i hcloses') (Nat.ne_of_lt hi)
    · refine iff_of_false ?_ fun hno => hno ⟨k, hcloses⟩
      intro heq
      have := (position_inj hbehind.isPlace hstart.isPlace).mp heq
      omega

/-- A brace in a literal does not close the pair, nor does one whose pair was opened behind the
start, and brackets of other kinds need no partner. -/
theorem closingPositionAt?_spec_brace :
    let src := Source.ofText "\x7b\"\x7d\",(]\x7b\x7d\x7d;".toList none
    src.IsBoundary 1 ∧ BracketKind.brace.ClosesAt .outside 0 (src.text.drop 1) 8 ∧
      src.closingPositionAt? 1 (some '}') = some ⟨0, 10⟩ := by
  intro src
  have hstart : src.IsBoundary 1 := isBoundary_of_getElem? (c := '"') (by decide) (by decide)
  have hcloses : BracketKind.brace.ClosesAt .outside 0 (src.text.drop 1) 8 :=
    closingIndex_eq_some_iff.mp (by decide)
  obtain ⟨p, hp, hfirst, -⟩ := closingPositionAt?_spec src .brace hstart
  obtain rfl : p = ⟨0, 10⟩ := (hfirst 8 hcloses).1.trans (by decide)
  exact ⟨hstart, hcloses, hp⟩

end Source

end Cfml
