/-
Text between separators.

The search for a separator passes over well nested text (`WellNested.passes`): within a literal it
looks for nothing, and within a group the counters are not all zero. So it stops where the text ends
and a separator stands, and calls that go on behind each hit find the separators that join a list
of such texts, one behind the other and no others (`Source.unnestedHits_eq`).
-/
import Cfml.Proofs.Nesting.WellNested
import Cfml.Proofs.Source.Captures
import Cfml.Proofs.Source.Conversion
import Cfml.Proofs.Source.Lines

set_option autoImplicit false

namespace Cfml

/-! ## One character -/

section Searching

variable {targets : List Char} {index : Nat} {string : StringState} {brackets : Brackets} {c : Char}
  {rest : List Char}

/-- What belongs to a literal is passed over. -/
theorem firstUnnestedFrom_cons_of_inString
    (h : (string.inString || (string.advance c).inString) = true) :
    firstUnnestedFrom targets index string brackets (c :: rest)
      = firstUnnestedFrom targets (index + 1) (string.advance c) brackets rest := by
  rw [firstUnnestedFrom]
  exact if_pos h

/-- Outside of literals brackets are counted, and what is no bracket may be a target. -/
theorem firstUnnestedFrom_cons (hquote : isQuote c = false) :
    firstUnnestedFrom targets index .outside brackets (c :: rest)
      = match brackets.feed? targets c with
        | some brackets => firstUnnestedFrom targets (index + 1) .outside brackets rest
        | none =>
          if targets.contains c && brackets.isBalanced then some index
          else firstUnnestedFrom targets (index + 1) .outside brackets rest := by
  rw [firstUnnestedFrom, advance_outside hquote]
  exact if_neg Bool.false_ne_true

/-- What is found is one of the characters ahead. -/
theorem firstUnnestedFrom_within {text : List Char} {found : Nat}
    (h : firstUnnestedFrom targets index string brackets text = some found) :
    index ≤ found ∧ found < index + text.length := by
  induction text generalizing index string brackets with
  | nil => exact absurd h (by simp [firstUnnestedFrom])
  | cons c rest ih =>
    have hlater : ∀ {s b}, firstUnnestedFrom targets (index + 1) s b rest = some found →
        index ≤ found ∧ found < index + (c :: rest).length := by
      intro s b hrest
      have := ih hrest
      rw [List.length_cons]
      omega
    rw [firstUnnestedFrom] at h
    split at h
    · exact hlater h
    · split at h
      · exact hlater h
      · split at h
        · obtain rfl := Option.some.inj h
          rw [List.length_cons]
          omega
        · exact hlater h

theorem firstUnnested_lt {text : List Char} {found : Nat}
    (h : firstUnnested targets text = some found) : found < text.length := by
  have := (firstUnnestedFrom_within h).2
  omega

end Searching

/-! ## Well nested text -/

/-- A string literal that is complete, embedded expressions included. -/
def IsStringLiteral (text : List Char) : Prop := ∃ l : StringLiteral, text = l.text

section Passing

variable {separator : Char}

/-- With these counters the search for the separator passes over the text. -/
def Passes (separator : Char) (brackets : Brackets) (text : List Char) : Prop :=
  ∀ index rest, firstUnnestedFrom [separator] index .outside brackets (text ++ rest)
    = firstUnnestedFrom [separator] (index + text.length) .outside brackets rest

theorem Passes.append {brackets : Brackets} {text text' : List Char}
    (h : Passes separator brackets text) (h' : Passes separator brackets text') :
    Passes separator brackets (text ++ text') := by
  intro index rest
  rw [List.append_assoc, h, h', List.length_append, Nat.add_assoc]

/-- Within a literal that is open every character is passed over up to the closing quote. -/
theorem firstUnnestedFrom_literalBody {quote : Char} {body : List Char}
    (hbody : LiteralBody quote body) (index : Nat) (brackets : Brackets) (rest : List Char) :
    firstUnnestedFrom [separator] index ⟨some quote, false⟩ brackets (body ++ rest)
      = firstUnnestedFrom [separator] (index + body.length) ⟨some quote, false⟩ brackets rest := by
  -- between number signs nothing but the second one counts
  have hembedded : ∀ (inside rest : List Char) (index : Nat), '#' ∉ inside →
      firstUnnestedFrom [separator] index ⟨some quote, true⟩ brackets (inside ++ '#' :: rest)
        = firstUnnestedFrom [separator] (index + inside.length + 1) ⟨some quote, false⟩ brackets
            rest := by
    intro inside rest index hinside
    induction inside generalizing index with
    | nil => exact firstUnnestedFrom_cons_of_inString rfl
    | cons c inside ih =>
      obtain ⟨hc, hinside⟩ := not_or.mp (List.mem_cons.not.mp hinside)
      have hadvance : StringState.advance ⟨some quote, true⟩ c = ⟨some quote, true⟩ := by
        simp [StringState.advance, Ne.symm hc]
      rw [List.cons_append, firstUnnestedFrom_cons_of_inString rfl, hadvance, ih _ hinside,
        List.length_cons, Nat.add_right_comm index 1, Nat.add_assoc index]
  induction hbody generalizing index with
  | nil => rfl
  | char hquote hsign _ ih =>
    rename_i c body _
    have hadvance : StringState.advance ⟨some quote, false⟩ c = ⟨some quote, false⟩ := by
      simp [StringState.advance, hquote, hsign]
    rw [List.cons_append, firstUnnestedFrom_cons_of_inString rfl, hadvance, ih, List.length_cons,
      Nat.add_right_comm index 1, Nat.add_assoc index]
  | embedded hinside _ ih =>
    rename_i inside body _
    have hadvance : StringState.advance ⟨some quote, false⟩ '#' = ⟨some quote, true⟩ := rfl
    rw [List.cons_append, List.append_assoc, List.cons_append,
      firstUnnestedFrom_cons_of_inString rfl, hadvance, hembedded _ _ _ hinside, ih]
    apply congrArg (firstUnnestedFrom _ · _ _ _)
    simp only [List.length_cons, List.length_append]
    omega

theorem passes_literal (l : StringLiteral) (brackets : Brackets) :
    Passes separator brackets l.text := by
  intro index rest
  have hopen : StringState.outside.advance l.quote = ⟨some l.quote, false⟩ := by
    show (if isQuote l.quote then _ else _) = _
    rw [if_pos l.isDelimiter]
  have hsign : l.quote ≠ '#' := by
    intro heq
    exact absurd (heq ▸ l.isDelimiter) (by decide)
  have hclose : StringState.advance ⟨some l.quote, false⟩ l.quote = .outside := by
    simp [StringState.advance, hsign]
  rw [StringLiteral.text, List.cons_append, List.append_assoc, List.singleton_append,
    firstUnnestedFrom_cons_of_inString (by rw [hopen]; rfl), hopen,
    firstUnnestedFrom_literalBody l.complete, firstUnnestedFrom_cons_of_inString rfl, hclose]
  apply congrArg (firstUnnestedFrom _ · _ _ _)
  simp only [List.length_cons, List.length_append, List.length_nil]
  omega

/-- A plain character is no separator, or it stands in a group. -/
theorem passes_plain {c : Char} {brackets : Brackets} (hquote : isQuote c = false)
    (hbracket : BracketKind.of? c = none)
    (hseparator : brackets.isBalanced = false ∨ c ≠ separator) :
    Passes separator brackets [c] := by
  intro index rest
  have hfeed : brackets.feed? [separator] c = none := by
    rw [Brackets.feed?, hbracket]
    exact ite_self _
  have hnot : ([separator].contains c && brackets.isBalanced) = false := by
    rcases hseparator with h | h
    · rw [h, Bool.and_false]
    · rw [List.contains_cons, List.contains_nil, Bool.or_false, beq_eq_false_iff_ne.mpr h,
        Bool.false_and]
  rw [List.singleton_append, firstUnnestedFrom_cons hquote, hfeed]
  simp only [hnot, Bool.false_eq_true, if_false]
  rfl

/-- A bracket is counted. -/
theorem firstUnnestedFrom_bracket {c : Char} {kind : BracketKind} {opens : Bool}
    (hbracket : BracketKind.of? c = some (kind, opens))
    (hseparator : BracketKind.of? separator = none) (hquote : isQuote c = false) (index : Nat)
    (brackets : Brackets) (rest : List Char) :
    firstUnnestedFrom [separator] index .outside brackets (c :: rest)
      = firstUnnestedFrom [separator] (index + 1) .outside (brackets.count kind opens) rest := by
  have hne : [separator].contains c = false := by
    rw [List.contains_cons, List.contains_nil, Bool.or_false, beq_eq_false_iff_ne]
    rintro rfl
    rw [hbracket] at hseparator
    exact absurd hseparator (by simp)
  have hfeed : brackets.feed? [separator] c = some (brackets.count kind opens) := by
    rw [Brackets.feed?, hne, if_neg Bool.false_ne_true, hbracket]
    rfl
  rw [firstUnnestedFrom_cons hquote, hfeed]

/-- Behind a group the counters are as before. -/
theorem passes_group (hseparator : BracketKind.of? separator = none) (kind : BracketKind)
    {brackets : Brackets} {inside : List Char}
    (h : Passes separator (brackets.count kind true) inside) :
    Passes separator brackets (kind.opening :: (inside ++ [kind.closing])) := by
  intro index rest
  rw [List.cons_append, firstUnnestedFrom_bracket kind.of?_opening hseparator
      kind.not_isQuote_opening.1, List.append_assoc, h, List.singleton_append,
    firstUnnestedFrom_bracket kind.of?_closing hseparator kind.not_isQuote_closing.1,
    brackets.count_leave]
  apply congrArg (firstUnnestedFrom _ · _ _ _)
  simp only [List.length_cons, List.length_append, List.length_nil]
  omega

/-- Each part of well nested text is passed over. -/
theorem holdsOfParts_passes (hseparator : BracketKind.of? separator = none) :
    HoldsOfParts IsStringLiteral separator (Passes separator) where
  nil _ _ _ := rfl
  append h h' := h.append h'
  plain hquote hbracket hplain := passes_plain hquote hbracket hplain
  literal hliteral := by
    obtain ⟨l, rfl⟩ := hliteral
    exact passes_literal l _
  group kind _ h := passes_group hseparator kind h

/-- **The search for the separator passes over well nested text.** -/
theorem WellNested.passes (hseparator : BracketKind.of? separator = none) {text : List Char}
    (h : WellNested IsStringLiteral separator false text) : Passes separator {} text :=
  h.holds (holdsOfParts_passes hseparator) Brackets.isNonneg_start (by simp)

end Passing

/-- A character that can separate: it begins no literal, is no bracket and ends no line. -/
structure IsSeparator (c : Char) : Prop where
  notQuote : isQuote c = false
  notBracket : BracketKind.of? c = none
  notLineBreak : isLineBreak c = false

section Found

variable {separator : Char} {text : List Char}

/-- The separator behind well nested text is the first one. -/
theorem WellNested.firstUnnested_append (hseparator : IsSeparator separator)
    (h : WellNested IsStringLiteral separator false text) (rest : List Char) :
    firstUnnested [separator] (text ++ separator :: rest) = some text.length := by
  have hfeed : Brackets.feed? [separator] {} separator = none := by
    rw [Brackets.feed?, hseparator.notBracket]
    exact ite_self _
  rw [firstUnnested, h.passes hseparator.notBracket,
    firstUnnestedFrom_cons hseparator.notQuote, hfeed]
  simp [Brackets.isBalanced]

/-- In well nested text alone there is none. -/
theorem WellNested.firstUnnested_eq_none (hseparator : IsSeparator separator)
    (h : WellNested IsStringLiteral separator false text) :
    firstUnnested [separator] text = none := by
  have hpasses := h.passes hseparator.notBracket 0 []
  rw [List.append_nil] at hpasses
  rw [firstUnnested, hpasses]
  rfl

end Found

/-! ## In a source -/

namespace Source

variable (src : Source)

/-- Between offsets of the text the search is one among the characters between them. -/
theorem nextUnnestedAt?_natCast {start stop : Nat} (hstop : stop ≤ src.length)
    (targets : List Char) (behind : Bool) :
    src.nextUnnestedAt? start stop targets behind
      = some (src.nextUnnested start stop targets behind) := by
  have hmin : min (stop : Int) src.length = (stop : Nat) := by omega
  rw [nextUnnestedAt?, hmin, src.window?_eq_slice hstop, nextUnnested, Option.map_some]
  cases firstUnnested targets (src.slice start stop) with
  | none => rfl
  | some index =>
    have hoffset : ((start : Int) + index + (if behind then 1 else 0)).toNat
        = start + index + (if behind then 1 else 0) := by
      split <;> omega
    simp only [positionAt, hoffset]

/-- **What is found lies between the bounds**, whatever is looked for. -/
theorem offsetAt_nextUnnested {start stop : Nat} (hle : start ≤ stop)
    (hstart : src.IsBoundary start) (hstop : src.IsBoundary stop) (targets : List Char)
    (behind : Bool) :
    start ≤ src.offsetAt (src.nextUnnested start stop targets behind) ∧
      src.offsetAt (src.nextUnnested start stop targets behind) ≤ stop := by
  -- both conversions keep the order, and the bounds are found again
  have hbetween : ∀ o, start ≤ o → o ≤ stop →
      start ≤ src.offsetAt (src.position o) ∧ src.offsetAt (src.position o) ≤ stop := by
    intro o hlow hhigh
    have hlow' := src.offsetAt_mono (src.position_mono hlow)
    have hhigh' := src.offsetAt_mono (src.position_mono hhigh)
    rw [offsetAt_position hstart] at hlow'
    rw [offsetAt_position hstop] at hhigh'
    exact ⟨hlow', hhigh'⟩
  rw [nextUnnested]
  cases hfound : firstUnnested targets (src.slice start stop) with
  | none => exact hbetween stop hle (Nat.le_refl _)
  | some index =>
    have hlt := firstUnnested_lt hfound
    rw [length_slice hstop.1] at hlt
    refine hbetween _ (by omega) ?_
    split <;> omega

/-! ### One call after the other -/

/-- The answers to calls for a separator, each of which goes on just behind the hit before it. -/
def unnestedHits (separator : Char) (behind : Bool) :
    (calls : Nat) → (start : Nat) → Option (List Position)
  | 0, _ => some []
  | calls + 1, start => do
    let hit ← src.nextUnnestedAt? start src.length [separator] behind
    let next := if behind then src.offsetAt hit else src.offsetAt hit + 1
    return hit :: (← unnestedHits separator behind calls next)

/-- The offsets of the separators that join the pieces, the first of which begins at `start`. -/
def joints (start : Nat) : List (List Char) → List Nat
  | [] => []
  | [_] => []
  | piece :: next :: rest =>
    (start + piece.length) :: joints (start + piece.length + 1) (next :: rest)

variable {src} {separator : Char} {start : Nat} {piece : List Char}

/-- Behind the last piece the call answers with the end. -/
theorem nextUnnestedAt?_last (hseparator : IsSeparator separator)
    (hpiece : WellNested IsStringLiteral separator false piece)
    (htext : src.text.drop start = piece) (behind : Bool) :
    src.nextUnnestedAt? start src.length [separator] behind = some src.stop := by
  rw [src.nextUnnestedAt?_natCast (Nat.le_refl _), nextUnnested, src.slice_length, htext,
    hpiece.firstUnnested_eq_none hseparator]
  rfl

/-- **A call finds the separator behind a piece**, and the next one begins just behind it. -/
theorem nextUnnestedAt?_piece (hseparator : IsSeparator separator)
    (hpiece : WellNested IsStringLiteral separator false piece) {rest : List Char}
    (htext : src.text.drop start = piece ++ separator :: rest) (behind : Bool) :
    let hit := src.position (start + piece.length + if behind then 1 else 0)
    src.nextUnnestedAt? start src.length [separator] behind = some hit ∧
      (if behind then src.offsetAt hit else src.offsetAt hit + 1) = start + piece.length + 1 := by
  intro hit
  have hget : src.text[start + piece.length]? = some separator := by
    rw [← List.getElem?_drop, htext, List.getElem?_append_right (Nat.le_refl _), Nat.sub_self]
    rfl
  obtain ⟨hreturn, hfeed⟩ := isLineBreak_eq_false_iff.mp hseparator.notLineBreak
  constructor
  · rw [src.nextUnnestedAt?_natCast (Nat.le_refl _), nextUnnested, src.slice_length, htext,
      hpiece.firstUnnested_append hseparator]
  · cases behind with
    | true => exact offsetAt_position (isBoundary_succ hget hreturn)
    | false => exact congrArg (· + 1) (offsetAt_position (isBoundary_of_getElem? hget hfeed))

/-- **The calls find the joints, one after the other, and then the end.** The induction is on the
pieces that are left, wherever the first of them begins. -/
theorem unnestedHits_eq (hseparator : IsSeparator separator) {pieces : List (List Char)}
    (hne : pieces ≠ [])
    (hpieces : ∀ piece ∈ pieces, WellNested IsStringLiteral separator false piece)
    (htext : src.text.drop start = [separator].intercalate pieces) (behind : Bool) :
    src.unnestedHits separator behind pieces.length start
      = some ((joints start pieces).map (fun o => src.position (o + if behind then 1 else 0))
          ++ [src.stop]) := by
  induction pieces generalizing start with
  | nil => exact absurd rfl hne
  | cons piece later ih =>
    obtain ⟨hpiece, hlater⟩ := List.forall_mem_cons.mp hpieces
    cases later with
    | nil =>
      rw [List.intercalate_singleton] at htext
      rw [List.length_singleton, unnestedHits, nextUnnestedAt?_last hseparator hpiece htext]
      rfl
    | cons next rest =>
      rw [List.intercalate_cons_cons, List.append_assoc, List.singleton_append] at htext
      obtain ⟨hhit, hnext⟩ := nextUnnestedAt?_piece hseparator hpiece htext behind
      have hbehind : src.text.drop (start + piece.length + 1)
          = [separator].intercalate (next :: rest) := by
        rw [Nat.add_assoc, ← List.drop_drop, htext, List.drop_length_add_append]
        rfl
      rw [List.length_cons, unnestedHits, hhit]
      simp only [Option.bind_eq_bind, Option.bind_some]
      rw [hnext, ih (List.cons_ne_nil _ _) hlater hbehind, joints]
      rfl

/-- At a joint stands the separator. -/
theorem getElem?_of_mem_joints {pieces : List (List Char)} {o : Nat}
    (htext : src.text.drop start = [separator].intercalate pieces)
    (h : o ∈ joints start pieces) : src.text[o]? = some separator := by
  fun_induction joints start pieces with
  | case1 => exact absurd h List.not_mem_nil
  | case2 => exact absurd h List.not_mem_nil
  | case3 start piece next rest ih =>
    rw [List.intercalate_cons_cons, List.append_assoc, List.singleton_append] at htext
    rcases List.mem_cons.mp h with rfl | h
    · rw [← List.getElem?_drop, htext, List.getElem?_append_right (Nat.le_refl _), Nat.sub_self]
      rfl
    · apply ih _ h
      rw [Nat.add_assoc, ← List.drop_drop, htext, List.drop_length_add_append]
      rfl

/-- **Calls for a separator cut a text exactly at its top level.** Where well nested pieces are
joined by a separator, calls that each go on just behind the hit before find the separators in
between, one after the other, and then the end; a hit behind the separator is one character further.
In any text, whatever is looked for, what a call answers lies between its bounds. -/
theorem nextUnnestedAt?_splits :
    (∀ (separator : Char) (pieces : List (List Char)) (path : Option Path),
      IsSeparator separator → pieces ≠ [] →
      (∀ piece ∈ pieces, WellNested IsStringLiteral separator false piece) →
      let src := Source.ofText ([separator].intercalate pieces) path
      let hits := (joints 0 pieces).map src.position
      src.unnestedHits separator false pieces.length 0 = some (hits ++ [src.stop]) ∧
        src.unnestedHits separator true pieces.length 0
          = some (hits.map (·.shift 0 1) ++ [src.stop])) ∧
    ∀ (src : Source) (start stop : Nat) (targets : List Char) (behind : Bool),
      start ≤ stop → src.IsBoundary start → src.IsBoundary stop →
      ∃ p, src.nextUnnestedAt? start stop targets behind = some p ∧
        start ≤ src.offsetAt p ∧ src.offsetAt p ≤ stop := by
  constructor
  · intro separator pieces path hseparator hne hpieces src hits
    have htext : src.text.drop 0 = [separator].intercalate pieces := rfl
    refine ⟨unnestedHits_eq hseparator hne hpieces htext false, ?_⟩
    have hshift : hits.map (·.shift 0 1)
        = (joints 0 pieces).map fun o => src.position (o + if true then 1 else 0) := by
      rw [List.map_map]
      apply List.map_congr_left
      intro o ho
      have hget := getElem?_of_mem_joints htext ho
      exact (src.position_succ hget hseparator.notLineBreak).symm
    rw [hshift]
    exact unnestedHits_eq hseparator hne hpieces htext true
  · intro src start stop targets behind hle hstart hstop
    exact ⟨_, src.nextUnnestedAt?_natCast hstop.1 targets behind,
      src.offsetAt_nextUnnested hle hstart hstop targets behind⟩

/-- A comma in a group and one in a literal do not count, and a closing bracket of a pair that was
never opened is found all the same. -/
theorem nextUnnestedAt?_splits_list :
    let pieces := ["(,)".toList, "\",\"".toList]
    let src := Source.ofText "(,),\",\"".toList none
    let broken := Source.ofText "a\r\n]".toList none
    IsSeparator ',' ∧ pieces ≠ [] ∧
      (∀ piece ∈ pieces, WellNested IsStringLiteral ',' false piece) ∧
      src.unnestedHits ',' false 2 0 = some [⟨0, 3⟩, ⟨0, 7⟩] ∧
      src.unnestedHits ',' true 2 0 = some [⟨0, 4⟩, ⟨0, 7⟩] ∧
      broken.IsBoundary 1 ∧ broken.IsBoundary 4 ∧
      ∃ p, broken.nextUnnestedAt? 1 4 [']'] true = some p ∧
        1 ≤ broken.offsetAt p ∧ broken.offsetAt p ≤ 4 := by
  intro pieces src broken
  have hseparator : IsSeparator ',' := ⟨by decide, by decide, by decide⟩
  have hgroup : WellNested IsStringLiteral ',' false "(,)".toList :=
    .group .paren (.plain (by decide) (by decide) (Or.inl rfl) .nil) .nil
  have hquoted : IsStringLiteral "\",\"".toList :=
    ⟨⟨'"', [','], by decide, .char (by decide) (by decide) .nil⟩, rfl⟩
  have hliteral : WellNested IsStringLiteral ',' false "\",\"".toList := .literal hquoted .nil
  have hpieces : ∀ piece ∈ pieces, WellNested IsStringLiteral ',' false piece :=
    List.forall_mem_cons.mpr ⟨hgroup, List.forall_mem_singleton.mpr hliteral⟩
  have hne : pieces ≠ [] := List.cons_ne_nil _ _
  have hbegin : broken.IsBoundary 1 :=
    isBoundary_of_getElem? (c := '\r') (by decide) (by decide)
  have hend : broken.IsBoundary 4 := broken.isBoundary_length
  obtain ⟨hhits, hbehind⟩ :=
    nextUnnestedAt?_splits.1 ',' pieces none hseparator hne hpieces
  exact ⟨hseparator, hne, hpieces, hhits, hbehind, hbegin, hend,
    nextUnnestedAt?_splits.2 broken 1 4 [']'] true (by decide) hbegin hend⟩

end Source

end Cfml
