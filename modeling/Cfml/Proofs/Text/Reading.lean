/-
What the steps of a reader read.

`Reader.Reaches` says that a step goes forward; here it is said for each step which characters it
passes over. A place that is reached by passing over a text is `Reader.passing`, so a chain of steps
becomes one text that was passed over. The last part is about the search for a pattern: characters
at which it does not hold are passed over, and behind an occurrence the search starts anew.
-/
import Cfml.Source.Stretch
import Mathlib.Data.List.Forall2
import Mathlib.Data.List.Infix

set_option autoImplicit false

namespace Cfml

/-- What is said of the characters of a list is decided by going through the list, also where it
could be decided by going through all characters that there are. -/
instance decidableForallMem (text : List Char) (p : Char → Prop) [DecidablePred p] :
    Decidable (∀ c ∈ text, p c) := List.decidableBAll p text

@[inherit_doc decidableForallMem]
instance decidableExistsMem (text : List Char) (p : Char → Prop) [DecidablePred p] :
    Decidable (∃ c ∈ text, p c) := List.decidableBEx p text

namespace Reader

/-- The place behind a text that has been passed over, with what is ahead then. -/
def passing (r : Reader) (passed ahead : List Char) : Reader :=
  ⟨r.offset + passed.length, passed.getLast?.or r.before, ahead⟩

@[simp] theorem ahead_passing (r : Reader) (passed ahead : List Char) :
    (r.passing passed ahead).ahead = ahead := rfl

@[simp] theorem offset_passing (r : Reader) (passed ahead : List Char) :
    (r.passing passed ahead).offset = r.offset + passed.length := rfl

theorem passing_passing (r : Reader) (passed more ahead ahead' : List Char) :
    (r.passing passed ahead).passing more ahead' = r.passing (passed ++ more) ahead' := by
  simp only [passing, List.length_append, Nat.add_assoc, List.getLast?_append, Option.or_assoc]

theorem passing_nil {r : Reader} {rest : List Char} (h : r.ahead = rest) :
    r.passing [] rest = r := by
  obtain ⟨offset, before, ahead⟩ := r
  obtain rfl : ahead = rest := h
  rfl

theorem one?_eq_some_iff {p : Char → Bool} {r later : Reader} :
    r.one? p = some later ↔
      ∃ c rest, r.ahead = c :: rest ∧ p c = true ∧ later = r.passing [c] rest := by
  obtain ⟨offset, before, ahead⟩ := r
  cases ahead with
  | nil => simp [one?]
  | cons c rest =>
    rw [one?]
    simp only [Option.ite_none_right_eq_some, Option.some_inj, List.cons.injEq]
    constructor
    · rintro ⟨hp, rfl⟩
      exact ⟨c, rest, ⟨rfl, rfl⟩, hp, rfl⟩
    · rintro ⟨_, _, ⟨rfl, rfl⟩, hp, rfl⟩
      exact ⟨hp, rfl⟩

/-- Reading word for word passes over a text that is the same letter by letter. -/
theorem foldlM_one?_eq_some_iff (same : Char → Char → Bool) {word : List Char}
    {r later : Reader} : word.foldlM (fun r c => r.one? (same c)) r = some later ↔
      ∃ written rest, List.Forall₂ (same · · = true) word written ∧ r.ahead = written ++ rest ∧
        later = r.passing written rest := by
  induction word generalizing r with
  | nil =>
    simp only [List.foldlM_nil, List.forall₂_nil_left_iff, Option.pure_def, Option.some_inj]
    constructor
    · rintro rfl
      exact ⟨[], r.ahead, rfl, rfl, rfl⟩
    · rintro ⟨_, _, rfl, rfl, rfl⟩
      rfl
  | cons c word ih =>
    simp only [List.foldlM_cons, Option.bind_eq_bind, Option.bind_eq_some_iff, one?_eq_some_iff, ih]
    constructor
    · rintro ⟨_, ⟨d, rest, hahead, hsame, rfl⟩, written, rest', hwritten, hrest, rfl⟩
      obtain rfl : rest = written ++ rest' := hrest
      exact ⟨d :: written, rest', .cons hsame hwritten, hahead, passing_passing ..⟩
    · rintro ⟨_, rest, hwritten, hahead, rfl⟩
      obtain ⟨d, written, hsame, htail, rfl⟩ := List.forall₂_cons_left_iff.mp hwritten
      refine ⟨_, ⟨d, written ++ rest, hahead, hsame, rfl⟩, written, rest, htail, rfl, ?_⟩
      rw [passing_passing]
      rfl

theorem literal?_eq_some_iff {word : List Char} {r later : Reader} :
    r.literal? word = some later ↔
      ∃ rest, r.ahead = word ++ rest ∧ later = r.passing word rest := by
  -- a text that is the same letter by letter is the word
  have hsame : ∀ {written}, List.Forall₂ (fun c d => (d == c) = true) word written ↔
      word = written := by
    intro written
    rw [← List.forall₂_eq_eq_eq]
    simp only [beq_iff_eq, @eq_comm Char]
  rw [literal?, foldlM_one?_eq_some_iff (fun c d => d == c)]
  simp only [hsame, exists_and_left, exists_eq_left']

theorem caseless?_eq_some_iff {word : List Char} {r later : Reader} :
    r.caseless? word = some later ↔
      ∃ written rest, List.Forall₂ (sameLetter · · = true) word written ∧
        r.ahead = written ++ rest ∧ later = r.passing written rest :=
  foldlM_one?_eq_some_iff sameLetter

/-- A word is written like itself. -/
theorem forall₂_sameLetter (word : List Char) :
    List.Forall₂ (sameLetter · · = true) word word := by
  rw [List.forall₂_same]
  intro c _
  rw [sameLetter, beq_self_eq_true, Bool.true_or]

theorem caseless?_of_append {word rest : List Char} {r : Reader} (hahead : r.ahead = word ++ rest) :
    r.caseless? word = some (r.passing word rest) :=
  caseless?_eq_some_iff.mpr ⟨word, rest, forall₂_sameLetter word, hahead, rfl⟩

theorem skipWhile_eq (p : Char → Bool) (r : Reader) :
    r.skipWhile p = r.passing (r.ahead.takeWhile p) (r.ahead.dropWhile p) := by
  obtain ⟨offset, before, ahead⟩ := r
  rw [skipWhile]
  simp only
  induction ahead generalizing offset before with
  | nil => rfl
  | cons c rest ih =>
    rw [skipWhile.go]
    by_cases hp : p c = true
    · rw [if_pos hp, ih, List.takeWhile_cons_of_pos hp, List.dropWhile_cons_of_pos hp]
      exact passing_passing ⟨offset, before, c :: rest⟩ [c] _ rest _
    · rw [if_neg hp, List.takeWhile_cons_of_neg hp, List.dropWhile_cons_of_neg hp]
      rfl

/-- Skipping stops before a character of another kind, or at the end. -/
theorem head?_skipWhile (p : Char → Bool) (r : Reader) :
    (r.skipWhile p).ahead.head?.any p = false := by
  rw [skipWhile_eq, ahead_passing]
  have hnot := List.head?_dropWhile_not p r.ahead
  cases hhead : (r.ahead.dropWhile p).head? with
  | none => rfl
  | some c =>
    rw [hhead] at hnot
    exact hnot

/-- What is skipped is a text of such characters that another one, or the end, follows. -/
theorem skipWhile_of_append {p : Char → Bool} {r : Reader} {passed rest : List Char}
    (hahead : r.ahead = passed ++ rest) (hpassed : ∀ c ∈ passed, p c = true)
    (hrest : rest.head?.any p = false) : r.skipWhile p = r.passing passed rest := by
  -- nothing of what follows is skipped
  have htake : rest.takeWhile p = [] ∧ rest.dropWhile p = rest := by
    cases rest with
    | nil => exact ⟨rfl, rfl⟩
    | cons c rest =>
      have hc : ¬ p c = true := by simpa using hrest
      exact ⟨List.takeWhile_cons_of_neg hc, List.dropWhile_cons_of_neg hc⟩
  rw [skipWhile_eq, hahead, List.takeWhile_append_of_pos hpassed,
    List.dropWhile_append_of_pos hpassed, htake.1, htake.2, List.append_nil]

/-! ### Reading what is written -/

theorem one?_of_cons {p : Char → Bool} {r : Reader} {c : Char} {rest : List Char}
    (hahead : r.ahead = c :: rest) (hc : p c = true) : r.one? p = some (r.passing [c] rest) :=
  one?_eq_some_iff.mpr ⟨c, rest, hahead, hc, rfl⟩

theorem one?_eq_none {p : Char → Bool} {r : Reader} (h : r.ahead.head?.any p = false) :
    r.one? p = none := by
  unfold one?
  split
  · rfl
  · next c rest hahead =>
    rw [hahead] at h
    exact if_neg (Bool.eq_false_iff.mp h)

theorem takeWhile_of_append {p : Char → Bool} {r : Reader} {passed rest : List Char}
    (hahead : r.ahead = passed ++ rest) (hpassed : ∀ c ∈ passed, p c = true)
    (hrest : rest.head?.any p = false) :
    r.takeWhile p = (⟨r.offset, passed⟩, r.passing passed rest) := by
  have hskip := skipWhile_of_append hahead hpassed hrest
  rw [skipWhile_eq] at hskip
  -- what is skipped is what is captured
  have hpassing : r.ahead.takeWhile p = passed := by
    have hsplit : r.ahead.takeWhile p ++ r.ahead.dropWhile p = passed ++ rest := by
      rw [List.takeWhile_append_dropWhile, hahead]
    have hdrop : r.ahead.dropWhile p = rest := congrArg Reader.ahead hskip
    rw [hdrop] at hsplit
    exact List.append_cancel_right hsplit
  rw [takeWhile, skipWhile_of_append hahead hpassed hrest, hpassing]

theorem blanks_of_append {r : Reader} {passed rest : List Char} (hahead : r.ahead = passed ++ rest)
    (hpassed : ∀ c ∈ passed, isBlank c = true) (hrest : rest.head?.any isBlank = false) :
    r.blanks = r.passing passed rest := skipWhile_of_append hahead hpassed hrest

theorem some?_of_append {p : Char → Bool} {r : Reader} {passed rest : List Char}
    (hahead : r.ahead = passed ++ rest) (hne : passed ≠ []) (hpassed : ∀ c ∈ passed, p c = true)
    (hrest : rest.head?.any p = false) : r.some? p = some (r.passing passed rest) := by
  obtain ⟨c, passed, rfl⟩ := List.exists_cons_of_ne_nil hne
  obtain ⟨hc, hpassed⟩ := List.forall_mem_cons.mp hpassed
  have hone : r.one? p = some (r.passing [c] (passed ++ rest)) := one?_of_cons hahead hc
  rw [some?, hone, Option.map_some, skipWhile_of_append rfl hpassed hrest, passing_passing]
  rfl

theorem name?_of_append {first part : Char → Bool} {r : Reader} {c : Char} {name rest : List Char}
    (hahead : r.ahead = (c :: name) ++ rest) (hc : first c = true)
    (hname : ∀ d ∈ name, part d = true) (hrest : rest.head?.any part = false) :
    r.name? first part = some (⟨r.offset, c :: name⟩, r.passing (c :: name) rest) := by
  have hone : r.one? first = some (r.passing [c] (name ++ rest)) := one?_of_cons hahead hc
  have hskip := @skipWhile_of_append part (r.passing [c] (name ++ rest)) name rest rfl hname hrest
  rw [passing_passing] at hskip
  rw [name?, hone, Option.map_some, hskip]
  simp only [List.singleton_append, offset_passing, Nat.add_sub_cancel_left, hahead, List.take_left]

/-- What is skipped are characters of the kind. -/
theorem exists_of_skipWhile (p : Char → Bool) (r : Reader) :
    ∃ passed, r.ahead = passed ++ (r.skipWhile p).ahead ∧ (∀ c ∈ passed, p c = true) ∧
      r.skipWhile p = r.passing passed (r.skipWhile p).ahead := by
  refine ⟨r.ahead.takeWhile p, ?_, List.all_eq_true.mp List.all_takeWhile, ?_⟩
  · rw [skipWhile_eq]
    exact List.takeWhile_append_dropWhile.symm
  · rw [skipWhile_eq]
    rfl

theorem exists_of_some? {p : Char → Bool} {r later : Reader} (h : r.some? p = some later) :
    ∃ passed, r.ahead = passed ++ later.ahead ∧ passed ≠ [] ∧ (∀ c ∈ passed, p c = true) ∧
      later = r.passing passed later.ahead := by
  obtain ⟨second, hone, rfl⟩ := Option.map_eq_some_iff.mp h
  obtain ⟨c, rest, hahead, hc, rfl⟩ := one?_eq_some_iff.mp hone
  obtain ⟨passed, hrest, hpassed, hskip⟩ := exists_of_skipWhile p (r.passing [c] rest)
  rw [passing_passing] at hskip
  refine ⟨c :: passed, ?_, List.cons_ne_nil _ _, List.forall_mem_cons.mpr ⟨hc, hpassed⟩, hskip⟩
  rw [hahead]
  exact congrArg (c :: ·) hrest

theorem exists_of_name? {first part : Char → Bool} {r later : Reader} {name : Capture}
    (h : r.name? first part = some (name, later)) :
    ∃ c more, r.ahead = c :: more ++ later.ahead ∧ first c = true ∧ (∀ d ∈ more, part d = true) ∧
      later = r.passing (c :: more) later.ahead := by
  obtain ⟨second, hone, heq⟩ := Option.map_eq_some_iff.mp h
  obtain ⟨-, rfl⟩ := Prod.mk.inj heq
  obtain ⟨c, rest, hahead, hc, rfl⟩ := one?_eq_some_iff.mp hone
  obtain ⟨more, hrest, hmore, hskip⟩ := exists_of_skipWhile part (r.passing [c] rest)
  rw [passing_passing] at hskip
  refine ⟨c, more, ?_, hc, hmore, hskip⟩
  rw [hahead]
  exact congrArg (c :: ·) hrest

theorem upTo_passing {r : Reader} {passed rest : List Char} (hahead : r.ahead = passed ++ rest) :
    r.upTo (r.passing passed rest) = ⟨r.offset, passed⟩ := by
  rw [upTo, offset_passing, Nat.add_sub_cancel_left, hahead, List.take_left]

end Reader

/-! ## Searching for a pattern -/

variable {α : Type} {pattern : Pattern α} {r : Reader}

theorem Pattern.read_plain_iff {read : Reader → Option Reader}
    (forward : ∀ {r later : Reader}, read r = some later → r.Reaches later) {later : Reader} :
    (Pattern.plain read forward).read r = some ((), later) ↔ read r = some later := by
  simp [Pattern.plain]

theorem Pattern.read_plain {read : Reader → Option Reader}
    (forward : ∀ {r later : Reader}, read r = some later → r.Reaches later) {later : Reader}
    {value : Unit} (h : (Pattern.plain read forward).read r = some (value, later)) :
    read r = some later := (read_plain_iff forward).mp h

theorem Pattern.read_literal_iff {word : List Char} {later : Reader} :
    (Pattern.literal word).read r = some ((), later) ↔
      ∃ rest, r.ahead = word ++ rest ∧ later = r.passing word rest := by
  rw [Pattern.literal, read_plain_iff, Reader.literal?_eq_some_iff]

theorem Pattern.read_literal_eq_none_iff {word : List Char} :
    (Pattern.literal word).read r = none ↔ ¬ word <+: r.ahead := by
  rw [Option.eq_none_iff_forall_ne_some]
  constructor
  · rintro hnone ⟨rest, hrest⟩
    exact hnone ((), r.passing word rest) (read_literal_iff.mpr ⟨rest, hrest.symm, rfl⟩)
  · rintro hnot ⟨⟨⟩, later⟩ hread
    obtain ⟨rest, hrest, -⟩ := read_literal_iff.mp hread
    exact hnot (hrest ▸ List.prefix_append word rest)

/-- The pattern does not hold at any of the characters. -/
def Pattern.Misses (pattern : Pattern α) (r : Reader) (text rest : List Char) : Prop :=
  ∀ front back, back ≠ [] → text = front ++ back →
    pattern.read (r.passing front (back ++ rest)) = none

theorem Pattern.Misses.tail {c : Char} {text rest : List Char}
    (h : pattern.Misses r (c :: text) rest) :
    pattern.Misses (r.passing [c] (text ++ rest)) text rest := by
  intro front back hne htext
  rw [Reader.passing_passing]
  exact h (c :: front) back hne (by rw [htext]; rfl)

/-- The search passes over characters at which the pattern does not hold. -/
theorem firstOccurrence?_append {text rest : List Char} (hahead : r.ahead = text ++ rest)
    (hmisses : pattern.Misses r text rest) :
    firstOccurrence? pattern r = firstOccurrence? pattern (r.passing text rest) := by
  induction text generalizing r with
  | nil =>
    obtain rfl : r.ahead = rest := hahead
    rfl
  | cons c text ih =>
    obtain ⟨offset, before, ahead⟩ := r
    obtain rfl : ahead = c :: (text ++ rest) := hahead
    have hread : pattern.read ⟨offset, before, c :: (text ++ rest)⟩ = none :=
      hmisses [] (c :: text) (List.cons_ne_nil c text) rfl
    have hstep : firstOccurrence? pattern ⟨offset, before, c :: (text ++ rest)⟩
        = firstOccurrence? pattern ⟨offset + 1, some c, text ++ rest⟩ := by
      rw [firstOccurrence?, firstOccurrence?.go, hread]
      rfl
    rw [hstep]
    apply (ih rfl hmisses.tail).trans
    rw [Reader.passing_passing]
    rfl

theorem Pattern.Misses.cons {c : Char} {text rest : List Char}
    (hahead : r.ahead = c :: (text ++ rest))
    (hread : pattern.read r = none)
    (h : pattern.Misses (r.passing [c] (text ++ rest)) text rest) :
    pattern.Misses r (c :: text) rest := by
  intro front back hne hsplit
  cases front with
  | nil =>
    obtain rfl : back = c :: text := hsplit.symm
    obtain ⟨offset, before, ahead⟩ := r
    obtain rfl : ahead = c :: (text ++ rest) := hahead
    exact hread
  | cons d front =>
    obtain ⟨rfl, rfl⟩ := List.cons.inj hsplit
    have := h front back hne rfl
    rwa [Reader.passing_passing] at this

/-- The search stops at the first place where the pattern holds. -/
theorem firstOccurrence?_misses {value : α} {place later : Reader}
    (h : firstOccurrence? pattern r = some (value, place, later)) :
    ∃ passed, r.ahead = passed ++ place.ahead ∧ place = r.passing passed place.ahead ∧
      place.ahead ≠ [] ∧ pattern.Misses r passed place.ahead ∧
      pattern.read place = some (value, later) := by
  obtain ⟨offset, before, ahead⟩ := r
  rw [firstOccurrence?] at h
  simp only at h
  induction ahead generalizing offset before with
  | nil => exact absurd h (by simp [firstOccurrence?.go])
  | cons c rest ih =>
    rw [firstOccurrence?.go] at h
    split at h
    · next hread =>
      obtain ⟨rfl, rfl, rfl⟩ := by simpa using h
      refine ⟨[], rfl, rfl, List.cons_ne_nil c rest, ?_, hread⟩
      intro front back hne hsplit
      exact absurd (List.append_eq_nil_iff.mp hsplit.symm).2 hne
    · next hnone =>
      obtain ⟨passed, hrest, hplace, hne, hmisses, hread⟩ := ih _ _ h
      obtain rfl : rest = passed ++ place.ahead := hrest
      refine ⟨c :: passed, rfl, ?_, hne, ?_, hread⟩
      · rw [hplace]
        exact Reader.passing_passing ⟨offset, before, c :: (passed ++ place.ahead)⟩ [c] passed
          (passed ++ place.ahead) place.ahead
      · exact hmisses.cons rfl hnone

theorem firstOccurrence?_eq_some {value : α} {later : Reader} (hne : r.ahead ≠ [])
    (hread : pattern.read r = some (value, later)) :
    firstOccurrence? pattern r = some (value, r, later) := by
  obtain ⟨offset, before, ahead⟩ := r
  obtain ⟨c, rest, rfl⟩ := List.exists_cons_of_ne_nil hne
  rw [firstOccurrence?, firstOccurrence?.go, hread]

/-- Reading through a pattern captures the characters at which it does not hold. -/
theorem Reader.through?_eq {text rest : List Char} {value : α} {later : Reader}
    (hahead : r.ahead = text ++ rest) (hmisses : pattern.Misses r text rest) (hne : rest ≠ [])
    (hread : pattern.read (r.passing text rest) = some (value, later)) :
    ∃ inside, r.through? pattern = some (inside, later) ∧ inside.start = r.offset ∧
      inside.stop = r.offset + text.length := by
  have hfirst : firstOccurrence? pattern r = some (value, r.passing text rest, later) := by
    rw [firstOccurrence?_append hahead hmisses]
    exact firstOccurrence?_eq_some hne hread
  unfold Reader.through?
  split
  · next heq => exact absurd (heq.symm.trans hfirst) (by simp)
  · next heq =>
    obtain ⟨rfl, rfl, rfl⟩ := by simpa using heq.symm.trans hfirst
    exact ⟨_, rfl, rfl, rfl⟩

/-- Where the pattern does not hold the search goes on by one character. -/
theorem occurrencesFrom_of_none {offset : Nat} {before : Option Char} {c : Char} {rest : List Char}
    (hread : pattern.read ⟨offset, before, c :: rest⟩ = none) :
    occurrencesFrom pattern 0 offset before (c :: rest)
      = occurrencesFrom pattern 0 (offset + 1) (some c) rest := by
  rw [occurrencesFrom]
  split
  · rfl
  · next heq => exact absurd (hread.symm.trans heq) (by simp)

/-- Where it holds there is an occurrence, and the search skips what the pattern read. -/
theorem occurrencesFrom_of_some {offset : Nat} {before : Option Char} {c : Char} {rest : List Char}
    {value : α} {later : Reader}
    (hread : pattern.read ⟨offset, before, c :: rest⟩ = some (value, later)) :
    occurrencesFrom pattern 0 offset before (c :: rest) =
      ⟨offset, later.offset, value, (pattern.forward hread).offset_le⟩ ::
        occurrencesFrom pattern (later.offset - offset - 1) (offset + 1) (some c) rest := by
  rw [occurrencesFrom]
  split
  · next heq => exact absurd (heq.symm.trans hread) (by simp)
  · next heq =>
    obtain ⟨rfl, rfl⟩ := Prod.mk.inj (Option.some.inj (heq.symm.trans hread))
    rfl

theorem occurrences_append {text rest : List Char} (hahead : r.ahead = text ++ rest)
    (hmisses : pattern.Misses r text rest) :
    occurrences pattern r = occurrences pattern (r.passing text rest) := by
  induction text generalizing r with
  | nil =>
    obtain rfl : r.ahead = rest := hahead
    rfl
  | cons c text ih =>
    obtain ⟨offset, before, ahead⟩ := r
    obtain rfl : ahead = c :: (text ++ rest) := hahead
    have hread : pattern.read ⟨offset, before, c :: (text ++ rest)⟩ = none :=
      hmisses [] (c :: text) (List.cons_ne_nil c text) rfl
    have hstep : occurrences pattern ⟨offset, before, c :: (text ++ rest)⟩
        = occurrences pattern ⟨offset + 1, some c, text ++ rest⟩ := occurrencesFrom_of_none hread
    rw [hstep]
    apply (ih rfl hmisses.tail).trans
    rw [Reader.passing_passing]
    rfl

theorem Pattern.misses_singleton {c : Char} {rest : List Char}
    (hahead : r.ahead = c :: rest) (hread : pattern.read r = none) :
    pattern.Misses r [c] rest := by
  apply Pattern.Misses.cons hahead hread
  intro front back hne hsplit
  exact absurd (List.append_eq_nil_iff.mp hsplit.symm).2 hne

/-- A character at which the pattern does not hold is passed over. -/
theorem occurrences_pass {c : Char} {rest : List Char} (hahead : r.ahead = c :: rest)
    (hread : pattern.read r = none) :
    occurrences pattern r = occurrences pattern (r.passing [c] rest) :=
  occurrences_append hahead (Pattern.misses_singleton hahead hread)

theorem occurrencesFrom_skip (pattern : Pattern α) (offset : Nat) (before : Option Char)
    (passed rest : List Char) :
    occurrencesFrom pattern passed.length offset before (passed ++ rest)
      = occurrences pattern (Reader.passing ⟨offset, before, passed ++ rest⟩ passed rest) := by
  induction passed generalizing offset before with
  | nil => rfl
  | cons c passed ih =>
    rw [List.length_cons, List.cons_append, occurrencesFrom, ih]
    exact congrArg _ (Reader.passing_passing ⟨offset, before, c :: (passed ++ rest)⟩ [c] passed
      (passed ++ rest) rest)

/-- Behind an occurrence that is not empty the search starts anew. -/
theorem occurrences_eq_cons {value : α} {c : Char} {passed rest : List Char}
    (hahead : r.ahead = c :: (passed ++ rest))
    (hread : pattern.read r = some (value, r.passing (c :: passed) rest)) :
    occurrences pattern r =
      ⟨r.offset, r.offset + (c :: passed).length, value, Nat.le_add_right _ _⟩ ::
        occurrences pattern (r.passing (c :: passed) rest) := by
  obtain ⟨offset, before, ahead⟩ := r
  obtain rfl : ahead = c :: (passed ++ rest) := hahead
  -- the search skips the rest of the occurrence
  have hskip : offset + (c :: passed).length - offset - 1 = passed.length := by
    rw [List.length_cons]
    omega
  rw [occurrences, occurrencesFrom_of_some hread]
  simp only [Reader.offset_passing, hskip]
  rw [occurrencesFrom_skip]
  apply congrArg _ (congrArg _ _)
  exact Reader.passing_passing ⟨offset, before, c :: (passed ++ rest)⟩ [c] passed
    (passed ++ rest) rest

end Cfml
