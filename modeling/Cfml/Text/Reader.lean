/-
Reading a text from left to right.

A `Reader` is a place in a text: how many characters lie before it, which of them is the nearest,
and what lies ahead. The patterns of this library are functions that take a reader to the place
behind what they recognise. None of them has to try again with less than it can take, so each is a
single forward pass. `occurrences` finds the places where a pattern holds: the leftmost one first,
then the leftmost one behind it.

That a place is reached from another one by reading forward (`Reader.Reaches`) is proved beside each
of the functions, and a `Pattern` carries the proof for the whole of it. An occurrence therefore
never ends before it starts.
-/
import Cfml.Text.Blank
import Cfml.Text.Caseless
import Cfml.Text.Word

set_option autoImplicit false

namespace Cfml

/-- A place in a text. -/
structure Reader where
  /-- The number of characters before the place. -/
  offset : Nat
  /-- The character just before the place. -/
  before : Option Char
  /-- The characters from the place on. -/
  ahead : List Char

/-- A stretch of text and where it starts. -/
structure Capture where
  start : Nat
  text : List Char

/-- The offset just behind the captured text. -/
def Capture.stop (c : Capture) : Nat := c.start + c.text.length

namespace Reader

/-- The start of a text whose first character has the offset `offset`. -/
def ofText (text : List Char) (offset : Nat) : Reader := ⟨offset, none, text⟩

/-- Steps over one character for which `p` holds. -/
def one? (p : Char → Bool) (r : Reader) : Option Reader :=
  match r.ahead with
  | [] => none
  | c :: rest => if p c then some ⟨r.offset + 1, some c, rest⟩ else none

/-- Steps over every character up to the first one for which `p` fails. -/
def skipWhile (p : Char → Bool) (r : Reader) : Reader :=
  go r.offset r.before r.ahead
where
  go (offset : Nat) (before : Option Char) : List Char → Reader
    | [] => ⟨offset, before, []⟩
    | c :: rest => if p c then go (offset + 1) (some c) rest else ⟨offset, before, c :: rest⟩

/-- Steps over one or more characters for which `p` holds, as many as there are. -/
def some? (p : Char → Bool) (r : Reader) : Option Reader :=
  (r.one? p).map (skipWhile p)

/-- Steps over a word written as given. -/
def literal? (word : List Char) (r : Reader) : Option Reader :=
  word.foldlM (fun r c => r.one? (· == c)) r

/-- Steps over a word written in any case. -/
def caseless? (word : List Char) (r : Reader) : Option Reader :=
  word.foldlM (fun r c => r.one? (sameLetter c)) r

/-- Steps over white space, if there is any. -/
def blanks (r : Reader) : Reader := r.skipWhile isBlank

/-- Steps over the longest run of characters for which `p` holds, and captures it. -/
def takeWhile (p : Char → Bool) (r : Reader) : Capture × Reader :=
  (⟨r.offset, r.ahead.takeWhile p⟩, r.skipWhile p)

/-- Captures a name: a character that may begin it, and all that may continue it. -/
def name? (first part : Char → Bool) (r : Reader) : Option (Capture × Reader) :=
  (r.one? first).map fun second =>
    let stop := second.skipWhile part
    (⟨r.offset, r.ahead.take (stop.offset - r.offset)⟩, stop)

/-- The text between the place and a later place. -/
def upTo (r later : Reader) : Capture := ⟨r.offset, r.ahead.take (later.offset - r.offset)⟩

/-- Whether a word begins or ends at the place. -/
def atWordBoundary (r : Reader) : Bool :=
  r.before.any isWord != r.ahead.head?.any isWord

/-- Whether the character just before the place is one for which `p` holds. -/
def isAfter (p : Char → Bool) (r : Reader) : Bool := r.before.any p

end Reader

/-! ## Reading forward -/

/-- The later place is reached from the place by passing over characters ahead of it. -/
def Reader.Reaches (r later : Reader) : Prop :=
  ∃ passed, r.ahead = passed ++ later.ahead ∧ later.offset = r.offset + passed.length ∧
    later.before = passed.getLast?.or r.before

namespace Reader

variable {r later : Reader}

theorem Reaches.refl (r : Reader) : r.Reaches r := ⟨[], rfl, rfl, rfl⟩

theorem Reaches.trans {last : Reader} (h : r.Reaches later) (h' : later.Reaches last) :
    r.Reaches last := by
  obtain ⟨passed, hahead, hoffset, hbefore⟩ := h
  obtain ⟨more, hahead', hoffset', hbefore'⟩ := h'
  refine ⟨passed ++ more, ?_, ?_, ?_⟩
  · rw [hahead, hahead', List.append_assoc]
  · rw [hoffset', hoffset, List.length_append, Nat.add_assoc]
  · rw [hbefore', hbefore, List.getLast?_append, Option.or_assoc]

theorem Reaches.offset_le (h : r.Reaches later) : r.offset ≤ later.offset := by
  obtain ⟨passed, -, hoffset, -⟩ := h
  rw [hoffset]
  exact Nat.le_add_right _ _

/-- What is before the end stays before the end. -/
theorem Reaches.offset_add_length (h : r.Reaches later) :
    later.offset + later.ahead.length = r.offset + r.ahead.length := by
  obtain ⟨passed, hahead, hoffset, -⟩ := h
  rw [hoffset, hahead, List.length_append, Nat.add_assoc]

theorem one?_reaches {p : Char → Bool} (h : r.one? p = some later) : r.Reaches later := by
  unfold one? at h
  split at h
  · exact absurd h (by simp)
  · next c rest hahead =>
    split at h
    · obtain rfl := Option.some.inj h
      exact ⟨[c], hahead, rfl, rfl⟩
    · exact absurd h (by simp)

theorem skipWhile_reaches (p : Char → Bool) (r : Reader) : r.Reaches (r.skipWhile p) := by
  obtain ⟨offset, before, ahead⟩ := r
  rw [skipWhile]
  simp only
  induction ahead generalizing offset before with
  | nil => exact .refl _
  | cons c rest ih =>
    rw [skipWhile.go]
    split
    -- one character, and then the others
    · exact Reaches.trans ⟨[c], rfl, rfl, rfl⟩ (ih (offset + 1) (some c))
    · exact .refl _

theorem some?_reaches {p : Char → Bool} (h : r.some? p = some later) : r.Reaches later := by
  obtain ⟨second, hone, rfl⟩ := Option.map_eq_some_iff.mp h
  exact (one?_reaches hone).trans (skipWhile_reaches p second)

/-- Reading word for word is reading one character after the other. -/
theorem foldlM_one?_reaches {same : Char → Char → Bool} {word : List Char}
    (h : word.foldlM (fun r c => r.one? (same c)) r = some later) : r.Reaches later := by
  induction word generalizing r with
  | nil =>
    obtain rfl := Option.some.inj h
    exact .refl _
  | cons c word ih =>
    rw [List.foldlM_cons, Option.bind_eq_bind, Option.bind_eq_some_iff] at h
    obtain ⟨second, hone, hword⟩ := h
    exact (one?_reaches hone).trans (ih hword)

theorem literal?_reaches {word : List Char} (h : r.literal? word = some later) :
    r.Reaches later := @foldlM_one?_reaches _ _ (fun c d => d == c) _ h

/-- Behind a word that need not be there. -/
theorem getD_literal?_reaches (word : List Char) (r : Reader) :
    r.Reaches ((r.literal? word).getD r) := by
  cases h : r.literal? word with
  | none => exact .refl r
  | some later => exact literal?_reaches h

theorem caseless?_reaches {word : List Char} (h : r.caseless? word = some later) :
    r.Reaches later := foldlM_one?_reaches h

theorem blanks_reaches (r : Reader) : r.Reaches r.blanks := skipWhile_reaches isBlank r

theorem takeWhile_reaches (p : Char → Bool) (r : Reader) : r.Reaches (r.takeWhile p).2 :=
  skipWhile_reaches p r

theorem name?_reaches {first part : Char → Bool} {name : Capture}
    (h : r.name? first part = some (name, later)) : r.Reaches later := by
  obtain ⟨second, hone, heq⟩ := Option.map_eq_some_iff.mp h
  obtain ⟨-, rfl⟩ := Prod.mk.inj heq
  exact (one?_reaches hone).trans (skipWhile_reaches part second)

/-- Of two ways to read, one was taken. -/
theorem eq_some_of_orElse {α : Type} {one other : Option α} {a : α}
    (h : (one <|> other) = some a) : one = some a ∨ other = some a := by
  rw [Option.orElse_eq_orElse, Option.orElse_eq_or, Option.or_eq_some_iff] at h
  exact h.imp_right And.right

end Reader

/-! ## Patterns and their occurrences -/

/-- A pattern: what it takes from a place to the place behind, and that this is forward. -/
structure Pattern (α : Type) where
  read : Reader → Option (α × Reader)
  forward : ∀ {r later : Reader} {value : α}, read r = some (value, later) → r.Reaches later

/-- A pattern that finds out nothing. -/
def Pattern.plain (read : Reader → Option Reader)
    (forward : ∀ {r later : Reader}, read r = some later → r.Reaches later) : Pattern Unit where
  read r := (read r).map fun later => ((), later)
  forward h := by
    obtain ⟨later, hread, heq⟩ := Option.map_eq_some_iff.mp h
    obtain ⟨-, rfl⟩ := Prod.mk.inj heq
    exact forward hread

/-- The pattern of a word written as given. -/
def Pattern.literal (word : List Char) : Pattern Unit :=
  .plain (·.literal? word) Reader.literal?_reaches

/-- A place where a pattern holds, and what the pattern found out there. -/
structure Occurrence (α : Type) where
  start : Nat
  stop : Nat
  value : α
  start_le_stop : start ≤ stop

variable {α : Type}

/-- The occurrences of a pattern behind the first `skip` characters. -/
def occurrencesFrom (pattern : Pattern α) (skip offset : Nat) (before : Option Char) :
    List Char → List (Occurrence α)
  | [] => []
  | c :: rest =>
    match skip with
    -- still in the last occurrence
    | left + 1 => occurrencesFrom pattern left (offset + 1) (some c) rest
    | 0 =>
      match h : pattern.read ⟨offset, before, c :: rest⟩ with
      | none => occurrencesFrom pattern 0 (offset + 1) (some c) rest
      | some (value, after) =>
        ⟨offset, after.offset, value, (pattern.forward h).offset_le⟩ ::
          occurrencesFrom pattern (after.offset - offset - 1) (offset + 1) (some c) rest

/-- The leftmost occurrences of a pattern that do not overlap, in order. -/
def occurrences (pattern : Pattern α) (r : Reader) : List (Occurrence α) :=
  occurrencesFrom pattern 0 r.offset r.before r.ahead

/-- Every occurrence lies in what is ahead. -/
theorem occurrencesFrom_within (pattern : Pattern α) (skip offset : Nat) (before : Option Char)
    (text : List Char) : ∀ o ∈ occurrencesFrom pattern skip offset before text,
      offset + skip ≤ o.start ∧ o.stop ≤ offset + text.length := by
  induction text generalizing skip offset before with
  | nil => simp [occurrencesFrom]
  | cons c rest ih =>
    intro o ho
    rw [List.length_cons]
    unfold occurrencesFrom at ho
    split at ho
    · have := ih _ _ _ o ho
      omega
    · split at ho
      · have := ih _ _ _ o ho
        omega
      · next after hread =>
        -- the pattern read forward, so what it read is text that was there
        have hforward := pattern.forward hread
        rcases List.mem_cons.mp ho with rfl | ho
        · have := hforward.offset_add_length
          simp only [List.length_cons] at this
          exact ⟨Nat.le_refl _, by simp only; omega⟩
        · have := ih _ _ _ o ho
          omega

/-- Occurrences follow each other. -/
theorem occurrencesFrom_pairwise (pattern : Pattern α) (skip offset : Nat) (before : Option Char)
    (text : List Char) :
    (occurrencesFrom pattern skip offset before text).Pairwise fun o o' => o.stop ≤ o'.start := by
  induction text generalizing skip offset before with
  | nil => exact List.Pairwise.nil
  | cons c rest ih =>
    unfold occurrencesFrom
    split
    · exact ih _ _ _
    · split
      · exact ih _ _ _
      -- the search goes on behind the occurrence
      · apply List.Pairwise.cons _ (ih _ _ _)
        intro o ho
        have := (occurrencesFrom_within _ _ _ _ _ o ho).1
        simp only
        omega

/-- Reads on to the first place where the pattern holds: what it found there, the place, and the
place behind it. -/
def firstOccurrence? (pattern : Pattern α) (r : Reader) : Option (α × Reader × Reader) :=
  go r.offset r.before r.ahead
where
  go (offset : Nat) (before : Option Char) : List Char → Option (α × Reader × Reader)
    | [] => none
    | c :: rest =>
      match pattern.read ⟨offset, before, c :: rest⟩ with
      | some (value, after) => some (value, ⟨offset, before, c :: rest⟩, after)
      | none => go (offset + 1) (some c) rest

/-- The first place where the pattern holds lies ahead, and the pattern was read from there. -/
theorem firstOccurrence?_reaches {pattern : Pattern α} {r place later : Reader} {value : α}
    (h : firstOccurrence? pattern r = some (value, place, later)) :
    r.Reaches place ∧ pattern.read place = some (value, later) := by
  obtain ⟨offset, before, ahead⟩ := r
  rw [firstOccurrence?] at h
  simp only at h
  induction ahead generalizing offset before with
  | nil => exact absurd h (by simp [firstOccurrence?.go])
  | cons c rest ih =>
    rw [firstOccurrence?.go] at h
    split at h
    · next hread =>
      obtain ⟨rfl, rfl, rfl⟩ := by simpa using h
      exact ⟨.refl _, hread⟩
    · obtain ⟨hreaches, hread⟩ := ih _ _ h
      exact ⟨Reader.Reaches.trans ⟨[c], rfl, rfl, rfl⟩ hreaches, hread⟩

end Cfml
