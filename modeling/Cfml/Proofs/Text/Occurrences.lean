/-
The occurrences of a pattern, by what is written.

`occurrences` is a search from left to right. Here its result is described without the search: at
every occurrence the pattern is read, occurrences follow each other, and at a place that no
occurrence takes up the pattern is not read (`isRead_of_mem_occurrences`, `nothingBeside`). A list
of which all this is true is the list of the occurrences (`occurrences_eq_of_isRead`), so the
occurrences in a text that has been changed can be found from those in the text before.
-/
import Cfml.Proofs.Text.Reading

set_option autoImplicit false

namespace Cfml

variable {α : Type} {pattern : Pattern α} {r later : Reader}

/-- A place is reached by passing over the text before it. -/
theorem Reader.Reaches.exists_passing (h : r.Reaches later) :
    ∃ passed, r.ahead = passed ++ later.ahead ∧ later = r.passing passed later.ahead := by
  obtain ⟨passed, hahead, hoffset, hbefore⟩ := h
  obtain ⟨offset, before, ahead⟩ := later
  obtain rfl : offset = _ := hoffset
  obtain rfl : before = _ := hbefore
  exact ⟨passed, hahead, rfl⟩

/-- The pattern is read where the occurrence starts, and gives its value and its end. -/
def Occurrence.IsRead (pattern : Pattern α) (r : Reader) (o : Occurrence α) : Prop :=
  ∃ passed rest later, r.ahead = passed ++ rest ∧ rest ≠ [] ∧
    o.start = r.offset + passed.length ∧
    pattern.read (r.passing passed rest) = some (o.value, later) ∧ o.stop = later.offset

/-- The place does not lie in the occurrence. -/
def Occurrence.Spares (o : Occurrence α) (place : Nat) : Prop :=
  place < o.start ∨ (o.start < place ∧ o.stop ≤ place)

/-- The pattern is not read at a place that all the occurrences spare. -/
def NothingBeside (pattern : Pattern α) (r : Reader) (found : List (Occurrence α)) : Prop :=
  ∀ passed rest, r.ahead = passed ++ rest → rest ≠ [] →
    (∀ o ∈ found, o.Spares (r.offset + passed.length)) →
    pattern.read (r.passing passed rest) = none

variable {front back : List Char} {o : Occurrence α} {found : List (Occurrence α)}

/-- What is read behind a text is read in the whole. -/
theorem Occurrence.IsRead.of_passing (hahead : r.ahead = front ++ back)
    (h : o.IsRead pattern (r.passing front back)) : o.IsRead pattern r := by
  obtain ⟨passed, rest, later, hback, hne, hstart, hread, hstop⟩ := h
  obtain rfl : back = passed ++ rest := hback
  rw [Reader.offset_passing] at hstart
  rw [Reader.passing_passing] at hread
  refine ⟨front ++ passed, rest, later, ?_, hne, ?_, hread, hstop⟩
  · rw [hahead, List.append_assoc]
  · rw [hstart, List.length_append, Nat.add_assoc]

/-- What is read in the whole and starts behind a text is read behind it. -/
theorem Occurrence.IsRead.passing (hahead : r.ahead = front ++ back)
    (hle : r.offset + front.length ≤ o.start) (h : o.IsRead pattern r) :
    o.IsRead pattern (r.passing front back) := by
  obtain ⟨passed, rest, later, hwhole, hne, hstart, hread, hstop⟩ := h
  have hprefix : front <+: passed := by
    have hfront : front <+: r.ahead := hahead ▸ List.prefix_append _ _
    have hpassed : passed <+: r.ahead := hwhole ▸ List.prefix_append _ _
    exact List.prefix_of_prefix_length_le hfront hpassed (by omega)
  obtain ⟨more, rfl⟩ := hprefix
  refine ⟨more, rest, later, ?_, hne, ?_, ?_, hstop⟩
  · rw [hwhole, List.append_assoc] at hahead
    exact (List.append_cancel_left hahead).symm
  · rw [hstart, List.length_append, Reader.offset_passing]
    omega
  · rw [Reader.passing_passing]
    exact hread

theorem NothingBeside.passing (hahead : r.ahead = front ++ back)
    (h : NothingBeside pattern r (o :: found)) (hstart : o.start < r.offset + front.length)
    (hstop : o.stop ≤ r.offset + front.length) :
    NothingBeside pattern (r.passing front back) found := by
  intro passed rest hback hne hspares
  obtain rfl : back = passed ++ rest := hback
  rw [Reader.passing_passing]
  apply h
  · rw [hahead, List.append_assoc]
  · exact hne
  · intro o' ho'
    rw [List.length_append, ← Nat.add_assoc]
    rcases List.mem_cons.mp ho' with rfl | ho'
    · right
      omega
    · exact hspares o' ho'

/-! ## What the search finds -/

/-- At an occurrence the pattern was read. -/
theorem isRead_of_mem_occurrencesFrom (skip offset : Nat) (before : Option Char)
    (text : List Char) : ∀ o ∈ occurrencesFrom pattern skip offset before text,
      o.IsRead pattern ⟨offset, before, text⟩ := by
  induction text generalizing skip offset before with
  | nil => simp [occurrencesFrom]
  | cons c rest ih =>
    -- what is found further on is found behind the first character
    have hbehind : ∀ skip, ∀ o ∈ occurrencesFrom pattern skip (offset + 1) (some c) rest,
        o.IsRead pattern ⟨offset, before, c :: rest⟩ := by
      intro skip o ho
      have hwhole : (⟨offset, before, c :: rest⟩ : Reader).ahead = [c] ++ rest := rfl
      exact Occurrence.IsRead.of_passing hwhole (ih skip _ _ o ho)
    intro o ho
    unfold occurrencesFrom at ho
    split at ho
    · exact hbehind _ o ho
    · split at ho
      · exact hbehind _ o ho
      · next hread =>
        rcases List.mem_cons.mp ho with rfl | ho
        · exact ⟨[], c :: rest, _, rfl, List.cons_ne_nil c rest, rfl, hread, rfl⟩
        · exact hbehind _ o ho

/-- **Occurrences are read.** -/
theorem isRead_of_mem_occurrences (h : o ∈ occurrences pattern r) : o.IsRead pattern r :=
  isRead_of_mem_occurrencesFrom 0 r.offset r.before r.ahead o h

theorem exists_place_of_mem_occurrences (h : o ∈ occurrences pattern r) :
    ∃ place later, r.Reaches place ∧ place.offset = o.start ∧
      pattern.read place = some (o.value, later) := by
  obtain ⟨passed, rest, later, hahead, -, hstart, hread, -⟩ := isRead_of_mem_occurrences h
  exact ⟨r.passing passed rest, later, ⟨passed, hahead, rfl, rfl⟩, hstart.symm, hread⟩

/-- They lie in what is ahead. -/
theorem occurrences_within (h : o ∈ occurrences pattern r) :
    r.offset ≤ o.start ∧ o.stop ≤ r.offset + r.ahead.length :=
  occurrencesFrom_within pattern 0 r.offset r.before r.ahead o h

theorem occurrencesFrom_pairwise_start (skip offset : Nat) (before : Option Char)
    (text : List Char) : (occurrencesFrom pattern skip offset before text).Pairwise
      fun o o' => o.start < o'.start := by
  induction text generalizing skip offset before with
  | nil => exact List.Pairwise.nil
  | cons c rest ih =>
    unfold occurrencesFrom
    split
    · exact ih _ _ _
    · split
      · exact ih _ _ _
      · apply List.Pairwise.cons _ (ih _ _ _)
        intro o ho
        have hbehind := (occurrencesFrom_within _ _ _ _ _ o ho).1
        simp only
        omega

/-- Each one starts behind the starts of those before it, whether these are empty or not. -/
theorem occurrences_pairwise_start (pattern : Pattern α) (r : Reader) :
    (occurrences pattern r).Pairwise fun o o' => o.start < o'.start :=
  occurrencesFrom_pairwise_start 0 r.offset r.before r.ahead

theorem occurrencesFrom_spares (skip offset : Nat) (before : Option Char) (text : List Char)
    {passed rest : List Char} (htext : text = passed ++ rest) (hne : rest ≠ [])
    (hskip : skip ≤ passed.length)
    (hspares : ∀ o ∈ occurrencesFrom pattern skip offset before text,
      o.Spares (offset + passed.length)) :
    pattern.read (Reader.passing ⟨offset, before, text⟩ passed rest) = none := by
  induction text generalizing skip offset before passed with
  | nil => exact absurd (List.append_eq_nil_iff.mp htext.symm).2 hne
  | cons c text ih =>
    unfold occurrencesFrom at hspares
    cases passed with
    | nil =>
      obtain rfl : rest = c :: text := htext.symm
      obtain rfl : skip = 0 := Nat.le_zero.mp hskip
      simp only at hspares
      split at hspares
      · next hread => exact hread
      -- an occurrence here would not spare the place
      · rcases hspares _ List.mem_cons_self with hlt | ⟨hlt, -⟩
        · exact absurd hlt (Nat.lt_irrefl _)
        · exact absurd hlt (Nat.lt_irrefl _)
    | cons d passed =>
      obtain ⟨rfl, htail⟩ := List.cons.inj htext
      have hplace : offset + (c :: passed).length = offset + 1 + passed.length := by
        rw [List.length_cons]
        omega
      rw [List.length_cons] at hskip
      rw [hplace] at hspares
      have hread : ∀ skip, skip ≤ passed.length →
          (∀ o ∈ occurrencesFrom pattern skip (offset + 1) (some c) text,
            o.Spares (offset + 1 + passed.length)) →
          pattern.read (Reader.passing ⟨offset, before, c :: text⟩ (c :: passed) rest) = none := by
        intro skip hle hrest
        rw [← ih skip (offset + 1) (some c) htail hle hrest]
        exact congrArg pattern.read
          (Reader.passing_passing ⟨offset, before, c :: text⟩ [c] passed text rest).symm
      split at hspares
      · exact hread _ (by omega) hspares
      · split at hspares
        · exact hread 0 (Nat.zero_le _) hspares
        -- the search goes on behind the occurrence, which does not reach to the place
        · have hhere := hspares _ List.mem_cons_self
          refine hread _ ?_ fun o ho => hspares o (List.mem_cons_of_mem _ ho)
          rcases hhere with hlt | ⟨-, hle⟩
          · simp only at hlt
            omega
          · simp only at hle
            omega

/-- **Nothing is missed.** -/
theorem nothingBeside_occurrences (pattern : Pattern α) (r : Reader) :
    NothingBeside pattern r (occurrences pattern r) := by
  intro passed rest hahead hne hspares
  exact occurrencesFrom_spares 0 r.offset r.before r.ahead hahead hne (Nat.zero_le _) hspares

/-! ## The search determined -/

/-- A pattern that is read nowhere has no occurrences. -/
theorem occurrences_eq_nil (h : pattern.Misses r r.ahead []) : occurrences pattern r = [] := by
  rw [occurrences_append (List.append_nil _).symm h]
  rfl

/-- The search finds the first occurrence, and goes on behind it. -/
theorem occurrences_eq_cons_of_isRead (hpos : o.start < o.stop) (hread : o.IsRead pattern r)
    (hbefore : ∀ front back, r.ahead = front ++ back → back ≠ [] →
      r.offset + front.length < o.start → pattern.read (r.passing front back) = none) :
    ∃ front back, r.ahead = front ++ back ∧ o.stop = r.offset + front.length ∧
      occurrences pattern r = o :: occurrences pattern (r.passing front back) := by
  obtain ⟨passed, rest, later, hahead, hne, hstart, hread, hstop⟩ := hread
  obtain ⟨inside, hinside, hlater⟩ := (pattern.forward hread).exists_passing
  obtain rfl : rest = inside ++ later.ahead := hinside
  have hlength : o.stop = o.start + inside.length := by
    rw [hstop, hlater, hstart]
    rfl
  have hmisses : pattern.Misses r passed (inside ++ later.ahead) := by
    intro front back hne' hsplit
    have := List.length_pos_of_ne_nil hne'
    apply hbefore front (back ++ (inside ++ later.ahead))
    · rw [hahead, hsplit, List.append_assoc]
    · simp [hne']
    · rw [hstart, hsplit, List.length_append]
      omega
  obtain ⟨c, more, rfl⟩ : ∃ c more, inside = c :: more := by
    apply List.exists_cons_of_ne_nil
    rintro rfl
    rw [List.length_nil] at hlength
    omega
  have hhere := occurrences_eq_cons (r := r.passing passed (c :: more ++ later.ahead)) rfl
    (hread.trans (by rw [← hlater]))
  refine ⟨passed ++ (c :: more), later.ahead, ?_, ?_, ?_⟩
  · rw [hahead, List.append_assoc]
  · rw [hlength, hstart, List.length_append, Nat.add_assoc]
  · rw [occurrences_append hahead hmisses, hhere, Reader.passing_passing]
    apply congrArg (· :: _)
    obtain ⟨start, stop, value, hle⟩ := o
    obtain rfl : start = r.offset + passed.length := hstart
    obtain rfl : stop = r.offset + passed.length + (c :: more).length := hlength
    rfl

/-- **What the search finds is determined.** If the pattern is read at each of the occurrences in a
list, none of them is empty, they follow each other, and the pattern is not read beside them, then
they are the occurrences. -/
theorem occurrences_eq_of_isRead (hpos : ∀ o ∈ found, o.start < o.stop)
    (hread : ∀ o ∈ found, o.IsRead pattern r)
    (hapart : found.Pairwise fun o o' => o.stop ≤ o'.start)
    (hnone : NothingBeside pattern r found) : occurrences pattern r = found := by
  induction found generalizing r with
  | nil =>
    apply occurrences_eq_nil
    intro front back hne hsplit
    rw [List.append_nil]
    exact hnone front back hsplit hne (by simp)
  | cons o found ih =>
    obtain ⟨hpos, hpos'⟩ := List.forall_mem_cons.mp hpos
    obtain ⟨hread, hread'⟩ := List.forall_mem_cons.mp hread
    obtain ⟨hfirst, hapart⟩ := List.pairwise_cons.mp hapart
    -- all the others start behind the first one
    have hbefore : ∀ front back, r.ahead = front ++ back → back ≠ [] →
        r.offset + front.length < o.start → pattern.read (r.passing front back) = none := by
      intro front back hahead hne hlt
      apply hnone front back hahead hne
      intro o' ho'
      left
      rcases List.mem_cons.mp ho' with rfl | ho'
      · exact hlt
      · have := hfirst o' ho'
        omega
    obtain ⟨front, back, hahead, hstop, heq⟩ := occurrences_eq_cons_of_isRead hpos hread hbefore
    rw [heq]
    apply congrArg (o :: ·)
    apply ih hpos'
    · intro o' ho'
      exact (hread' o' ho').passing hahead (hstop ▸ hfirst o' ho')
    · exact hapart
    · exact hnone.passing hahead (by omega) (by omega)

/-- **A pattern that holds at fewer places has fewer occurrences.** The other pattern is read at the
occurrences that are kept, in none of those that are not, and nowhere beside all of them. -/
theorem occurrences_filter {other : Pattern α} (keep : Occurrence α → Bool)
    (hpos : ∀ o ∈ occurrences pattern r, o.start < o.stop)
    (hkept : ∀ o ∈ occurrences pattern r, keep o = true → o.IsRead other r)
    (hdropped : ∀ o ∈ occurrences pattern r, keep o = false → ∀ passed rest,
      r.ahead = passed ++ rest → rest ≠ [] → o.start ≤ r.offset + passed.length →
        r.offset + passed.length < o.stop → other.read (r.passing passed rest) = none)
    (hbeside : ∀ passed rest, r.ahead = passed ++ rest → rest ≠ [] →
      pattern.read (r.passing passed rest) = none → other.read (r.passing passed rest) = none) :
    occurrences other r = (occurrences pattern r).filter keep := by
  apply occurrences_eq_of_isRead
  · exact fun o ho => hpos o (List.mem_of_mem_filter ho)
  · intro o ho
    obtain ⟨ho, hkeep⟩ := List.mem_filter.mp ho
    exact hkept o ho hkeep
  · exact (occurrencesFrom_pairwise pattern 0 r.offset r.before r.ahead).filter keep
  · intro passed rest hahead hne hspares
    by_cases hall : ∀ o ∈ occurrences pattern r, o.Spares (r.offset + passed.length)
    · exact hbeside passed rest hahead hne (nothingBeside_occurrences pattern r _ _ hahead hne hall)
    -- the place is in an occurrence, which has not been kept
    · push Not at hall
      obtain ⟨o, ho, hin⟩ := hall
      have hkeep : keep o = false := by
        apply eq_false_of_ne_true
        intro hkeep
        exact hin (hspares o (List.mem_filter.mpr ⟨ho, hkeep⟩))
      have hpos := hpos o ho
      unfold Occurrence.Spares at hin
      exact hdropped o ho hkeep passed rest hahead hne (by omega) (by omega)

/-- Patterns that are read alike at all places ahead have the same occurrences. -/
theorem occurrences_congr {other : Pattern α}
    (hpos : ∀ o ∈ occurrences pattern r, o.start < o.stop)
    (hread : ∀ passed rest, r.ahead = passed ++ rest → rest ≠ [] →
      other.read (r.passing passed rest) = pattern.read (r.passing passed rest)) :
    occurrences other r = occurrences pattern r := by
  have hfilter := @occurrences_filter _ pattern r other (fun _ => true) hpos ?_ ?_ ?_
  · rwa [List.filter_true] at hfilter
  · intro o ho _
    obtain ⟨passed, rest, later, hahead, hne, hstart, hvalue, hstop⟩ := isRead_of_mem_occurrences ho
    have hother := (hread passed rest hahead hne).trans hvalue
    exact ⟨passed, rest, later, hahead, hne, hstart, hother, hstop⟩
  · exact fun o _ hkeep => Bool.noConfusion hkeep
  · exact fun passed rest hahead hne hnone => (hread passed rest hahead hne).trans hnone

end Cfml
