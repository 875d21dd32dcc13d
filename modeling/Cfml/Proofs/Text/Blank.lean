/-
White space, and texts with white space at the ends.

There are only so many characters of white space (`mem_blankChars`), so what holds of each of them
can be checked one by one. To trim a text leaves a part of it that no white space begins or ends
(`exists_trimRight`, `exists_of_trim`), and what is put around a text is cut off with that in it
(`trim_padded`). A part that the trimmed text ends with is one that the text itself ends with only
if there is nothing to cut off behind it (`suffix_iff_of_suffix_trim`).
-/
import Cfml.Text.Blank
import Mathlib.Data.List.Basic
import Mathlib.Data.List.TakeWhile

set_option autoImplicit false

namespace Cfml

/-! ## One by one -/

theorem RangeTable.exists_of_contains {table : RangeTable} {n : Nat}
    (h : table.contains n = true) : ∃ range ∈ table, range.1 ≤ n ∧ n ≤ range.2 := by
  induction table with
  | nil => exact absurd h (by simp [contains])
  | cons range rest ih =>
    simp only [contains, Bool.and_eq_true, Bool.or_eq_true, decide_eq_true_eq] at h
    obtain ⟨hfirst, hlast | hrest⟩ := h
    · exact ⟨range, List.mem_cons_self, hfirst, hlast⟩
    · obtain ⟨other, hother, hbounds⟩ := ih hrest
      exact ⟨other, List.mem_cons_of_mem range hother, hbounds⟩

/-- The characters of white space, one by one. -/
def blankChars : List Char :=
  blankTable.flatMap fun (first, last) => (List.range' first (last + 1 - first)).map Char.ofNat

theorem mem_blankChars {c : Char} (h : isBlank c = true) : c ∈ blankChars := by
  obtain ⟨⟨first, last⟩, hrange, hfirst, hlast⟩ := RangeTable.exists_of_contains h
  apply List.mem_flatMap.mpr
  refine ⟨(first, last), hrange, List.mem_map.mpr ⟨c.toNat, ?_, Char.ofNat_toNat c⟩⟩
  rw [List.mem_range'_1]
  simp only at hfirst hlast
  omega

variable {before text behind part : List Char}

/-! ## At the end -/

theorem trimRight_prefix (text : List Char) : trimRight text <+: text := by
  rw [trimRight, ← List.reverse_suffix, List.reverse_reverse]
  exact List.dropWhile_suffix _

theorem trimRight_of_getLast? (h : text.getLast?.any isBlank = false) :
    trimRight text = text := by
  rcases List.eq_nil_or_concat' text with rfl | ⟨init, last, rfl⟩
  · rfl
  · rw [List.getLast?_concat, Option.any_some] at h
    rw [trimRight, List.reverse_concat, List.dropWhile_cons_of_neg (by simp [h]),
      ← List.reverse_concat, List.reverse_reverse]

/-- What is trimmed is a start of the text that does not end in white space. -/
theorem exists_trimRight (text : List Char) : (∃ blanks, text = trimRight text ++ blanks) ∧
    (trimRight text).getLast?.any isBlank = false := by
  constructor
  · obtain ⟨blanks, hblanks⟩ := trimRight_prefix text
    exact ⟨blanks, hblanks.symm⟩
  · rw [trimRight, List.getLast?_reverse]
    have hnot := List.head?_dropWhile_not isBlank text.reverse
    cases hhead : (text.reverse.dropWhile isBlank).head? with
    | none => rfl
    | some c =>
      rw [hhead] at hnot
      exact hnot

/-- White space at the start stays if anything else follows. -/
theorem trimRight_append (h : trimRight text ≠ []) :
    trimRight (before ++ text) = before ++ trimRight text := by
  have hne : (text.reverse.dropWhile isBlank).isEmpty = false := by
    rw [Bool.eq_false_iff, Ne, List.isEmpty_iff]
    intro hnil
    exact h (by rw [trimRight, hnil]; rfl)
  rw [trimRight, trimRight, List.reverse_append, List.dropWhile_append, hne]
  simp

theorem trimRight_append_of_isBlank (hbehind : ∀ c ∈ behind, isBlank c = true) :
    trimRight (text ++ behind) = trimRight text := by
  rw [trimRight, List.reverse_append, List.dropWhile_append_of_pos, trimRight]
  simpa using hbehind

theorem trimRight_trimRight (text : List Char) : trimRight (trimRight text) = trimRight text :=
  trimRight_of_getLast? (exists_trimRight text).2

/-! ## At both ends -/

theorem length_trim_le (text : List Char) : (trim text).length ≤ text.length :=
  (length_trimRight_le _).trans (List.dropWhile_suffix isBlank).length_le

/-- What is left of a text without the white space around it stands in it. -/
theorem exists_of_trim (h : trim text ≠ []) :
    ∃ blanks blanks', trimRight text = blanks ++ trim text ∧
      text = trimRight text ++ blanks' := by
  obtain ⟨blanks', hblanks'⟩ := trimRight_prefix text
  refine ⟨text.takeWhile isBlank, blanks', ?_, hblanks'.symm⟩
  rw [trim, ← trimRight_append h, trimLeft, List.takeWhile_append_dropWhile]

/-- White space around a text is cut off with that in it. -/
theorem trim_padded (hbefore : ∀ c ∈ before, isBlank c = true)
    (hbehind : ∀ c ∈ behind, isBlank c = true) : trim (before ++ (text ++ behind)) = trim text := by
  have hleft : trimLeft (before ++ (text ++ behind)) = trimLeft (text ++ behind) :=
    List.dropWhile_append_of_pos hbefore
  rw [trim, hleft, trim, trimLeft, List.dropWhile_append, trimLeft]
  cases hempty : (text.dropWhile isBlank).isEmpty with
  | true =>
    rw [if_pos rfl, List.isEmpty_iff.mp hempty, List.dropWhile_eq_nil_iff.mpr hbehind]
  | false =>
    rw [if_neg Bool.false_ne_true, trimRight_append_of_isBlank hbehind]

theorem not_isBlank_of_trim {c : Char} {rest : List Char} (h : trim (c :: rest) = c :: rest) :
    isBlank c = false := by
  rw [Bool.eq_false_iff]
  intro hblank
  have hlength := congrArg List.length h
  have hright := length_trimRight_le (trimLeft (c :: rest))
  have hleft := (List.dropWhile_suffix isBlank (l := rest)).length_le
  rw [trim] at hlength
  rw [trimLeft, List.dropWhile_cons_of_pos hblank] at hright hlength
  rw [List.length_cons] at hlength
  omega

/-- **A part at the end of the trimmed text is one at the end of the text** exactly if it is empty
or no white space follows it. -/
theorem suffix_iff_of_suffix_trim (h : part <:+ trim text) :
    part <:+ text ↔ part = [] ∨ trimRight text = text := by
  constructor
  · intro hsuffix
    refine or_iff_not_imp_left.mpr fun hne => trimRight_of_getLast? ?_
    -- the part, the trimmed text and the text end with the same character
    have hlast : text.getLast? = (trim text).getLast? := by
      obtain ⟨front, hfront⟩ := hsuffix
      obtain ⟨front', hfront'⟩ := h
      rw [← hfront', ← hfront, List.getLast?_append_of_ne_nil front hne,
        List.getLast?_append_of_ne_nil front' hne]
    rw [hlast]
    exact (exists_trimRight (trimLeft text)).2
  · rintro (rfl | htext)
    · exact List.nil_suffix
    · by_cases hne : trim text = []
      · rw [hne, List.suffix_nil] at h
        rw [h]
        exact List.nil_suffix
      · obtain ⟨blanks, -, hblanks, -⟩ := exists_of_trim hne
        rw [htext] at hblanks
        exact h.trans ⟨blanks, hblanks.symm⟩

end Cfml
