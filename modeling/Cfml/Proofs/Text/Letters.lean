/-
The ways to write a letter.

Whether two characters are the same letter is a question about all the characters there are, but for
any one letter it is answered yes by a few only. `writings` lists them (`mem_writings`), so what is
said of a letter in every case can be checked one writing after the other.
-/
import Cfml.Proofs.Text.Reading

set_option autoImplicit false

namespace Cfml

/-- The code points that are lower-cased to the given one, or that may be. -/
def lowerSources (code : Nat) : List Nat :=
  code :: lowerRuns.filterMap fun run =>
    let source := ((code : Int) - run.shift).toNat
    if run.first ≤ source && source ≤ run.last then some source else none

/-- The lower-case letters that are the same letter as the character. -/
def lowerClass (c : Char) : List Char :=
  lowerChar c :: (caseClasses.filter fun letters => letters.contains (lowerChar c)).flatten

/-- The characters that may be the same letter as the given one. -/
def writings (c : Char) : List Char :=
  (lowerClass c).flatMap fun letter => (lowerSources letter.toNat).map Char.ofNat

/-- Lower-casing leaves a code point as it is, or moves it by the distance of a run it is in. -/
theorem lowerCode_cases (runs : List CaseRun) (n : Nat) : lowerCode runs n = n ∨
    ∃ run ∈ runs, run.first ≤ n ∧ n ≤ run.last ∧ lowerCode runs n = (n + run.shift).toNat := by
  induction runs with
  | nil => exact Or.inl rfl
  | cons run runs ih =>
    rw [lowerCode]
    split
    · exact Or.inl rfl
    · next hfirst =>
      split
      · next hrun =>
        simp only [Bool.and_eq_true, decide_eq_true_eq] at hrun
        exact Or.inr ⟨run, List.mem_cons_self, Nat.le_of_not_lt hfirst, hrun.1, rfl⟩
      · rcases ih with hsame | ⟨other, hother, hbounds⟩
        · exact Or.inl hsame
        · exact Or.inr ⟨other, List.mem_cons_of_mem run hother, hbounds⟩

theorem toNat_ofNat (n : Nat) : (Char.ofNat n).toNat = n ∨ (Char.ofNat n).toNat = 0 := by
  by_cases h : n.isValidChar
  · rw [Char.ofNat, dif_pos h]
    exact Or.inl rfl
  · rw [Char.ofNat, dif_neg h]
    exact Or.inr rfl

theorem mem_lowerSources {n code : Nat} (hcode : 0 < code) (h : lowerCode lowerRuns n = code) :
    n ∈ lowerSources code := by
  rcases lowerCode_cases lowerRuns n with hsame | ⟨run, hrun, hfirst, hlast, hmoved⟩
  · rw [← h, hsame]
    exact List.mem_cons_self
  · apply List.mem_cons_of_mem
    have hsource : ((code : Int) - run.shift).toNat = n := by omega
    refine List.mem_filterMap.mpr ⟨run, hrun, ?_⟩
    simp only [hsource, Bool.and_eq_true, decide_eq_true_eq, Option.ite_none_right_eq_some,
      and_true]
    exact ⟨hfirst, hlast⟩

/-- **A letter is written in one of these ways.** -/
theorem mem_writings {c d : Char} (hclass : ∀ letter ∈ lowerClass c, 0 < letter.toNat)
    (h : sameLetter c d = true) : d ∈ writings c := by
  have hlower : lowerChar d ∈ lowerClass c := by
    simp only [sameLetter, Bool.or_eq_true, beq_iff_eq, List.any_eq_true, Bool.and_eq_true,
      List.contains_iff_mem] at h
    rcases h with heq | ⟨letters, hletters, hc, hd⟩
    · rw [← heq]
      exact List.mem_cons_self
    · apply List.mem_cons_of_mem
      refine List.mem_flatten.mpr ⟨letters, List.mem_filter.mpr ⟨hletters, ?_⟩, hd⟩
      rwa [List.contains_iff_mem]
  refine List.mem_flatMap.mpr ⟨lowerChar d, hlower, List.mem_map.mpr ⟨d.toNat, ?_, ?_⟩⟩
  · apply mem_lowerSources (hclass _ hlower)
    -- a code point without a character would have become the one of zero
    have hpos := hclass _ hlower
    rw [lowerChar] at hpos ⊢
    have hcode := toNat_ofNat (lowerCode lowerRuns d.toNat)
    omega
  · exact Char.ofNat_toNat d

/-! ## The letters of keywords -/

/-- The letters of the words that declare something, and of the tag that does. -/
def keywordLetters : List Char := "component".toList ++ "interface".toList ++ ['c', 'f']

/-- In every case they are characters of identifiers. -/
theorem isIdentifierPart_of_sameLetter {c d : Char} (hc : c ∈ keywordLetters)
    (h : sameLetter c d = true) : isIdentifierPart d = true := by
  have hclass : ∀ c ∈ keywordLetters, ∀ letter ∈ lowerClass c, 0 < letter.toNat := by
    decide +kernel
  have hall : ∀ c ∈ keywordLetters, ∀ d ∈ writings c, isIdentifierPart d = true := by
    decide +kernel
  exact hall c hc d (mem_writings (hclass c hc) h)

/-- No two different ones are written the same. -/
theorem eq_of_sameLetter {c c' d : Char} (hc : c ∈ keywordLetters) (hc' : c' ∈ keywordLetters)
    (h : sameLetter c d = true) (h' : sameLetter c' d = true) : c = c' := by
  have hclass : ∀ c ∈ keywordLetters, ∀ letter ∈ lowerClass c, 0 < letter.toNat := by
    decide +kernel
  have hall : ∀ c ∈ keywordLetters, ∀ c' ∈ keywordLetters, ∀ d ∈ writings c,
      sameLetter c' d = true → c = c' := by
    decide +kernel
  exact hall c hc c' hc' d (mem_writings (hclass c hc) h) h'

end Cfml
