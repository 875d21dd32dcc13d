/-
Where documentation blocks end, and where comments do.

A documentation block is a comment between delimiters whose inside begins with a star. The tokens
and the scan for comments both let it end at the first closing delimiter, but the tokens look for it
behind that star, and the scan looks for it from the star on. So they disagree about the shortest
comment, the star of which belongs to its closing delimiter (`doc_stretch_eq_iff`).
-/
import Cfml.Proofs.Component.Keywords

set_option autoImplicit false

namespace Cfml

open JumpLexer ComponentHead

namespace HeadToken

variable {text rest : List Char} {c : Stretch} {t : HeadToken}

/-- Behind a star that begins no closing delimiter the first one is the same. -/
theorem through_star (hnot : ¬ ['/'] <+: rest) (hclosed : ['*', '/'] <:+: rest) :
    through ['*', '/'] ('*' :: rest) = through ['*', '/'] rest + 1 := by
  have hfirst : List.isPrefixOf ['*', '/'] ('*' :: rest) = false := by
    rw [Bool.eq_false_iff, Ne, List.isPrefixOf_iff_prefix, List.cons_prefix_cons]
    exact fun h => hnot h.2
  cases hdistance : distance? ['*', '/'] rest with
  | none => exact absurd hclosed ((distance?_eq_none_iff (by simp)).mp hdistance)
  | some n => simp [through, distance?, hfirst, hdistance]

theorem through_star_slash : through ['*', '/'] ('*' :: '/' :: rest) = 2 := rfl

/-- What a documentation block takes up. -/
theorem exists_of_mem_tokens (ht : t ∈ tokens text) (hdoc : t.kind.isDoc = true) :
    ∃ front rest, text = front ++ ('/' :: '*' :: '*' :: rest) ∧ ['*', '/'] <:+: rest ∧
      t.stretch.start = front.length ∧
        t.stretch.stop = front.length + 3 + through ['*', '/'] rest := by
  obtain ⟨front, passed, behind, rfl, hstands⟩ := exists_standsAt_of_mem ht
  obtain ⟨inside, hkind⟩ := exists_of_isDoc hdoc
  obtain ⟨rest, hsplit, hclosed, hlater, -⟩ := doc?_eq_some (hstands.doc? hkind)
  have hle := through_le_length ['*', '/'] rest
  have hpassed : passed = ['/', '*', '*'] ++ rest.take (through ['*', '/'] rest) := by
    refine (passing_inj rfl ?_ hlater).1
    rw [List.append_assoc, List.take_append_drop]
    exact hsplit
  refine ⟨front, rest, ?_, hclosed, hstands.start.trans (Nat.zero_add _), ?_⟩
  · rw [show passed ++ behind = _ from hsplit]
    rfl
  · rw [hstands.stop, hpassed, List.length_append, List.length_take, Nat.min_eq_left hle,
      Nat.zero_add, Nat.add_assoc]
    rfl

/-- **A documentation block ends where its comment does, but for the shortest comment.** That one
the tokens take for the start of a longer block, and what stands in it declares nothing. -/
theorem doc_stretch_eq_iff (hc : c ∈ scanComments .script 0 text) (ht : t ∈ tokens text)
    (hdoc : t.kind.isDoc = true) (hstart : t.stretch.start = c.start) :
    (t.stretch = c ↔ ¬ "/**/".toList <+: text.drop c.start) ∧ c.stop ≤ t.stretch.stop ∧
      ∀ word, Declares text word → word.stop ≤ c.start ∨ t.stretch.stop ≤ word.start := by
  have hapart : ∀ word, Declares text word →
      word.stop ≤ c.start ∨ t.stretch.stop ≤ word.start := by
    intro word hword
    rw [← hstart]
    exact apart_of_declares hword ht hdoc
  obtain ⟨front, rest, rfl, hclosed, hplace, hstop⟩ := exists_of_mem_tokens ht hdoc
  rw [hplace] at hstart
  -- the comment is one between delimiters
  rw [scanComments_eq_comments] at hc
  obtain ⟨form, hform, passed, behind, htext, hcomment, hends⟩ :=
    exists_isWritten_of_mem_comments hc
  rw [Nat.zero_add, ← hstart] at hcomment
  obtain ⟨rfl, hbehind⟩ := List.append_inj htext hcomment
  obtain rfl : form = .scriptBlock := by
    have hforms : form = .scriptLine ∨ form = .scriptBlock := by
      simpa [Dialect.comments] using hform
    rcases hforms with rfl | rfl
    · exact absurd (List.cons.inj (List.cons.inj hbehind).2).1 (by decide)
    · rfl
  obtain rfl : '*' :: rest = behind := (List.cons.inj (List.cons.inj hbehind).2).2
  have hends : c.stop = front.length + 2 + through ['*', '/'] ('*' :: rest) := by
    rw [hends, ← hstart, ← Nat.add_assoc]
    rfl
  have hsame : t.stretch = c ↔ t.stretch.stop = c.stop := by
    constructor
    · exact congrArg Stretch.stop
    · intro hsame
      apply Stretch.ends_inj
      rw [Stretch.ends, Stretch.ends, hplace, hstart, hsame]
  have hshortest : "/**/".toList <+: (front ++ ('/' :: '*' :: '*' :: rest)).drop c.start ↔
      ['/'] <+: rest := by
    rw [← hstart, List.drop_left]
    simp [List.cons_prefix_cons]
  rw [hsame, hshortest]
  by_cases hslash : ['/'] <+: rest
  · obtain ⟨rest, rfl⟩ := hslash
    have hlong := ( through_eq_of_infix (by simp) hclosed).length_le
    rw [List.length_take] at hlong
    rw [List.singleton_append, through_star_slash] at hends
    simp only [List.length_cons, List.length_nil] at hlong
    exact ⟨iff_of_false (by omega) (by simp), by omega, hapart⟩
  · rw [through_star hslash hclosed] at hends
    exact ⟨iff_of_true (by omega) hslash, by omega, hapart⟩

/-- Behind the shortest comment a component is not found, though it stands in no comment. -/
theorem doc_stretch_ne_shortest :
    let text := "/**/ component \x7b\x7d /* */".toList
    (∀ c ∈ scanComments .script 0 text, c.stop ≤ 5 ∨ 14 ≤ c.start) ∧
      (text.drop 5).take 9 = "component".toList ∧ find? text = none ∧
      ∃ c ∈ scanComments .script 0 text, ∃ t ∈ tokens text,
        t.kind.isDoc = true ∧ t.stretch.start = c.start ∧ t.stretch ≠ c := by
  intro text
  have hc : (⟨0, 4, by decide⟩ : Stretch) ∈ scanComments .script 0 text := by decide
  have ht : (⟨.doc ⟨3, 21, by decide⟩, 0, 23, by decide⟩ : HeadToken) ∈ tokens text := by decide
  refine ⟨by decide, by decide, by decide, _, hc, _, ht, rfl, rfl, ?_⟩
  rw [Ne, (doc_stretch_eq_iff hc ht rfl rfl).1, not_not]
  decide

end HeadToken

end Cfml
