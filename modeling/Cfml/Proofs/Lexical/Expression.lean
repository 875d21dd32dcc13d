/-
Texts that end within an expression.

The rule: an expression is under way behind the last character of a name, and behind a dot with any
white space after it (`EndsInExpression`). `isContinuing` leaves one line feed at the very end of a
text out of account. Behind a dot that changes nothing, since a line feed is white space there like
any other. Behind a name it does: the line is over, and still the answer is that of the name alone.
That is the one kind of text for which answer and rule differ (`isContinuing_iff`).
-/
import Cfml.BackwardCursor
import Cfml.Proofs.Declaration.Header

set_option autoImplicit false

namespace Cfml

/-- The text ends with a character of a name. -/
def EndsInName (text : List Char) : Prop :=
  ∃ front c, isIdentifierPart c = true ∧ text = front ++ [c]

/-- The text ends with a dot and white space. -/
def EndsInAccess (text : List Char) : Prop :=
  ∃ front blanks, (∀ c ∈ blanks, isBlank c = true) ∧ text = front ++ '.' :: blanks

/-- The text ends within an expression. -/
def EndsInExpression (text : List Char) : Prop := EndsInName text ∨ EndsInAccess text

/-- The text ends with a name and one line feed. -/
def EndsInNameLine (text : List Char) : Prop :=
  ∃ front, EndsInName front ∧ text = front ++ ['\n']

variable {text front : List Char} {c : Char}

/-! ## The last character -/

theorem endsInName_concat_iff : EndsInName (front ++ [c]) ↔ isIdentifierPart c = true := by
  constructor
  · rintro ⟨front', c', hc, heq⟩
    obtain ⟨-, rfl⟩ := List.append_singleton_inj.mp heq
    exact hc
  · intro hc
    exact ⟨front, c, hc, rfl⟩

theorem endsInNameLine_concat_iff :
    EndsInNameLine (front ++ [c]) ↔ c = '\n' ∧ EndsInName front := by
  constructor
  · rintro ⟨front', hname, heq⟩
    obtain ⟨rfl, rfl⟩ := List.append_singleton_inj.mp heq
    exact ⟨rfl, hname⟩
  · rintro ⟨rfl, hname⟩
    exact ⟨front, hname, rfl⟩

theorem endsInName_iff_head? :
    EndsInName text ↔ text.reverse.head?.any isIdentifierPart = true := by
  rcases List.eq_nil_or_concat' text with rfl | ⟨front, c, rfl⟩
  · simp [EndsInName]
  · rw [endsInName_concat_iff, List.reverse_concat, List.head?_cons, Option.any_some]

theorem endsInAccess_iff_head? :
    EndsInAccess text ↔ (text.reverse.dropWhile isBlank).head? = some '.' := by
  constructor
  · rintro ⟨front, blanks, hblanks, rfl⟩
    have hskip : (blanks.reverse ++ ('.' :: front.reverse)).dropWhile isBlank
        = '.' :: front.reverse := by
      rw [List.dropWhile_append_of_pos fun c hc => hblanks c (List.mem_reverse.mp hc)]
      exact List.dropWhile_cons_of_neg (by decide)
    rw [List.reverse_append, List.reverse_cons, List.append_assoc, List.singleton_append, hskip,
      List.head?_cons]
  · intro h
    obtain ⟨rest, hrest⟩ := List.head?_eq_some_iff.mp h
    refine ⟨rest.reverse, (text.reverse.takeWhile isBlank).reverse, ?_, ?_⟩
    · intro c hc
      exact List.mem_takeWhile_imp (List.mem_reverse.mp hc)
    · have hsplit := List.takeWhile_append_dropWhile (p := isBlank) (l := text.reverse)
      rw [hrest] at hsplit
      have hreversed := congrArg List.reverse hsplit
      rw [List.reverse_reverse, List.reverse_append, List.reverse_cons, List.append_assoc,
        List.singleton_append] at hreversed
      exact hreversed.symm

/-- What is looked at in front of a line feed at the end, and without one. -/
theorem isContinuing_concat_iff : isContinuing (front ++ [c]) = true ↔
    (if c = '\n' then EndsInName front else isIdentifierPart c = true) ∨
      EndsInAccess (front ++ [c]) := by
  unfold isContinuing
  rw [Bool.or_eq_true, beq_iff_eq, ← endsInAccess_iff_head?, List.reverse_concat]
  apply or_congr_left
  by_cases hc : c = '\n'
  · subst hc
    rw [if_pos rfl, endsInName_iff_head?]
    exact Iff.rfl
  · rw [if_neg hc]
    split
    · next heq => exact absurd (List.cons.inj heq).1 hc
    · rw [List.head?_cons, Option.any_some]

/-! ## Texts that end with a line feed -/

/-- Behind a name and a line feed no expression is under way. -/
theorem not_endsInExpression_of_nameLine (h : EndsInNameLine text) : ¬ EndsInExpression text := by
  obtain ⟨front, ⟨front, c, hc, rfl⟩, rfl⟩ := h
  have hblank : ¬ isBlank c = true := by
    intro hblank
    exact Bool.false_ne_true ((FunctionDecl.not_name_of_isBlank hblank).2.symm.trans hc)
  rintro (hname | haccess)
  · exact absurd (endsInName_concat_iff.mp hname) (by decide)
  · rw [endsInAccess_iff_head?, List.reverse_concat, List.reverse_concat,
      List.dropWhile_cons_of_pos (by decide), List.dropWhile_cons_of_neg hblank,
      List.head?_cons] at haccess
    obtain rfl := Option.some.inj haccess
    exact absurd hc (by decide)

/-- **An expression is taken to be under way just where one is, and behind a name and one line
feed**, where none is. -/
theorem isContinuing_iff (text : List Char) :
    (isContinuing text = true ↔ EndsInExpression text ∨ EndsInNameLine text) ∧
      ¬ (EndsInExpression text ∧ EndsInNameLine text) := by
  refine ⟨?_, fun h => not_endsInExpression_of_nameLine h.2 h.1⟩
  rcases List.eq_nil_or_concat' text with rfl | ⟨front, c, rfl⟩
  · have hnone : ¬ (EndsInExpression [] ∨ EndsInNameLine []) := by
      simp [EndsInExpression, EndsInName, EndsInAccess, EndsInNameLine]
    exact iff_of_false (by decide) hnone
  · rw [isContinuing_concat_iff, EndsInExpression, or_right_comm, endsInName_concat_iff,
      endsInNameLine_concat_iff]
    apply or_congr_left
    by_cases hc : c = '\n'
    · subst hc
      have hfeed : ¬ isIdentifierPart '\n' = true := by decide
      simp [hfeed]
    · simp [hc]

example : isContinuing "name\n".toList = true ∧ isContinuing "name\r\n".toList = false ∧
    isContinuing "name.\r\n".toList = true := by decide

end Cfml
