/-
Text in which brackets nest.

A text is well nested if it is made of plain characters, of string literals, and of groups in
brackets of one kind whose inside is well nested. A separator may stand in a group but not outside
of one. What a literal is differs between readers, so it is a parameter.

A scan that counts brackets sees a group as a counter that goes up and comes down again. Behind the
bracket that it meets first the counters are neither negative nor all zero, and at the other one
they are what they were before the group (`Brackets.IsNonneg.enter`, `Brackets.count_leave`). That
holds in whichever direction the scan goes. So a scan that passes over each part of well nested
text, with the counters it has there, passes over the whole (`WellNested.holds`).
-/
import Cfml.Proofs.Declaration.Fragment

set_option autoImplicit false

namespace Cfml

/-! ## Counters -/

namespace BracketKind

theorem of?_opening (kind : BracketKind) : of? kind.opening = some (kind, true) := by
  cases kind <;> rfl

theorem of?_closing (kind : BracketKind) : of? kind.closing = some (kind, false) := by
  cases kind <;> rfl

theorem eq_of_of? {c : Char} {kind : BracketKind} {opens : Bool} (h : of? c = some (kind, opens)) :
    c = if opens then kind.opening else kind.closing := by
  unfold of? at h
  split at h <;> cases h <;> rfl

end BracketKind

namespace Brackets

/-- No bracket was left that had not been entered. -/
structure IsNonneg (b : Brackets) : Prop where
  braces : 0 ≤ b.braces
  squares : 0 ≤ b.squares
  parens : 0 ≤ b.parens

theorem isNonneg_start : IsNonneg {} := ⟨Int.le_refl 0, Int.le_refl 0, Int.le_refl 0⟩

theorem isBalanced_eq_false_iff {b : Brackets} :
    b.isBalanced = false ↔ b.braces ≠ 0 ∨ b.squares ≠ 0 ∨ b.parens ≠ 0 := by
  rw [isBalanced, Bool.and_eq_false_iff, Bool.and_eq_false_iff, beq_eq_false_iff_ne,
    beq_eq_false_iff_ne, beq_eq_false_iff_ne, or_assoc]

/-- **Within a group some counter is above zero**, and none is below. -/
theorem IsNonneg.enter {b : Brackets} (h : b.IsNonneg) (kind : BracketKind) :
    (b.count kind true).IsNonneg ∧ (b.count kind true).isBalanced = false := by
  obtain ⟨hbraces, hsquares, hparens⟩ := h
  rw [isBalanced_eq_false_iff]
  cases kind with
  | brace =>
    have hup : 0 < b.braces + 1 := by omega
    exact ⟨⟨Int.le_of_lt hup, hsquares, hparens⟩, Or.inl (Int.ne_of_gt hup)⟩
  | square =>
    have hup : 0 < b.squares + 1 := by omega
    exact ⟨⟨hbraces, Int.le_of_lt hup, hparens⟩, Or.inr (Or.inl (Int.ne_of_gt hup))⟩
  | paren =>
    have hup : 0 < b.parens + 1 := by omega
    exact ⟨⟨hbraces, hsquares, Int.le_of_lt hup⟩, Or.inr (Or.inr (Int.ne_of_gt hup))⟩

/-- Behind a group the counters are those before it. -/
theorem count_leave (b : Brackets) (kind : BracketKind) :
    (b.count kind true).count kind false = b := by
  have hdown : ∀ n : Int, n + 1 + -1 = n := by
    intro n
    omega
  cases kind <;> simp only [count, if_true, Bool.false_eq_true, if_false, hdown]

end Brackets

/-! ## Texts -/

/-- Text made of plain characters, literals and groups. In a group, which is what the flag says, the
separator is a plain character. -/
inductive WellNested (IsLiteral : List Char → Prop) (separator : Char) : Bool → List Char → Prop
  | nil {nested : Bool} : WellNested IsLiteral separator nested []
  | plain {nested : Bool} {c : Char} {rest : List Char} (hquote : isQuote c = false)
      (hbracket : BracketKind.of? c = none) (hseparator : nested = true ∨ c ≠ separator)
      (hrest : WellNested IsLiteral separator nested rest) :
      WellNested IsLiteral separator nested (c :: rest)
  | literal {nested : Bool} {literal rest : List Char} (hliteral : IsLiteral literal)
      (hrest : WellNested IsLiteral separator nested rest) :
      WellNested IsLiteral separator nested (literal ++ rest)
  | group {nested : Bool} (kind : BracketKind) {inside rest : List Char}
      (hinside : WellNested IsLiteral separator true inside)
      (hrest : WellNested IsLiteral separator nested rest) :
      WellNested IsLiteral separator nested (kind.opening :: (inside ++ kind.closing :: rest))

/-- The property of counters and text holds of the parts that well nested text is made of. In a
group it has to hold with the bracket counted. -/
structure HoldsOfParts (IsLiteral : List Char → Prop) (separator : Char)
    (P : Brackets → List Char → Prop) : Prop where
  nil : ∀ b, P b []
  append : ∀ {b text text'}, P b text → P b text' → P b (text ++ text')
  plain : ∀ {b c}, isQuote c = false → BracketKind.of? c = none →
    (b.isBalanced = false ∨ c ≠ separator) → P b [c]
  literal : ∀ {b text}, IsLiteral text → P b text
  group : ∀ {b text} (kind : BracketKind), b.IsNonneg → P (b.count kind true) text →
    P b (kind.opening :: (text ++ [kind.closing]))

/-- **Induction on well nested text, with its counters**: those are never below zero, and in a group
not all of them are zero. -/
theorem WellNested.holds {IsLiteral : List Char → Prop} {separator : Char} {nested : Bool}
    {text : List Char} {P : Brackets → List Char → Prop}
    (hparts : HoldsOfParts IsLiteral separator P) (h : WellNested IsLiteral separator nested text)
    {b : Brackets} (hnonneg : b.IsNonneg) (hnested : nested = true → b.isBalanced = false) :
    P b text := by
  induction h generalizing b with
  | nil => exact hparts.nil b
  | plain hquote hbracket hplain _ ih =>
    exact hparts.append (hparts.plain hquote hbracket (hplain.imp hnested id)) (ih hnonneg hnested)
  | literal hliteral _ ih => exact hparts.append (hparts.literal hliteral) (ih hnonneg hnested)
  | group kind _ _ ih ih' =>
    obtain ⟨hnonneg', hbalanced⟩ := hnonneg.enter kind
    have h := hparts.append (hparts.group kind hnonneg (ih hnonneg' fun _ => hbalanced))
      (ih' hnonneg hnested)
    rw [List.cons_append, List.append_assoc] at h
    exact h

end Cfml
