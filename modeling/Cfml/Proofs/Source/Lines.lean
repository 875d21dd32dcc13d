/-
Texts with the same line breaks.

The lines of a text are decided by its line breaks alone. Two texts of one length that have the same
line breaks at the same places are cut into lines of the same lengths, so an offset has the same
position in both, and a position the same offset. Within a line the positions count the characters
(`Source.position_succ`).
-/
import Cfml.Proofs.Source.Position
import Mathlib.Data.List.Forall2

set_option autoImplicit false

namespace Cfml

/-- The texts have one length, and where one of them has a line break the other one has the same. -/
def SameBreaks (text text' : List Char) : Prop :=
  List.Forall₂ (fun c d => isLineBreak c = true ∨ isLineBreak d = true → c = d) text text'

theorem SameBreaks.length_eq {text text' : List Char} (h : SameBreaks text text') :
    text.length = text'.length := List.Forall₂.length_eq h

theorem SameBreaks.refl (text : List Char) : SameBreaks text text := by
  unfold SameBreaks
  rw [List.forall₂_same]
  intro c _ _
  rfl

/-- They have the same line breaks. -/
theorem SameBreaks.mem {text text' : List Char} (h : SameBreaks text text') {c : Char}
    (hc : isLineBreak c = true) (hmem : c ∈ text) : c ∈ text' := by
  induction h with
  | nil => exact hmem
  | cons hsame _ ih =>
    rcases List.mem_cons.mp hmem with rfl | hmem
    · rw [hsame (Or.inl hc)]
      exact List.mem_cons_self
    · exact List.mem_cons_of_mem _ (ih hmem)

namespace Line

/-- The lines have texts of one length and end in the same way. -/
def SameShape (l m : Line) : Prop := l.text.length = m.text.length ∧ l.ending = m.ending

theorem SameShape.width_eq {l m : Line} (h : l.SameShape m) : l.width = m.width := by
  rw [width, width, h.1, h.2]

/-- A character other than a line break is put before the first line. -/
theorem split_cons {c : Char} (h : isLineBreak c = false) (rest : List Char) :
    split (c :: rest) = consFirst c (split rest) := by
  have hreturn : c ≠ '\r' := by
    rintro rfl
    exact absurd h (by decide)
  have hfeed : c ≠ '\n' := by
    rintro rfl
    exact absurd h (by decide)
  rw [split]
  · intro _ hc
    exact absurd hc hreturn
  · exact hreturn
  · exact hfeed

theorem SameShape.consFirst {lines lines' : List Line} (c d : Char)
    (h : List.Forall₂ SameShape lines lines') :
    List.Forall₂ SameShape (consFirst c lines) (consFirst d lines') := by
  cases h with
  | nil => exact .cons ⟨rfl, rfl⟩ .nil
  | cons hfirst hrest =>
    obtain ⟨hlength, hending⟩ := hfirst
    refine .cons ⟨?_, hending⟩ hrest
    simp only [List.length_cons, hlength]

/-- **The lines are decided by the line breaks.** -/
theorem forall₂_split {text text' : List Char} (h : SameBreaks text text') :
    List.Forall₂ SameShape (split text) (split text') := by
  fun_induction split text generalizing text' with
  | case1 =>
    obtain rfl := List.forall₂_nil_left_iff.mp h
    exact .cons ⟨rfl, rfl⟩ .nil
  | case2 rest ih =>
    obtain ⟨_, _, hreturn, htail, rfl⟩ := List.forall₂_cons_left_iff.mp h
    obtain ⟨_, rest', hfeed, hrest, rfl⟩ := List.forall₂_cons_left_iff.mp htail
    obtain rfl := hreturn (Or.inl rfl)
    obtain rfl := hfeed (Or.inl rfl)
    exact .cons ⟨rfl, rfl⟩ (ih hrest)
  | case3 rest hnot ih =>
    obtain ⟨_, rest', hreturn, hrest, rfl⟩ := List.forall₂_cons_left_iff.mp h
    obtain rfl := hreturn (Or.inl rfl)
    -- nor does a line feed follow in the other text
    have hnot' : ∀ back, rest' = '\n' :: back → False := by
      rintro back rfl
      obtain ⟨_, front, hfeed, -, rfl⟩ := List.forall₂_cons_right_iff.mp hrest
      obtain rfl := hfeed (Or.inr rfl)
      exact hnot front rfl
    rw [split]
    · exact .cons ⟨rfl, rfl⟩ (ih hrest)
    · exact hnot'
  | case4 rest ih =>
    obtain ⟨_, rest', hfeed, hrest, rfl⟩ := List.forall₂_cons_left_iff.mp h
    obtain rfl := hfeed (Or.inl rfl)
    exact .cons ⟨rfl, rfl⟩ (ih hrest)
  | case5 c rest _ hreturn hfeed ih =>
    obtain ⟨d, rest', hsame, hrest, rfl⟩ := List.forall₂_cons_left_iff.mp h
    have hd : isLineBreak d = false := by
      apply eq_false_of_ne_true
      intro hbreak
      obtain rfl := hsame (Or.inr hbreak)
      rcases Bool.or_eq_true_iff.mp hbreak with heq | heq
      · exact hreturn (beq_iff_eq.mp heq)
      · exact hfeed (beq_iff_eq.mp heq)
    rw [split_cons hd]
    exact SameShape.consFirst c d (ih hrest)

variable {lines lines' : List Line}

theorem locate_of_sameShape (h : List.Forall₂ SameShape lines lines') (o : Nat) :
    locate lines o = locate lines' o := by
  induction h generalizing o with
  | nil => rfl
  | cons hfirst hrest ih =>
    cases hrest with
    | nil => rw [locate, locate, hfirst.1]
    | cons hsecond hrest =>
      rw [locate_cons _ (List.cons_ne_nil _ _), locate_cons _ (List.cons_ne_nil _ _),
        hfirst.width_eq, hfirst.1, ih]

theorem offset_of_sameShape (h : List.Forall₂ SameShape lines lines') (n character : Nat) :
    offset lines n character = offset lines' n character := by
  induction h generalizing n with
  | nil => rfl
  | cons hfirst hrest ih =>
    cases n with
    | zero => rw [offset, offset, hfirst.1]
    | succ n => rw [offset, offset, hfirst.width_eq, ih]

theorem any_getElem?_of_sameShape (h : List.Forall₂ SameShape lines lines') (n : Nat)
    (p : Nat → Bool) :
    (lines[n]?.any fun l => p l.text.length) = lines'[n]?.any fun l => p l.text.length := by
  induction h generalizing n with
  | nil => rfl
  | cons hfirst hrest ih =>
    cases n with
    | zero => simp only [List.getElem?_cons_zero, Option.any_some, hfirst.1]
    | succ n =>
      rw [List.getElem?_cons_succ, List.getElem?_cons_succ]
      exact ih n

/-! ### Within a line -/

/-- Behind the first line a character further is one in the lines behind it. -/
theorem locate_cons_succ {l : Line} {w o : Nat} (hwidth : l.width = w) {rest : List Line}
    (hne : rest ≠ []) (h : locate rest (o + 1) = ((locate rest o).1, (locate rest o).2 + 1)) :
    locate (l :: rest) (o + w + 1)
      = ((locate (l :: rest) (o + w)).1, (locate (l :: rest) (o + w)).2 + 1) := by
  have hback : o + w + 1 - w = o + 1 := by omega
  rw [locate_cons l hne, locate_cons l hne, hwidth, if_neg (by omega), if_neg (by omega),
    Nat.add_sub_cancel, hback, h]

/-- Behind a character that ends no line the place is one character further. -/
theorem locate_split_succ (text : List Char) {o : Nat} {c : Char} (h : text[o]? = some c)
    (hc : isLineBreak c = false) :
    locate (split text) (o + 1)
      = ((locate (split text) o).1, (locate (split text) o).2 + 1) := by
  -- the character is none of those that end a line
  have hfirst : ∀ {d : Char}, some d = some c → isLineBreak d = true → False := by
    intro d heq hd
    obtain rfl := Option.some.inj heq
    exact Bool.false_ne_true (hc.symm.trans hd)
  fun_induction split text generalizing o with
  | case1 => exact absurd h (by simp)
  | case2 rest ih =>
    rcases o with _ | _ | o
    · exact (hfirst h (by decide)).elim
    · exact (hfirst h (by decide)).elim
    · exact locate_cons_succ (w := 2) rfl (split_ne_nil rest) (ih h)
  | case3 rest _ ih =>
    rcases o with _ | o
    · exact (hfirst h (by decide)).elim
    · exact locate_cons_succ (w := 1) rfl (split_ne_nil rest) (ih h)
  | case4 rest ih =>
    rcases o with _ | o
    · exact (hfirst h (by decide)).elim
    · exact locate_cons_succ (w := 1) rfl (split_ne_nil rest) (ih h)
  | case5 d rest _ hreturn hfeed ih =>
    rcases o with _ | o
    · have hstart := locate_split_zero (d :: rest)
      rw [split_cons (isLineBreak_eq_false_iff.mpr ⟨hreturn, hfeed⟩)] at hstart
      rw [locate_consFirst d (split_ne_nil rest), hstart, locate_split_zero]
      rfl
    · rw [locate_consFirst d (split_ne_nil rest), locate_consFirst d (split_ne_nil rest), ih h]
      exact congrArg _ (Nat.add_right_comm _ _ _)

end Line

/-! ## Sources -/

namespace Source

/-- Behind a character that ends no line the position is one character further. -/
theorem position_succ (src : Source) {o : Nat} {c : Char} (h : src.text[o]? = some c)
    (hc : isLineBreak c = false) : src.position (o + 1) = (src.position o).shift 0 1 := by
  rw [position, position, src.lines_eq, Line.locate_split_succ src.text h hc]
  apply Position.eq_of
  · exact (Int.add_zero _).symm
  · rfl

variable {src src' : Source} (h : SameBreaks src.text src'.text)
include h

theorem sameShape_lines : List.Forall₂ Line.SameShape src.lines src'.lines := by
  rw [src.lines_eq, src'.lines_eq]
  exact Line.forall₂_split h

theorem length_of_sameBreaks : src.length = src'.length := h.length_eq

/-- **An offset has the same position in both.** -/
theorem position_of_sameBreaks (o : Nat) : src.position o = src'.position o := by
  rw [position, position, Line.locate_of_sameShape (sameShape_lines h)]

/-- **A position has the same offset in both.** -/
theorem offsetAt_of_sameBreaks (p : Position) : src.offsetAt p = src'.offsetAt p := by
  rw [offsetAt, offsetAt, Line.offset_of_sameShape (sameShape_lines h)]

theorem holds_of_sameBreaks (p : Position) : src.holds p = src'.holds p := by
  have hline := Line.any_getElem?_of_sameShape (sameShape_lines h) p.line.toNat
    fun length => p.character ≤ length
  rw [holds, holds, hline]

theorem bounds_of_sameBreaks (within : Option Span) : src.bounds within = src'.bounds within := by
  cases within with
  | none => rw [bounds, bounds, length_of_sameBreaks h]
  | some s =>
    have hvalid : src.isValid s = src'.isValid s := by
      rw [isValid, isValid, holds_of_sameBreaks h, holds_of_sameBreaks h]
    rw [bounds, bounds, hvalid, offsetAt_of_sameBreaks h, offsetAt_of_sameBreaks h,
      length_of_sameBreaks h]

theorem spanOf_of_sameBreaks : src.spanOf = src'.spanOf := by
  funext s
  simp only [spanOf, position_of_sameBreaks h]

end Source

end Cfml
