/-
Lines of a text.

A text is a non-empty list of lines, each with the characters that end it: a carriage return and a
line feed together, one of them alone, or nothing for the last line. Written one after the other the
lines are the text again, so an offset in the text is a place in one of the lines and back.
-/

set_option autoImplicit false

namespace Cfml

/-- A line and what ends it. -/
structure Line where
  text : List Char
  ending : List Char
deriving DecidableEq, Repr

namespace Line

/-- The number of characters of the line with its ending. -/
def width (l : Line) : Nat := l.text.length + l.ending.length

/-- The lines with `c` put before the first of them. -/
def consFirst (c : Char) : List Line → List Line
  | [] => [⟨[c], []⟩]
  | l :: rest => ⟨c :: l.text, l.ending⟩ :: rest

/-- The lines of a text. -/
def split : List Char → List Line
  | [] => [⟨[], []⟩]
  | '\r' :: '\n' :: rest => ⟨[], ['\r', '\n']⟩ :: split rest
  | '\r' :: rest => ⟨[], ['\r']⟩ :: split rest
  | '\n' :: rest => ⟨[], ['\n']⟩ :: split rest
  | c :: rest => consFirst c (split rest)

/-- The lines one after the other, with their endings. -/
def join (lines : List Line) : List Char := lines.flatMap fun l => l.text ++ l.ending

/-- The line that holds the offset, and the character in that line. An offset within the ending of
a line belongs to the end of its text, and one beyond the last line to the end of that. -/
def locate : List Line → Nat → Nat × Nat
  | [], _ => (0, 0)
  | [l], offset => (0, min offset l.text.length)
  | l :: rest, offset =>
    if offset < l.width then (0, min offset l.text.length)
    else
      let (line, character) := locate rest (offset - l.width)
      (line + 1, character)

/-- The offset of a character of a line. A character beyond the text of the line is the end of it,
and a line beyond the last one is the end of all. -/
def offset : List Line → Nat → Nat → Nat
  | [], _, _ => 0
  | l :: _, 0, character => min character l.text.length
  | l :: rest, line + 1, character => l.width + offset rest line character

/-! ## Splitting loses nothing -/

theorem split_ne_nil (text : List Char) : split text ≠ [] := by
  fun_cases split text <;> simp
  rename_i c rest _ _ _
  cases split rest <;> simp [consFirst]

theorem join_consFirst (c : Char) (lines : List Line) :
    join (consFirst c lines) = c :: join lines := by
  cases lines <;> simp [consFirst, join]

theorem join_split (text : List Char) : join (split text) = text := by
  fun_induction split text with
  | case1 => simp [join]
  | case2 rest ih => simpa [join] using ih
  | case3 rest h ih => simpa [join] using ih
  | case4 rest ih => simpa [join] using ih
  | case5 c rest _ _ _ ih => rw [join_consFirst, ih]

/-! ## Order is kept -/

/-- A later offset is on the same line at the same or a later character, or on a later line. -/
theorem locate_mono (lines : List Line) {a b : Nat} (h : a ≤ b) :
    (locate lines a).1 < (locate lines b).1 ∨
      ((locate lines a).1 = (locate lines b).1 ∧ (locate lines a).2 ≤ (locate lines b).2) := by
  induction lines generalizing a b with
  | nil => simp [locate]
  | cons l rest ih =>
    cases rest with
    | nil => exact Or.inr ⟨rfl, by simp only [locate]; omega⟩
    | cons m rest =>
      simp only [locate]
      by_cases ha : a < l.width
      · by_cases hb : b < l.width
        · rw [if_pos ha, if_pos hb]; exact Or.inr ⟨rfl, by simp only; omega⟩
        · rw [if_pos ha, if_neg hb]; exact Or.inl (Nat.succ_pos _)
      · have hb : ¬ b < l.width := by omega
        rw [if_neg ha, if_neg hb]
        have := ih (a := a - l.width) (b := b - l.width) (by omega)
        simp only
        omega

/-- A later character of a line, or a later line, has a later offset or the same. -/
theorem offset_mono (lines : List Line) {m n c d : Nat} (h : m < n ∨ (m = n ∧ c ≤ d)) :
    offset lines m c ≤ offset lines n d := by
  induction lines generalizing m n with
  | nil => simp [offset]
  | cons l rest ih =>
    cases n with
    | zero =>
      obtain ⟨rfl, hcd⟩ : m = 0 ∧ c ≤ d := by omega
      simp only [offset]
      omega
    | succ n =>
      cases m with
      | zero =>
        simp only [offset, width]
        omega
      | succ m =>
        simp only [offset]
        exact Nat.add_le_add_left (ih (by omega)) _

end Line

end Cfml
