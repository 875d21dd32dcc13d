/-
What a cursor passes over.

The text before a cursor can be cut at any character: the cursor gives what stands behind the cut,
nearest first, and then has before it what stands in front of the cut (`exists_steps`). The text has
one line feed for each line ending, but to unify the line endings of a text is to unify those of its
parts (`unifyLineEnds_append`), so a cut of the source is a cut of what the cursor reads, and the
cursor is then at the position of the cut (`position_eq_of_before`).
-/
import Cfml.Proofs.Source.Captures
import Cfml.Proofs.Source.Cursor

set_option autoImplicit false

namespace Cfml

/-! ## Line endings -/

theorem unifyLineEnds_append_of_notMem {front : List Char} (h : '\r' ∉ front) (back : List Char) :
    unifyLineEnds (front ++ back) = front ++ unifyLineEnds back := by
  induction front with
  | nil => rfl
  | cons c rest ih =>
    obtain ⟨hc, hrest⟩ := not_or.mp (List.mem_cons.not.mp h)
    rw [List.cons_append, unifyLineEnds_cons (Ne.symm hc), ih hrest, List.cons_append]

/-- No line ending goes across a text that begins with no line feed. -/
theorem unifyLineEnds_append (front : List Char) {back : List Char} (h : back.head? ≠ some '\n') :
    unifyLineEnds (front ++ back) = unifyLineEnds front ++ unifyLineEnds back := by
  fun_induction unifyLineEnds front with
  | case1 => rfl
  | case2 rest ih => rw [List.cons_append, List.cons_append, unifyLineEnds, ih, List.cons_append]
  | case3 c rest hpair ih =>
    rw [List.cons_append, unifyLineEnds, ih, List.cons_append]
    intro later hc hlater
    cases rest with
    | nil =>
      rw [List.nil_append] at hlater
      exact h (by rw [hlater]; rfl)
    | cons d rest => exact hpair rest hc (by rw [(List.cons_eq_cons.mp hlater).1])

theorem isBlank_of_mem_unifyLineEnds {text : List Char} (h : ∀ c ∈ text, isBlank c = true) :
    ∀ c ∈ unifyLineEnds text, isBlank c = true := by
  fun_induction unifyLineEnds text with
  | case1 => exact h
  | case2 rest ih =>
    have hrest := (List.forall_mem_cons.mp (List.forall_mem_cons.mp h).2).2
    exact List.forall_mem_cons.mpr ⟨by decide, ih hrest⟩
  | case3 c rest _ ih =>
    obtain ⟨hc, hrest⟩ := List.forall_mem_cons.mp h
    refine List.forall_mem_cons.mpr ⟨?_, ih hrest⟩
    split
    · decide
    · exact hc

namespace BackwardCursor

/-! ## Steps -/

theorem steps_of_next? {cursor next : BackwardCursor} {c : Char}
    (h : cursor.next? = some (c, next)) : cursor.steps = (c, next) :: next.steps := by
  rw [steps]
  split
  · next hnone => exact absurd (h.symm.trans hnone) (by simp)
  · next hsome =>
    obtain ⟨rfl, rfl⟩ := Prod.mk.inj (Option.some.inj (h.symm.trans hsome))
    rfl

/-- The last character before a cursor is read first. -/
theorem exists_step {cursor : BackwardCursor} (hclean : cursor.place.IsClean) {front : List Char}
    {c : Char} (h : cursor.place.before = front ++ [c]) :
    ∃ next, cursor.steps = (c, next) :: next.steps ∧ next.place.before = front ∧
      next.place.IsClean := by
  cases hnext : cursor.next? with
  | none =>
    rw [before_of_next?_eq_none hnext] at h
    exact absurd h (by simp)
  | some found =>
    obtain ⟨d, next⟩ := found
    rw [before_of_next? hnext] at h
    obtain ⟨hbefore, hc⟩ := List.append_inj' h rfl
    obtain rfl := (List.cons_eq_cons.mp hc).1
    exact ⟨next, steps_of_next? hnext, hbefore, hclean.next? hnext⟩

/-- The characters before a cursor are read one after the other, and behind each the cursor stands
before it. -/
theorem exists_steps {cursor : BackwardCursor} (hclean : cursor.place.IsClean)
    {front back : List Char} (h : cursor.place.before = front ++ back) :
    ∃ (passed : List (Char × BackwardCursor)) (next : BackwardCursor),
      cursor.steps = passed ++ next.steps ∧ passed.map Prod.fst = back.reverse ∧
        next.place.before = front ∧ next.place.IsClean := by
  induction back using List.reverseRecOn generalizing cursor with
  | nil => exact ⟨[], cursor, rfl, rfl, h.trans (List.append_nil front), hclean⟩
  | append_singleton init c ih =>
    rw [← List.append_assoc] at h
    obtain ⟨next, hstep, hbefore, hclean⟩ := exists_step hclean h
    obtain ⟨passed, last, hsteps, hpassed, hlast⟩ := ih hclean hbefore
    refine ⟨(c, next) :: passed, last, ?_, ?_, hlast⟩
    · rw [hstep, hsteps]
      rfl
    · rw [List.map_cons, hpassed, List.reverse_append]
      rfl

/-- A cursor is at the position that it was put at, if that is in the text. -/
theorem position_atPosition {src : Source} {p : Position} (h : src.holds p = true) :
    (atPosition src p).position = p := by
  simp only [Source.holds, Bool.and_eq_true, decide_eq_true_eq, Option.any_eq_true] at h
  obtain ⟨⟨hline, hcharacter⟩, l, hl, hle⟩ := h
  have hlt : p.line.toNat < src.lines.length := (List.getElem?_eq_some_iff.mp hl).1
  rw [position, atPosition_place hl]
  apply Position.eq_of
  · simp only [List.length_reverse, List.length_map, List.length_take]
    omega
  · simp only [List.length_reverse, List.length_take]
    omega

section Boundary

variable {src : Source} {a : Nat}

theorem standsAt_position (h : src.IsBoundary a) :
    (atPosition src (src.position a)).place.StandsAt (unifyLineEnds (src.text.take a))
      (unifyLineEnds (src.text.take a)).length := by
  have hholds := src.holds_position a
  simp only [Source.holds, Bool.and_eq_true, decide_eq_true_eq, Option.any_eq_true] at hholds
  obtain ⟨⟨hline, -⟩, l, hl, -⟩ := hholds
  have hlt := (List.getElem?_eq_some_iff.mp hl).1
  have hstands := standsAt_atPosition src hline (by rw [Source.lineCount]; omega)
  rwa [Source.offsetAt_position h] at hstands

/-- A cursor with the text before a boundary is at its position. -/
theorem position_eq_of_before {cursor : BackwardCursor} (h : src.IsBoundary a)
    (hclean : cursor.place.IsClean)
    (hbefore : cursor.place.before = unifyLineEnds (src.text.take a)) :
    cursor.position = src.position a := by
  have hstands : cursor.place.StandsAt (unifyLineEnds (src.text.take a))
      (unifyLineEnds (src.text.take a)).length :=
    ⟨Nat.le_refl _, by rw [List.take_length, hbefore], hclean⟩
  rw [hstands.position_eq, ← (standsAt_position h).position_eq,
    position_atPosition (src.holds_position a)]

end Boundary

end BackwardCursor

end Cfml
