/-
What a set of spans leaves uncovered.

Coverage is a matter of offsets, while the gaps between spans are found by comparing positions. The
two agree because `Source.offsetAt` keeps the order of positions, also of those outside the text, so
the offset of the latest end seen is the latest of the offsets (`Source.offsetAt_max`). One step of
the search for gaps adds what lies before the next span, and the induction over the spans carries
what has been reached (`Spans.reaches_gaps_iff`). The gaps between the gaps are the spans again if
these are in the text and do not touch (`Spans.gaps_gaps`).
-/
import Cfml.Proofs.Source.Position
import Cfml.Region

set_option autoImplicit false

namespace Cfml

variable {src : Source} {spans : List Span} {p q : Position} {s t : Span} {o : Nat}

/-- The character with this offset is in one of the spans. -/
def Spans.Reaches (src : Source) (spans : List Span) (o : Nat) : Prop :=
  ∃ s ∈ spans, src.offsetAt s.start ≤ o ∧ o < src.offsetAt s.stop

theorem Spans.reaches_cons : Spans.Reaches src (s :: spans) o ↔
    (src.offsetAt s.start ≤ o ∧ o < src.offsetAt s.stop) ∨ Spans.Reaches src spans o := by
  simp only [Reaches, List.mem_cons, exists_eq_or_imp]

/-! ## The latest end -/

theorem Position.max_of_lt (h : p < q) : p.max q = q := if_pos h

theorem Position.max_of_not_lt (h : ¬ p < q) : p.max q = p := if_neg h

theorem Position.le_max_left (p q : Position) : p ≤ p.max q := by
  by_cases h : p < q
  · rw [max_of_lt h]
    exact Position.le_of_lt h
  · rw [max_of_not_lt h]
    exact Position.le_refl p

theorem Position.le_max_right (p q : Position) : q ≤ p.max q := by
  by_cases h : p < q
  · rw [max_of_lt h]
    exact Position.le_refl q
  · rw [max_of_not_lt h]
    exact Position.not_lt.mp h

namespace Source

/-- The later of two positions has the larger of their offsets. -/
theorem offsetAt_max (src : Source) (p q : Position) :
    src.offsetAt (p.max q) = max (src.offsetAt p) (src.offsetAt q) := by
  by_cases h : p < q
  · rw [Position.max_of_lt h, Nat.max_eq_right (src.offsetAt_mono (Position.le_of_lt h))]
  · rw [Position.max_of_not_lt h, Nat.max_eq_left (src.offsetAt_mono (Position.not_lt.mp h))]

theorem offsetAt_stop (src : Source) : src.offsetAt src.stop = src.length :=
  src.isBoundary_length.isPlace

theorem offsetAt_origin (src : Source) : src.offsetAt ⟨0, 0⟩ = 0 := by
  have horigin : src.position 0 = ⟨0, 0⟩ := by
    rw [position, src.lines_eq, Line.locate_split_zero]
    rfl
  rw [← horigin]
  exact src.isBoundary_zero.isPlace

/-- A position of the text lies between its start and its end. -/
theorem origin_le_of_holds (h : src.holds p = true) : ⟨0, 0⟩ ≤ p := by
  simp only [holds, Bool.and_eq_true, decide_eq_true_eq] at h
  rw [Position.le_iff]
  simp only
  omega

theorem le_stop_of_holds (h : src.holds p = true) : p ≤ src.stop := by
  rw [← position_offsetAt h]
  exact src.position_mono (src.offsetAt_le_length p)

end Source

/-! ## Gaps -/

namespace Spans

/-- What lies between two positions, as a list of one span or of none. -/
def between (p q : Position) : List Span :=
  if h : p < q then [⟨p, q, Position.le_of_lt h⟩] else []

theorem between_of_lt (h : p < q) : between p q = [⟨p, q, Position.le_of_lt h⟩] := dif_pos h

theorem between_of_not_lt (h : ¬ p < q) : between p q = [] := dif_neg h

theorem mem_between_iff : s ∈ between p q ↔ s.start = p ∧ s.stop = q ∧ p < q := by
  obtain ⟨start, stop, hle⟩ := s
  by_cases h : p < q
  · simp [between_of_lt h, h]
  · simp [between_of_not_lt h, h]

theorem gaps_nil (src : Source) (p : Position) : gaps src p [] = between p src.stop := by
  rw [gaps, between]

/-- One step of the search: what lies before the next span, and the gaps behind its end. -/
theorem gaps_cons (src : Source) (p : Position) (s : Span) (rest : List Span) :
    gaps src p (s :: rest) = between p s.start ++ gaps src (p.max s.stop) rest := by
  rw [gaps]
  by_cases h : p < s.start
  · rw [dif_pos h, between_of_lt h, List.singleton_append]
  · rw [dif_neg h, between_of_not_lt h, List.nil_append]

/-- The gaps lie behind what has been reached, and none of them is empty. -/
theorem of_mem_gaps (h : s ∈ gaps src p spans) : p ≤ s.start ∧ s.start < s.stop := by
  have hbetween : ∀ {q r : Position}, s ∈ between q r → q ≤ s.start ∧ s.start < s.stop := by
    intro q r hs
    obtain ⟨rfl, rfl, hlt⟩ := mem_between_iff.mp hs
    exact ⟨Position.le_refl _, hlt⟩
  induction spans generalizing p with
  | nil =>
    rw [gaps_nil] at h
    exact hbetween h
  | cons t rest ih =>
    rw [gaps_cons] at h
    rcases List.mem_append.mp h with hgap | hrest
    · exact hbetween hgap
    · obtain ⟨hle, hlt⟩ := ih hrest
      exact ⟨Position.le_trans (p.le_max_left t.stop) hle, hlt⟩

/-- The gaps follow each other. -/
theorem gaps_pairwise (src : Source) (p : Position) (spans : List Span) :
    (gaps src p spans).Pairwise fun s t => s.stop ≤ t.start := by
  have hbetween : ∀ q r : Position, (between q r).Pairwise fun s t => s.stop ≤ t.start := by
    intro q r
    by_cases h : q < r
    · rw [between_of_lt h]
      exact List.pairwise_singleton _ _
    · rw [between_of_not_lt h]
      exact List.Pairwise.nil
  induction spans generalizing p with
  | nil =>
    rw [gaps_nil]
    exact hbetween p src.stop
  | cons t rest ih =>
    rw [gaps_cons]
    refine List.pairwise_append.mpr ⟨hbetween p t.start, ih _, ?_⟩
    -- the gap ends where `t` starts, and the others start behind the end of `t`
    intro s hs u hu
    obtain ⟨-, hstop, -⟩ := mem_between_iff.mp hs
    have hbehind := Position.le_trans (p.le_max_right t.stop) (of_mem_gaps hu).1
    rw [hstop]
    exact Position.le_trans t.start_le_stop hbehind

theorem reaches_append {more : List Span} :
    Reaches src (spans ++ more) o ↔ Reaches src spans o ∨ Reaches src more o := by
  simp only [Reaches, List.mem_append, or_and_right, exists_or]

/-- What lies between two positions has the characters between their offsets. -/
theorem reaches_between_iff :
    Reaches src (between p q) o ↔ src.offsetAt p ≤ o ∧ o < src.offsetAt q := by
  by_cases h : p < q
  · rw [between_of_lt h]
    simp [Reaches]
  · have hle := src.offsetAt_mono (Position.not_lt.mp h)
    rw [between_of_not_lt h]
    simp only [Reaches, List.not_mem_nil, false_and, exists_false, false_iff]
    omega

/-- **The gaps reach exactly what is left.** Of the characters behind what has been reached they
have those that are in none of the spans. -/
theorem reaches_gaps_iff (hsorted : spans.Pairwise fun s t => s.start ≤ t.start)
    (ho : o < src.length) :
    Reaches src (gaps src p spans) o ↔ src.offsetAt p ≤ o ∧ ¬ Reaches src spans o := by
  induction spans generalizing p with
  | nil =>
    rw [gaps_nil, reaches_between_iff, src.offsetAt_stop]
    simp only [Reaches, List.not_mem_nil, false_and, exists_false, not_false_eq_true, ho]
  | cons s rest ih =>
    obtain ⟨hfirst, hrest⟩ := List.pairwise_cons.mp hsorted
    -- before `s` starts none of the others does
    have hbefore : Reaches src rest o → src.offsetAt s.start ≤ o := by
      rintro ⟨t, ht, hstart, -⟩
      exact Nat.le_trans (src.offsetAt_mono (hfirst t ht)) hstart
    have hspan := src.offsetAt_mono s.start_le_stop
    rw [gaps_cons, reaches_append, reaches_between_iff, ih hrest, src.offsetAt_max, reaches_cons]
    by_cases hin : Reaches src rest o
    · have := hbefore hin
      simp only [hin, not_true_eq_false, and_false, or_true, or_false, iff_false]
      omega
    · simp only [hin, not_false_eq_true, and_true, or_false]
      omega

/-! ## The gaps between the gaps -/

/-- The spans are in the text, none of them is empty, and there is something between any two. -/
structure IsSeparated (src : Source) (spans : List Span) : Prop where
  valid : ∀ s ∈ spans, src.isValid s = true
  not_empty : ∀ s ∈ spans, s.start < s.stop
  apart : spans.Pairwise fun s t => s.stop < t.start

theorem IsSeparated.tail (h : IsSeparated src (s :: spans)) : IsSeparated src spans where
  valid := (List.forall_mem_cons.mp h.valid).2
  not_empty := (List.forall_mem_cons.mp h.not_empty).2
  apart := (List.pairwise_cons.mp h.apart).2

theorem IsSeparated.holds (h : IsSeparated src (s :: spans)) :
    src.holds s.start = true ∧ src.holds s.stop = true := by
  have hvalid := h.valid s List.mem_cons_self
  rwa [Source.isValid, Bool.and_eq_true] at hvalid

theorem gaps_between (src : Source) (h : p ≤ q) (hstop : q ≤ src.stop) :
    gaps src p (between q src.stop) = between p q := by
  by_cases hlt : q < src.stop
  · have hend : ¬ src.stop < src.stop := Position.not_lt.mpr (Position.le_refl _)
    have hreached : p.max src.stop = src.stop := by
      apply Position.max_of_lt
      rw [Position.lt_iff] at hlt ⊢
      rw [Position.le_iff] at h
      omega
    rw [between_of_lt hlt, gaps_cons, hreached, gaps_nil, between_of_not_lt hend, List.append_nil]
  -- nothing is left behind the end of the text
  · obtain rfl := Position.le_antisymm hstop (Position.not_lt.mp hlt)
    rw [between_of_not_lt hlt, gaps_nil]

/-- **The gaps between the gaps** are the spans, and what lies before the first gap. The induction
takes the spans one by one: the search for the gaps has then reached the end of a span, and the
search between them its start. -/
theorem gaps_gaps (h : IsSeparated src spans) (hle : p ≤ q) (hstop : q ≤ src.stop)
    (hbefore : ∀ s ∈ spans, q < s.start) :
    gaps src p (gaps src q spans) = between p q ++ spans := by
  induction spans generalizing p q with
  | nil => rw [gaps_nil, gaps_between src hle hstop, List.append_nil]
  | cons s rest ih =>
    have hfirst := hbefore s List.mem_cons_self
    have hspan := h.not_empty s List.mem_cons_self
    have hrest := (List.pairwise_cons.mp h.apart).1
    have hreached : q.max s.stop = s.stop := by
      apply Position.max_of_lt
      rw [Position.lt_iff] at hfirst hspan ⊢
      omega
    have hreached' : p.max s.start = s.start := by
      apply Position.max_of_lt
      rw [Position.lt_iff] at hfirst ⊢
      rw [Position.le_iff] at hle
      omega
    have hbehind := ih h.tail (Position.le_of_lt hspan) (Source.le_stop_of_holds h.holds.2) hrest
    rw [gaps_cons, hreached, between_of_lt hfirst, List.singleton_append, gaps_cons, hreached',
      hbehind, between_of_lt hspan, List.singleton_append]

end Spans

namespace Source

/-- **What is left uncovered by what is left uncovered** are the spans. -/
theorem uncovered_uncovered (h : Spans.IsSeparated src spans) :
    src.uncovered (src.uncovered spans) = spans := by
  have hnone : ¬ (⟨0, 0⟩ : Position) < ⟨0, 0⟩ := by decide
  have hend : (⟨0, 0⟩ : Position) ≤ src.stop := origin_le_of_holds (src.holds_position src.length)
  unfold uncovered
  by_cases hall : ∀ s ∈ spans, (⟨0, 0⟩ : Position) < s.start
  · rw [Spans.gaps_gaps h (Position.le_refl _) hend hall, Spans.between_of_not_lt hnone,
      List.nil_append]
  -- otherwise the first span starts with the text, and the first gap is behind it
  · cases spans with
    | nil => exact absurd (fun s hs => absurd hs List.not_mem_nil) hall
    | cons s rest =>
      have hspan := h.not_empty s List.mem_cons_self
      have hrest := (List.pairwise_cons.mp h.apart).1
      have hfirst : ¬ (⟨0, 0⟩ : Position) < s.start := by
        intro hfirst
        refine hall (List.forall_mem_cons.mpr ⟨hfirst, fun t ht => ?_⟩)
        have hlt := hrest t ht
        rw [Position.lt_iff] at hfirst hspan hlt ⊢
        omega
      have hzero : s.start = ⟨0, 0⟩ :=
        Position.le_antisymm (Position.not_lt.mp hfirst) (origin_le_of_holds h.holds.1)
      have hreached : Position.max ⟨0, 0⟩ s.stop = s.stop := Position.max_of_lt (hzero ▸ hspan)
      rw [Spans.gaps_cons, hreached, Spans.between_of_not_lt hfirst, List.nil_append, ← hzero,
        Spans.gaps_gaps h.tail (Position.le_of_lt hspan) (le_stop_of_holds h.holds.2) hrest,
        Spans.between_of_lt hspan]
      rfl

/-- **What is left uncovered is the exact complement.** For spans sorted by their start, which may
overlap, touch, be empty or lie outside the text, a character of the text is in what is left
uncovered exactly if it is in none of them. What is left uncovered is sorted, does not overlap and
has no empty span. Of what is left uncovered, the spans themselves are left uncovered, if they are
in the text, none of them is empty, and no two of them touch. -/
theorem uncovered_spec (src : Source) (spans : List Span)
    (h : spans.Pairwise fun s t => s.start ≤ t.start) :
    (∀ o < src.length,
      Spans.Reaches src (src.uncovered spans) o ↔ ¬ Spans.Reaches src spans o) ∧
    (src.uncovered spans).Pairwise (fun s t => s.stop ≤ t.start) ∧
    (∀ s ∈ src.uncovered spans, s.start < s.stop) ∧
    (Spans.IsSeparated src spans → src.uncovered (src.uncovered spans) = spans) := by
  refine ⟨?_, Spans.gaps_pairwise src _ spans, fun _ hs => (Spans.of_mem_gaps hs).2,
    uncovered_uncovered⟩
  intro o ho
  rw [uncovered, Spans.reaches_gaps_iff h ho, src.offsetAt_origin]
  exact and_iff_right (Nat.zero_le o)

/-- Spans that overlap, one of them to beyond the end of its line and one empty, over two lines with
different endings. What they leave uncovered is separated, and inverted twice it is the same. -/
theorem uncovered_spec_overlapping :
    let src := Source.ofText "ab\r\ncd\nef".toList none
    let spans : List Span :=
      [⟨⟨0, 1⟩, ⟨0, 9⟩, by decide⟩, ⟨⟨0, 1⟩, ⟨1, 1⟩, by decide⟩, ⟨⟨1, 1⟩, ⟨1, 1⟩, by decide⟩]
    let left : List Span := [⟨⟨0, 0⟩, ⟨0, 1⟩, by decide⟩, ⟨⟨1, 1⟩, ⟨2, 2⟩, by decide⟩]
    spans.Pairwise (fun s t => s.start ≤ t.start) ∧ src.uncovered spans = left ∧
      (∀ o < src.length, Spans.Reaches src left o ↔ ¬ Spans.Reaches src spans o) ∧
      left.Pairwise (fun s t => s.start ≤ t.start) ∧ Spans.IsSeparated src left ∧
      src.uncovered (src.uncovered left) = left := by
  intro src spans left
  have hsorted : spans.Pairwise fun s t => s.start ≤ t.start := by decide
  have hleft : src.uncovered spans = left := by decide
  have hcovers := (uncovered_spec src spans hsorted).1
  rw [hleft] at hcovers
  have hsorted' : left.Pairwise fun s t => s.start ≤ t.start := by decide
  have hseparated : Spans.IsSeparated src left := ⟨by decide, by decide, by decide⟩
  exact ⟨hsorted, hleft, hcovers, hsorted', hseparated,
    (uncovered_spec src left hsorted').2.2.2 hseparated⟩

end Source

end Cfml
