/-
Normal sets of spans.

`Spans.normalize` sorts spans and drops those that overlap an earlier one. Each step compares with
the last span kept alone; that this is enough for all earlier ones rests on spans that follow each
other being in order. What is kept is a selection (`Spans.IsSelection`): its spans follow each
other, and each of the others begins in one of them and comes behind it in order. There is only one
selection (`Spans.normalize_eq_iff`), so the order in which the spans were given does not matter,
and to select again changes nothing (`Spans.normalize_selects`). Spans that do not overlap are all
kept (`Spans.normalize_of_perm`), and spans in which all the others begin are the ones that are kept
(`Spans.normalize_eq_of_beginsIn`).
-/
import Cfml.Region
import Mathlib.Data.List.Perm.Subperm

set_option autoImplicit false

namespace Cfml

/-- What is sorted by where it stands is in order. -/
theorem Position.pairwise_mergeSort {α : Type} (place : α → Position) (xs : List α) :
    (xs.mergeSort fun a b => place a ≤ place b).Pairwise fun a b => place a ≤ place b := by
  have hsorted : (xs.mergeSort fun a b => place a ≤ place b).Pairwise
      fun a b => decide (place a ≤ place b) = true := by
    apply List.pairwise_mergeSort
    · intro a b c hab hbc
      exact decide_eq_true (Position.le_trans (of_decide_eq_true hab) (of_decide_eq_true hbc))
    · intro a b
      rw [Bool.or_eq_true, decide_eq_true_iff, decide_eq_true_iff]
      exact Position.le_total _ _
  exact hsorted.imp of_decide_eq_true

namespace Span

variable {s t u : Span}

theorem notAfter_iff : s.notAfter t = true ↔
    s.start < t.start ∨ (s.start = t.start ∧ s.stop ≤ t.stop) := by
  rw [notAfter, Bool.or_eq_true, Bool.and_eq_true, beq_iff_eq]
  exact or_congr decide_eq_true_iff (and_congr_right fun _ => decide_eq_true_iff)

theorem notAfter_trans (h : s.notAfter t = true) (h' : t.notAfter u = true) :
    s.notAfter u = true := by
  rw [notAfter_iff] at *
  rcases h with h | ⟨heq, h⟩ <;> rcases h' with h' | ⟨heq', h'⟩
  · left
    rw [Position.lt_iff] at *
    omega
  · exact Or.inl (heq' ▸ h)
  · exact Or.inl (heq ▸ h')
  · exact Or.inr ⟨heq.trans heq', Position.le_trans h h'⟩

theorem notAfter_total (s t : Span) : (s.notAfter t || t.notAfter s) = true := by
  rw [Bool.or_eq_true, notAfter_iff, notAfter_iff]
  by_cases hlt : s.start < t.start
  · exact Or.inl (Or.inl hlt)
  · by_cases hgt : t.start < s.start
    · exact Or.inr (Or.inl hgt)
    · have heq := Position.le_antisymm (Position.not_lt.mp hgt) (Position.not_lt.mp hlt)
      rcases Position.le_total s.stop t.stop with hle | hle
      · exact Or.inl (Or.inr ⟨heq, hle⟩)
      · exact Or.inr (Or.inr ⟨heq.symm, hle⟩)

theorem notAfter_antisymm (h : s.notAfter t = true) (h' : t.notAfter s = true) : s = t := by
  rw [notAfter_iff] at h h'
  obtain ⟨start, stop, _⟩ := s
  obtain ⟨start', stop', _⟩ := t
  simp only at h h'
  rcases h with h | ⟨rfl, h⟩
  · rcases h' with h' | ⟨rfl, -⟩
    · rw [Position.lt_iff] at h h'
      omega
    · rw [Position.lt_iff] at h
      omega
  · rcases h' with h' | ⟨-, h'⟩
    · rw [Position.lt_iff] at h'
      omega
    · obtain rfl := Position.le_antisymm h h'
      rfl

theorem start_le_of_notAfter (h : s.notAfter t = true) : s.start ≤ t.start := by
  rcases notAfter_iff.mp h with hlt | ⟨heq, -⟩
  · exact Position.le_of_lt hlt
  · rw [heq]
    exact Position.le_refl _

/-- A span that starts where another one ends, or behind that, does not come before it. -/
theorem notAfter_of_stop_le (h : s.stop ≤ t.start) : s.notAfter t = true := by
  have hstart := s.start_le_stop
  have hstop := t.start_le_stop
  rw [notAfter_iff]
  by_cases hlt : s.start < t.start
  · exact Or.inl hlt
  -- then the first one is empty and ends where the other one starts
  · have heq := Position.le_antisymm (Position.le_trans hstart h) (Position.not_lt.mp hlt)
    exact Or.inr ⟨heq, Position.le_trans h hstop⟩

end Span

namespace Spans

/-- The spans follow each other. -/
def Apart (spans : List Span) : Prop := spans.Pairwise fun s t => s.stop ≤ t.start

/-- What is selected from spans: those that follow each other, while each of those left out begins
in one that is kept and comes behind it in order. A span that is given twice can be kept and left
out. -/
structure IsSelection (spans kept : List Span) : Prop where
  apart : Apart kept
  leftOut : ∃ dropped, (kept ++ dropped).Perm spans ∧
    ∀ s ∈ dropped, ∃ k ∈ kept, k.notAfter s = true ∧ s.start < k.stop

variable {spans kept dropped : List Span} {s : Span}

theorem Apart.pairwise_notAfter (h : Apart kept) :
    kept.Pairwise fun s t => s.notAfter t = true := h.imp Span.notAfter_of_stop_le

theorem IsSelection.mem (h : IsSelection spans kept) (hs : s ∈ kept) : s ∈ spans := by
  obtain ⟨_, hperm, -⟩ := h.leftOut
  exact hperm.mem_iff.mp (List.mem_append_left _ hs)

/-- The order of the spans does not matter. -/
theorem IsSelection.perm {spans' : List Span} (h : IsSelection spans kept)
    (hperm : spans.Perm spans') : IsSelection spans' kept := by
  obtain ⟨dropped, hall, hdropped⟩ := h.leftOut
  exact ⟨h.apart, dropped, hall.trans hperm, hdropped⟩

/-- One more span, which begins in one that is kept, is left out. -/
theorem IsSelection.leave {k : Span} (h : IsSelection spans kept) (hk : k ∈ kept)
    (hle : k.notAfter s = true) (hlt : s.start < k.stop) : IsSelection (s :: spans) kept := by
  obtain ⟨dropped, hperm, hdropped⟩ := h.leftOut
  refine ⟨h.apart, s :: dropped, List.perm_middle.trans (hperm.cons s), ?_⟩
  exact List.forall_mem_cons.mpr ⟨⟨k, hk, hle, hlt⟩, hdropped⟩

/-- One more span, which ends before the ones that are kept, is kept as well. -/
theorem IsSelection.keep (h : IsSelection spans kept) (hs : ∀ k ∈ kept, s.stop ≤ k.start) :
    IsSelection (s :: spans) (s :: kept) := by
  obtain ⟨dropped, hperm, hdropped⟩ := h.leftOut
  refine ⟨List.pairwise_cons.mpr ⟨hs, h.apart⟩, dropped, hperm.cons s, ?_⟩
  intro d hd
  obtain ⟨k, hk, hbegins⟩ := hdropped d hd
  exact ⟨k, List.mem_cons_of_mem s hk, hbegins⟩

/-! ## What is kept is a selection -/

theorem stop_le_of_mem_keepApart {l : Span} : ∀ s ∈ keepApart (some l) spans, l.stop ≤ s.start := by
  induction spans generalizing l with
  | nil => simp [keepApart]
  | cons t rest ih =>
    rw [keepApart]
    split
    · exact ih
    · next hlt =>
      have hle := Position.not_lt.mp hlt
      intro s hs
      rcases List.mem_cons.mp hs with rfl | hs
      · exact hle
      · exact Position.le_trans hle (Position.le_trans t.start_le_stop (ih s hs))

/-- **One pass over spans in order** makes a selection of them. The induction carries the last span
that is kept, in which those that are dropped begin. -/
theorem isSelection_keepApart {l : Span}
    (hsorted : (l :: spans).Pairwise fun s t => s.notAfter t = true) :
    IsSelection (l :: spans) (l :: keepApart (some l) spans) := by
  induction spans generalizing l with
  | nil => exact ⟨List.pairwise_singleton _ l, [], List.Perm.refl _, by simp⟩
  | cons s rest ih =>
    obtain ⟨hl, hrest⟩ := List.pairwise_cons.mp hsorted
    obtain ⟨hs, hl⟩ := List.forall_mem_cons.mp hl
    rw [keepApart]
    split
    · next hlt =>
      have hwithout := ih (List.pairwise_cons.mpr ⟨hl, (List.pairwise_cons.mp hrest).2⟩)
      exact (hwithout.leave List.mem_cons_self hs hlt).perm (List.Perm.swap l s rest)
    · next hlt =>
      have hle := Position.not_lt.mp hlt
      refine (ih hrest).keep (List.forall_mem_cons.mpr ⟨hle, ?_⟩)
      intro k hk
      have hbehind := stop_le_of_mem_keepApart k hk
      exact Position.le_trans hle (Position.le_trans s.start_le_stop hbehind)

theorem pairwise_sorted (spans : List Span) :
    (spans.mergeSort Span.notAfter).Pairwise fun s t => s.notAfter t = true :=
  List.pairwise_mergeSort @Span.notAfter_trans Span.notAfter_total spans

theorem isSelection_normalize (spans : List Span) : IsSelection spans (normalize spans) := by
  have hsorted := pairwise_sorted spans
  have hperm := List.mergeSort_perm spans Span.notAfter
  rw [normalize]
  cases hspans : spans.mergeSort Span.notAfter with
  | nil =>
    rw [hspans] at hperm
    exact ⟨List.Pairwise.nil, [], hperm, by simp⟩
  | cons s rest =>
    rw [hspans] at hsorted hperm
    exact (isSelection_keepApart hsorted).perm hperm

theorem apart_normalize (spans : List Span) : Apart (normalize spans) :=
  (isSelection_normalize spans).apart

theorem mem_of_mem_normalize (h : s ∈ normalize spans) : s ∈ spans :=
  (isSelection_normalize spans).mem h

/-! ## There is only one selection -/

/-- The first of all spans is the first one of a selection. -/
theorem exists_eq_cons_of_perm {rest : List Span} (hfirst : ∀ t ∈ rest, s.notAfter t = true)
    (hapart : Apart kept) (hperm : (kept ++ dropped).Perm (s :: rest))
    (hdropped : s ∈ dropped → ∃ k ∈ kept, k.notAfter s = true) : ∃ tail, kept = s :: tail := by
  have hbefore : ∀ t ∈ kept, s.notAfter t = true := by
    intro t ht
    rcases List.mem_cons.mp (hperm.mem_iff.mp (List.mem_append_left _ ht)) with rfl | hmem
    · exact Span.notAfter_iff.mpr (Or.inr ⟨rfl, Position.le_refl _⟩)
    · exact hfirst t hmem
  have hmem : s ∈ kept := by
    rcases List.mem_append.mp (hperm.mem_iff.mpr List.mem_cons_self) with hmem | hmem
    · exact hmem
    -- what it begins in comes before it, and nothing else does
    · obtain ⟨k, hk, hle⟩ := hdropped hmem
      rwa [Span.notAfter_antisymm (hbefore k hk) hle]
  cases kept with
  | nil => exact absurd hmem List.not_mem_nil
  | cons k tail =>
    refine ⟨tail, ?_⟩
    rcases List.mem_cons.mp hmem with rfl | hmem
    · rfl
    · have hle := (List.pairwise_cons.mp hapart.pairwise_notAfter).1 s hmem
      rw [Span.notAfter_antisymm (hbefore k List.mem_cons_self) hle]

/-- **One pass over spans in order finds every selection** of those behind the last one kept. The
induction takes the spans one by one: each begins in the last one kept and is left out, or it is the
first one of the selection. -/
theorem keepApart_eq_of_perm {last : Option Span}
    (hsorted : spans.Pairwise fun s t => s.notAfter t = true) (hapart : Apart kept)
    (hperm : (kept ++ dropped).Perm spans) (hlast : ∀ l ∈ last, ∀ k ∈ kept, l.stop ≤ k.start)
    (hdropped : ∀ s ∈ dropped, (∃ l ∈ last, s.start < l.stop) ∨
      ∃ k ∈ kept, k.notAfter s = true ∧ s.start < k.stop) : keepApart last spans = kept := by
  induction spans generalizing last kept dropped with
  | nil =>
    obtain ⟨rfl, -⟩ := List.append_eq_nil_iff.mp hperm.eq_nil
    cases last <;> rfl
  | cons s rest ih =>
    obtain ⟨hs, hrest⟩ := List.pairwise_cons.mp hsorted
    by_cases hin : ∃ l ∈ last, s.start < l.stop
    -- it begins in the last one that is kept, and none of the selection does
    · obtain ⟨l, rfl, hlt⟩ := hin
      have hnot : s ∉ kept := fun hmem => Position.not_lt.mpr (hlast l rfl s hmem) hlt
      have hmem : s ∈ dropped :=
        (List.mem_append.mp (hperm.mem_iff.mpr List.mem_cons_self)).resolve_left hnot
      have herase : (kept ++ dropped).Perm (s :: (kept ++ dropped.erase s)) :=
        ((List.perm_cons_erase hmem).append_left kept).trans List.perm_middle
      rw [keepApart, if_pos hlt]
      exact ih hrest hapart (herase.symm.trans hperm).cons_inv hlast
        fun d hd => hdropped d (List.mem_of_mem_erase hd)
    · have hbegins : s ∈ dropped → ∃ k ∈ kept, k.notAfter s = true := by
        intro hmem
        obtain ⟨k, hk, hle, -⟩ := (hdropped s hmem).resolve_left hin
        exact ⟨k, hk, hle⟩
      obtain ⟨tail, rfl⟩ := exists_eq_cons_of_perm hs hapart hperm hbegins
      obtain ⟨htail, hapart⟩ := List.pairwise_cons.mp hapart
      have hkept : keepApart (some s) rest = tail := by
        apply ih hrest hapart hperm.cons_inv
        · rintro _ ⟨⟩
          exact htail
        · intro d hd
          rcases hdropped d hd with ⟨l, hl, hlt⟩ | ⟨k, hk, hle, hlt⟩
          -- nothing from here on begins in the last one any more
          · have hrest := hperm.cons_inv.mem_iff.mp (List.mem_append_right _ hd)
            have hle := Span.start_le_of_notAfter (hs d hrest)
            refine absurd ⟨l, hl, ?_⟩ hin
            rw [Position.lt_iff] at hlt ⊢
            rw [Position.le_iff] at hle
            omega
          · rcases List.mem_cons.mp hk with rfl | hk
            · exact Or.inl ⟨k, rfl, hlt⟩
            · exact Or.inr ⟨k, hk, hle, hlt⟩
      cases last with
      | none => rw [keepApart, hkept]
      | some l => rw [keepApart, if_neg fun hlt => hin ⟨l, rfl, hlt⟩, hkept]

/-- **What is kept is the one selection** of the spans. -/
theorem normalize_eq_iff : normalize spans = kept ↔ IsSelection spans kept := by
  constructor
  · rintro rfl
    exact isSelection_normalize spans
  · intro h
    obtain ⟨dropped, hperm, hdropped⟩ := h.leftOut
    apply keepApart_eq_of_perm (pairwise_sorted spans) h.apart
      (hperm.trans (List.mergeSort_perm spans Span.notAfter).symm) (by simp)
    intro s hs
    exact Or.inr (hdropped s hs)

/-- **Spans that do not overlap are all kept**, and in order. -/
theorem normalize_of_perm {apart : List Span} (h : spans.Perm apart) (hapart : Apart apart) :
    normalize spans = apart := by
  rw [normalize_eq_iff]
  exact ⟨hapart, [], by rw [List.append_nil]; exact h.symm, by simp⟩

/-- **A canonical selection.** What is kept of any spans is in order, and each span in it starts at
or behind the end of the one before. Together with what is dropped it is all the spans as often as
they are given, and each span that is dropped begins in one that is kept. It does not depend on the
order in which the spans are given, and nothing more is dropped from it. -/
theorem normalize_selects (spans : List Span) :
    (normalize spans).Pairwise (fun s t => s.notAfter t = true ∧ s.stop ≤ t.start) ∧
    (∃ dropped, (normalize spans ++ dropped).Perm spans ∧
      ∀ s ∈ dropped, ∃ k ∈ normalize spans, k.start ≤ s.start ∧ s.start < k.stop) ∧
    (∀ spans', spans'.Perm spans → normalize spans' = normalize spans) ∧
    normalize (normalize spans) = normalize spans := by
  have hselection := isSelection_normalize spans
  obtain ⟨dropped, hperm, hdropped⟩ := hselection.leftOut
  refine ⟨?_, ⟨dropped, hperm, ?_⟩, ?_, ?_⟩
  · exact hselection.apart.imp fun h => ⟨Span.notAfter_of_stop_le h, h⟩
  · intro s hs
    obtain ⟨k, hk, hle, hlt⟩ := hdropped s hs
    exact ⟨k, hk, Span.start_le_of_notAfter hle, hlt⟩
  · intro spans' hperm'
    exact normalize_eq_iff.mpr (hselection.perm hperm'.symm)
  · exact normalize_of_perm (List.Perm.refl _) hselection.apart

/-! ## Spans that begin in others -/

/-- The span begins in the other one, and if they begin together it is the other one. -/
structure BeginsIn (s l : Span) : Prop where
  start_le : l.start ≤ s.start
  start_lt_stop : s.start < l.stop
  eq_of_start : s.start = l.start → s = l

theorem BeginsIn.notAfter {l : Span} (h : BeginsIn s l) : l.notAfter s = true := by
  rw [Span.notAfter_iff]
  by_cases hlt : l.start < s.start
  · exact Or.inl hlt
  · have hstart := Position.le_antisymm (Position.not_lt.mp hlt) h.start_le
    obtain rfl := h.eq_of_start hstart
    exact Or.inr ⟨rfl, Position.le_refl _⟩

/-- **Spans in which all the others begin are the ones that are kept.** -/
theorem normalize_eq_of_beginsIn {leading : List Span} (hapart : Apart leading)
    (hne : ∀ l ∈ leading, l.start < l.stop) (hsub : ∀ l ∈ leading, l ∈ spans)
    (hbegins : ∀ s ∈ spans, ∃ l ∈ leading, BeginsIn s l) : normalize spans = leading := by
  -- a span that is not empty does not follow itself, so none of them occurs twice
  have hnodup : leading.Nodup := by
    apply List.Pairwise.imp_of_mem _ hapart
    rintro s t hs - hle rfl
    exact Position.not_lt.mpr hle (hne s hs)
  obtain ⟨same, hsame, hsublist⟩ := hnodup.subperm hsub
  obtain ⟨dropped, hperm⟩ := hsublist.exists_perm_append
  replace hperm := hperm.trans (hsame.append_right dropped)
  refine normalize_eq_iff.mpr ⟨hapart, dropped, hperm.symm, ?_⟩
  intro s hs
  obtain ⟨l, hl, hbegin⟩ := hbegins s (hperm.mem_iff.mpr (List.mem_append_right _ hs))
  exact ⟨l, hl, hbegin.notAfter, hbegin.start_lt_stop⟩

end Spans

end Cfml
