/-
Reading a text, however its lines end.

No step of a reader tells one line ending from another. A step that takes no line break takes the
same characters in both texts (`Reader.SameStep`); one that takes white space, or whatever else
stands before a certain character, takes the line endings of each. Either way the readers are at
corresponding places behind it (`Reader.Restyled`), so a pattern that is put together from such
steps has corresponding occurrences (`occurrences_restyled`).
-/
import Cfml.Proofs.LineEnd.Positions
import Cfml.Proofs.Text.Letters
import Cfml.Proofs.Text.Moved

set_option autoImplicit false

namespace Cfml

/-! ## Characters -/

/-- No line break is one of the characters. -/
def sparesBreaks (p : Char → Bool) : Bool := !p '\r' && !p '\n'

theorem sparesBreaks_iff {p : Char → Bool} :
    sparesBreaks p = true ↔ p '\r' = false ∧ p '\n' = false := by
  rw [sparesBreaks, Bool.and_eq_true, Bool.not_eq_true', Bool.not_eq_true']

theorem ne_feed_of_sparesBreaks {p : Char → Bool} (hp : sparesBreaks p = true) {c : Char}
    (hc : p c = true) : c ≠ '\n' := by
  rintro rfl
  rw [(sparesBreaks_iff.mp hp).2] at hc
  exact Bool.false_ne_true hc

theorem same_of_sparesBreaks {p : Char → Bool} (hp : sparesBreaks p = true) : p '\r' = p '\n' := by
  obtain ⟨hreturn, hfeed⟩ := sparesBreaks_iff.mp hp
  rw [hreturn, hfeed]

theorem ne_of_isLineBreak {c d : Char} (hc : isLineBreak c = true) (hd : isLineBreak d = false) :
    c ≠ d := by
  rintro rfl
  rw [hc] at hd
  exact Bool.noConfusion hd

theorem sparesBreaks_beq {c : Char} (h : isLineBreak c = false) :
    sparesBreaks (· == c) = true := by
  obtain ⟨hreturn, hfeed⟩ := isLineBreak_eq_false_iff.mp h
  rw [sparesBreaks_iff]
  exact ⟨beq_eq_false_iff_ne.mpr hreturn.symm, beq_eq_false_iff_ne.mpr hfeed.symm⟩

/-! ### Letters -/

/-- Lower-casing leaves a code point as it is or leads beyond the control characters. -/
theorem lowerCode_eq_or_lt {runs : List CaseRun} (h : ∀ run ∈ runs, 32 < run.first + run.shift)
    (n : Nat) : lowerCode runs n = n ∨ 32 < lowerCode runs n := by
  induction runs with
  | nil => exact Or.inl rfl
  | cons run runs ih =>
    obtain ⟨hrun, hruns⟩ := List.forall_mem_cons.mp h
    rw [lowerCode]
    split
    · exact Or.inl rfl
    · split
      · right
        omega
      · exact ih hruns

/-- Nothing but a line break is lower-cased to one. -/
theorem eq_of_lowerChar_eq {c d : Char} (hd : isLineBreak d = true) (h : lowerChar c = d) :
    c = d := by
  have hruns : ∀ run ∈ lowerRuns, 32 < run.first + run.shift := by decide +kernel
  have hlow : d.toNat = 13 ∨ d.toNat = 10 := by
    rcases Bool.or_eq_true_iff.mp hd with heq | heq
    · exact Or.inl (beq_iff_eq.mp heq ▸ rfl)
    · exact Or.inr (beq_iff_eq.mp heq ▸ rfl)
  have hcode := congrArg Char.toNat h
  rw [lowerChar] at hcode
  have hofNat := toNat_ofNat (lowerCode lowerRuns c.toNat)
  have hlower := lowerCode_eq_or_lt hruns c.toNat
  apply Char.toNat_inj.mp
  omega

/-- No letter is the same as a line break. -/
theorem sparesBreaks_sameLetter {c : Char} (h : isLineBreak c = false) :
    sparesBreaks (sameLetter c) = true := by
  have hclasses : ∀ letters ∈ caseClasses, '\r' ∉ letters ∧ '\n' ∉ letters := by decide
  have hsame : ∀ d, isLineBreak d = true → lowerChar d = d →
      (∀ letters ∈ caseClasses, d ∉ letters) → sameLetter c d = false := by
    intro d hd hlower hnone
    have hne : lowerChar c ≠ d := by
      intro heq
      rw [eq_of_lowerChar_eq hd heq, hd] at h
      exact Bool.noConfusion h
    simp only [sameLetter, hlower, Bool.or_eq_false_iff, beq_eq_false_iff_ne, List.any_eq_false,
      Bool.and_eq_true, List.contains_iff_mem, not_and]
    exact ⟨hne, fun letters hletters _ => hnone letters hletters⟩
  rw [sparesBreaks_iff]
  exact ⟨hsame '\r' rfl (by decide) fun l hl => (hclasses l hl).1,
    hsame '\n' rfl (by decide) fun l hl => (hclasses l hl).2⟩

/-! ## Texts -/

namespace LineEnd

variable (e : LineEnd) {p : Char → Bool}

/-- What holds of one of the characters of a line ending holds of all of them. -/
theorem eq_of_mem_text (hp : p '\r' = p '\n') : ∀ c ∈ e.text, p c = p '\n' := by
  cases e <;> simp [LineEnd.text, hp]

theorem any_head?_restyle (hp : p '\r' = p '\n') (text : List Char) :
    (e.restyle text).head?.any p = text.head?.any p := by
  cases text with
  | nil => rfl
  | cons c rest =>
    by_cases hc : c = '\n'
    · subst hc
      rw [restyle_feed_cons]
      cases e <;> simp [LineEnd.text, hp]
    · rw [restyle_cons e hc]
      rfl

theorem any_getLast?_restyle (hp : p '\r' = p '\n') {before before' : Option Char}
    (hbefore : before'.any p = before.any p) (text : List Char) :
    ((e.restyle text).getLast?.or before').any p = (text.getLast?.or before).any p := by
  rcases List.eq_nil_or_concat text with rfl | ⟨front, c, rfl⟩
  · exact hbefore
  · rw [List.concat_eq_append, restyle_append, List.getLast?_append, List.getLast?_append]
    by_cases hc : c = '\n'
    · subst hc
      cases e <;> simp [restyle, write, LineEnd.text, hp]
    · rw [restyle_cons e hc]
      rfl

theorem takeWhile_restyle (hp : p '\r' = p '\n') (text : List Char) :
    (e.restyle text).takeWhile p = e.restyle (text.takeWhile p) ∧
      (e.restyle text).dropWhile p = e.restyle (text.dropWhile p) := by
  induction text with
  | nil => exact ⟨rfl, rfl⟩
  | cons c rest ih =>
    obtain ⟨htake, hdrop⟩ := ih
    by_cases hc : c = '\n'
    · subst hc
      rw [restyle_feed_cons, List.takeWhile_cons, List.dropWhile_cons]
      by_cases hfeed : p '\n' = true
      · have hall : ∀ c ∈ e.text, p c = true := fun c hc => (e.eq_of_mem_text hp c hc).trans hfeed
        rw [List.takeWhile_append_of_pos hall, List.dropWhile_append_of_pos hall, htake, hdrop,
          if_pos hfeed, if_pos hfeed, restyle_feed_cons]
        exact ⟨rfl, rfl⟩
      · rw [if_neg hfeed, if_neg hfeed]
        have hfeed := eq_false_of_ne_true hfeed
        cases e <;> simp [LineEnd.text, hp, hfeed, restyle_feed_cons]
    · rw [restyle_cons e hc, List.takeWhile_cons, List.takeWhile_cons, List.dropWhile_cons,
        List.dropWhile_cons, htake, hdrop]
      by_cases hpc : p c = true
      · rw [if_pos hpc, if_pos hpc, if_pos hpc, if_pos hpc, restyle_cons e hc]
        exact ⟨rfl, rfl⟩
      · rw [if_neg hpc, if_neg hpc, if_neg hpc, if_neg hpc, restyle_cons e hc]
        exact ⟨rfl, rfl⟩

/-- A word without line breaks stands in both texts or in neither. -/
theorem prefix_restyle_iff {word : List Char} (hword : ∀ c ∈ word, isLineBreak c = false)
    (text : List Char) : word <+: e.restyle text ↔ word <+: text := by
  induction word generalizing text with
  | nil => exact ⟨fun _ => List.nil_prefix, fun _ => List.nil_prefix⟩
  | cons c word ih =>
    obtain ⟨hc, hword⟩ := List.forall_mem_cons.mp hword
    cases text with
    | nil => rfl
    | cons d rest =>
      by_cases hd : d = '\n'
      · subst hd
        obtain ⟨hreturn, hfeed⟩ := isLineBreak_eq_false_iff.mp hc
        rw [restyle_feed_cons]
        cases e <;> simp [LineEnd.text, List.cons_prefix_cons, hreturn, hfeed]
      · rw [restyle_cons e hd, List.cons_prefix_cons, List.cons_prefix_cons, ih hword]

end LineEnd

/-! ## Readers -/

section Rel

variable {α β γ : Type} {R R' : α → β → Prop} {S : β → γ → Prop} {T : α → γ → Prop}
  {one : Option α} {other : Option β} {third : Option γ}

theorem rel_imp (h : Option.Rel R one other) (himp : ∀ a b, R a b → R' a b) :
    Option.Rel R' one other := by
  cases h with
  | some hab => exact .some (himp _ _ hab)
  | none => exact .none

theorem rel_swap (h : Option.Rel R one other) : Option.Rel (fun b a => R a b) other one := by
  cases h with
  | some hab => exact .some hab
  | none => exact .none

theorem rel_trans (h : Option.Rel R one other) (h' : Option.Rel S other third)
    (htrans : ∀ a b c, R a b → S b c → T a c) : Option.Rel T one third := by
  cases h with
  | some hab =>
    cases h' with
    | some hbc => exact .some (htrans _ _ _ hab hbc)
  | none =>
    cases h'
    exact .none

theorem rel_findSome? {ι : Type} {f : ι → Option α} {g : ι → Option β} {xs : List ι}
    (h : ∀ x ∈ xs, Option.Rel R (f x) (g x)) :
    Option.Rel R (xs.findSome? f) (xs.findSome? g) := by
  induction xs with
  | nil => exact .none
  | cons x xs ih =>
    obtain ⟨hx, hxs⟩ := List.forall_mem_cons.mp h
    rw [List.findSome?_cons, List.findSome?_cons]
    generalize f x = a, g x = b at hx
    cases hx with
    | some hab => exact .some hab
    | none => exact ih hxs

end Rel

/-- The captures have the same text and stand at corresponding places. -/
def Capture.Restyled (e : LineEnd) (text : List Char) (c c' : Capture) : Prop :=
  c'.stretch = e.stretch text c.stretch ∧ c'.text = c.text

namespace Reader

variable {e : LineEnd} {text : List Char} {p : Char → Bool} {r r' later later' : Reader}

/-- The readers are at corresponding places of the text and of the text with the line ending. -/
structure Restyled (e : LineEnd) (text : List Char) (r r' : Reader) : Prop where
  ahead : r'.ahead = e.restyle r.ahead
  offset : r'.offset = e.offset text r.offset
  inside : r.ahead <+: text.drop r.offset
  before : ∀ p : Char → Bool, p '\r' = p '\n' → r'.before.any p = r.before.any p

/-- The readers go on over the same characters, none of which is a line feed. -/
def SameStep (e : LineEnd) (r r' later later' : Reader) : Prop :=
  ∃ passed rest, '\n' ∉ passed ∧ r.ahead = passed ++ rest ∧ later = r.passing passed rest ∧
    later' = r'.passing passed (e.restyle rest)

theorem Restyled.passing (h : Restyled e text r r') {passed rest : List Char}
    (hahead : r.ahead = passed ++ rest) :
    Restyled e text (r.passing passed rest) (r'.passing (e.restyle passed) (e.restyle rest)) where
  ahead := rfl
  offset := by
    have hinside := h.inside
    rw [hahead] at hinside
    rw [offset_passing, offset_passing, h.offset,
      e.offset_add_of_prefix ((List.prefix_append _ _).trans hinside)]
  inside := by
    obtain ⟨behind, hbehind⟩ := h.inside
    rw [ahead_passing, offset_passing, ← List.drop_drop, ← hbehind, hahead, List.append_assoc,
      List.drop_left]
    exact List.prefix_append _ _
  before p hp := e.any_getLast?_restyle hp (h.before p hp) passed

/-- The readers take a character, or a line ending and a line feed. -/
theorem Restyled.passing_cons {c : Char} {rest : List Char} (h : Restyled e text r r')
    (hahead : r.ahead = c :: rest) :
    Restyled e text (r.passing [c] rest) (r'.passing (e.restyle [c]) (e.restyle rest)) :=
  h.passing hahead

theorem Restyled.any_head? (h : Restyled e text r r') (hp : p '\r' = p '\n') :
    r'.ahead.head?.any p = r.ahead.head?.any p := by
  rw [h.ahead, e.any_head?_restyle hp]

theorem Restyled.step (h : Restyled e text r r') (hstep : SameStep e r r' later later') :
    Restyled e text later later' := by
  obtain ⟨passed, rest, hpassed, hahead, rfl, rfl⟩ := hstep
  have hpassing := h.passing hahead
  rwa [e.restyle_of_notMem hpassed] at hpassing

theorem Restyled.sameStep_refl (h : Restyled e text r r') : SameStep e r r' r r' :=
  ⟨[], r.ahead, List.not_mem_nil, rfl, (passing_nil rfl).symm, (passing_nil h.ahead).symm⟩

theorem SameStep.trans {last last' : Reader} (h : SameStep e r r' later later')
    (h' : SameStep e later later' last last') : SameStep e r r' last last' := by
  obtain ⟨passed, rest, hpassed, hahead, rfl, rfl⟩ := h
  obtain ⟨more, rest', hmore, hahead', rfl, rfl⟩ := h'
  obtain rfl : rest = more ++ rest' := hahead'
  refine ⟨passed ++ more, rest', ?_, ?_, passing_passing _ _ _ _ _, passing_passing _ _ _ _ _⟩
  · intro hmem
    rcases List.mem_append.mp hmem with hmem | hmem
    · exact hpassed hmem
    · exact hmore hmem
  · rw [hahead, List.append_assoc]

/-- What is captured on the way is the same text. -/
theorem SameStep.upTo (h : Restyled e text r r') (hstep : SameStep e r r' later later') :
    (r.upTo later).Restyled e text (r'.upTo later') := by
  have hstop := (h.step hstep).offset
  obtain ⟨passed, rest, hpassed, hahead, rfl, rfl⟩ := hstep
  have hahead' : r'.ahead = passed ++ e.restyle rest := by
    rw [h.ahead, hahead, e.restyle_append, e.restyle_of_notMem hpassed]
  rw [upTo_passing hahead, upTo_passing hahead']
  exact ⟨Stretch.ends_inj _ _ (Prod.ext h.offset hstop), rfl⟩

/-! ### Steps that take no line break -/

theorem Restyled.one? (h : Restyled e text r r') (hp : sparesBreaks p = true) :
    Option.Rel (SameStep e r r') (r.one? p) (r'.one? p) := by
  have hhead := h.any_head? (same_of_sparesBreaks hp)
  by_cases hany : r.ahead.head?.any p = true
  · cases hahead : r.ahead with
    | nil => simp [hahead] at hany
    | cons c rest =>
      have hc : p c = true := by simpa [hahead] using hany
      have hne := ne_feed_of_sparesBreaks hp hc
      have hahead' : r'.ahead = c :: e.restyle rest := by
        rw [h.ahead, hahead, e.restyle_cons hne]
      rw [one?_of_cons hahead hc, one?_of_cons hahead' hc]
      exact .some ⟨[c], rest, by simpa using hne.symm, hahead, rfl, rfl⟩
  · have hany := eq_false_of_ne_true hany
    rw [one?_eq_none hany, one?_eq_none (hhead.trans hany)]
    exact .none

theorem Restyled.foldlM_one? (same : Char → Char → Bool) {word : List Char}
    (h : Restyled e text r r') (hword : ∀ c ∈ word, sparesBreaks (same c) = true) :
    Option.Rel (SameStep e r r') (word.foldlM (fun r c => r.one? (same c)) r)
      (word.foldlM (fun r c => r.one? (same c)) r') := by
  induction word generalizing r r' with
  | nil => exact .some h.sameStep_refl
  | cons c word ih =>
    obtain ⟨hc, hword⟩ := List.forall_mem_cons.mp hword
    rw [List.foldlM_cons, List.foldlM_cons]
    apply rel_bind (h.one? hc)
    intro second second' hstep
    exact rel_imp (ih (h.step hstep) hword) fun _ _ hmore => hstep.trans hmore

theorem Restyled.literal? {word : List Char} (h : Restyled e text r r')
    (hword : ∀ c ∈ word, isLineBreak c = false) :
    Option.Rel (SameStep e r r') (r.literal? word) (r'.literal? word) := by
  exact h.foldlM_one? (fun c d => d == c) fun c hc => sparesBreaks_beq (hword c hc)

theorem Restyled.getD_literal? (word : List Char) (h : Restyled e text r r')
    (hword : ∀ c ∈ word, isLineBreak c = false) :
    SameStep e r r' ((r.literal? word).getD r) ((r'.literal? word).getD r') := by
  have hread := h.literal? hword
  generalize r.literal? word = later, r'.literal? word = later' at hread ⊢
  cases hread with
  | some hstep => exact hstep
  | none => exact h.sameStep_refl

theorem Restyled.caseless? {word : List Char} (h : Restyled e text r r')
    (hword : ∀ c ∈ word, isLineBreak c = false) :
    Option.Rel (SameStep e r r') (r.caseless? word) (r'.caseless? word) :=
  h.foldlM_one? sameLetter fun c hc => sparesBreaks_sameLetter (hword c hc)

/-! ### Steps that may take line breaks -/

theorem Restyled.skipWhile (h : Restyled e text r r') (hp : p '\r' = p '\n') :
    Restyled e text (r.skipWhile p) (r'.skipWhile p) := by
  obtain ⟨htake, hdrop⟩ := e.takeWhile_restyle hp r.ahead
  rw [skipWhile_eq, skipWhile_eq, h.ahead, htake, hdrop]
  exact h.passing List.takeWhile_append_dropWhile.symm

theorem Restyled.skipWhile_sameStep (h : Restyled e text r r') (hp : sparesBreaks p = true) :
    SameStep e r r' (r.skipWhile p) (r'.skipWhile p) := by
  obtain ⟨htake, hdrop⟩ := e.takeWhile_restyle (same_of_sparesBreaks hp) r.ahead
  have hfeed : '\n' ∉ r.ahead.takeWhile p := fun hmem =>
    ne_feed_of_sparesBreaks hp (List.mem_takeWhile_imp hmem) rfl
  refine ⟨_, _, hfeed, List.takeWhile_append_dropWhile.symm, skipWhile_eq p r, ?_⟩
  rw [skipWhile_eq, h.ahead, htake, hdrop, e.restyle_of_notMem hfeed]

theorem some?_eq (p : Char → Bool) (r : Reader) :
    r.some? p = if r.ahead.head?.any p then some (r.skipWhile p) else none := by
  obtain ⟨offset, before, ahead⟩ := r
  cases ahead with
  | nil => rfl
  | cons c rest =>
    by_cases hc : p c = true <;> simp [some?, one?, Reader.skipWhile, skipWhile.go, hc]

theorem Restyled.some? (h : Restyled e text r r') (hp : p '\r' = p '\n') :
    Option.Rel (Restyled e text) (r.some? p) (r'.some? p) := by
  rw [some?_eq, some?_eq, h.any_head? hp]
  split
  · exact .some (h.skipWhile hp)
  · exact .none

theorem Restyled.atWordBoundary_eq (h : Restyled e text r r') :
    r'.atWordBoundary = r.atWordBoundary := by
  have hword : isWord '\r' = isWord '\n' := by decide
  rw [atWordBoundary, atWordBoundary, h.any_head? hword, h.before isWord hword]

theorem Restyled.name? {first part : Char → Bool} (h : Restyled e text r r')
    (hfirst : sparesBreaks first = true) (hpart : sparesBreaks part = true) :
    Option.Rel (fun found found' => found.1.Restyled e text found'.1 ∧
        SameStep e r r' found.2 found'.2)
      (r.name? first part) (r'.name? first part) := by
  unfold Reader.name?
  apply rel_map (h.one? hfirst)
  intro second second' hsecond
  have hstep := hsecond.trans ((h.step hsecond).skipWhile_sameStep hpart)
  exact ⟨hstep.upTo h, hstep⟩

end Reader

/-! ## Patterns -/

section Patterns

variable {α : Type} {e : LineEnd} {text : List Char} {R : α → α → Prop} {pattern : Pattern α}
  {r r' : Reader}

/-- The pattern reads corresponding texts alike, does not begin with a line break and is not
empty. -/
structure Pattern.Restyles (e : LineEnd) (text : List Char) (R : α → α → Prop)
    (pattern : Pattern α) : Prop where
  read : ∀ {r r' : Reader}, r.Restyled e text r' → Option.Rel
    (fun found found' => R found.1 found'.1 ∧ found.2.Restyled e text found'.2)
    (pattern.read r) (pattern.read r')
  read_lineBreak : ∀ {r : Reader}, r.ahead.head?.any isLineBreak = true → pattern.read r = none
  advances : ∀ {r later : Reader} {value : α}, pattern.read r = some (value, later) →
    r.offset < later.offset

/-- No occurrence begins in a line ending. -/
theorem Pattern.Restyles.misses (h : pattern.Restyles e text R) {breaks : List Char}
    (hbreaks : ∀ c ∈ breaks, isLineBreak c = true) (r : Reader) (rest : List Char) :
    pattern.Misses r breaks rest := by
  intro front back hne hsplit
  obtain ⟨c, back, rfl⟩ := List.exists_cons_of_ne_nil hne
  apply h.read_lineBreak
  have hc := hbreaks c (hsplit ▸ List.mem_append_right _ List.mem_cons_self)
  rw [Reader.ahead_passing]
  exact hc

section Cons

variable {c : Char} {rest : List Char}

/-- The search passes over a character at which the pattern does not hold. -/
theorem firstOccurrence?_pass (hahead : r.ahead = c :: rest) (hread : pattern.read r = none) :
    firstOccurrence? pattern r = firstOccurrence? pattern (r.passing [c] rest) :=
  firstOccurrence?_append hahead (Pattern.misses_singleton hahead hread)

theorem Pattern.Restyles.read_feed (h : pattern.Restyles e text R)
    (hahead : r.ahead = '\n' :: rest) : pattern.read r = none := by
  apply h.read_lineBreak
  rw [hahead]
  rfl

end Cons

/-- **The first occurrence corresponds.** The induction is on the characters ahead; a line ending is
passed over at once in both texts. -/
theorem firstOccurrence?_restyled (hpattern : pattern.Restyles e text R)
    (h : r.Restyled e text r') :
    Option.Rel (fun found found' => R found.1 found'.1 ∧ found.2.1.Restyled e text found'.2.1 ∧
        found.2.2.Restyled e text found'.2.2)
      (firstOccurrence? pattern r) (firstOccurrence? pattern r') := by
  generalize hahead : r.ahead = ahead
  induction ahead generalizing r r' with
  | nil =>
    have hahead' : r'.ahead = [] := by rw [h.ahead, hahead, e.restyle_nil]
    rw [firstOccurrence?, firstOccurrence?, hahead, hahead']
    exact .none
  | cons c rest ih =>
    have hahead' := h.ahead
    rw [hahead] at hahead'
    by_cases hc : c = '\n'
    · subst hc
      have hbehind := h.passing_cons hahead
      rw [e.restyle_feed_cons] at hahead'
      rw [e.restyle_singleton] at hbehind
      rw [firstOccurrence?_pass hahead (hpattern.read_feed hahead),
        firstOccurrence?_append hahead' (hpattern.misses e.isLineBreak_of_mem_text r' _)]
      exact ih hbehind rfl
    · have hbehind := h.passing_cons hahead
      rw [e.restyle_cons hc] at hahead'
      rw [e.restyle_cons hc, e.restyle_nil] at hbehind
      have hread := hpattern.read h
      cases hhere : pattern.read r with
      | none =>
        rw [hhere] at hread
        have hthere := eq_none_of_rel hread
        rw [firstOccurrence?_pass hahead hhere, firstOccurrence?_pass hahead' hthere]
        exact ih hbehind rfl
      | some found =>
        rw [hhere] at hread
        obtain ⟨value, later⟩ := found
        obtain ⟨⟨value', later'⟩, hthere, hvalue, hlater⟩ := exists_of_rel hread
        have hne : r.ahead ≠ [] := hahead ▸ List.cons_ne_nil c rest
        have hne' : r'.ahead ≠ [] := hahead' ▸ List.cons_ne_nil c (e.restyle rest)
        rw [firstOccurrence?_eq_some hne hhere, firstOccurrence?_eq_some hne' hthere]
        exact .some ⟨hvalue, h, hlater⟩

/-- What is read through to the pattern is what stands before its first occurrence. -/
theorem Reader.through?_of_firstOccurrence? (pattern : Pattern α) (r : Reader) :
    Option.Rel (fun found first => found.1.start = r.offset ∧ found.1.stop = first.2.1.offset ∧
      found.2 = first.2.2) (r.through? pattern) (firstOccurrence? pattern r) := by
  unfold through?
  split
  · next hfirst =>
    rw [hfirst]
    exact .none
  · next hfirst =>
    conv => arg 3; rw [hfirst]
    exact .some ⟨rfl, rfl, rfl⟩

theorem Reader.Restyled.through? (hpattern : pattern.Restyles e text R)
    (h : r.Restyled e text r') :
    Option.Rel (fun found found' => found'.1 = e.stretch text found.1 ∧
        found.2.Restyled e text found'.2)
      (r.through? pattern) (r'.through? pattern) := by
  have hthere : Option.Rel (fun first found => found.1.start = e.offset text r.offset ∧
      found.1.stop = e.offset text first.2.1.offset ∧ first.2.2.Restyled e text found.2)
      (firstOccurrence? pattern r) (r'.through? pattern) := by
    apply rel_trans (firstOccurrence?_restyled hpattern h)
      (rel_swap (Reader.through?_of_firstOccurrence? pattern r'))
    rintro first first' found' ⟨-, hplace, hlater⟩ ⟨hstart, hstop, heq⟩
    exact ⟨hstart.trans h.offset, hstop.trans hplace.offset, heq ▸ hlater⟩
  apply rel_trans (Reader.through?_of_firstOccurrence? pattern r) hthere
  rintro found first found' ⟨hstart, hstop, heq⟩ ⟨hstart', hstop', hlater⟩
  refine ⟨Stretch.ends_inj _ _ (Prod.ext ?_ ?_), heq ▸ hlater⟩
  · exact hstart'.trans (congrArg _ hstart.symm)
  · exact hstop'.trans (congrArg _ hstop.symm)

/-- What is read at a place is an occurrence, and the others are behind it. -/
theorem occurrences_of_read (hpattern : pattern.Restyles e text R) {value : α} {later : Reader}
    (hread : pattern.read r = some (value, later)) :
    later.ahead.length < r.ahead.length ∧ occurrences pattern r =
      ⟨r.offset, later.offset, value, (pattern.forward hread).offset_le⟩ ::
        occurrences pattern later := by
  obtain ⟨passed, hahead, hlater⟩ := (pattern.forward hread).exists_passing
  have hadvances := hpattern.advances hread
  cases passed with
  | nil =>
    rw [hlater, Reader.offset_passing] at hadvances
    exact absurd hadvances (Nat.lt_irrefl _)
  | cons c passed =>
    have hoffset : later.offset = r.offset + (c :: passed).length := by
      rw [hlater, Reader.offset_passing]
    have hthere := hread
    rw [hlater] at hthere
    refine ⟨?_, ?_⟩
    · rw [hahead, List.length_append, List.length_cons]
      omega
    · rw [occurrences_eq_cons hahead hthere, ← hlater]
      simp only [hoffset]

/-- **Occurrences correspond.** -/
theorem occurrences_restyled (hpattern : pattern.Restyles e text R) (h : r.Restyled e text r') :
    List.Forall₂ (fun o o' => o'.stretch = e.stretch text o.stretch ∧ R o.value o'.value)
      (occurrences pattern r) (occurrences pattern r') := by
  generalize hlength : r.ahead.length = length
  induction length using Nat.strongRecOn generalizing r r' with
  | ind length ih =>
    subst hlength
    have hahead' := h.ahead
    cases hahead : r.ahead with
    | nil =>
      rw [hahead, e.restyle_nil] at hahead'
      rw [occurrences, occurrences, hahead, hahead', occurrencesFrom, occurrencesFrom]
      exact .nil
    | cons c rest =>
      rw [hahead] at hahead'
      have hless : rest.length < r.ahead.length := by
        rw [hahead]
        exact Nat.lt_succ_self _
      by_cases hc : c = '\n'
      · subst hc
        have hbehind := h.passing_cons hahead
        rw [e.restyle_feed_cons] at hahead'
        rw [e.restyle_singleton] at hbehind
        rw [occurrences_pass hahead (hpattern.read_feed hahead),
          occurrences_append hahead' (hpattern.misses e.isLineBreak_of_mem_text r' _)]
        exact ih _ hless hbehind rfl
      · have hbehind := h.passing_cons hahead
        rw [e.restyle_cons hc] at hahead'
        rw [e.restyle_cons hc, e.restyle_nil] at hbehind
        have hread := hpattern.read h
        cases hhere : pattern.read r with
        | none =>
          rw [hhere] at hread
          have hthere := eq_none_of_rel hread
          rw [occurrences_pass hahead hhere, occurrences_pass hahead' hthere]
          exact ih _ hless hbehind rfl
        | some found =>
          rw [hhere] at hread
          obtain ⟨value, later⟩ := found
          obtain ⟨⟨value', later'⟩, hthere, hvalue, hlater⟩ := exists_of_rel hread
          obtain ⟨hless, heq⟩ := occurrences_of_read hpattern hhere
          obtain ⟨-, heq'⟩ := occurrences_of_read hpattern hthere
          rw [heq, heq']
          refine .cons ⟨?_, hvalue⟩ (ih _ hless hlater rfl)
          exact Stretch.ends_inj _ _ (Prod.ext h.offset hlater.offset)

end Patterns

end Cfml
