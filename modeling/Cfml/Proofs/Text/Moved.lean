/-
Reading the same characters in another place.

What a step reads depends on the characters ahead and not on those before. A step that is taken at
two places, of which the second has the characters ahead of the first one and then a tail, reads the
same at both, unless it would go on into the tail (`Reader.Moved`). The steps of the readers are
gone through here one by one; a pattern that is put together from them reads the same as well, and
its occurrences move with the text (`occurrences_moved`).
-/
import Cfml.Proofs.Text.Occurrences
import Mathlib.Data.List.TakeWhile

set_option autoImplicit false

namespace Cfml

/-! ## Steps that may fail -/

section Rel

variable {α β γ δ : Type} {R : α → β → Prop} {S : γ → δ → Prop}

theorem rel_bind {one : Option α} {other : Option β} {f : α → Option γ} {g : β → Option δ}
    (h : Option.Rel R one other) (hnext : ∀ a b, R a b → Option.Rel S (f a) (g b)) :
    Option.Rel S (one.bind f) (other.bind g) := by
  cases h with
  | some hab => exact hnext _ _ hab
  | none => exact .none

theorem rel_map {one : Option α} {other : Option β} {f : α → γ} {g : β → δ}
    (h : Option.Rel R one other) (hvalue : ∀ a b, R a b → S (f a) (g b)) :
    Option.Rel S (one.map f) (other.map g) := by
  cases h with
  | some hab => exact .some (hvalue _ _ hab)
  | none => exact .none

theorem rel_orElse {one one' : Option α} {other other' : Option β} (h : Option.Rel R one other)
    (h' : Option.Rel R one' other') : Option.Rel R (one <|> one') (other <|> other') := by
  cases h with
  | some hab => exact .some hab
  | none => exact h'

theorem eq_none_of_rel {other : Option β} (h : Option.Rel R none other) : other = none := by
  cases h
  rfl

theorem exists_of_rel {a : α} {other : Option β} (h : Option.Rel R (some a) other) :
    ∃ b, other = some b ∧ R a b := by
  cases h with
  | some hab => exact ⟨_, rfl, hab⟩

end Rel

namespace Reader

/-- The other place is as many characters further on, and has the same ahead and then the tail. -/
structure Moved (distance : Nat) (tail : List Char) (r r' : Reader) : Prop where
  ahead : r'.ahead = r.ahead ++ tail
  offset : r'.offset = r.offset + distance

variable {distance : Nat} {tail : List Char} {r r' : Reader} {p : Char → Bool}

theorem Moved.any_head? (h : Moved distance tail r r') (hp : tail.head?.any p = false) :
    r'.ahead.head?.any p = r.ahead.head?.any p := by
  rw [h.ahead, List.head?_append]
  cases r.ahead with
  | nil => exact hp
  | cons c rest => rfl

theorem Moved.passing (h : Moved distance tail r r') (passed rest : List Char) :
    Moved distance tail (r.passing passed rest) (r'.passing passed (rest ++ tail)) where
  ahead := rfl
  offset := by
    rw [offset_passing, offset_passing, h.offset]
    omega

/-! ## One step -/

theorem Moved.one? (h : Moved distance tail r r')
    (hp : r.ahead = [] → tail.head?.any p = false) :
    Option.Rel (Moved distance tail) (r.one? p) (r'.one? p) := by
  unfold Reader.one?
  rw [h.ahead, h.offset]
  cases hahead : r.ahead with
  | nil =>
    rw [List.nil_append]
    cases tail with
    | nil => exact .none
    | cons c tail =>
      have hc : p c = false := hp hahead
      simp only [hc, Bool.false_eq_true, if_false]
      exact .none
  | cons c rest =>
    by_cases hc : p c = true
    · simp only [List.cons_append, hc, if_true]
      exact .some ⟨rfl, by simp only; omega⟩
    · simp only [List.cons_append, hc]
      exact .none

/-- A word is read in the same way, if no letter of it begins the tail. -/
theorem Moved.foldlM_one? {same : Char → Char → Bool} {word : List Char}
    (h : Moved distance tail r r') (hword : ∀ c ∈ word, tail.head?.any (same c) = false) :
    Option.Rel (Moved distance tail) (word.foldlM (fun r c => r.one? (same c)) r)
      (word.foldlM (fun r c => r.one? (same c)) r') := by
  induction word generalizing r r' with
  | nil => exact .some h
  | cons c word ih =>
    obtain ⟨hc, hword⟩ := List.forall_mem_cons.mp hword
    rw [List.foldlM_cons, List.foldlM_cons]
    exact rel_bind (h.one? fun _ => hc) fun _ _ hnext => ih hnext hword

theorem Moved.literal? {word : List Char} (h : Moved distance tail r r')
    (hword : ∀ c ∈ word, tail.head?.any (· == c) = false) :
    Option.Rel (Moved distance tail) (r.literal? word) (r'.literal? word) :=
  h.foldlM_one? hword

theorem Moved.caseless? {word : List Char} (h : Moved distance tail r r')
    (hword : ∀ c ∈ word, tail.head?.any (sameLetter c) = false) :
    Option.Rel (Moved distance tail) (r.caseless? word) (r'.caseless? word) :=
  h.foldlM_one? hword

/-- A run of characters ends in the text, or the tail does not go on with it. -/
theorem Moved.skipWhile (h : Moved distance tail r r')
    (hp : tail.head?.any p = false ∨ ∃ c ∈ r.ahead, p c = false) :
    Moved distance tail (r.skipWhile p) (r'.skipWhile p) := by
  have hsplit := List.takeWhile_append_dropWhile (p := p) (l := r.ahead)
  have hahead : r'.ahead = r.ahead.takeWhile p ++ (r.ahead.dropWhile p ++ tail) := by
    rw [← List.append_assoc, hsplit, h.ahead]
  have hrest : (r.ahead.dropWhile p ++ tail).head?.any p = false := by
    cases hdrop : r.ahead.dropWhile p with
    | nil =>
      rcases hp with hp | ⟨c, hc, hpc⟩
      · exact hp
      · rw [List.dropWhile_eq_nil_iff] at hdrop
        rw [hdrop c hc] at hpc
        exact absurd hpc (by decide)
    | cons c rest =>
      have hhead := List.head?_dropWhile_not p r.ahead
      rw [hdrop] at hhead
      simpa using hhead
  rw [skipWhile_eq, skipWhile_of_append hahead (fun c hc => List.mem_takeWhile_imp hc) hrest]
  exact h.passing _ _

theorem Moved.some? (h : Moved distance tail r r')
    (hp : tail.head?.any p = false ∨ ∃ c ∈ r.ahead, p c = false) :
    Option.Rel (Moved distance tail) (r.some? p) (r'.some? p) := by
  have hone := h.one? (p := p) fun hnil => hp.resolve_right (by simp [hnil])
  unfold Reader.some?
  cases hsecond : r.one? p with
  | none =>
    rw [hsecond] at hone
    rw [eq_none_of_rel hone]
    exact .none
  | some second =>
    rw [hsecond] at hone
    obtain ⟨second', hsecond', hmoved⟩ := exists_of_rel hone
    obtain ⟨c, rest, hahead, hc, rfl⟩ := one?_eq_some_iff.mp hsecond
    -- the character at which the run ends is not the first one
    have hrest : tail.head?.any p = false ∨ ∃ c ∈ rest, p c = false := by
      rcases hp with hp | ⟨d, hd, hpd⟩
      · exact Or.inl hp
      · rw [hahead] at hd
        rcases List.mem_cons.mp hd with rfl | hd
        · rw [hc] at hpd
          exact absurd hpd (by decide)
        · exact Or.inr ⟨d, hd, hpd⟩
    rw [hsecond']
    exact .some (hmoved.skipWhile hrest)

end Reader

/-! ## A pattern -/

variable {α : Type} {pattern : Pattern α} {distance : Nat} {f : α → α}

/-- The occurrence as many characters further on, with another value. -/
def Occurrence.shift (f : α → α) (distance : Nat) (o : Occurrence α) : Occurrence α :=
  ⟨o.start + distance, o.stop + distance, f o.value, Nat.add_le_add_right o.start_le_stop distance⟩

/-- The pattern reads the same in a text that is moved, and its values move by `f`. -/
def Pattern.Moves (pattern : Pattern α) (f : α → α) (distance : Nat) : Prop :=
  ∀ r r' : Reader, r.Moved distance [] r' → Option.Rel
    (fun found found' => found'.1 = f found.1 ∧ found.2.Moved distance [] found'.2)
    (pattern.read r) (pattern.read r')

theorem occurrencesFrom_moved (h : pattern.Moves f distance) (skip offset : Nat)
    (before before' : Option Char) (text : List Char) :
    occurrencesFrom pattern skip (offset + distance) before' text
      = (occurrencesFrom pattern skip offset before text).map (·.shift f distance) := by
  induction text generalizing skip offset before before' with
  | nil => rfl
  | cons c rest ih =>
    cases skip with
    | succ left =>
      rw [occurrencesFrom, occurrencesFrom, Nat.add_right_comm, ih]
    | zero =>
      have hmoved : Reader.Moved distance [] ⟨offset, before, c :: rest⟩
          ⟨offset + distance, before', c :: rest⟩ := ⟨(List.append_nil _).symm, rfl⟩
      have hread := h _ _ hmoved
      cases hhere : pattern.read ⟨offset, before, c :: rest⟩ with
      | none =>
        rw [hhere] at hread
        rw [occurrencesFrom_of_none hhere, occurrencesFrom_of_none (eq_none_of_rel hread),
          Nat.add_right_comm, ih]
      | some found =>
        rw [hhere] at hread
        obtain ⟨value, later⟩ := found
        obtain ⟨⟨_, later'⟩, hthere, rfl, hlater⟩ := exists_of_rel hread
        have hstop : later'.offset = later.offset + distance := hlater.offset
        have hskip : later'.offset - (offset + distance) - 1 = later.offset - offset - 1 := by
          omega
        rw [occurrencesFrom_of_some hhere, occurrencesFrom_of_some hthere, List.map_cons, hskip,
          Nat.add_right_comm, ih _ _ (some c)]
        simp only [Occurrence.shift, hstop]

/-- **Occurrences move with the text.** -/
theorem occurrences_moved (h : pattern.Moves f distance) {r r' : Reader}
    (hmoved : r.Moved distance [] r') :
    occurrences pattern r' = (occurrences pattern r).map (·.shift f distance) := by
  rw [occurrences, hmoved.ahead, hmoved.offset, List.append_nil]
  exact occurrencesFrom_moved h 0 r.offset r.before r'.before r.ahead

end Cfml
