/-
The tokens of a text that goes on.

A token is read from the characters ahead of it, so tokens move with the text (`tokensFrom_add`). A
text that a line break follows is cut into the same tokens as on its own, up to the first place
where an opened documentation block is not closed, or where only white space is left (`exists_cut`):
a block goes on to a closing delimiter behind the line break, and white space goes on with the line
break. No other token does.
-/
import Cfml.Component.Head
import Cfml.Proofs.Comment.Around
import Cfml.Proofs.Comment.Delimited
import Cfml.Proofs.Text.Moved

set_option autoImplicit false

namespace Cfml

open JumpLexer

namespace HeadToken

/-! ## Tokens in another place -/

/-- The kind of a token that stands as many characters further on. -/
def Kind.shift (distance : Nat) : Kind → Kind
  | .doc inside => .doc (inside.shift distance)
  | kind => kind

/-- Whether the token is a documentation block. -/
def Kind.isDoc : Kind → Bool
  | .doc _ => true
  | _ => false

/-- The token as many characters further on. -/
def shift (distance : Nat) (token : HeadToken) : HeadToken :=
  ⟨token.kind.shift distance, token.stretch.shift distance⟩

/-- The tokens of a text that begins at the offset. -/
def tokensFrom (offset : Nat) (text : List Char) : List HeadToken :=
  (occurrences next (Reader.ofText text offset)).map fun found => ⟨found.value, found.stretch⟩

/-- The text begins with a documentation block that is not closed. -/
def OpensDoc (text : List Char) : Prop :=
  ['/', '*', '*'] <+: text ∧ ¬ ['*', '/'] <:+: text.drop 3

variable {distance : Nat} {tail : List Char} {r r' later : Reader}

/-- Nothing but white space goes on with a line break. -/
theorem any_head?_eq_false {p : Char → Bool} (htail : ∀ b ∈ tail.head?, b = '\n')
    (hp : p '\n' = false) : tail.head?.any p = false := by
  cases tail with
  | nil => rfl
  | cons b tail =>
    rw [htail b rfl]
    exact hp

/-- What is found, and the place behind it, move together. -/
def MovesWith (distance : Nat) (tail : List Char) (found found' : Kind × Reader) : Prop :=
  found'.1 = found.1.shift distance ∧ found.2.Moved distance tail found'.2

theorem keyword?_moved (h : r.Moved distance tail r') (htail : ∀ b ∈ tail.head?, b = '\n') :
    Option.Rel (Reader.Moved distance tail) (keyword? r) (keyword? r') := by
  have hword : ∀ word ∈ ["component".toList, "interface".toList],
      ∀ c ∈ word, tail.head?.any (sameLetter c) = false := by
    intro word hmem c hc
    have hall : ∀ word ∈ ["component".toList, "interface".toList],
        ∀ c ∈ word, sameLetter c '\n' = false := by decide
    exact any_head?_eq_false htail (hall word hmem c hc)
  unfold keyword?
  apply rel_bind (rel_orElse (h.caseless? (hword _ (by simp))) (h.caseless? (hword _ (by simp))))
  intro behind behind' hbehind
  rw [hbehind.any_head? (any_head?_eq_false htail (by decide))]
  split
  · exact .none
  · exact .some hbehind

theorem tagOpen?_moved (h : r.Moved distance tail r') (htail : ∀ b ∈ tail.head?, b = '\n') :
    Option.Rel (Reader.Moved distance tail) (tagOpen? r) (tagOpen? r') := by
  have hname : ∀ c ∈ ['c', 'f'], tail.head?.any (sameLetter c) = false := by
    intro c hc
    have hall : ∀ c ∈ ['c', 'f'], sameLetter c '\n' = false := by decide
    exact any_head?_eq_false htail (hall c hc)
  unfold tagOpen?
  apply rel_bind (h.one? fun _ => any_head?_eq_false htail (by decide))
  intro second second' hsecond
  apply rel_bind (hsecond.caseless? hname)
  intro behind behind' hbehind
  have hkeyword := keyword?_moved hbehind htail
  cases hread : keyword? behind with
  | none =>
    rw [hread] at hkeyword
    rw [eq_none_of_rel hkeyword]
    exact .none
  | some last =>
    rw [hread] at hkeyword
    obtain ⟨last', hread', -⟩ := exists_of_rel hkeyword
    rw [hread']
    exact .some hbehind

/-- A closing delimiter that is there is the one that is found in the longer text as well. -/
theorem through?_moved {closer : List Char} (hne : closer ≠ []) (h : r.Moved distance tail r')
    (hclosed : closer <:+: r.ahead ++ tail → closer <:+: r.ahead) :
    Option.Rel (fun found found' => found'.1 = found.1.shift distance ∧
        found.2.Moved distance tail found'.2)
      (r.through? (.literal closer)) (r'.through? (.literal closer)) := by
  by_cases hcloser : closer <:+: r.ahead
  · have hcloser' : closer <:+: r'.ahead := by
      rw [h.ahead]
      exact hcloser.trans (List.prefix_append r.ahead tail).isInfix
    have hle := through_le_length closer r.ahead
    have hlength : through closer r'.ahead = through closer r.ahead := by
      rw [h.ahead, through_append_of_infix hne hcloser]
    obtain ⟨inside, hread⟩ := exists_through?_literal hne hcloser
    obtain ⟨inside', hread'⟩ := exists_through?_literal hne hcloser'
    obtain ⟨-, -, hstart, hstop⟩ := ahead_of_through?_literal hne hread
    obtain ⟨-, -, hstart', hstop'⟩ := ahead_of_through?_literal hne hread'
    have hmoved := h.passing (r.ahead.take (through closer r.ahead))
      (r.ahead.drop (through closer r.ahead))
    rw [hread, hread', hlength, h.ahead, List.take_append_of_le_length hle,
      List.drop_append_of_le_length hle]
    rw [hlength, h.ahead, List.take_append_of_le_length hle] at hstop'
    refine .some ⟨Stretch.ends_inj _ _ ?_, hmoved⟩
    have hoffset := h.offset
    rw [Reader.offset_passing] at hstop hstop'
    simp only [Stretch.ends, Stretch.shift, Prod.mk.injEq]
    omega
  · have hnone : ∀ {place : Reader}, ¬ closer <:+: place.ahead →
        place.through? (.literal closer) = none := by
      intro place hnot
      rw [Option.eq_none_iff_forall_ne_some]
      rintro ⟨inside, later⟩ hread
      exact hnot (ahead_of_through?_literal hne hread).1
    have hnot : ¬ closer <:+: r'.ahead := by
      rw [h.ahead]
      exact fun hcloser' => hcloser (hclosed hcloser')
    rw [hnone hcloser, hnone hnot]
    exact .none

theorem doc?_moved (h : r.Moved distance tail r') (htail : ∀ b ∈ tail.head?, b = '\n')
    (hdoc : tail = [] ∨ ¬ OpensDoc r.ahead) :
    Option.Rel (fun found found' => found'.1 = found.1.shift distance ∧
      found.2.Moved distance tail found'.2) (doc? r) (doc? r') := by
  have hopener : ∀ c ∈ ['/', '*', '*'], tail.head?.any (· == c) = false := by
    intro c hc
    have hall : ∀ c ∈ ['/', '*', '*'], ('\n' == c) = false := by decide
    exact any_head?_eq_false htail (hall c hc)
  have hliteral := h.literal? hopener
  unfold doc?
  cases hread : r.literal? ['/', '*', '*'] with
  | none =>
    rw [hread] at hliteral
    rw [eq_none_of_rel hliteral]
    exact .none
  | some behind =>
    rw [hread] at hliteral
    obtain ⟨behind', hread', hbehind⟩ := exists_of_rel hliteral
    rw [hread']
    apply through?_moved (by simp) hbehind
    obtain ⟨rest, hahead, rfl⟩ := Reader.literal?_eq_some_iff.mp hread
    intro hclosed
    rcases hdoc with rfl | hdoc
    · rwa [List.append_nil] at hclosed
    · by_contra hopen
      apply hdoc
      refine ⟨hahead ▸ List.prefix_append _ _, ?_⟩
      rw [hahead]
      exact hopen

/-- **A token is read in the same way in front of a line break**, if it is not white space up to
there and opens no documentation block that is not closed. -/
theorem next?_moved (h : r.Moved distance tail r') (htail : ∀ b ∈ tail.head?, b = '\n')
    (hblank : tail = [] ∨ ∃ c ∈ r.ahead, isBlank c = false)
    (hdoc : tail = [] ∨ ¬ OpensDoc r.ahead) :
    Option.Rel (MovesWith distance tail) (next? r) (next? r') := by
  have hplain : ∀ {kind : Kind} {read read' : Option Reader}, kind.shift distance = kind →
      Option.Rel (Reader.Moved distance tail) read read' →
      Option.Rel (MovesWith distance tail) (read.map (kind, ·)) (read'.map (kind, ·)) := by
    intro kind read read' hkind hread
    exact rel_map hread fun _ _ hmoved => ⟨hkind.symm, hmoved⟩
  have hfull : r.ahead = [] → tail = [] := by
    rintro hnil
    rcases hblank with rfl | ⟨c, hc, -⟩
    · rfl
    · rw [hnil] at hc
      exact absurd hc List.not_mem_nil
  unfold next?
  refine rel_orElse ?doc (rel_orElse ?blank (rel_orElse ?tagOpen (rel_orElse ?keyword
    (rel_orElse ?word ?other))))
  case doc =>
    apply rel_map (doc?_moved h htail hdoc)
    rintro ⟨inside, later⟩ ⟨inside', later'⟩ ⟨hinside, hmoved⟩
    exact ⟨congrArg Kind.doc hinside, hmoved⟩
  case blank =>
    apply hplain rfl
    apply h.some?
    rcases hblank with rfl | hblank
    · exact Or.inl rfl
    · exact Or.inr hblank
  case tagOpen => exact hplain rfl (tagOpen?_moved h htail)
  case keyword => exact hplain rfl (keyword?_moved h htail)
  case word =>
    apply hplain rfl
    exact h.some? (Or.inl (any_head?_eq_false htail (by decide)))
  case other =>
    apply hplain rfl
    apply h.one?
    intro hnil
    rw [hfull hnil]
    rfl

/-! ## Tokens one by one -/

/-- A token has a character. -/
theorem offset_lt_of_next? {kind : Kind} (h : next? r = some (kind, later)) :
    r.offset < later.offset := by
  have hone : ∀ {p : Char → Bool} {second : Reader}, r.one? p = some second →
      r.offset < second.offset := by
    intro p second hread
    obtain ⟨c, rest, -, -, rfl⟩ := Reader.one?_eq_some_iff.mp hread
    exact Nat.lt_succ_self _
  have hsome : ∀ {p : Char → Bool} {second : Reader}, r.some? p = some second →
      r.offset < second.offset := by
    intro p second hread
    obtain ⟨first, hfirst, rfl⟩ := Option.map_eq_some_iff.mp hread
    exact Nat.lt_of_lt_of_le (hone hfirst) (first.skipWhile_reaches p).offset_le
  have hword : ∀ {word : List Char} {second : Reader}, word ≠ [] →
      r.caseless? word = some second → r.offset < second.offset := by
    intro word second hne hread
    obtain ⟨written, rest, hsame, -, rfl⟩ := Reader.caseless?_eq_some_iff.mp hread
    have hpos := List.length_pos_of_ne_nil hne
    have hlength := hsame.length_eq
    rw [Reader.offset_passing]
    omega
  have hmap : ∀ {kind' : Kind} {read : Option Reader},
      (∀ {second}, read = some second → r.offset < second.offset) →
      read.map (kind', ·) = some (kind, later) → r.offset < later.offset := by
    intro kind' read hlt hread
    obtain ⟨second, hsecond, heq⟩ := Option.map_eq_some_iff.mp hread
    obtain ⟨-, rfl⟩ := Prod.mk.inj heq
    exact hlt hsecond
  rcases Reader.eq_some_of_orElse h with hdoc | h
  · obtain ⟨_, hread, heq⟩ := Option.map_eq_some_iff.mp hdoc
    obtain ⟨-, rfl⟩ := Prod.mk.inj heq
    simp only [doc?, Option.bind_eq_bind, Option.bind_eq_some_iff] at hread
    obtain ⟨behind, hopener, hthrough⟩ := hread
    obtain ⟨rest, -, rfl⟩ := Reader.literal?_eq_some_iff.mp hopener
    have hle := (Reader.through?_reaches hthrough).offset_le
    rw [Reader.offset_passing] at hle
    simp only [List.length_cons, List.length_nil] at hle
    omega
  rcases Reader.eq_some_of_orElse h with hblank | h
  · exact hmap hsome hblank
  rcases Reader.eq_some_of_orElse h with htag | h
  · refine hmap ?_ htag
    intro second hread
    simp only [tagOpen?, Option.bind_eq_bind, Option.bind_eq_some_iff,
      Option.ite_none_right_eq_some, Option.some.injEq] at hread
    obtain ⟨first, hfirst, _, hname, -, rfl⟩ := hread
    exact Nat.lt_of_lt_of_le (hone hfirst) (Reader.caseless?_reaches hname).offset_le
  rcases Reader.eq_some_of_orElse h with hkeyword | h
  · refine hmap ?_ hkeyword
    intro second hread
    simp only [keyword?, Option.bind_eq_bind, Option.bind_eq_some_iff] at hread
    obtain ⟨behind, hbehind, hend⟩ := hread
    obtain rfl : behind = second := by
      split at hend
      · exact absurd hend (by simp)
      · exact Option.some.inj hend
    rcases Reader.eq_some_of_orElse hbehind with hread | hread
    · exact hword (by simp) hread
    · exact hword (by simp) hread
  rcases Reader.eq_some_of_orElse h with hrun | hother
  · exact hmap hsome hrun
  · exact hmap hone hother

/-- There is a token at every character. -/
theorem exists_next? (hne : r.ahead ≠ []) : ∃ kind c passed rest,
    r.ahead = (c :: passed) ++ rest ∧ next? r = some (kind, r.passing (c :: passed) rest) := by
  have hsome : (next? r).isSome = true := by
    obtain ⟨c, rest, hahead⟩ := List.exists_cons_of_ne_nil hne
    have hone : r.one? (fun _ => true) = some (r.passing [c] rest) :=
      Reader.one?_eq_some_iff.mpr ⟨c, rest, hahead, rfl, rfl⟩
    unfold next?
    rw [hone]
    simp
  obtain ⟨⟨kind, later⟩, hread⟩ := Option.isSome_iff_exists.mp hsome
  have hlt := offset_lt_of_next? hread
  obtain ⟨passed, hahead, hlater⟩ := (next.forward hread).exists_passing
  rw [hlater] at hread
  cases passed with
  | nil =>
    rw [hlater, Reader.offset_passing] at hlt
    exact absurd hlt (Nat.lt_irrefl _)
  | cons c passed => exact ⟨kind, c, passed, later.ahead, hahead, hread⟩

theorem moves_next (distance : Nat) : next.Moves (Kind.shift distance) distance := by
  intro r r' hmoved
  exact next?_moved hmoved (by simp) (Or.inl rfl) (Or.inl rfl)

/-- **Tokens move with the text.** -/
theorem tokensFrom_add (offset distance : Nat) (text : List Char) :
    tokensFrom (offset + distance) text = (tokensFrom offset text).map (shift distance) := by
  have hmoved : (Reader.ofText text offset).Moved distance []
      (Reader.ofText text (offset + distance)) := ⟨(List.append_nil text).symm, rfl⟩
  rw [tokensFrom, tokensFrom, occurrences_moved (moves_next distance) hmoved, List.map_map,
    List.map_map]
  rfl

/-- What is ahead of a place is cut into tokens as a text of its own. -/
theorem map_occurrences (r : Reader) :
    (occurrences next r).map (fun found => (⟨found.value, found.stretch⟩ : HeadToken))
      = tokensFrom r.offset r.ahead := by
  have hmoved : r.Moved 0 [] (Reader.ofText r.ahead r.offset) :=
    ⟨(List.append_nil r.ahead).symm, rfl⟩
  have hself : Kind.shift 0 = id := by
    funext kind
    cases kind <;> rfl
  rw [tokensFrom, occurrences_moved (moves_next 0) hmoved, hself, List.map_map]
  rfl

/-- The first token, and those behind it. -/
theorem tokensFrom_eq_cons {offset : Nat} {kind : Kind} {c : Char} {passed rest : List Char}
    (h : next? (Reader.ofText ((c :: passed) ++ rest) offset)
      = some (kind, (Reader.ofText ((c :: passed) ++ rest) offset).passing (c :: passed) rest)) :
    tokensFrom offset ((c :: passed) ++ rest) =
      ⟨kind, offset, offset + (c :: passed).length, Nat.le_add_right _ _⟩ ::
        tokensFrom (offset + (c :: passed).length) rest := by
  have hahead : (Reader.ofText ((c :: passed) ++ rest) offset).ahead = c :: (passed ++ rest) := rfl
  have hread : next.read (Reader.ofText ((c :: passed) ++ rest) offset)
      = some (kind, (Reader.ofText ((c :: passed) ++ rest) offset).passing (c :: passed) rest) := h
  rw [tokensFrom, occurrences_eq_cons hahead hread, List.map_cons, map_occurrences]
  rfl

theorem le_start_of_mem_tokensFrom {offset : Nat} {text : List Char} {t : HeadToken}
    (h : t ∈ tokensFrom offset text) : offset ≤ t.stretch.start := by
  obtain ⟨found, hfound, rfl⟩ := List.mem_map.mp h
  exact (occurrences_within hfound).1

/-- The first token stands where the text begins. -/
theorem exists_first {offset : Nat} {text : List Char} (hne : text ≠ []) : ∃ kind later t,
    next? (Reader.ofText text offset) = some (kind, later) ∧ t ∈ tokensFrom offset text ∧
      t.kind = kind ∧ t.stretch.start = offset := by
  obtain ⟨kind, c, passed, rest, hahead, hread⟩ := exists_next? (r := Reader.ofText text offset) hne
  obtain rfl : text = (c :: passed) ++ rest := hahead
  refine ⟨kind, _, ⟨kind, offset, offset + (c :: passed).length, Nat.le_add_right _ _⟩, hread, ?_,
    rfl, rfl⟩
  rw [tokensFrom_eq_cons hread]
  exact List.mem_cons_self

theorem isBlank_of_next? {passed rest : List Char} (hahead : r.ahead = passed ++ rest)
    (h : next? r = some (.blank, r.passing passed rest)) : ∀ c ∈ passed, isBlank c = true := by
  -- no other way to read gives this kind
  have hother : ∀ {kind : Kind} {read : Option Reader}, kind ≠ .blank →
      read.map (kind, ·) ≠ some (.blank, r.passing passed rest) := by
    intro kind read hkind hread
    obtain ⟨later, -, heq⟩ := Option.map_eq_some_iff.mp hread
    exact hkind (Prod.mk.inj heq).1
  have hread : (r.some? isBlank).map (Kind.blank, ·) = some (.blank, r.passing passed rest) := by
    rcases Reader.eq_some_of_orElse h with hdoc | h
    · obtain ⟨_, -, heq⟩ := Option.map_eq_some_iff.mp hdoc
      exact absurd (Prod.mk.inj heq).1 (by simp)
    rcases Reader.eq_some_of_orElse h with hblank | h
    · exact hblank
    rcases Reader.eq_some_of_orElse h with htag | h
    · exact absurd htag (hother (by simp))
    rcases Reader.eq_some_of_orElse h with hkeyword | h
    · exact absurd hkeyword (hother (by simp))
    rcases Reader.eq_some_of_orElse h with hword | h
    · exact absurd hword (hother (by simp))
    · exact absurd h (hother (by simp))
  obtain ⟨later, hsome, heq⟩ := Option.map_eq_some_iff.mp hread
  obtain ⟨-, rfl⟩ := Prod.mk.inj heq
  obtain ⟨first, hfirst, hskip⟩ := Option.map_eq_some_iff.mp hsome
  obtain ⟨c, behind, hbehind, hc, rfl⟩ := Reader.one?_eq_some_iff.mp hfirst
  rw [Reader.skipWhile_eq, Reader.passing_passing] at hskip
  have hrest : behind.dropWhile isBlank = rest := congrArg Reader.ahead hskip
  have hpassed : passed = [c] ++ behind.takeWhile isBlank := by
    have hsame : passed ++ rest = ([c] ++ behind.takeWhile isBlank) ++ rest := by
      rw [← hahead, hbehind, ← hrest, List.append_assoc, List.takeWhile_append_dropWhile]
      rfl
    exact List.append_cancel_right hsame
  rw [hpassed]
  intro d hd
  rcases List.mem_cons.mp hd with rfl | hd
  · exact hc
  · exact List.mem_takeWhile_imp hd

/-! ## Where a text is cut -/

/-- A documentation block goes to the first closing delimiter. -/
theorem next?_doc {rest : List Char} (hahead : r.ahead = ['/', '*', '*'] ++ rest)
    (hclosed : ['*', '/'] <:+: rest) : ∃ inside, next? r = some (.doc inside, r.passing
      (['/', '*', '*'] ++ rest.take (through ['*', '/'] rest))
      (rest.drop (through ['*', '/'] rest))) := by
  have hliteral : r.literal? ['/', '*', '*'] = some (r.passing ['/', '*', '*'] rest) :=
    Reader.literal?_eq_some_iff.mpr ⟨rest, hahead, rfl⟩
  have hdoc : doc? r = (r.passing ['/', '*', '*'] rest).through? (.literal ['*', '/']) := by
    rw [doc?, hliteral]
    rfl
  obtain ⟨inside, hthrough⟩ :=
    exists_through?_literal (r := r.passing ['/', '*', '*'] rest) (by simp) hclosed
  refine ⟨inside, ?_⟩
  unfold next?
  rw [hdoc, hthrough, Reader.passing_passing]
  rfl

/-- The text is cut where the first part ends. Its tokens are those of the first part, and then
those of the other one, also in front of a line break. -/
structure Cut (offset : Nat) (text front back : List Char) (kept : List HeadToken) : Prop where
  split : text = front ++ back
  tokens : ∀ tail : List Char, (∀ b ∈ tail.head?, b = '\n') →
    tokensFrom offset (text ++ tail) = kept ++ tokensFrom (offset + front.length) (back ++ tail)
  closed : ∀ t ∈ kept, t.kind = .other →
    ¬ ['/', '*', '*'] <+: text.drop (t.stretch.start - offset)
  ends : (∀ c ∈ back, isBlank c = true) → ∀ t ∈ kept.getLast?, t.kind ≠ .blank

theorem Cut.tokens_nil {offset : Nat} {text front back : List Char} {kept : List HeadToken}
    (h : Cut offset text front back kept) :
    tokensFrom offset text = kept ++ tokensFrom (offset + front.length) back := by
  have htokens := h.tokens [] (by simp)
  rwa [List.append_nil, List.append_nil] at htokens

theorem Cut.front_eq_nil {offset : Nat} {text front back : List Char}
    (h : Cut offset text front back []) : front = [] := by
  by_contra hne
  have htext : text ≠ [] := by
    rw [h.split]
    exact List.append_ne_nil_of_left_ne_nil hne back
  -- the first token stands where the text begins
  obtain ⟨_, _, first, -, hmem, -, hstart⟩ := @exists_first offset text htext
  rw [h.tokens_nil, List.nil_append] at hmem
  have hle := le_start_of_mem_tokensFrom hmem
  have hpos := List.length_pos_of_ne_nil hne
  omega

theorem Cut.cons {offset : Nat} {kind : Kind} {c : Char} {passed rest front back : List Char}
    {kept : List HeadToken} (hblank : ∃ d ∈ (c :: passed) ++ rest, isBlank d = false)
    (hdoc : ¬ OpensDoc ((c :: passed) ++ rest))
    (hread : next? (Reader.ofText ((c :: passed) ++ rest) offset)
      = some (kind, (Reader.ofText ((c :: passed) ++ rest) offset).passing (c :: passed) rest))
    (h : Cut (offset + (c :: passed).length) rest front back kept) :
    Cut offset ((c :: passed) ++ rest) ((c :: passed) ++ front) back
      (⟨kind, offset, offset + (c :: passed).length, Nat.le_add_right _ _⟩ :: kept) where
  split := by rw [h.split, List.append_assoc]
  tokens := by
    intro tail htail
    have hmoved : (Reader.ofText ((c :: passed) ++ rest) offset).Moved 0 tail
        (Reader.ofText ((c :: passed) ++ (rest ++ tail)) offset) :=
      ⟨(List.append_assoc _ _ _).symm, rfl⟩
    have hrel := next?_moved hmoved htail (Or.inr hblank) (Or.inr hdoc)
    rw [hread] at hrel
    obtain ⟨⟨kind', later⟩, hread', hkind, hlater⟩ := exists_of_rel hrel
    obtain rfl : kind = kind' := by
      rw [show kind' = kind.shift 0 from hkind]
      cases kind <;> rfl
    -- as many characters are left as before, and the tail
    obtain ⟨passed', hahead, hpassing⟩ := (next.forward hread').exists_passing
    have hrest : later.ahead = rest ++ tail := hlater.ahead
    rw [hrest] at hahead hpassing
    have hsame : (c :: passed) ++ (rest ++ tail) = passed' ++ (rest ++ tail) := hahead
    rw [← List.append_cancel_right hsame] at hpassing
    rw [hpassing] at hread'
    rw [List.append_assoc, tokensFrom_eq_cons hread', h.tokens tail htail, List.length_append,
      ← Nat.add_assoc]
    rfl
  closed := by
    intro t ht hkind
    rcases List.mem_cons.mp ht with rfl | ht
    · rw [Nat.sub_self, List.drop_zero]
      intro hopener
      obtain ⟨behind, hbehind⟩ := id hopener
      have hclosed : ['*', '/'] <:+: behind := by
        by_contra hopen
        apply hdoc
        refine ⟨hopener, ?_⟩
        rw [← hbehind]
        exact hopen
      obtain ⟨inside, hread'⟩ :=
        next?_doc (r := Reader.ofText ((c :: passed) ++ rest) offset) hbehind.symm hclosed
      rw [hread] at hread'
      obtain ⟨hdoc', -⟩ := Prod.mk.inj (Option.some.inj hread')
      exact absurd (hkind.symm.trans hdoc') (by simp)
    · have hmem : t ∈ tokensFrom (offset + (c :: passed).length) rest := by
        rw [h.tokens_nil]
        exact List.mem_append_left _ ht
      have hle := le_start_of_mem_tokensFrom hmem
      have hplace : t.stretch.start - offset
          = (c :: passed).length + (t.stretch.start - (offset + (c :: passed).length)) := by omega
      rw [hplace, List.drop_length_add_append]
      exact h.closed t ht hkind
  ends := by
    intro hback t ht
    by_cases hkept : kept = []
    -- the token is the last one; as white space it would leave nothing else
    · subst hkept
      obtain rfl : _ = t := Option.some.inj ht
      rintro rfl
      have hfront := h.front_eq_nil
      have hpassed := isBlank_of_next? rfl hread
      obtain ⟨d, hd, hpd⟩ := hblank
      rw [h.split, hfront, List.nil_append] at hd
      rcases List.mem_append.mp hd with hd | hd
      · rw [hpassed d hd] at hpd
        exact absurd hpd (by decide)
      · rw [hback d hd] at hpd
        exact absurd hpd (by decide)
    · rw [List.getLast?_cons_of_ne_nil hkept] at ht
      exact h.ends hback t ht

/-- **Every text can be cut** where only white space is left or where a documentation block that is
not closed is opened. The induction is on the number of characters, token by token. -/
theorem exists_cut (offset : Nat) (text : List Char) : ∃ front back kept,
    Cut offset text front back kept ∧ ((∀ c ∈ back, isBlank c = true) ∨ OpensDoc back) := by
  induction hlength : text.length using Nat.strongRecOn generalizing text offset with
  | ind length ih =>
    subst hlength
    by_cases hend : (∀ c ∈ text, isBlank c = true) ∨ OpensDoc text
    · refine ⟨[], text, [], ⟨rfl, ?_, ?_, ?_⟩, hend⟩
      · intro tail htail
        rfl
      · intro t ht
        exact absurd ht List.not_mem_nil
      · intro _ t ht
        exact absurd ht (by simp)
    · push Not at hend
      obtain ⟨hblank, hdoc⟩ := hend
      simp only [Bool.not_eq_true] at hblank
      have hne : text ≠ [] := by
        rintro rfl
        obtain ⟨d, hd, -⟩ := hblank
        exact List.not_mem_nil hd
      obtain ⟨kind, c, passed, rest, hahead, hread⟩ :=
        exists_next? (r := Reader.ofText text offset) hne
      obtain rfl : text = (c :: passed) ++ rest := hahead
      have hlt : rest.length < ((c :: passed) ++ rest).length := by
        rw [List.length_append, List.length_cons]
        omega
      obtain ⟨front, back, kept, hcut, hback⟩ :=
        ih rest.length hlt (offset + (c :: passed).length) rest rfl
      exact ⟨_, back, _, hcut.cons hblank hdoc hread, hback⟩

/-! ## What stands behind the cut -/

/-- A token that is passed over where nothing else can be read. -/
theorem next?_slash {rest : List Char} (hahead : r.ahead = '/' :: rest) (hdoc : doc? r = none) :
    next? r = some (.other, r.passing ['/'] rest) := by
  have hone : ∀ {p : Char → Bool}, p '/' = false → r.one? p = none := by
    intro p hp
    simp [Reader.one?, hahead, hp]
  have hcaseless : ∀ {c : Char} {word : List Char}, sameLetter c '/' = false →
      r.caseless? (c :: word) = none := by
    intro c word hc
    rw [Reader.caseless?, List.foldlM_cons, hone hc]
    rfl
  have hsome : ∀ {p : Char → Bool}, p '/' = false → r.some? p = none := by
    intro p hp
    rw [Reader.some?, hone hp]
    rfl
  have htag : tagOpen? r = none := by
    rw [tagOpen?, hone (by decide)]
    rfl
  have hkeyword : keyword? r = none := by
    have hcomponent : r.caseless? "component".toList = none := hcaseless (by decide)
    have hinterface : r.caseless? "interface".toList = none := hcaseless (by decide)
    rw [keyword?, hcomponent, hinterface]
    rfl
  have hother : r.one? (fun _ => true) = some (r.passing ['/'] rest) :=
    Reader.one?_eq_some_iff.mpr ⟨'/', rest, hahead, rfl, rfl⟩
  unfold next?
  rw [hdoc, hsome (by decide), htag, hkeyword, hsome (by decide), hother]
  rfl

/-- Where a documentation block is opened that is not closed stands a token of no other kind. -/
theorem exists_other {offset : Nat} {text : List Char} (h : OpensDoc text) :
    ∃ t ∈ tokensFrom offset text, t.kind = .other ∧ t.stretch.start = offset := by
  obtain ⟨⟨rest, hrest⟩, hopen⟩ := h
  have hahead : (Reader.ofText text offset).ahead = '/' :: ('*' :: '*' :: rest) := hrest.symm
  have hdoc : doc? (Reader.ofText text offset) = none := by
    rw [Option.eq_none_iff_forall_ne_some]
    rintro ⟨inside, later⟩ hread
    simp only [doc?, Option.bind_eq_bind, Option.bind_eq_some_iff] at hread
    obtain ⟨_, hopener, hthrough⟩ := hread
    obtain ⟨rest', hrest', rfl⟩ := Reader.literal?_eq_some_iff.mp hopener
    have hclosed := (ahead_of_through?_literal (by simp) hthrough).1
    apply hopen
    rw [show text = ['/', '*', '*'] ++ rest' from hrest']
    exact hclosed
  have hne : text ≠ [] := by
    rw [← hrest]
    simp
  obtain ⟨kind, later, t, hread, hmem, hkind, hstart⟩ := @exists_first offset text hne
  rw [next?_slash hahead hdoc] at hread
  obtain ⟨hother, -⟩ := Prod.mk.inj (Option.some.inj hread)
  exact ⟨t, hmem, hkind.trans hother.symm, hstart⟩

/-- A documentation block that is closed at the very end is all there is. -/
theorem tokensFrom_openDoc {offset : Nat} {text : List Char} (h : OpensDoc text) :
    ∀ t ∈ tokensFrom offset (text ++ '\n' :: "component*/".toList), t.kind ≠ .keyword := by
  obtain ⟨⟨rest, hrest⟩, hopen⟩ := h
  have hopen' : ¬ ['*', '/'] <:+: rest := by
    rw [← hrest] at hopen
    exact hopen
  let inside := rest ++ '\n' :: "component".toList
  have hwhole : text ++ '\n' :: "component*/".toList
      = ['/', '*', '*'] ++ (inside ++ ['*', '/']) := by
    rw [← hrest]
    simp [inside]
  -- the first closing delimiter is the last thing in the text
  have hthrough : through ['*', '/'] (inside ++ ['*', '/']) = (inside ++ ['*', '/']).length := by
    have hnone : ¬ ['*', '/'] <:+: inside ++ ['*'] := by
      have hsplit : inside ++ ['*'] = rest ++ '\n' :: "component*".toList := by simp [inside]
      rw [hsplit]
      intro hinfix
      rcases isInfix_or_of_notMem (by decide) hinfix with hinfix | hinfix
      · exact hopen' hinfix
      · exact absurd hinfix (by decide)
    have hfirst := @through_append ['*', '/'] (by simp) inside [] hnone
    rwa [List.append_nil, ← List.length_append] at hfirst
  have hclosed : ['*', '/'] <:+: inside ++ ['*', '/'] := (List.suffix_append inside _).isInfix
  obtain ⟨body, hread⟩ := next?_doc
    (r := Reader.ofText (['/', '*', '*'] ++ (inside ++ ['*', '/'])) offset) rfl hclosed
  rw [hthrough, List.take_length, List.drop_length] at hread
  have hsplit : ['/', '*', '*'] ++ (inside ++ ['*', '/'])
      = ('/' :: '*' :: '*' :: (inside ++ ['*', '/'])) ++ [] := (List.append_nil _).symm
  have hread' : next? (Reader.ofText (('/' :: '*' :: '*' :: (inside ++ ['*', '/'])) ++ []) offset)
      = some (.doc body, (Reader.ofText (('/' :: '*' :: '*' :: (inside ++ ['*', '/'])) ++ [])
          offset).passing ('/' :: '*' :: '*' :: (inside ++ ['*', '/'])) []) := by
    rw [← hsplit]
    exact hread
  intro t ht
  rw [hwhole, hsplit, tokensFrom_eq_cons hread'] at ht
  obtain rfl := List.mem_singleton.mp ht
  simp

/-- White space is one token. -/
theorem tokensFrom_blanks {offset : Nat} {blanks rest : List Char} (hne : blanks ≠ [])
    (hblanks : ∀ c ∈ blanks, isBlank c = true) (hrest : rest.head?.any isBlank = false) :
    ∃ blank : HeadToken, blank.kind = .blank ∧
      tokensFrom offset (blanks ++ rest) = blank :: tokensFrom (offset + blanks.length) rest := by
  obtain ⟨c, blanks, rfl⟩ := List.exists_cons_of_ne_nil hne
  obtain ⟨hc, hblanks⟩ := List.forall_mem_cons.mp hblanks
  refine ⟨⟨.blank, offset, offset + (c :: blanks).length, Nat.le_add_right _ _⟩, rfl, ?_⟩
  apply tokensFrom_eq_cons
  have hslash : c ≠ '/' := by
    rintro rfl
    exact absurd hc (by decide)
  have hdoc : doc? (Reader.ofText ((c :: blanks) ++ rest) offset) = none := by
    rw [doc?, Reader.literal?, List.foldlM_cons]
    simp [Reader.one?, Reader.ofText, hslash]
  have hsome : (Reader.ofText ((c :: blanks) ++ rest) offset).some? isBlank
      = some ((Reader.ofText ((c :: blanks) ++ rest) offset).passing (c :: blanks) rest) := by
    rw [Reader.some?, Reader.one?_eq_some_iff.mpr ⟨c, blanks ++ rest, rfl, hc, rfl⟩,
      Option.map_some, Reader.skipWhile_of_append rfl hblanks hrest, Reader.passing_passing]
    rfl
  unfold next?
  rw [hdoc, hsome]
  rfl

/-- White space at the start of a text. -/
theorem exists_lead (text : List Char) : ∃ lead rest, text = lead ++ rest ∧
    (∀ c ∈ lead, isBlank c = true) ∧ rest.head?.any isBlank = false := by
  refine ⟨text.takeWhile isBlank, text.dropWhile isBlank, ?_, ?_, ?_⟩
  · exact List.takeWhile_append_dropWhile.symm
  · intro c hc
    exact List.mem_takeWhile_imp hc
  · have hhead := List.head?_dropWhile_not isBlank text
    cases hdrop : text.dropWhile isBlank with
    | nil => rfl
    | cons c rest =>
      rw [hdrop] at hhead
      simpa using hhead

end HeadToken

end Cfml
