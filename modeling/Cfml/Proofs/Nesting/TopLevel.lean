/-
Which characters stand at the top level.

Of a text only what belongs to no string literal counts, and of that the brackets which are looked
for do not count either. A target stands at the top level if every kind of bracket is balanced in
what counts of the text before it (`IsTopLevel`). The search keeps a counter for each kind instead.
The counters behind a text are a fold over its code, and each of them is the number of brackets
opened less the number closed (`Brackets.counter_foldl_feed`). So the search stops at the first
target at the top level, and finds nothing if there is none (`firstUnnested_eq_some_iff`).
-/
import Cfml.Proofs.Nesting.Closing
import Cfml.Proofs.Nesting.Separators

set_option autoImplicit false

namespace Cfml

/-! ## Counters -/

namespace Brackets

variable {ignored : List Char} {b : Brackets} {c : Char}

/-- The counter of a kind. -/
def counter (b : Brackets) : BracketKind → Int
  | .brace => b.braces
  | .square => b.squares
  | .paren => b.parens

theorem isBalanced_iff : b.isBalanced = true ↔ ∀ kind, b.counter kind = 0 := by
  constructor
  · intro h kind
    simp only [isBalanced, Bool.and_eq_true, beq_iff_eq, and_assoc] at h
    cases kind with
    | brace => exact h.1
    | square => exact h.2.1
    | paren => exact h.2.2
  · intro h
    simp only [isBalanced, Bool.and_eq_true, beq_iff_eq, and_assoc]
    exact ⟨h .brace, h .square, h .paren⟩

/-- A bracket moves the counter of its own kind. -/
theorem counter_count (b : Brackets) (moved kind : BracketKind) (opens : Bool) :
    (b.count moved opens).counter kind
      = b.counter kind + if moved = kind then if opens then 1 else -1 else 0 := by
  cases moved <;> cases kind <;> simp [count, counter]

theorem feed_of_mem (h : c ∈ ignored) : b.feed ignored c = b := by
  simp [feed, feed?, h]

/-- A character that is not ignored moves a counter as it moves the numbers of brackets. -/
theorem counter_feed (h : c ∉ ignored) (kind : BracketKind) (code : List Char) :
    (b.feed ignored c).counter kind + code.count kind.opening - code.count kind.closing
      = b.counter kind + (c :: code).count kind.opening - (c :: code).count kind.closing := by
  cases hof : BracketKind.of? c with
  | none =>
    have hfeed : b.feed ignored c = b := by simp [feed, feed?, h, hof]
    obtain ⟨hopening, hclosing⟩ := kind.ne_of_of?_eq_none hof
    rw [hfeed, List.count_cons_of_ne hopening, List.count_cons_of_ne hclosing]
  | some found =>
    obtain ⟨moved, opens⟩ := found
    have hfeed : b.feed ignored c = b.count moved opens := by simp [feed, feed?, h, hof]
    have hc := BracketKind.eq_of_of? hof
    rw [hfeed, counter_count]
    by_cases hsame : moved = kind
    · subst hsame
      have hne := moved.closing_ne_opening
      cases opens with
      | true =>
        obtain rfl : c = moved.opening := hc
        rw [List.count_cons_self, List.count_cons_of_ne hne.symm]
        simp only [if_true]
        omega
      | false =>
        obtain rfl : c = moved.closing := hc
        rw [List.count_cons_self, List.count_cons_of_ne hne]
        simp only [if_true, Bool.false_eq_true, if_false]
        omega
    · have hother : c ≠ kind.opening ∧ c ≠ kind.closing := by
        subst hc
        revert hsame
        cases moved <;> cases kind <;> cases opens <;> decide
      rw [if_neg hsame, List.count_cons_of_ne hother.1, List.count_cons_of_ne hother.2]
      omega

/-- **A counter is the number of brackets opened less the number closed**, those that are ignored
left out. -/
theorem counter_foldl_feed (ignored : List Char) (b : Brackets) (kind : BracketKind)
    (code : List Char) :
    let counted := code.filter (· ∉ ignored)
    (code.foldl (feed ignored) b).counter kind
      = b.counter kind + counted.count kind.opening - counted.count kind.closing := by
  induction code generalizing b with
  | nil => simp
  | cons c code ih =>
    simp only at ih ⊢
    rw [List.foldl_cons, ih]
    by_cases hc : c ∈ ignored
    · rw [feed_of_mem hc, List.filter_cons_of_neg (by simpa using hc)]
    · rw [List.filter_cons_of_pos (by simpa using hc), counter_feed hc]

end Brackets

/-! ## Places in a text -/

/-- The character with the number `k` is one of the targets and belongs to no literal, and in what
counts of the text before it as many brackets of each kind are closed as opened. -/
structure IsTopLevel (targets text : List Char) (k : Nat) : Prop where
  isTarget : ∃ c ∈ targets, text[k]? = some c
  before : (StringState.outside.after (text.take k)).inString = false
  behind : (StringState.outside.after (text.take (k + 1))).inString = false
  balanced : ∀ kind : BracketKind,
    let counted := (StringState.outside.code (text.take k)).filter (· ∉ targets)
    counted.count kind.opening = counted.count kind.closing

/-- The same behind a place with the given state and counters. -/
structure IsTopLevelFrom (targets : List Char) (string : StringState) (brackets : Brackets)
    (text : List Char) (k : Nat) : Prop where
  isTarget : ∃ c ∈ targets, text[k]? = some c
  before : (string.after (text.take k)).inString = false
  behind : (string.after (text.take (k + 1))).inString = false
  balanced : ((string.code (text.take k)).foldl (Brackets.feed targets) brackets).isBalanced = true

section Places

variable {targets : List Char} {string : StringState} {brackets : Brackets} {c : Char}
  {text rest : List Char} {k : Nat}

theorem isTopLevelFrom_start : IsTopLevelFrom targets .outside {} text k ↔
    IsTopLevel targets text k := by
  have hbalanced : ∀ code : List Char,
      (code.foldl (Brackets.feed targets) {}).isBalanced = true ↔
        ∀ kind : BracketKind, let counted := code.filter (· ∉ targets)
          counted.count kind.opening = counted.count kind.closing := by
    intro code
    rw [Brackets.isBalanced_iff]
    apply forall_congr'
    intro kind
    have hzero : Brackets.counter {} kind = 0 := by cases kind <;> rfl
    rw [Brackets.counter_foldl_feed, hzero]
    simp only
    omega
  constructor
  · rintro ⟨htarget, hbefore, hbehind, hcode⟩
    exact ⟨htarget, hbefore, hbehind, (hbalanced _).mp hcode⟩
  · rintro ⟨htarget, hbefore, hbehind, hcode⟩
    exact ⟨htarget, hbefore, hbehind, (hbalanced _).mpr hcode⟩

/-- A character of a literal is not at the top level. -/
theorem not_isTopLevelFrom_zero (h : (string.inString || (string.advance c).inString) = true) :
    ¬ IsTopLevelFrom targets string brackets (c :: rest) 0 := by
  rintro ⟨-, hbefore, hbehind, -⟩
  -- the states around it would both be outside
  rw [show string.inString = false from hbefore,
    show (string.advance c).inString = false from hbehind] at h
  exact absurd h (by decide)

/-- Any other character is at the top level if it is a target and the counters are zero. -/
theorem isTopLevelFrom_zero (h : (string.inString || (string.advance c).inString) = false) :
    IsTopLevelFrom targets string brackets (c :: rest) 0 ↔
      c ∈ targets ∧ brackets.isBalanced = true := by
  obtain ⟨hhere, hnext⟩ := Bool.or_eq_false_iff.mp h
  constructor
  · rintro ⟨⟨d, hd, hget⟩, -, -, hbalanced⟩
    obtain rfl : c = d := Option.some.inj hget
    exact ⟨hd, hbalanced⟩
  · rintro ⟨hc, hbalanced⟩
    exact ⟨⟨c, hc, rfl⟩, hhere, hnext, hbalanced⟩

/-- Behind a character the counters are those that its code leaves. -/
theorem isTopLevelFrom_succ :
    IsTopLevelFrom targets string brackets (c :: rest) (k + 1) ↔
      IsTopLevelFrom targets (string.advance c)
        (if string.inString || (string.advance c).inString then brackets
          else brackets.feed targets c) rest k := by
  have hcode : (string.code ((c :: rest).take (k + 1))).foldl (Brackets.feed targets) brackets
      = ((string.advance c).code (rest.take k)).foldl (Brackets.feed targets)
        (if string.inString || (string.advance c).inString then brackets
          else brackets.feed targets c) := by
    rw [List.take_succ_cons, StringState.code]
    split
    · rfl
    · rfl
  constructor
  · rintro ⟨htarget, hbefore, hbehind, hbalanced⟩
    exact ⟨htarget, hbefore, hbehind, hcode ▸ hbalanced⟩
  · rintro ⟨htarget, hbefore, hbehind, hbalanced⟩
    exact ⟨htarget, hbefore, hbehind, hcode ▸ hbalanced⟩

end Places

/-! ## The search -/

/-- The number `k` is the first one with the property. -/
def IsFirst (P : Nat → Prop) (k : Nat) : Prop := P k ∧ ∀ j < k, ¬ P j

theorem IsFirst.unique {P : Nat → Prop} {k k' : Nat} (h : IsFirst P k) (h' : IsFirst P k') :
    k = k' := by
  apply Nat.le_antisymm
  · exact Nat.le_of_not_lt fun hlt => h.2 k' hlt h'.1
  · exact Nat.le_of_not_lt fun hlt => h'.2 k hlt h.1

/-- If zero does not have the property, the first number that has it comes behind zero. -/
theorem isFirst_succ_iff {P : Nat → Prop} (hzero : ¬ P 0) {k : Nat} :
    IsFirst P k ↔ ∃ j, k = j + 1 ∧ IsFirst (fun i => P (i + 1)) j := by
  constructor
  · rintro ⟨hk, hbefore⟩
    cases k with
    | zero => exact absurd hk hzero
    | succ j => exact ⟨j, rfl, hk, fun i hi => hbefore (i + 1) (Nat.succ_lt_succ hi)⟩
  · rintro ⟨j, rfl, hj, hbefore⟩
    refine ⟨hj, fun i hi => ?_⟩
    cases i with
    | zero => exact hzero
    | succ i => exact hbefore i (Nat.lt_of_succ_lt_succ hi)

section Searching

variable {targets : List Char} {index found : Nat} {string : StringState} {brackets : Brackets}
  {c : Char} {text rest : List Char}

/-- Outside of literals the search stops at a target with all counters zero, and else it goes on
with the counters moved. -/
theorem firstUnnestedFrom_eq_ite
    (h : (string.inString || (string.advance c).inString) = false) :
    firstUnnestedFrom targets index string brackets (c :: rest)
      = if c ∈ targets ∧ brackets.isBalanced = true then some index
        else firstUnnestedFrom targets (index + 1) (string.advance c) (brackets.feed targets c)
          rest := by
  conv_lhs => unfold firstUnnestedFrom
  simp only [h, Bool.false_eq_true, if_false]
  by_cases hc : c ∈ targets
  · have hnone : brackets.feed? targets c = none := by simp [Brackets.feed?, hc]
    rw [Brackets.feed_of_mem hc, hnone]
    simp [hc]
  · rw [Brackets.feed]
    cases brackets.feed? targets c <;> simp [hc]

/-- **The search stops at the first target at the top level.** The induction is on the text, behind
any state and with any counters. -/
theorem firstUnnestedFrom_eq_some_iff :
    firstUnnestedFrom targets index string brackets text = some found ↔
      ∃ k, found = index + k ∧ IsFirst (IsTopLevelFrom targets string brackets text) k := by
  induction text generalizing index string brackets with
  | nil =>
    simp only [firstUnnestedFrom, reduceCtorEq, false_iff, not_exists, not_and]
    rintro k - ⟨⟨⟨c, -, hget⟩, -, -, -⟩, -⟩
    simp at hget
  | cons c rest ih =>
    -- where the search goes on, the first one is found behind the character
    have hshift : ∀ {behind : Brackets}, ¬ IsTopLevelFrom targets string brackets (c :: rest) 0 →
        behind = (if string.inString || (string.advance c).inString then brackets
          else brackets.feed targets c) →
        (firstUnnestedFrom targets (index + 1) (string.advance c) behind rest = some found ↔
          ∃ k, found = index + k ∧
            IsFirst (IsTopLevelFrom targets string brackets (c :: rest)) k) := by
      rintro behind hzero rfl
      simp only [ih, isFirst_succ_iff hzero, isTopLevelFrom_succ]
      constructor
      · rintro ⟨k, rfl, hk⟩
        exact ⟨k + 1, by omega, k, rfl, hk⟩
      · rintro ⟨_, rfl, k, rfl, hk⟩
        exact ⟨k, by omega, hk⟩
    cases hstring : string.inString || (string.advance c).inString with
    | true =>
      rw [firstUnnestedFrom_cons_of_inString hstring]
      exact hshift (not_isTopLevelFrom_zero hstring) (by rw [hstring, if_pos rfl])
    | false =>
      rw [firstUnnestedFrom_eq_ite hstring]
      have hzero : IsTopLevelFrom targets string brackets (c :: rest) 0 ↔
          c ∈ targets ∧ brackets.isBalanced = true := isTopLevelFrom_zero hstring
      by_cases hhere : c ∈ targets ∧ brackets.isBalanced = true
      · have hfirst : IsFirst (IsTopLevelFrom targets string brackets (c :: rest)) 0 :=
          ⟨hzero.mpr hhere, fun j hj => absurd hj (Nat.not_lt_zero j)⟩
        rw [if_pos hhere]
        constructor
        · intro h
          exact ⟨0, (Option.some.inj h).symm, hfirst⟩
        · rintro ⟨k, rfl, hk⟩
          rw [hk.unique hfirst]
          rfl
      · rw [if_neg hhere]
        refine hshift (fun h => hhere (hzero.mp h)) ?_
        rw [hstring]
        exact (if_neg Bool.false_ne_true).symm

theorem firstUnnested_eq_some_iff {k : Nat} :
    firstUnnested targets text = some k ↔ IsFirst (IsTopLevel targets text) k := by
  have hstart : IsTopLevelFrom targets .outside {} text = IsTopLevel targets text :=
    funext fun _ => propext isTopLevelFrom_start
  rw [firstUnnested, firstUnnestedFrom_eq_some_iff, hstart]
  simp only [Nat.zero_add, exists_eq_left']

/-- Without a target at the top level nothing is found. -/
theorem firstUnnested_eq_none_iff :
    firstUnnested targets text = none ↔ ∀ k, ¬ IsTopLevel targets text k := by
  constructor
  · intro hnone k
    -- otherwise there would be a first one
    induction k using Nat.strongRecOn with
    | ind k ih =>
      intro hk
      have hfound := firstUnnested_eq_some_iff.mpr ⟨hk, ih⟩
      rw [hnone] at hfound
      exact absurd hfound (by simp)
  · intro hno
    rw [Option.eq_none_iff_forall_ne_some]
    intro k hk
    exact hno k (firstUnnested_eq_some_iff.mp hk).1

end Searching

end Cfml
