/-
The words that declare something.

A text declares something where one of the two words stands as a whole word, or directly behind a
`<cf`, and outside the documentation blocks (`Declares`). The keywords among its tokens are just
these words (`declares_of_keyword`, `exists_keyword_of_declares`): a token ends in front of such a
word, as none but a documentation block goes on from a character that is not part of an identifier
into a word; and in front of a keyword stands no character of an identifier, as a token would have
gone on into the keyword.
-/
import Cfml.Proofs.Component.TokenPlaces

set_option autoImplicit false

namespace Cfml

open HeadToken

namespace ComponentHead

/-- The text ends in a `<cf`. -/
def EndsInTagOpen (front : List Char) : Prop :=
  ∃ before written, front = before ++ written ∧ IsTagOpen written

/-- One of the two words stands in the text, as a whole word or behind a `<cf`, and outside the
documentation blocks. -/
structure Declares (text : List Char) (word : Capture) : Prop where
  isWord : IsDeclaringWord word.text
  whole : ∃ front back, text = front ++ (word.text ++ back) ∧ front.length = word.start ∧
    back.head?.any isIdentifierPart = false ∧
      (front.getLast?.any isIdentifierPart = false ∨ EndsInTagOpen front)
  outside : ∀ block ∈ docBlocks text, word.stop ≤ block.start ∨ block.stop ≤ word.start

end ComponentHead

namespace HeadToken

open ComponentHead

variable {r later : Reader} {kind : Kind} {passed passed' rest back written : List Char}
  {offset : Nat}

/-! ## A token that begins with such a word -/

theorem doc?_of_cons {c : Char} (hahead : r.ahead = c :: rest) (hc : c ≠ '/') : doc? r = none := by
  rw [Option.eq_none_iff_forall_ne_some]
  rintro ⟨inside, later⟩ hread
  obtain ⟨behind, hbehind, -⟩ := doc?_eq_some hread
  exact hc (List.cons.inj (hahead.symm.trans hbehind)).1

theorem some?_of_cons {p : Char → Bool} {c : Char} (hahead : r.ahead = c :: rest)
    (hc : p c = false) : r.some? p = none := by
  simp [Reader.some?, Reader.one?, hahead, hc]

/-- The first character of a word is a letter. -/
theorem exists_cons_of_isDeclaringWord (h : IsDeclaringWord written) : ∃ c letters,
    written = c :: letters ∧ isIdentifierPart c = true ∧ isBlank c = false ∧ c ≠ '/' ∧ c ≠ '<' := by
  have hne : written ≠ [] := by
    rintro rfl
    exact absurd h.length_eq (by decide)
  obtain ⟨c, letters, rfl⟩ := List.exists_cons_of_ne_nil hne
  have hpart := h.isIdentifierPart c List.mem_cons_self
  refine ⟨c, letters, rfl, hpart, ?_, ?_, ?_⟩
  · rw [Bool.eq_false_iff]
    intro hblank
    exact Bool.false_ne_true ((FunctionDecl.not_name_of_isBlank hblank).2.symm.trans hpart)
  · rintro rfl
    exact absurd hpart (by decide)
  · rintro rfl
    exact absurd hpart (by decide)

theorem any_head?_of_isDeclaringWord (h : IsDeclaringWord written) (back : List Char) :
    (written ++ back).head?.any isIdentifierPart = true := by
  obtain ⟨c, letters, rfl, hpart, -⟩ := exists_cons_of_isDeclaringWord h
  exact hpart

/-- A whole word at the start of a text is the first token. -/
theorem exists_first_keyword (offset : Nat) (hword : IsDeclaringWord written)
    (hback : back.head?.any isIdentifierPart = false) : ∃ t : HeadToken, t.kind = .keyword ∧
      t.stretch.start = offset ∧ t.stretch.stop = offset + written.length ∧
        tokensFrom offset (written ++ back)
          = t :: tokensFrom (offset + written.length) back := by
  obtain ⟨c, letters, rfl, -, hblank, hslash, hbracket⟩ := exists_cons_of_isDeclaringWord hword
  refine ⟨⟨.keyword, offset, offset + (c :: letters).length, Nat.le_add_right _ _⟩, rfl, rfl, rfl,
    tokensFrom_eq_cons ?_⟩
  have hkeyword : keyword? (Reader.ofText ((c :: letters) ++ back) offset)
      = some ((Reader.ofText ((c :: letters) ++ back) offset).passing (c :: letters) back) :=
    keyword?_eq_some_iff.mpr ⟨c :: letters, back, hword, hback, rfl, rfl⟩
  have htag : tagOpen? (Reader.ofText ((c :: letters) ++ back) offset) = none := by
    rw [Option.eq_none_iff_forall_ne_some]
    intro later hread
    obtain ⟨name, behind, -, hbehind, -⟩ := tagOpen?_eq_some hread
    exact hbracket (List.cons.inj hbehind).1
  rw [next?, doc?_of_cons rfl hslash, some?_of_cons rfl hblank, htag, hkeyword]
  rfl

/-- A `<cf` in front of such a word is a token. -/
theorem exists_first_tagOpen {opening : List Char} (offset : Nat) (hopening : IsTagOpen opening)
    (hword : IsDeclaringWord written) (hback : back.head?.any isIdentifierPart = false) :
    ∃ t : HeadToken, t.kind = .tagOpen ∧ tokensFrom offset (opening ++ (written ++ back))
      = t :: tokensFrom (offset + opening.length) (written ++ back) := by
  obtain ⟨letters, rfl, hletters⟩ := hopening
  refine ⟨⟨.tagOpen, offset, offset + ('<' :: letters).length, Nat.le_add_right _ _⟩, rfl,
    tokensFrom_eq_cons ?_⟩
  let place := Reader.ofText (('<' :: letters) ++ (written ++ back)) offset
  have hbracket :
      place.one? (· == '<') = some (place.passing ['<'] (letters ++ (written ++ back))) :=
    Reader.one?_eq_some_iff.mpr ⟨'<', _, rfl, by decide, rfl⟩
  have hname : (place.passing ['<'] (letters ++ (written ++ back))).caseless? ['c', 'f']
      = some (place.passing ('<' :: letters) (written ++ back)) :=
    Reader.caseless?_eq_some_iff.mpr
      ⟨letters, _, hletters, rfl, (Reader.passing_passing place ['<'] letters _ _).symm⟩
  have hkeyword : (keyword? (place.passing ('<' :: letters) (written ++ back))).isSome = true := by
    rw [keyword?_eq_some_iff.mpr ⟨written, back, hword, hback, rfl, rfl⟩]
    rfl
  have htag : tagOpen? place = some (place.passing ('<' :: letters) (written ++ back)) := by
    simp only [tagOpen?, hbracket, hname, hkeyword, Option.bind_eq_bind, Option.bind_some, if_true]
  rw [next?, doc?_of_cons rfl (by decide), some?_of_cons rfl (by decide), htag]
  rfl

/-! ## The borders of words -/

/-- A token in front of a character of an identifier is a `<cf`, or does not end in such a one. -/
theorem Kind.Takes.border (h : kind.Takes passed rest)
    (hrest : rest.head?.any isIdentifierPart = true) :
    kind = .tagOpen ∨ passed.getLast?.any isIdentifierPart = false := by
  cases kind with
  | doc inside =>
    right
    obtain ⟨before, rfl⟩ := h.2
    rw [List.getLast?_append]
    rfl
  | blank =>
    right
    cases hlast : passed.getLast? with
    | none => rfl
    | some c => exact (FunctionDecl.not_name_of_isBlank (h c (List.mem_of_getLast? hlast))).2
  | tagOpen => exact Or.inl rfl
  | keyword => exact absurd (h.2.symm.trans hrest) Bool.false_ne_true
  | word => exact absurd (h.2.symm.trans hrest) Bool.false_ne_true
  | other =>
    obtain ⟨c, rfl, hc⟩ := h
    exact Or.inr hc

/-- A token that goes on into one of the words from a character that is not part of an identifier
is a documentation block. -/
theorem Kind.Takes.isDoc_of_border (h : kind.Takes (passed ++ passed') rest) (hne : passed ≠ [])
    (hne' : passed' ≠ []) (hlast : passed.getLast?.any isIdentifierPart = false)
    (hword : IsDeclaringWord written) (hsplit : written ++ back = passed' ++ rest) :
    kind.isDoc = true := by
  obtain ⟨init, last, rfl⟩ := (List.eq_nil_or_concat passed).resolve_left hne
  rw [List.concat_eq_append] at h hlast
  obtain ⟨c, letters, rfl, -, hblank, -⟩ := exists_cons_of_isDeclaringWord hword
  obtain ⟨d, more, rfl⟩ := List.exists_cons_of_ne_nil hne'
  obtain ⟨rfl, hmore⟩ := List.cons.inj hsplit
  have hpart : ¬ isIdentifierPart last = true := by simpa using hlast
  have hmem : last ∈ init ++ [last] ++ c :: more := by simp
  have hmem' : c ∈ init ++ [last] ++ c :: more := by simp
  cases kind with
  | doc inside => rfl
  | blank => exact absurd (hblank.symm.trans (h c hmem')) Bool.false_ne_true
  | tagOpen =>
    obtain ⟨name, heq, hname⟩ := h.1
    cases init with
    | cons first init =>
      obtain ⟨rfl, rfl⟩ := List.cons.inj heq
      have hopening : IsTagOpen ('<' :: (init ++ [last] ++ c :: more)) := ⟨_, rfl, hname⟩
      exact absurd (hopening.isIdentifierPart_of_mem_tail last (by simp)) hpart
    -- the word would begin with the name of the tag
    | nil =>
      obtain ⟨-, rfl⟩ := List.cons.inj heq
      obtain ⟨d, hd, rfl⟩ : ∃ d, sameLetter 'f' d = true ∧ more = [d] := by
        obtain ⟨-, hname⟩ := List.forall₂_cons.mp hname
        simpa [List.forall₂_cons_left_iff] using hname
      obtain ⟨word, hmemWord, hwritten⟩ := hword
      have hsecond : ∀ word ∈ ["component".toList, "interface".toList], ∃ first second others,
          word = first :: second :: others ∧ second ∈ ['o', 'n'] := by
        simp
      obtain ⟨first, second, others, rfl, hletter⟩ := hsecond word hmemWord
      obtain ⟨e, letters, he, -, rfl⟩ :=
        List.forall₂_cons_left_iff.mp (List.forall₂_cons.mp hwritten).2
      obtain ⟨rfl, -⟩ := List.cons.inj hmore
      have hall : ∀ second ∈ ['o', 'n'], second ∈ keywordLetters ∧ 'f' ≠ second := by decide
      obtain ⟨hsecondMem, hne⟩ := hall second hletter
      exact absurd (eq_of_sameLetter (by decide) hsecondMem hd he) hne
  | keyword => exact absurd (h.1.isIdentifierPart last hmem) hpart
  | word => exact absurd (h.1 last hmem) hpart
  | other =>
    obtain ⟨d, heq, -⟩ := h
    have hlength := congrArg List.length heq
    simp at hlength
    omega

/-! ## Keywords among the tokens -/

/-- Of two tokens one is passed before the other begins. -/
theorem eq_or_apart_of_mem {text : List Char} {t u : HeadToken} (ht : t ∈ tokensFrom offset text)
    (hu : u ∈ tokensFrom offset text) :
    t = u ∨ t.stretch.stop ≤ u.stretch.start ∨ u.stretch.stop ≤ t.stretch.start := by
  by_cases heq : t = u
  · exact Or.inl heq
  · right
    have hapart : (tokensFrom offset text).Pairwise fun t u =>
        t.stretch.stop ≤ u.stretch.start ∨ u.stretch.stop ≤ t.stretch.start :=
      (pairwise_tokensFrom offset text).imp fun h => Or.inl h
    have hsymm : Std.Symm fun t u : HeadToken =>
        t.stretch.stop ≤ u.stretch.start ∨ u.stretch.stop ≤ t.stretch.start :=
      ⟨fun _ _ => Or.symm⟩
    exact hapart.forall ht hu heq

/-- A text is cut where the tokens of a part of it begin. -/
theorem start_of_tokensFrom {text : List Char} {t : HeadToken} {behind : List HeadToken}
    (h : tokensFrom offset text = t :: behind) : t.stretch.start = offset := by
  obtain ⟨passed, rest, -, hstands, -⟩ := exists_first_of_tokensFrom h
  exact hstands.start

/-- The token before another one ends where that one begins. -/
theorem standsAt_last {text front rest : List Char} {init : List HeadToken} {u t : HeadToken}
    {behind : List HeadToken} (htokens : tokensFrom offset text = init ++ u :: t :: behind)
    (hsplit : text = front ++ rest) (hstart : t.stretch.start = offset + front.length) :
    ∃ first passed, front = first ++ passed ∧ Meets offset first (passed ++ rest) init ∧
      StandsAt offset first passed rest u := by
  obtain ⟨first, passed, rest', rfl, hmeets, hstands, hbehind⟩ := exists_meets htokens
  have hplace := start_of_tokensFrom hbehind.symm
  have hlength : (first ++ passed).length = front.length := by
    rw [List.length_append]
    omega
  rw [← List.append_assoc] at hsplit
  obtain ⟨rfl, rfl⟩ := List.append_inj hsplit hlength
  exact ⟨first, passed, rfl, hmeets, hstands⟩

/-- Behind a `<cf` stands a keyword. -/
theorem exists_keyword_behind {text : List Char} {before behind : List HeadToken} {t : HeadToken}
    (htokens : tokensFrom offset text = before ++ t :: behind) (hkind : t.kind = .tagOpen) :
    ∃ keyword others, behind = keyword :: others ∧ keyword.kind = .keyword := by
  obtain ⟨front, passed, rest, rfl, -, hstands, rfl⟩ := exists_meets htokens
  have htakes := hstands.takes
  rw [hkind] at htakes
  obtain ⟨-, written, back, rfl, hword, hback⟩ := htakes
  obtain ⟨keyword, hkeyword, -, -, hbehind⟩ :=
    exists_first_keyword (offset + front.length + passed.length) hword hback
  exact ⟨keyword, _, hbehind, hkeyword⟩

/-- In front of a keyword stands a `<cf`, or no character of an identifier. -/
theorem border_of_keyword {text front : List Char} {before : List HeadToken} {t : HeadToken}
    {behind : List HeadToken} (htokens : tokensFrom 0 text = before ++ t :: behind)
    (hsplit : text = front ++ (written ++ back)) (hstart : t.stretch.start = front.length)
    (hword : IsDeclaringWord written) :
    front.getLast?.any isIdentifierPart = false ∨ EndsInTagOpen front := by
  rcases List.eq_nil_or_concat before with rfl | ⟨init, u, rfl⟩
  · have hzero := start_of_tokensFrom htokens
    rw [hstart] at hzero
    rw [List.eq_nil_of_length_eq_zero hzero]
    exact Or.inl rfl
  · rw [List.concat_eq_append, List.append_assoc, List.singleton_append] at htokens
    obtain ⟨first, passed, rfl, -, hstands⟩ :=
      standsAt_last htokens hsplit (hstart.trans (Nat.zero_add _).symm)
    rcases hstands.takes.border (any_head?_of_isDeclaringWord hword back) with hkind | hlast
    · have htakes := hstands.takes
      rw [hkind] at htakes
      exact Or.inr ⟨first, passed, rfl, htakes.1⟩
    · left
      rwa [List.getLast?_append_of_ne_nil first hstands.ne_nil]

/-- A keyword is a word that declares something. -/
theorem declares_of_keyword {text : List Char} {t : HeadToken} (ht : t ∈ tokens text)
    (hkind : t.kind = .keyword) : Declares text
      ⟨t.stretch.start, (text.drop t.stretch.start).take (t.stretch.stop - t.stretch.start)⟩ := by
  obtain ⟨before, behind, htokens⟩ := List.append_of_mem (show t ∈ tokensFrom 0 text from ht)
  obtain ⟨front, passed, rest, rfl, -, hstands, -⟩ := exists_meets htokens
  have htakes := hstands.takes
  rw [hkind] at htakes
  have hstart : t.stretch.start = front.length := hstands.start.trans (Nat.zero_add _)
  have hstop : t.stretch.stop = front.length + passed.length := by
    rw [hstands.stop, Nat.zero_add]
  have htext : (List.drop t.stretch.start (front ++ (passed ++ rest))).take
      (t.stretch.stop - t.stretch.start) = passed := by
    rw [hstart, hstop, List.drop_left, Nat.add_sub_cancel_left, List.take_left]
  rw [htext]
  refine ⟨htakes.1, ⟨front, rest, rfl, hstart.symm, htakes.2,
    border_of_keyword htokens rfl hstart htakes.1⟩, ?_⟩
  intro block hblock
  rw [Capture.stop, hstart, ← hstop, ← hstart]
  rcases eq_or_apart_of_mem (show t ∈ tokensFrom 0 _ from ht) (mem_docBlocks_iff.mp hblock) with
    rfl | hapart
  · exact absurd hkind (by simp)
  · exact hapart

/-- The word is in no token that is a documentation block. -/
theorem apart_of_declares {text : List Char} {word : Capture} {t : HeadToken}
    (h : Declares text word) (ht : t ∈ tokens text) (hdoc : t.kind.isDoc = true) :
    word.stop ≤ t.stretch.start ∨ t.stretch.stop ≤ word.start := by
  obtain ⟨kind, stretch⟩ := t
  obtain ⟨inside, rfl⟩ := exists_of_isDoc hdoc
  exact h.outside ⟨stretch.start, stretch.stop, inside, stretch.start_le_stop⟩
    (mem_docBlocks_iff.mpr ht)

/-- A `<cf` in front of the word is a token, as a documentation block that it is in would go on into
the word. -/
theorem exists_tagOpen_of_declares {text before opening back : List Char} {word : Capture}
    (h : Declares text word) (hsplit : text = (before ++ opening) ++ (word.text ++ back))
    (hlength : (before ++ opening).length = word.start) (hopening : IsTagOpen opening)
    (hback : back.head?.any isIdentifierPart = false) : ∃ kept t, t.kind = .tagOpen ∧
      Meets 0 (before ++ opening) (word.text ++ back) (kept ++ [t]) := by
  subst hsplit
  rcases meets_or_within 0 before (opening ++ (word.text ++ back)) with
    ⟨kept, hmeets⟩ | ⟨first, passed, passed', behind, t, ht, rfl, hmore, hne, hne', hstands⟩
  · obtain ⟨t, hkind, htokens⟩ :=
      exists_first_tagOpen (0 + before.length) hopening h.isWord hback
    refine ⟨kept, t, hkind, ?_⟩
    rw [Meets, List.append_assoc, show tokensFrom 0 _ = _ from hmeets, htokens, List.append_assoc,
      List.length_append, Nat.add_assoc]
    rfl
  · exfalso
    obtain ⟨letters, rfl, hletters⟩ := id hopening
    obtain ⟨d, more, rfl⟩ := List.exists_cons_of_ne_nil hne'
    obtain ⟨rfl, -⟩ := List.cons.inj hmore
    have htakes := hstands.takes
    have hdoc := isDoc_of_within (by decide) (by decide) hne htakes
    rw [← List.append_assoc] at ht
    have hapart := apart_of_declares h ht hdoc
    have hstart := hstands.start
    have hstop := hstands.stop
    have hpos := List.length_pos_of_ne_nil hne
    simp only [List.length_append, List.length_cons, Capture.stop] at *
    -- the block would end within the `<cf`, but it ends in a slash
    obtain ⟨inside, hkind⟩ := exists_of_isDoc hdoc
    rw [hkind] at htakes
    have hbegins : '<' :: more <+: '<' :: letters := by
      have hwhole : '<' :: letters <+: ('<' :: letters) ++ (word.text ++ back) :=
        List.prefix_append _ _
      refine List.prefix_of_prefix_length_le ?_ hwhole ?_
      · rw [hmore]
        exact List.prefix_append _ _
      · simp only [List.length_cons]
        omega
    have hlast : '/' ∈ '<' :: more := by
      obtain ⟨init, hinit⟩ := htakes.2
      have hlast := congrArg List.getLast? hinit
      rw [List.getLast?_append_of_ne_nil _ (by simp), List.getLast?_append_of_ne_nil _ (by simp)]
        at hlast
      exact List.mem_of_getLast? hlast.symm
    rcases List.mem_cons.mp (hbegins.subset hlast) with hslash | hslash
    · exact absurd hslash (by decide)
    · exact absurd (hopening.isIdentifierPart_of_mem_tail _ hslash) (by decide)

/-- **A token begins at each word that declares something.** -/
theorem exists_meets_of_declares {text : List Char} {word : Capture} (h : Declares text word) :
    ∃ front back before, text = front ++ (word.text ++ back) ∧ front.length = word.start ∧
      back.head?.any isIdentifierPart = false ∧ Meets 0 front (word.text ++ back) before := by
  obtain ⟨front, back, rfl, hlength, hback, hborder⟩ := h.whole
  refine ⟨front, back, ?_⟩
  suffices hmeets : ∃ before, Meets 0 front (word.text ++ back) before by
    obtain ⟨before, hmeets⟩ := hmeets
    exact ⟨before, rfl, hlength, hback, hmeets⟩
  rcases hborder with hlast | ⟨before, opening, rfl, hopening⟩
  · rcases meets_or_within 0 front (word.text ++ back) with
      hmeets | ⟨first, passed, passed', behind, t, ht, rfl, hsplit, hne, hne', hstands⟩
    · exact hmeets
    · exfalso
      rw [List.getLast?_append_of_ne_nil first hne] at hlast
      have hdoc := hstands.takes.isDoc_of_border hne hne' hlast h.isWord hsplit
      have hapart := apart_of_declares h ht hdoc
      have hstart := hstands.start
      have hstop := hstands.stop
      have hpos := List.length_pos_of_ne_nil hne
      have hpos' := List.length_pos_of_ne_nil hne'
      simp only [List.length_append, Capture.stop] at *
      omega
  · obtain ⟨kept, t, -, hmeets⟩ := exists_tagOpen_of_declares h rfl hlength hopening hback
    exact ⟨kept ++ [t], hmeets⟩

/-- A word that declares something is a keyword among the tokens. -/
theorem exists_keyword_of_declares {text : List Char} {word : Capture} (h : Declares text word) :
    ∃ t ∈ tokens text, t.kind = .keyword ∧ t.stretch = word.stretch := by
  obtain ⟨front, back, before, rfl, hlength, hback, hmeets⟩ := exists_meets_of_declares h
  obtain ⟨t, hkind, hstart, hstop, htokens⟩ :=
    exists_first_keyword (0 + front.length) h.isWord hback
  refine ⟨t, ?_, hkind, Stretch.ends_inj _ _ ?_⟩
  · have hwhole : tokens (front ++ (word.text ++ back)) = _ := hmeets
    rw [hwhole, htokens]
    simp
  · rw [Stretch.ends, hstart, hstop, Nat.zero_add, hlength]
    rfl

end HeadToken

end Cfml
