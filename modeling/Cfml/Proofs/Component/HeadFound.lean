/-
The head that is found, by what is written.

The search for a head tries one token after the other and reads up to four of them. Here its result
is described without tokens: the keyword is the leftmost word that declares something, the dialect
is that of the characters in front of it, and a documentation block belongs to the head if nothing
but white space stands between the two (`IsHeadOf`). The search fails only where no word declares
anything (`isHeadOf_find?`).
-/
import Cfml.Proofs.Component.Keywords
import Cfml.Proofs.Component.LeadingText

set_option autoImplicit false

namespace Cfml

open HeadToken

namespace ComponentHead

/-- Where the keyword begins, or the `<cf` in front of it. -/
def opening (head : ComponentHead) : Nat :=
  match head.dialect with
  | .tag => head.keyword.start - 3
  | .script => head.keyword.start

/-- Between the documentation block and the place stands white space, and nothing else. -/
structure IsAttached (text : List Char) (block : Occurrence Stretch) (place : Nat) : Prop where
  stop_lt : block.stop < place
  blank : ∀ c ∈ (text.take place).drop block.stop, isBlank c = true

/-- The head is what the text says, part by part. -/
structure IsHeadOf (text : List Char) (head : ComponentHead) : Prop where
  declares : Declares text head.keyword
  leftmost : ∀ word, Declares text word → head.keyword.start ≤ word.start
  dialect : head.dialect = .tag ↔ EndsInTagOpen (text.take head.keyword.start)
  doc : ∀ inside, head.doc = some inside ↔ ∃ block ∈ docBlocks text,
    IsAttached text block head.opening ∧
      inside.start = block.start + 3 ∧ inside.stop + 2 = block.stop
  start : head.start = (head.doc.map fun inside => inside.start - 3).getD head.opening
  attributes : ∀ c ∈ (text.take head.stop).drop head.attributesStart, c ≠ '>' ∧ c ≠ '{'
  stop : head.stop = text.length ∨ ∃ c, text[head.stop]? = some c ∧ (c = '>' ∨ c = '{')
  ordered : head.start ≤ head.keyword.start ∧ head.keyword.start < head.attributesStart ∧
    head.attributesStart ≤ head.stop ∧ head.stop ≤ text.length

/-! ## The first keyword among tokens -/

variable {lead : List HeadToken} {keyword : HeadToken}

/-- Tokens that make up a declaration: a keyword, or a `<cf` and a keyword. -/
inductive IsDeclaration : List HeadToken → Option HeadToken → HeadToken → Prop
  | keyword {keyword : HeadToken} {behind : List HeadToken} (hkeyword : keyword.kind = .keyword) :
    IsDeclaration (keyword :: behind) none keyword
  | tag {tag keyword : HeadToken} {behind : List HeadToken} (htag : tag.kind = .tagOpen)
    (hkeyword : keyword.kind = .keyword) :
    IsDeclaration (tag :: keyword :: behind) (some tag) keyword

variable {declaration : List HeadToken} {tag : Option HeadToken}

theorem IsDeclaration.withoutDoc? (h : IsDeclaration declaration tag keyword) :
    withoutDoc? declaration = some ⟨none, tag, keyword⟩ := by
  cases h with
  | @keyword _ others hkeyword => cases others <;> simp [ComponentHead.withoutDoc?, hkeyword]
  | tag htag hkeyword => simp [ComponentHead.withoutDoc?, htag, hkeyword]

theorem IsDeclaration.exists_cons (h : IsDeclaration declaration tag keyword) :
    ∃ first others, declaration = first :: others ∧
      (first.kind = .keyword ∨ first.kind = .tagOpen) := by
  cases h with
  | keyword hkeyword => exact ⟨_, _, rfl, Or.inl hkeyword⟩
  | tag htag hkeyword => exact ⟨_, _, rfl, Or.inr htag⟩

theorem IsDeclaration.exists_behind (h : IsDeclaration declaration tag keyword) : ∃ behind,
    declaration = tag.toList ++ keyword :: behind ∧ keyword.kind = .keyword ∧
      ∀ t ∈ tag, t.kind = .tagOpen := by
  cases h with
  | keyword hkeyword => exact ⟨_, rfl, hkeyword, by simp⟩
  | tag htag hkeyword => exact ⟨_, rfl, hkeyword, by simpa using htag⟩

theorem IsDeclaration.first? (h : IsDeclaration declaration tag keyword) :
    first? declaration = some ⟨none, tag, keyword⟩ := by
  obtain ⟨⟨kind, stretch⟩, others, rfl, hkind⟩ := h.exists_cons
  have hat : atFirst? (⟨kind, stretch⟩ :: others) = some ⟨none, tag, keyword⟩ := by
    rw [← h.withoutDoc?]
    rcases hkind with rfl | rfl <;> rfl
  rw [ComponentHead.first?, hat]
  rfl

/-- The documentation block and the white space at the end. -/
inductive EndsInDoc : List HeadToken → HeadToken → Stretch → Prop
  | intro {init : List HeadToken} {stretch inside : Stretch} {blank : HeadToken}
    (hblank : blank.kind = .blank) :
    EndsInDoc (init ++ [⟨.doc inside, stretch⟩, blank]) ⟨.doc inside, stretch⟩ inside

theorem EndsInDoc.exists_append {doc : HeadToken} {inside : Stretch}
    (h : EndsInDoc lead doc inside) :
    doc.kind = .doc inside ∧ ∃ init last, lead = init ++ [doc, last] := by
  cases h with
  | intro hblank => exact ⟨rfl, _, _, rfl⟩

theorem EndsInDoc.unique {doc doc' : HeadToken} {inside inside' : Stretch}
    (h : EndsInDoc lead doc inside) (h' : EndsInDoc lead doc' inside') :
    doc = doc' ∧ inside = inside' := by
  obtain ⟨hkind, init, last, rfl⟩ := h.exists_append
  obtain ⟨hkind', init', last', hlead⟩ := h'.exists_append
  obtain ⟨-, hlast⟩ := List.append_inj' hlead rfl
  obtain ⟨rfl, -⟩ := List.cons.inj hlast
  exact ⟨rfl, Kind.doc.inj (hkind.symm.trans hkind')⟩

/-- A documentation block and white space in front of a declaration are a part of the head. -/
theorem first?_of_endsInDoc {doc : HeadToken} {inside : Stretch}
    (hlead : ∀ t ∈ lead, t.kind ≠ .keyword) (hdoc : EndsInDoc lead doc inside)
    (h : IsDeclaration declaration tag keyword) :
    first? (lead ++ declaration) = some ⟨some (doc, inside), tag, keyword⟩ := by
  obtain ⟨hblank⟩ := hdoc
  rename_i init stretch blank
  rw [List.append_assoc, List.cons_append, first?_append (fun t ht => hlead t (by simp [ht]))
    (by simp) (by simp) (by simp), ComponentHead.first?, List.singleton_append, atFirst?_doc,
    hblank, h.withoutDoc?]
  rfl

/-- Other tokens in front of a declaration are passed over. -/
theorem first?_of_not_endsInDoc (hlead : ∀ t ∈ lead, t.kind ≠ .keyword ∧ t.kind ≠ .tagOpen)
    (hdoc : ∀ doc inside, ¬ EndsInDoc lead doc inside)
    (h : IsDeclaration declaration tag keyword) :
    first? (lead ++ declaration) = some ⟨none, tag, keyword⟩ := by
  rcases List.eq_nil_or_concat lead with rfl | ⟨init, last, rfl⟩
  · exact h.first?
  rw [List.concat_eq_append] at *
  obtain ⟨hkeyword, htag⟩ := hlead last (by simp)
  have hinit : ∀ t ∈ init, t.kind ≠ .keyword := fun t ht => (hlead t (by simp [ht])).1
  have happ : ∀ t ∈ init.getLast?, last.kind = .blank → t.kind.isDoc = false := by
    intro t ht hblank
    rw [Bool.eq_false_iff]
    intro hisDoc
    obtain ⟨before, rfl⟩ := List.getLast?_eq_some_iff.mp ht
    obtain ⟨kind, stretch⟩ := t
    obtain ⟨inside, rfl⟩ := exists_of_isDoc hisDoc
    rw [List.append_assoc] at hdoc
    exact hdoc _ _ (.intro hblank)
  rw [List.append_assoc, List.singleton_append,
    first?_append hinit hkeyword htag fun hblank t ht => happ t ht hblank]
  by_cases hblank : last.kind = .blank
  · rw [first?_blank hblank, h.first?]
  · have hnone : atFirst? (last :: declaration) = none := by
      obtain ⟨first, others, rfl, hfirst⟩ := h.exists_cons
      have hfirst : first.kind ≠ .blank := by rcases hfirst with hfirst | hfirst <;> simp [hfirst]
      obtain ⟨kind, stretch⟩ := last
      cases kind with
      | doc inside => simp [atFirst?_doc, hfirst]
      | _ => exact @withoutDoc?_append [] (first :: others) _ (by simp) hkeyword htag
    rw [ComponentHead.first?, hnone, ← h.first?]
    rfl

/-! ## The tokens of a text around its first keyword -/

variable {text : List Char}

/-- How the tokens of a text are arranged around the first keyword. -/
structure Arranged (text : List Char) (lead declaration : List HeadToken) (tag : Option HeadToken)
    (keyword : HeadToken) : Prop where
  tokens : HeadToken.tokens text = lead ++ declaration
  lead : ∀ t ∈ lead, t.kind ≠ .keyword ∧ t.kind ≠ .tagOpen
  declaration : IsDeclaration declaration tag keyword

theorem exists_arranged (h : ∃ t ∈ HeadToken.tokens text, t.kind = .keyword) :
    ∃ lead declaration tag keyword, Arranged text lead declaration tag keyword := by
  obtain ⟨t, ht, hkind⟩ := h
  have hsome : ((HeadToken.tokens text).find? (·.kind == .keyword)).isSome = true := by
    rw [List.find?_isSome]
    exact ⟨t, ht, by simp [hkind]⟩
  obtain ⟨keyword, hfind⟩ := Option.isSome_iff_exists.mp hsome
  obtain ⟨hkeyword, front, behind, htokens, hfront⟩ := List.find?_eq_some_iff_append.mp hfind
  have hkeyword : keyword.kind = .keyword := by simpa using hkeyword
  have hfront : ∀ t ∈ front, t.kind ≠ .keyword := by simpa using hfront
  -- a `<cf` further in front would have another keyword behind it
  have htag : ∀ init last, front = init ++ last → last ≠ [] → ∀ t ∈ init, t.kind ≠ .tagOpen := by
    rintro init last rfl hne t ht hkind
    obtain ⟨before, others, rfl⟩ := List.append_of_mem ht
    rw [List.append_assoc, List.append_assoc, List.cons_append] at htokens
    obtain ⟨second, rest, hrest, hsecond⟩ := exists_keyword_behind
      (show tokensFrom 0 text = _ from htokens) hkind
    have hmem : second ∈ others ++ last := by
      cases hsplit : others ++ last with
      | nil => exact absurd (List.append_eq_nil_iff.mp hsplit).2 hne
      | cons u others' =>
        rw [← List.append_assoc, hsplit, List.cons_append] at hrest
        rw [(List.cons.inj hrest).1]
        exact List.mem_cons_self
    apply hfront second _ hsecond
    rcases List.mem_append.mp hmem with hmem | hmem <;> simp [hmem]
  rcases List.eq_nil_or_concat front with rfl | ⟨init, last, rfl⟩
  · exact ⟨[], keyword :: behind, none, keyword, htokens, by simp, .keyword hkeyword⟩
  rw [List.concat_eq_append] at *
  by_cases hlast : last.kind = .tagOpen
  · refine ⟨init, last :: keyword :: behind, some last, keyword, ?_, ?_, .tag hlast hkeyword⟩
    · rw [htokens, List.append_assoc, List.singleton_append]
    · intro t ht
      exact ⟨hfront t (by simp [ht]), htag init [last] rfl (by simp) t ht⟩
  · refine ⟨init ++ [last], keyword :: behind, none, keyword, htokens, ?_, .keyword hkeyword⟩
    intro t ht
    refine ⟨hfront t ht, ?_⟩
    rcases List.mem_append.mp ht with ht | ht
    · exact htag init [last] rfl (by simp) t ht
    · rwa [List.mem_singleton.mp ht]

/-- The keyword is the first of the words that declare something. -/
theorem Arranged.leftmost (h : Arranged text lead declaration tag keyword) :
    keyword ∈ HeadToken.tokens text ∧ keyword.kind = .keyword ∧
      ∀ word, Declares text word → keyword.stretch.start ≤ word.start := by
  obtain ⟨behind, hsplit, hkind, htag⟩ := h.declaration.exists_behind
  have htokens := h.tokens
  rw [hsplit, ← List.append_assoc] at htokens
  refine ⟨by simp [htokens], hkind, ?_⟩
  intro word hword
  obtain ⟨t, ht, hkeyword, hstretch⟩ := exists_keyword_of_declares hword
  have hstart : t.stretch.start = word.start := congrArg Stretch.start hstretch
  have hpairwise := pairwise_tokensFrom 0 text
  rw [show tokensFrom 0 text = HeadToken.tokens text from rfl, htokens] at hpairwise
  rw [htokens, List.append_assoc] at ht
  rcases List.mem_append.mp ht with ht | ht
  · exact absurd hkeyword (h.lead t ht).1
  rcases List.mem_append.mp ht with ht | ht
  · rw [htag t (by simpa using ht)] at hkeyword
    exact absurd hkeyword (by simp)
  rcases List.mem_cons.mp ht with rfl | ht
  · exact hstart.le
  · have hle := List.rel_of_pairwise_cons (List.pairwise_append.mp hpairwise).2.1 ht
    have hle' := keyword.stretch.start_le_stop
    omega

/-! ## The parts of the head -/

/-- The text is cut where the declaration begins. -/
theorem Arranged.exists_cut (h : Arranged text lead declaration tag keyword) : ∃ front back,
    text = front ++ back ∧ Meets 0 front back lead ∧ declaration = tokensFrom front.length back ∧
      back.head?.any isBlank = false := by
  obtain ⟨first, others, rfl, hkind⟩ := h.declaration.exists_cons
  obtain ⟨front, passed, rest, rfl, hmeets, hstands, rfl⟩ :=
    exists_meets (show tokensFrom 0 text = _ from h.tokens)
  refine ⟨front, passed ++ rest, rfl, hmeets, ?_, ?_⟩
  · have hcancel := (show tokensFrom 0 (front ++ (passed ++ rest)) = _ from hmeets).symm.trans
      (show tokensFrom 0 (front ++ (passed ++ rest)) = _ from h.tokens)
    rw [← List.append_cancel_left hcancel, Nat.zero_add]
  · have htakes := hstands.takes
    rcases hkind with hkind | hkind
    · rw [hkind] at htakes
      obtain ⟨c, letters, rfl, -, hblank, -⟩ := exists_cons_of_isDeclaringWord htakes.1
      exact hblank
    · rw [hkind] at htakes
      obtain ⟨⟨letters, rfl, -⟩, -⟩ := htakes
      rfl

/-- A `<cf` among the tokens stands directly in front of the keyword. -/
theorem Arranged.endsInTagOpen {opener : HeadToken}
    (h : Arranged text lead declaration (some opener) keyword) :
    EndsInTagOpen (text.take keyword.stretch.start) ∧
      opener.stretch.start + 3 = keyword.stretch.start := by
  obtain ⟨behind, hsplit, -, htag⟩ := h.declaration.exists_behind
  have htokens : tokensFrom 0 text = (lead ++ [opener]) ++ keyword :: behind := by
    rw [show tokensFrom 0 text = _ from h.tokens, hsplit, Option.toList_some, List.append_assoc]
  obtain ⟨front, passed, rest, rfl, -, hstands, -⟩ := exists_meets htokens
  rw [List.append_assoc, List.singleton_append] at htokens
  obtain ⟨first, written, rfl, -, hopener⟩ := standsAt_last htokens rfl hstands.start
  have htakes := hopener.takes
  rw [htag opener rfl] at htakes
  have hlength := htakes.1.length_eq
  have hstart := hstands.start
  have hstart' := hopener.start
  rw [Nat.zero_add] at hstart hstart'
  constructor
  · rw [hstart, List.take_left]
    exact ⟨first, written, rfl, htakes.1⟩
  · rw [hstart, hstart', List.length_append, hlength]

/-- Without such a token there is none in the text. -/
theorem Arranged.not_endsInTagOpen (h : Arranged text lead declaration none keyword) :
    ¬ EndsInTagOpen (text.take keyword.stretch.start) := by
  obtain ⟨hmem, hkind, -⟩ := h.leftmost
  have hdeclares := declares_of_keyword hmem hkind
  obtain ⟨front, back, hsplit, hlength, hback, -⟩ := hdeclares.whole
  simp only at hlength hsplit
  generalize hword : (text.drop keyword.stretch.start).take
    (keyword.stretch.stop - keyword.stretch.start) = word at hsplit hdeclares
  have hfront : text.take keyword.stretch.start = front := by
    rw [hsplit, ← hlength, List.take_left]
  rw [hfront]
  rintro ⟨before, opening, rfl, hopening⟩
  obtain ⟨kept, opener, hopener, hmeets⟩ :=
    exists_tagOpen_of_declares hdeclares hsplit hlength hopening hback
  -- the tokens up to the keyword are those in front of the declaration
  obtain ⟨behind, hdeclaration, -⟩ := h.declaration.exists_behind
  have htokens : tokensFrom 0 text = lead ++ keyword :: behind := by
    rw [show tokensFrom 0 text = _ from h.tokens, hdeclaration]
    rfl
  obtain ⟨front, passed, rest, hsplit', hmeets', hstands, -⟩ := exists_meets htokens
  have hplace := hstands.start
  rw [Nat.zero_add, ← hlength] at hplace
  obtain ⟨rfl, hrest⟩ := List.append_inj (hsplit.symm.trans hsplit') hplace
  rw [← hrest] at hmeets'
  have hlead := hmeets'.unique hmeets
  exact (h.lead opener (by simp [hlead])).2 hopener

/-- The tokens of a declaration begin at one place only. -/
theorem IsDeclaration.place_unique (h : IsDeclaration declaration tag keyword)
    {place place' : Nat} {back back' : List Char} (htokens : declaration = tokensFrom place back)
    (htokens' : declaration = tokensFrom place' back') : place = place' := by
  obtain ⟨first, others, rfl, -⟩ := h.exists_cons
  rw [← start_of_tokensFrom htokens.symm, start_of_tokensFrom htokens'.symm]

variable {front back : List Char}

/-- White space behind the documentation block goes up to where the declaration begins. -/
theorem Arranged.isAttached_of_endsInDoc
    (h : Arranged (front ++ back) lead declaration tag keyword)
    (hdeclaration : declaration = tokensFrom front.length back) {stretch inside : Stretch}
    (hdoc : EndsInDoc lead ⟨.doc inside, stretch⟩ inside) :
    IsAttached (front ++ back) ⟨stretch.start, stretch.stop, inside, stretch.start_le_stop⟩
      front.length := by
  obtain @⟨init, _, _, blank, hblank⟩ := hdoc
  have htokens := h.tokens
  rw [List.append_assoc, List.cons_append, List.singleton_append] at htokens
  obtain ⟨first, passed, rest, hsplit, -, hdoc, hbehind⟩ :=
    exists_meets (show tokensFrom 0 (front ++ back) = _ from htokens)
  obtain ⟨blanks, behind, rfl, hblanks, hrest⟩ := exists_first_of_tokensFrom hbehind.symm
  have hlength := h.declaration.place_unique hdeclaration hrest
  have hstop : stretch.stop = (first ++ passed).length := by
    rw [hdoc.stop, List.length_append, Nat.zero_add]
  rw [← List.append_assoc, ← List.append_assoc] at hsplit
  obtain ⟨rfl, -⟩ := List.append_inj hsplit (by
    simp only [List.length_append]
    omega)
  have hpos := List.length_pos_of_ne_nil hblanks.ne_nil
  have htakes := hblanks.takes
  rw [hblank] at htakes
  constructor
  · change stretch.stop < ((first ++ passed) ++ blanks).length
    simp only [hstop, List.length_append]
    omega
  · change ∀ c ∈ (List.take _ _).drop stretch.stop, isBlank c = true
    rw [List.take_left, hstop, List.drop_left]
    exact htakes

/-- White space from the documentation block up to where the declaration begins is one token. -/
theorem Arranged.endsInDoc_of_isAttached
    (h : Arranged (front ++ back) lead declaration tag keyword)
    (hdeclaration : declaration = tokensFrom front.length back)
    (hback : back.head?.any isBlank = false) {block : Occurrence Stretch}
    (hblock : block ∈ docBlocks (front ++ back))
    (hattached : IsAttached (front ++ back) block front.length) :
    EndsInDoc lead ⟨.doc block.value, block.stretch⟩ block.value := by
  obtain ⟨before, behind, htokens⟩ := List.append_of_mem (mem_docBlocks_iff.mp hblock)
  obtain ⟨first, passed, rest, hsplit, -, hdoc, rfl⟩ :=
    exists_meets (show tokensFrom 0 (front ++ back) = _ from htokens)
  have hlt := hattached.stop_lt
  have hstop : block.stop = (first ++ passed).length := by
    rw [show block.stop = _ from hdoc.stop, List.length_append, Nat.zero_add]
  rw [← List.append_assoc] at hsplit
  obtain ⟨blanks, rfl, rfl⟩ : ∃ blanks, front = (first ++ passed) ++ blanks ∧
      rest = blanks ++ back := by
    rcases List.append_eq_append_iff.mp hsplit with ⟨more, hmore, -⟩ | h
    · rw [hstop, hmore, List.length_append] at hlt
      omega
    · exact h
  have hblanks := hattached.blank
  rw [List.take_left, hstop, List.drop_left] at hblanks
  have hne : blanks ≠ [] := by
    rintro rfl
    rw [List.append_nil, hstop] at hlt
    exact Nat.lt_irrefl _ hlt
  obtain ⟨blank, hblank, hbehind⟩ :=
    @tokensFrom_blanks (0 + first.length + passed.length) blanks back hne hblanks hback
  have hlead : lead = before ++ [⟨.doc block.value, block.stretch⟩, blank] := by
    have hsame : lead ++ declaration
        = (before ++ [⟨.doc block.value, block.stretch⟩, blank]) ++ declaration := by
      rw [← h.tokens, htokens, hbehind, hdeclaration, List.append_assoc]
      simp [Nat.add_assoc]
    exact List.append_cancel_right hsame
  rw [hlead]
  exact .intro hblank

/-- Three characters open a documentation block, and two close it. -/
theorem inside_of_mem_docBlocks {block : Occurrence Stretch} (h : block ∈ docBlocks text) :
    block.value.start = block.start + 3 ∧ block.value.stop + 2 = block.stop := by
  obtain ⟨_, _, _, -, hstands⟩ := exists_standsAt_of_mem (mem_docBlocks_iff.mp h)
  exact hstands.inside rfl

/-- The documentation block at the end of the tokens in front of the declaration is the one from
which white space leads up to it. -/
theorem Arranged.endsInDoc_iff (h : Arranged (front ++ back) lead declaration tag keyword)
    (hdeclaration : declaration = tokensFrom front.length back)
    (hback : back.head?.any isBlank = false) (inside : Stretch) :
    (∃ doc, EndsInDoc lead doc inside) ↔ ∃ block ∈ docBlocks (front ++ back),
      IsAttached (front ++ back) block front.length ∧
        inside.start = block.start + 3 ∧ inside.stop + 2 = block.stop := by
  constructor
  · rintro ⟨⟨kind, stretch⟩, hdoc⟩
    obtain ⟨hkind, init, last, hlead⟩ := hdoc.exists_append
    obtain rfl : kind = .doc inside := hkind
    have hblock : ⟨stretch.start, stretch.stop, inside, stretch.start_le_stop⟩
        ∈ docBlocks (front ++ back) := by
      rw [mem_docBlocks_iff, h.tokens, hlead]
      simp [Occurrence.stretch]
    obtain ⟨hstart, hstop⟩ := inside_of_mem_docBlocks hblock
    exact ⟨_, hblock, h.isAttached_of_endsInDoc hdeclaration hdoc, hstart, hstop⟩
  · rintro ⟨block, hblock, hattached, hstart, hstop⟩
    obtain ⟨hstart', hstop'⟩ := inside_of_mem_docBlocks hblock
    obtain rfl : inside = block.value := by
      apply Stretch.ends_inj
      simp only [Stretch.ends, Prod.mk.injEq]
      omega
    exact ⟨_, h.endsInDoc_of_isAttached hdeclaration hback hblock hattached⟩

theorem keyword_mem_of_withoutDoc? {tokens : List HeadToken} {parts : Parts}
    (h : withoutDoc? tokens = some parts) : parts.keyword ∈ tokens := by
  unfold withoutDoc? at h
  split at h
  · split at h
    · obtain rfl := Option.some.inj h
      simp
    · obtain ⟨-, heq⟩ := Option.ite_none_right_eq_some.mp h
      obtain rfl := Option.some.inj heq
      simp
  · obtain ⟨-, heq⟩ := Option.ite_none_right_eq_some.mp h
    obtain rfl := Option.some.inj heq
    simp
  · exact absurd h (by simp)

/-- The keyword of a head is one of the tokens. -/
theorem keyword_mem_of_first? {tokens : List HeadToken} {parts : Parts}
    (h : first? tokens = some parts) : parts.keyword ∈ tokens := by
  induction tokens with
  | nil => exact absurd h (by simp [first?])
  | cons first rest ih =>
    rcases Reader.eq_some_of_orElse h with hfirst | hrest
    · simp only [atFirst?] at hfirst
      split at hfirst
      · split at hfirst
        · exact absurd hfirst (by simp)
        · obtain ⟨-, hfirst⟩ := Option.ite_none_right_eq_some.mp hfirst
          obtain ⟨behind, hbehind, rfl⟩ := Option.map_eq_some_iff.mp hfirst
          have hmem := keyword_mem_of_withoutDoc? hbehind
          exact List.mem_cons_of_mem _ (List.mem_cons_of_mem _ hmem)
      · exact keyword_mem_of_withoutDoc? hfirst
    · exact List.mem_cons_of_mem _ (ih hrest)

/-- The attributes go from the keyword to the first character that ends them. -/
theorem attributes_ofParts {parts : Parts} (hle : parts.keyword.stretch.stop ≤ text.length) :
    let head := ofParts text parts
    head.attributesStart = parts.keyword.stretch.stop ∧
      (∀ c ∈ (text.take head.stop).drop head.attributesStart, c ≠ '>' ∧ c ≠ '{') ∧
      (head.stop = text.length ∨ ∃ c, text[head.stop]? = some c ∧ (c = '>' ∨ c = '{')) ∧
      head.attributesStart ≤ head.stop ∧ head.stop ≤ text.length := by
  intro head
  let p := fun c : Char => c != '>' && c != '{'
  let rest := text.drop parts.keyword.stretch.stop
  have hstart : head.attributesStart = parts.keyword.stretch.stop := by
    have hword := parts.keyword.stretch.start_le_stop
    simp only [attributesStart, Capture.stop, head, ofParts, List.length_take, List.length_drop]
    omega
  have hstop : head.stop = parts.keyword.stretch.stop + (rest.takeWhile p).length := rfl
  have hlength : (rest.takeWhile p).length + (rest.dropWhile p).length
      = text.length - parts.keyword.stretch.stop := by
    rw [← List.length_append, List.takeWhile_append_dropWhile, List.length_drop]
  refine ⟨hstart, ?_, ?_, by omega, by omega⟩
  · have hfirst := List.prefix_iff_eq_take.mp (List.takeWhile_prefix (l := rest) p)
    rw [hstart, hstop, List.drop_take, Nat.add_sub_cancel_left, ← hfirst]
    intro c hc
    simpa [p] using List.mem_takeWhile_imp hc
  · have hbehind : text[head.stop]? = (rest.dropWhile p).head? := by
      have hsplit : (rest.takeWhile p ++ rest.dropWhile p)[(rest.takeWhile p).length]?
          = (rest.dropWhile p).head? := by
        rw [List.getElem?_append_right le_rfl, Nat.sub_self, List.head?_eq_getElem?]
      rw [List.takeWhile_append_dropWhile] at hsplit
      rw [hstop, ← List.getElem?_drop]
      exact hsplit
    have hends := List.head?_dropWhile_not p rest
    cases hlast : (rest.dropWhile p).head? with
    | none =>
      left
      rw [List.head?_eq_none_iff] at hlast
      rw [hlast] at hlength
      simp only [List.length_nil] at hlength
      omega
    | some c =>
      right
      rw [hlast] at hends
      refine ⟨c, hbehind.trans hlast, ?_⟩
      by_cases hc : c = '>'
      · exact Or.inl hc
      · exact Or.inr (by simpa [p, hc] using hends)

/-- A head ends at a character of the text that is no line feed, or with the text. -/
theorem isBoundary_stop {src : Source} {head : ComponentHead} (h : find? src.text = some head) :
    src.IsBoundary head.stop := by
  obtain ⟨parts, hparts, rfl⟩ := Option.map_eq_some_iff.mp h
  obtain ⟨found, hfound, hkeyword⟩ := List.mem_map.mp (keyword_mem_of_first? hparts)
  have hle : parts.keyword.stretch.stop ≤ src.text.length := by
    rw [← hkeyword, ← Nat.zero_add src.text.length]
    exact (occurrences_within hfound).2
  obtain ⟨-, -, hend | ⟨c, hget, hc⟩, -, -⟩ := attributes_ofParts hle
  · rw [hend]
    exact src.isBoundary_length
  · apply Source.isBoundary_of_getElem? hget
    rcases hc with rfl | rfl
    · decide
    · decide

/-- The declaration begins at the keyword, or at the `<cf` in front of it. -/
theorem Arranged.opening_eq (h : Arranged text lead declaration tag keyword) {offset : Nat}
    {back : List Char} (hdeclaration : declaration = tokensFrom offset back)
    (doc : Option (HeadToken × Stretch)) :
    (tag.getD keyword).stretch.start = offset ∧
      (ofParts text ⟨doc, tag, keyword⟩).opening = offset := by
  obtain ⟨behind, hsplit, -⟩ := h.declaration.exists_behind
  rw [hdeclaration] at hsplit
  cases tag with
  | none => exact ⟨start_of_tokensFrom hsplit, start_of_tokensFrom hsplit⟩
  | some opener =>
    have hstart : opener.stretch.start = offset := start_of_tokensFrom hsplit
    refine ⟨hstart, ?_⟩
    have hkeyword := h.endsInTagOpen.2
    change keyword.stretch.start - 3 = offset
    omega

/-- The keyword takes up characters of the text, and the `<cf` is not behind it. -/
theorem Arranged.bounds (h : Arranged text lead declaration tag keyword) :
    (tag.getD keyword).stretch.start ≤ keyword.stretch.start ∧
      keyword.stretch.start < keyword.stretch.stop ∧ keyword.stretch.stop ≤ text.length := by
  obtain ⟨first, passed, rest, htext, hstands⟩ := exists_standsAt_of_mem h.leftmost.1
  have hstop := hstands.stop
  refine ⟨?_, hstands.start_lt_stop, ?_⟩
  · cases tag with
    | none => exact le_rfl
    | some opener =>
      have hkeyword := h.endsInTagOpen.2
      change opener.stretch.start ≤ _
      omega
  · rw [htext, List.length_append, List.length_append]
    omega

/-- A head with a documentation block begins at the block, and one without where the declaration
does. -/
theorem Arranged.start_ofParts (h : Arranged text lead declaration tag keyword)
    {doc : Option (HeadToken × Stretch)}
    (hdoc : ∀ token inside, doc = some (token, inside) → EndsInDoc lead token inside) :
    let head := ofParts text ⟨doc, tag, keyword⟩
    head.start = (head.doc.map fun inside => inside.start - 3).getD
      (tag.getD keyword).stretch.start := by
  cases doc with
  | none => cases tag <;> rfl
  | some found =>
    obtain ⟨token, inside⟩ := found
    obtain ⟨htoken, init, last, hlead⟩ := (hdoc token inside rfl).exists_append
    have hmem : token ∈ HeadToken.tokens text := by simp [h.tokens, hlead]
    obtain ⟨first, passed, rest, -, hstands⟩ := exists_standsAt_of_mem hmem
    have hinside := (hstands.inside htoken).1
    change token.stretch.start = inside.start - 3
    omega

/-- **What is put together from the tokens is what the text says.** -/
theorem Arranged.isHeadOf (h : Arranged text lead declaration tag keyword)
    {doc : Option (HeadToken × Stretch)}
    (hdoc : ∀ token inside, doc = some (token, inside) ↔ EndsInDoc lead token inside) :
    IsHeadOf text (ofParts text ⟨doc, tag, keyword⟩) := by
  obtain ⟨hmem, hkind, hleftmost⟩ := h.leftmost
  obtain ⟨hstart, hlt, hle⟩ := h.bounds
  obtain ⟨front, back, rfl, -, hdeclaration, hback⟩ := h.exists_cut
  obtain ⟨hfirst, hopening⟩ := h.opening_eq hdeclaration doc
  obtain ⟨hattributes, hclean, hends, hordered⟩ :=
    attributes_ofParts (show (Parts.mk doc tag keyword).keyword.stretch.stop ≤ _ from hle)
  have hbegins := h.start_ofParts fun token inside => (hdoc token inside).mp
  have hparts : ∀ inside, (ofParts (front ++ back) ⟨doc, tag, keyword⟩).doc = some inside ↔
      ∃ block ∈ docBlocks (front ++ back), IsAttached (front ++ back) block front.length ∧
        inside.start = block.start + 3 ∧ inside.stop + 2 = block.stop := by
    intro inside
    rw [← h.endsInDoc_iff hdeclaration hback]
    simp only [← hdoc, ofParts, Option.map_eq_some_iff, Prod.exists, exists_eq_right]
  have hfront : (ofParts (front ++ back) ⟨doc, tag, keyword⟩).start ≤ keyword.stretch.start := by
    rw [hbegins]
    cases hinside : (ofParts (front ++ back) ⟨doc, tag, keyword⟩).doc with
    | none => exact hstart
    | some inside =>
      obtain ⟨block, -, hattached, hinsideStart, -⟩ := (hparts inside).mp hinside
      have hblock := block.start_le_stop
      have hbefore := hattached.stop_lt
      rw [Option.map_some, Option.getD_some]
      omega
  exact {
    declares := declares_of_keyword hmem hkind
    leftmost := hleftmost
    dialect := by
      cases tag with
      | none => exact iff_of_false (by simp [ofParts]) h.not_endsInTagOpen
      | some opener => exact iff_of_true (by simp [ofParts]) h.endsInTagOpen.1
    doc := by rwa [hopening]
    start := by rw [hbegins, hopening, hfirst]
    attributes := hclean
    stop := hends
    ordered := ⟨hfront, by rwa [hattributes], hordered⟩ }

/-- **The head that is found is the one that is written.** -/
theorem isHeadOf_find? (text : List Char) :
    match find? text with
    | none => ∀ word, ¬ Declares text word
    | some head => IsHeadOf text head := by
  by_cases hkeyword : ∃ t ∈ HeadToken.tokens text, t.kind = .keyword
  · obtain ⟨lead, declaration, tag, keyword, harranged⟩ := exists_arranged hkeyword
    have hdeclaration := harranged.declaration
    by_cases hdoc : ∃ token inside, EndsInDoc lead token inside
    · obtain ⟨token, inside, hdoc⟩ := hdoc
      have hfirst := first?_of_endsInDoc (fun t ht => (harranged.lead t ht).1) hdoc hdeclaration
      rw [← harranged.tokens] at hfirst
      rw [find?, hfirst]
      apply harranged.isHeadOf
      intro token' inside'
      rw [Option.some_inj, Prod.mk.injEq]
      constructor
      · rintro ⟨rfl, rfl⟩
        exact hdoc
      · exact hdoc.unique
    · have hfirst := first?_of_not_endsInDoc harranged.lead (by simpa using hdoc) hdeclaration
      rw [← harranged.tokens] at hfirst
      rw [find?, hfirst]
      apply harranged.isHeadOf
      intro token inside
      exact iff_of_false (by simp) fun h => hdoc ⟨token, inside, h⟩
  · have hnone : first? (HeadToken.tokens text) = none :=
      first?_eq_none_iff.mpr fun t ht hkind => hkeyword ⟨t, ht, hkind⟩
    rw [find?, hnone]
    intro word hword
    obtain ⟨t, ht, hkind, -⟩ := exists_keyword_of_declares hword
    exact hkeyword ⟨t, ht, hkind⟩

end ComponentHead

end Cfml
