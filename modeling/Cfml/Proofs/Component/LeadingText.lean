/-
Text in front of a component declaration.

The head of a declaration is looked for among the tokens of the whole text, and comments other than
documentation blocks are no tokens. So what stands in front of a declaration can hide it or become a
part of it. Here it is said of every text what it does to the head that is found behind it: from its
tokens one can see whether it declares something itself, whether it opens a documentation block that
goes on behind it, and whether a documentation block at its end attaches to what follows
(`ComponentHead.find?_behind_iff`).
-/
import Cfml.Proofs.Component.HeadTokens

set_option autoImplicit false

namespace Cfml

namespace ComponentHead

open HeadToken

/-! ## A head in another place -/

/-- The parts of a head that stands as many characters further on. -/
def Parts.shift (distance : Nat) (parts : Parts) : Parts where
  doc := parts.doc.map fun (token, inside) => (token.shift distance, inside.shift distance)
  tag := parts.tag.map (·.shift distance)
  keyword := parts.keyword.shift distance

/-- The head as many characters further on. -/
def shift (distance : Nat) (head : ComponentHead) : ComponentHead where
  start := head.start + distance
  stop := head.stop + distance
  keyword := ⟨head.keyword.start + distance, head.keyword.text⟩
  dialect := head.dialect
  doc := head.doc.map (·.shift distance)

variable {distance : Nat} {tokens kept behind : List HeadToken} {token blank : HeadToken}

theorem kind_shift_beq {kind : Kind} (hkind : ∀ inside, kind ≠ .doc inside) :
    ((token.shift distance).kind == kind) = (token.kind == kind) := by
  obtain ⟨tokenKind, stretch⟩ := token
  cases tokenKind <;> cases kind <;> simp_all [HeadToken.shift, Kind.shift]

theorem withoutDoc?_shift (distance : Nat) (tokens : List HeadToken) :
    withoutDoc? (tokens.map (·.shift distance))
      = (withoutDoc? tokens).map (·.shift distance) := by
  have htag : ∀ token : HeadToken, ((token.shift distance).kind == .tagOpen)
      = (token.kind == .tagOpen) := fun token => kind_shift_beq (by simp)
  have hkeyword : ∀ token : HeadToken, ((token.shift distance).kind == .keyword)
      = (token.kind == .keyword) := fun token => kind_shift_beq (by simp)
  match tokens with
  | [] => rfl
  | [first] =>
    simp only [List.map_cons, List.map_nil, withoutDoc?, hkeyword]
    split
    · rfl
    · rfl
  | first :: second :: rest =>
    simp only [List.map_cons, withoutDoc?, htag, hkeyword]
    split
    · rfl
    · split
      · rfl
      · rfl

/-- What follows a documentation block and white space is declared with the block. -/
theorem atFirst?_doc (inside stretch : Stretch) (second : HeadToken) (rest : List HeadToken) :
    atFirst? (⟨.doc inside, stretch⟩ :: second :: rest) =
      if second.kind == .blank then
        (withoutDoc? rest).map fun parts =>
          { parts with doc := some (⟨.doc inside, stretch⟩, inside) }
      else none := rfl

theorem atFirst?_shift (distance : Nat) (tokens : List HeadToken) :
    atFirst? (tokens.map (·.shift distance)) = (atFirst? tokens).map (·.shift distance) := by
  have hblank : ∀ token : HeadToken, ((token.shift distance).kind == .blank)
      = (token.kind == .blank) := fun token => kind_shift_beq (by simp)
  cases tokens with
  | nil => rfl
  | cons first rest =>
    obtain ⟨kind, stretch⟩ := first
    cases kind with
    | doc inside =>
      cases rest with
      | nil => rfl
      | cons second rest =>
        have hfirst : (⟨.doc inside, stretch⟩ : HeadToken).shift distance
            = ⟨.doc (inside.shift distance), stretch.shift distance⟩ := rfl
        rw [List.map_cons, List.map_cons, hfirst, atFirst?_doc, atFirst?_doc, hblank,
          withoutDoc?_shift]
        split
        · cases withoutDoc? rest <;> rfl
        · rfl
    | blank => exact withoutDoc?_shift distance (⟨.blank, stretch⟩ :: rest)
    | tagOpen => exact withoutDoc?_shift distance (⟨.tagOpen, stretch⟩ :: rest)
    | keyword => exact withoutDoc?_shift distance (⟨.keyword, stretch⟩ :: rest)
    | word => exact withoutDoc?_shift distance (⟨.word, stretch⟩ :: rest)
    | other => exact withoutDoc?_shift distance (⟨.other, stretch⟩ :: rest)

/-- **The first head moves with the tokens.** -/
theorem first?_shift (distance : Nat) (tokens : List HeadToken) :
    first? (tokens.map (·.shift distance)) = (first? tokens).map (·.shift distance) := by
  induction tokens with
  | nil => rfl
  | cons token rest ih =>
    rw [List.map_cons, first?, first?, ← List.map_cons, atFirst?_shift, ih]
    cases atFirst? (token :: rest) <;> rfl

/-- The head of which the tokens stand behind another text is that of the text itself, moved. -/
theorem ofParts_shift (front text : List Char) (parts : Parts) :
    ofParts (front ++ text) (parts.shift front.length)
      = (ofParts text parts).shift front.length := by
  have hdrop : ∀ n, (front ++ text).drop (n + front.length) = text.drop n := by
    intro n
    rw [Nat.add_comm, List.drop_length_add_append]
  have hstart : ((((parts.shift front.length).doc.map Prod.fst <|>
        (parts.shift front.length).tag).getD (parts.shift front.length).keyword).stretch.start)
      = ((parts.doc.map Prod.fst <|> parts.tag).getD parts.keyword).stretch.start
        + front.length := by
    obtain ⟨doc, tag, keyword⟩ := parts
    cases doc <;> cases tag <;> rfl
  have hkeyword : (parts.shift front.length).keyword.stretch
      = parts.keyword.stretch.shift front.length := rfl
  have htag : (parts.shift front.length).tag.isSome = parts.tag.isSome := by
    rw [Parts.shift, Option.isSome_map]
  have hdoc : (parts.shift front.length).doc.map Prod.snd
      = (parts.doc.map Prod.snd).map (·.shift front.length) := by
    rw [Parts.shift, Option.map_map, Option.map_map]
    rfl
  simp only [ofParts, shift, hstart, hkeyword, htag, hdoc, Stretch.shift, hdrop,
    Nat.add_sub_add_right]
  rw [Nat.add_right_comm]

/-! ## Tokens that are passed over -/

/-- A declaration has a keyword among its first two tokens. -/
theorem withoutDoc?_eq_none (h : ∀ t ∈ tokens.take 2, t.kind ≠ .keyword) :
    withoutDoc? tokens = none := by
  match tokens with
  | [] => rfl
  | [first] =>
    have hfirst := h first (by simp)
    simp [withoutDoc?, hfirst]
  | first :: second :: rest =>
    have hfirst := h first (by simp)
    have hsecond := h second (by simp)
    simp [withoutDoc?, hfirst, hsecond]

/-- Nothing is declared by tokens without a keyword up to one that begins no declaration. -/
theorem withoutDoc?_append (hkept : ∀ t ∈ kept, t.kind ≠ .keyword)
    (hkeyword : token.kind ≠ .keyword) (htag : token.kind ≠ .tagOpen) :
    withoutDoc? (kept ++ token :: behind) = none := by
  match kept with
  | [] => cases behind <;> simp [withoutDoc?, hkeyword, htag]
  | [first] =>
    apply withoutDoc?_eq_none
    have hfirst := hkept first (by simp)
    simp [hfirst, hkeyword]
  | first :: second :: rest =>
    apply withoutDoc?_eq_none
    have hfirst := hkept first (by simp)
    have hsecond := hkept second (by simp)
    simp [hfirst, hsecond]

theorem atFirst?_append (hkept : ∀ t ∈ kept, t.kind ≠ .keyword) (hkeyword : token.kind ≠ .keyword)
    (htag : token.kind ≠ .tagOpen) (hblank : ∀ t, kept = [t] → t.kind.isDoc = true →
      token.kind ≠ .blank) (hne : kept ≠ []) : atFirst? (kept ++ token :: behind) = none := by
  obtain ⟨first, rest, rfl⟩ := List.exists_cons_of_ne_nil hne
  obtain ⟨kind, stretch⟩ := first
  cases kind with
  | doc inside =>
    cases rest with
    | nil =>
      have hnot := hblank _ rfl rfl
      simp [atFirst?, hnot]
    | cons second rest =>
      have hrest : withoutDoc? (rest ++ token :: behind) = none := by
        apply withoutDoc?_append _ hkeyword htag
        intro t ht
        exact hkept t (by simp [ht])
      simp [atFirst?, hrest]
  | _ => exact withoutDoc?_append hkept hkeyword htag

/-- **Tokens without a keyword are passed over**, up to a documentation block at their end. -/
theorem first?_append (hkept : ∀ t ∈ kept, t.kind ≠ .keyword) (hkeyword : token.kind ≠ .keyword)
    (htag : token.kind ≠ .tagOpen) (hlast : token.kind = .blank →
      ∀ t ∈ kept.getLast?, t.kind.isDoc = false) :
    first? (kept ++ token :: behind) = first? (token :: behind) := by
  induction kept with
  | nil => rfl
  | cons first rest ih =>
    have hnone : atFirst? (first :: rest ++ token :: behind) = none := by
      apply atFirst?_append hkept hkeyword htag _ (List.cons_ne_nil first rest)
      intro t hone hdoc hblank
      have hnot := hlast hblank t (by rw [hone]; rfl)
      rw [hdoc] at hnot
      exact absurd hnot (by decide)
    rw [List.cons_append, first?, ← List.cons_append, hnone]
    apply ih fun t ht => hkept t (List.mem_cons_of_mem first ht)
    intro hblank t ht
    apply hlast hblank t
    by_cases hne : rest = []
    · rw [hne] at ht
      exact absurd ht (by simp)
    · rwa [List.getLast?_cons_of_ne_nil hne]

theorem atFirst?_eq_none (h : ∀ t ∈ tokens, t.kind ≠ .keyword) : atFirst? tokens = none := by
  have htake : ∀ {rest : List HeadToken}, rest <:+ tokens → withoutDoc? rest = none := by
    intro rest hsuffix
    apply withoutDoc?_eq_none
    intro t ht
    exact h t (hsuffix.subset (List.mem_of_mem_take ht))
  cases tokens with
  | nil => rfl
  | cons first rest =>
    obtain ⟨kind, stretch⟩ := first
    cases kind with
    | doc inside =>
      cases rest with
      | nil => rfl
      | cons second rest =>
        have hrest : withoutDoc? rest = none := by
          apply htake
          exact (List.suffix_cons second rest).trans (List.suffix_cons _ _)
        rw [atFirst?_doc, hrest]
        split <;> rfl
    | _ => exact htake (List.suffix_refl _)

/-- A head is found exactly if there is a keyword. -/
theorem first?_eq_none_iff : first? tokens = none ↔ ∀ t ∈ tokens, t.kind ≠ .keyword := by
  induction tokens with
  | nil => simp [first?]
  | cons first rest ih =>
    rw [first?, Option.orElse_eq_orElse, Option.orElse_eq_or, Option.or_eq_none_iff, ih,
      List.forall_mem_cons]
    refine and_congr_left fun hrest => ?_
    constructor
    · rintro hnone hkeyword
      obtain ⟨kind, stretch⟩ := first
      obtain rfl : kind = .keyword := hkeyword
      cases rest <;> simp [atFirst?, withoutDoc?] at hnone
    · intro hfirst
      exact atFirst?_eq_none (List.forall_mem_cons.mpr ⟨hfirst, hrest⟩)

/-- White space at the start is passed over. -/
theorem first?_blank (hblank : token.kind = .blank) : first? (token :: behind) = first? behind := by
  have hnone : atFirst? (token :: behind) = none := by
    obtain ⟨kind, stretch⟩ := token
    obtain rfl : kind = .blank := hblank
    exact @withoutDoc?_append [] behind ⟨.blank, stretch⟩ (by simp) (by simp) (by simp)
  rw [first?, hnone]
  rfl

/-! ## Inert text -/

/-- The text declares nothing, opens no documentation block that it does not close, and does not end
in a documentation block and white space. -/
structure IsInert (text : List Char) : Prop where
  noKeyword : ∀ t ∈ HeadToken.tokens text, t.kind ≠ .keyword
  closed : ∀ t ∈ HeadToken.tokens text, t.kind = .other →
    ¬ ['/', '*', '*'] <+: text.drop t.stretch.start
  apart : ∀ t ∈ ((HeadToken.tokens text).filter (·.kind != .blank)).getLast?, t.kind.isDoc = false

section Behind

variable {text front back lead rest : List Char}

/-- What is cut off as white space becomes one token with the line break behind the text. -/
theorem tokens_behind (hcut : Cut 0 text front back kept) (hback : ∀ c ∈ back, isBlank c = true)
    (hlead : ∀ c ∈ lead, isBlank c = true) (hrest : rest.head?.any isBlank = false) :
    ∃ blank : HeadToken, blank.kind = .blank ∧ HeadToken.tokens (text ++ '\n' :: (lead ++ rest))
      = kept ++ blank :: (tokensFrom lead.length rest).map (·.shift (text.length + 1)) := by
  have hblanks : ∀ c ∈ back ++ '\n' :: lead, isBlank c = true := by
    intro c hc
    rcases List.mem_append.mp hc with hc | hc
    · exact hback c hc
    · rcases List.mem_cons.mp hc with rfl | hc
      · decide
      · exact hlead c hc
  obtain ⟨blank, hblank, hbehind⟩ :=
    @tokensFrom_blanks (0 + front.length) _ rest (by simp) hblanks hrest
  have hsplit : back ++ '\n' :: (lead ++ rest) = (back ++ '\n' :: lead) ++ rest := by
    rw [List.append_assoc, List.cons_append]
  have hplace : 0 + front.length + (back ++ '\n' :: lead).length
      = lead.length + (text.length + 1) := by
    rw [hcut.split, List.length_append, List.length_append, List.length_cons]
    omega
  rw [hplace, tokensFrom_add lead.length] at hbehind
  refine ⟨blank, hblank, ?_⟩
  have htokens := hcut.tokens ('\n' :: (lead ++ rest)) (by simp)
  rwa [hsplit, hbehind] at htokens

/-- White space at the start of a text changes nothing about its head. -/
theorem first?_lead (hlead : ∀ c ∈ lead, isBlank c = true)
    (hrest : rest.head?.any isBlank = false) :
    first? (HeadToken.tokens (lead ++ rest)) = first? (tokensFrom lead.length rest) := by
  by_cases hne : lead = []
  · subst hne
    rfl
  · obtain ⟨blank, hblank, htokens⟩ := @tokensFrom_blanks 0 lead rest hne hlead hrest
    have hwhole : HeadToken.tokens (lead ++ rest) = tokensFrom 0 (lead ++ rest) := rfl
    rw [hwhole, htokens, Nat.zero_add]
    exact first?_blank hblank

/-- The tokens of a text that is cut where only white space is left. -/
theorem tokens_of_cut (hcut : Cut 0 text front back kept) (hback : ∀ c ∈ back, isBlank c = true) :
    ∃ blanks : List HeadToken, (∀ t ∈ blanks, t.kind = .blank) ∧
      HeadToken.tokens text = kept ++ blanks := by
  refine ⟨tokensFrom (0 + front.length) back, ?_, hcut.tokens_nil⟩
  by_cases hne : back = []
  · rw [hne]
    exact fun t ht => absurd ht List.not_mem_nil
  · obtain ⟨blank, hblank, htokens⟩ := @tokensFrom_blanks (0 + front.length) back [] hne hback rfl
    rw [List.append_nil] at htokens
    intro t ht
    rw [htokens] at ht
    obtain rfl := List.mem_singleton.mp ht
    exact hblank

/-- A text that opens a documentation block and does not close it is not inert. -/
theorem not_isInert_of_opensDoc (hcut : Cut 0 text front back kept) (hback : OpensDoc back) :
    ¬ IsInert text := by
  intro hinert
  obtain ⟨t, ht, hkind, hstart⟩ := @exists_other (0 + front.length) back hback
  have hmem : t ∈ HeadToken.tokens text := by
    rw [show HeadToken.tokens text = tokensFrom 0 text from rfl, hcut.tokens_nil]
    exact List.mem_append_right kept ht
  apply hinert.closed t hmem hkind
  rw [hstart, Nat.zero_add, hcut.split, List.drop_left]
  exact hback.1

/-- Whether a text is inert can be seen from the tokens in front of the cut. -/
theorem isInert_iff_of_cut (hcut : Cut 0 text front back kept)
    (hback : ∀ c ∈ back, isBlank c = true) : IsInert text ↔
      (∀ t ∈ kept, t.kind ≠ .keyword) ∧ ∀ t ∈ kept.getLast?, t.kind.isDoc = false := by
  obtain ⟨blanks, hblanks, htokens⟩ := tokens_of_cut hcut hback
  -- the last token that is no white space is the last one in front of the cut
  have hlast : ((kept ++ blanks).filter (·.kind != .blank)).getLast? = kept.getLast? := by
    have hnone : blanks.filter (·.kind != .blank) = [] := by
      rw [List.filter_eq_nil_iff]
      intro t ht
      simp [hblanks t ht]
    rw [List.filter_append, hnone, List.append_nil]
    by_cases hne : kept = []
    · rw [hne]
      rfl
    · have hends := hcut.ends hback (kept.getLast hne)
        (List.getLast?_eq_some_getLast hne)
      rw [← List.dropLast_append_getLast hne, List.filter_append]
      simp [hends]
  constructor
  · rintro ⟨hkeyword, -, hapart⟩
    rw [htokens] at hkeyword hapart
    rw [hlast] at hapart
    exact ⟨fun t ht => hkeyword t (List.mem_append_left _ ht), hapart⟩
  · rintro ⟨hkeyword, hapart⟩
    refine ⟨?_, ?_, ?_⟩
    · intro t ht
      rw [htokens] at ht
      rcases List.mem_append.mp ht with ht | ht
      · exact hkeyword t ht
      · rw [hblanks t ht]
        simp
    · intro t ht hkind
      rw [htokens] at ht
      rcases List.mem_append.mp ht with ht | ht
      · exact hcut.closed t ht hkind
      · rw [hblanks t ht] at hkind
        exact absurd hkind (by simp)
    · rw [htokens, hlast]
      exact hapart

/-- The head behind an inert text. -/
theorem find?_of_cut (hcut : Cut 0 text front back kept) (hback : ∀ c ∈ back, isBlank c = true)
    (hkeyword : ∀ t ∈ kept, t.kind ≠ .keyword) (hapart : ∀ t ∈ kept.getLast?, t.kind.isDoc = false)
    (rest : List Char) :
    find? (text ++ '\n' :: rest) = (find? rest).map (·.shift (text.length + 1)) := by
  obtain ⟨lead, rest, rfl, hlead, hrest⟩ := exists_lead rest
  obtain ⟨blank, hblank, htokens⟩ := tokens_behind hcut hback hlead hrest
  have hfirst : first? (HeadToken.tokens (text ++ '\n' :: (lead ++ rest)))
      = (first? (HeadToken.tokens (lead ++ rest))).map (·.shift (text.length + 1)) := by
    rw [htokens, first?_append hkeyword (by simp [hblank]) (by simp [hblank]) fun _ => hapart,
      first?_blank hblank, first?_shift, first?_lead hlead hrest]
  have hsplit : text ++ '\n' :: (lead ++ rest) = (text ++ ['\n']) ++ (lead ++ rest) := by simp
  have hlength : text.length + 1 = (text ++ ['\n']).length := by simp
  rw [find?, hfirst, Option.map_map, find?, Option.map_map, hsplit, hlength]
  refine congrArg (fun f => Option.map f _) ?_
  funext parts
  exact ofParts_shift _ _ parts

/-- A text in front of nothing must not declare anything itself. -/
theorem noKeyword_of_find?_eq (hcut : Cut 0 text front back kept)
    (heq : find? (text ++ ['\n']) = (find? []).map (·.shift (text.length + 1))) :
    ∀ t ∈ kept, t.kind ≠ .keyword := by
  have hnone : first? (HeadToken.tokens (text ++ ['\n'])) = none := by
    rw [find?, find?] at heq
    exact Option.map_eq_none_iff.mp heq
  have htokens := hcut.tokens ['\n'] (by simp)
  intro t ht
  apply first?_eq_none_iff.mp hnone
  rw [show HeadToken.tokens (text ++ ['\n']) = tokensFrom 0 (text ++ ['\n']) from rfl, htokens]
  exact List.mem_append_left _ ht

/-- A documentation block at the end attaches to what is declared behind it. -/
theorem find?_bind_doc (hcut : Cut 0 text front back kept) (hback : ∀ c ∈ back, isBlank c = true)
    (hkeyword : ∀ t ∈ kept, t.kind ≠ .keyword) {last : HeadToken} (hlast : last ∈ kept.getLast?)
    (hdoc : last.kind.isDoc = true) :
    (find? (text ++ '\n' :: "component".toList)).bind ComponentHead.doc ≠ none := by
  obtain ⟨blank, hblank, htokens⟩ :=
    @tokens_behind kept text front back [] "component".toList hcut hback (by simp) (by decide)
  have hname : tokensFrom ([] : List Char).length "component".toList
      = [⟨.keyword, 0, 9, Nat.zero_le _⟩] := by decide
  obtain ⟨init, rfl⟩ : ∃ init, kept = init ++ [last] := by
    obtain ⟨init, hinit⟩ := List.getLast?_eq_some_iff.mp hlast
    exact ⟨init, hinit⟩
  obtain ⟨kind, stretch⟩ := last
  cases kind with
  | doc inside =>
    have hinit : ∀ t ∈ init, t.kind ≠ .keyword := fun t ht => hkeyword t (List.mem_append_left _ ht)
    have hfirst : first? (HeadToken.tokens (text ++ '\n' :: "component".toList)) =
        some ⟨some (⟨.doc inside, stretch⟩, inside), none,
          HeadToken.shift (text.length + 1) ⟨.keyword, 0, 9, Nat.zero_le _⟩⟩ := by
      rw [show '\n' :: "component".toList = '\n' :: ([] ++ "component".toList) from rfl, htokens,
        hname, List.append_assoc, List.singleton_append, first?_append hinit (by simp) (by simp)
          (by simp)]
      simp [first?, atFirst?, hblank, withoutDoc?, HeadToken.shift, Kind.shift]
    rw [find?, hfirst]
    exact Option.some_ne_none inside
  | _ => exact absurd hdoc Bool.false_ne_true

end Behind

/-- **What does not change the head behind it.** A text that a line break follows leaves the head of
every text behind it as it is, but for its place, exactly if it declares nothing, closes each
documentation block that it opens, and does not end in a documentation block and white space. -/
theorem find?_behind_iff (text : List Char) :
    (∀ rest, find? (text ++ '\n' :: rest) = (find? rest).map (·.shift (text.length + 1))) ↔
      IsInert text := by
  obtain ⟨front, back, kept, hcut, hback⟩ := exists_cut 0 text
  rcases hback with hback | hback
  · rw [isInert_iff_of_cut hcut hback]
    constructor
    · intro heq
      have hkeyword := noKeyword_of_find?_eq hcut (heq [])
      refine ⟨hkeyword, ?_⟩
      intro last hlast
      by_contra hdoc
      apply find?_bind_doc hcut hback hkeyword hlast (by simpa using hdoc)
      have hfind : find? "component".toList
          = some ⟨0, 9, ⟨0, "component".toList⟩, .script, none⟩ := by rfl
      rw [heq, hfind]
      rfl
    · rintro ⟨hkeyword, hapart⟩
      exact find?_of_cut hcut hback hkeyword hapart
  · refine iff_of_false ?_ (not_isInert_of_opensDoc hcut hback)
    intro heq
    have hkeyword := noKeyword_of_find?_eq hcut (heq [])
    have hnone : find? (text ++ '\n' :: "component*/".toList) = none := by
      rw [find?, Option.map_eq_none_iff, first?_eq_none_iff]
      intro t ht
      have htokens := hcut.tokens ('\n' :: "component*/".toList) (by simp)
      rw [show HeadToken.tokens _ = tokensFrom 0 _ from rfl, htokens] at ht
      rcases List.mem_append.mp ht with ht | ht
      · exact hkeyword t ht
      · exact tokensFrom_openDoc hback t ht
    rw [heq] at hnone
    exact absurd (Option.map_eq_none_iff.mp hnone) (by decide)

/-- A comment between delimiters is inert as a rule, but not the shortest one, which opens a
documentation block. -/
example : IsInert "/* About the shop. */".toList :=
  ⟨by decide, by decide, by decide⟩

example : ¬ IsInert "/**/".toList :=
  fun h => absurd h.closed (by decide)

end ComponentHead

end Cfml
