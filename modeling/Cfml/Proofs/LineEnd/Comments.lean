/-
The same tags and comments, however lines end.

The patterns of tags and comments are put together from steps that correspond, so what they find
has the same spans in both texts. The scan of comments is followed by the lexer that jumps: a jump
over a comment or a string literal is one over the corresponding characters
(`JumpLexer.comments_restyle`). What is blanked out then corresponds as well, and the texts without
their comments differ in their line endings alone (`Source.Restyled.withoutComments`).
-/
import Cfml.Proofs.Comment.Blanked
import Cfml.Proofs.LineEnd.Reading

set_option autoImplicit false

namespace Cfml

/-! ## Patterns that find out nothing -/

namespace Reader

variable {p : Char → Bool} {r later : Reader}

theorem one?_eq_none_of_lineBreak (hp : sparesBreaks p = true)
    (h : r.ahead.head?.any isLineBreak = true) : r.one? p = none := by
  obtain ⟨hreturn, hfeed⟩ := sparesBreaks_iff.mp hp
  apply one?_eq_none
  cases hhead : r.ahead.head? with
  | none => rfl
  | some c =>
    rw [hhead] at h
    rcases Bool.or_eq_true_iff.mp h with heq | heq
    · obtain rfl := beq_iff_eq.mp heq
      exact hreturn
    · obtain rfl := beq_iff_eq.mp heq
      exact hfeed

theorem literal?_eq_none_of_lineBreak {c : Char} {word : List Char} (hc : isLineBreak c = false)
    (h : r.ahead.head?.any isLineBreak = true) : r.literal? (c :: word) = none := by
  rw [literal?, List.foldlM_cons, one?_eq_none_of_lineBreak (sparesBreaks_beq hc) h]
  rfl

theorem one?_advances (h : r.one? p = some later) : r.offset < later.offset := by
  obtain ⟨c, rest, -, -, rfl⟩ := one?_eq_some_iff.mp h
  exact Nat.lt_succ_self _

theorem literal?_advances {c : Char} {word : List Char} (h : r.literal? (c :: word) = some later) :
    r.offset < later.offset := by
  obtain ⟨rest, -, rfl⟩ := literal?_eq_some_iff.mp h
  rw [offset_passing, List.length_cons]
  omega

end Reader

variable {e : LineEnd} {text name : List Char} {r r' later : Reader}

theorem Pattern.restyles_plain {read : Reader → Option Reader}
    (forward : ∀ {r later : Reader}, read r = some later → r.Reaches later)
    (hread : ∀ {r r' : Reader}, r.Restyled e text r' →
      Option.Rel (Reader.Restyled e text) (read r) (read r'))
    (hbreak : ∀ {r : Reader}, r.ahead.head?.any isLineBreak = true → read r = none)
    (hadvances : ∀ {r later : Reader}, read r = some later → r.offset < later.offset) :
    (Pattern.plain read forward).Restyles e text fun _ _ => True where
  read h := rel_map (hread h) fun _ _ hlater => ⟨trivial, hlater⟩
  read_lineBreak h := congrArg (Option.map fun later => ((), later)) (hbreak h)
  advances h := hadvances (Pattern.read_plain forward h)

theorem Pattern.restyles_literal {c : Char} {word : List Char}
    (hword : ∀ d ∈ c :: word, isLineBreak d = false) :
    (Pattern.literal (c :: word)).Restyles e text fun _ _ => True :=
  restyles_plain _ (fun h => rel_imp (h.literal? hword) fun _ _ hstep => h.step hstep)
    (Reader.literal?_eq_none_of_lineBreak (hword c List.mem_cons_self)) Reader.literal?_advances

/-! ## Tags -/

namespace Tag

theorem closing?_restyled (hname : ∀ c ∈ name, isLineBreak c = false)
    (h : r.Restyled e text r') :
    Option.Rel (Reader.Restyled e text) (closing? name r) (closing? name r') := by
  apply rel_bind (h.literal? (by decide))
  intro behindSlash behindSlash' hslash
  have hslash := h.step hslash
  apply rel_bind (hslash.caseless? hname)
  intro behindName behindName' hcaseless
  have hblanks := (hslash.step hcaseless).skipWhile (p := isBlank) (by decide)
  exact rel_imp (hblanks.one? (by decide)) fun _ _ hstep => hblanks.step hstep

theorem opening?_restyled (hname : ∀ c ∈ name, isLineBreak c = false)
    (h : r.Restyled e text r') :
    Option.Rel (Reader.Restyled e text) (opening? name r) (opening? name r') := by
  apply rel_bind (h.one? (by decide))
  intro behindBracket behindBracket' hbracket
  have hbracket := h.step hbracket
  apply rel_bind (hbracket.caseless? hname)
  intro behindName behindName' hcaseless
  have hbehind := hbracket.step hcaseless
  rw [hbehind.atWordBoundary_eq]
  split
  · exact .some hbehind
  · exact .none

theorem restyles_closing (hname : ∀ c ∈ name, isLineBreak c = false) :
    (closing name).Restyles e text fun _ _ => True := by
  apply Pattern.restyles_plain _ (closing?_restyled hname)
  · intro r h
    rw [closing?, Reader.literal?_eq_none_of_lineBreak (by decide) h]
    rfl
  · intro r later h
    simp only [closing?, Option.bind_eq_bind, Option.bind_eq_some_iff] at h
    obtain ⟨behindSlash, hslash, behindName, hname, hclose⟩ := h
    have hbehind := ((Reader.caseless?_reaches hname).trans behindName.blanks_reaches).trans
      (Reader.one?_reaches hclose)
    exact Nat.lt_of_lt_of_le (Reader.literal?_advances hslash) hbehind.offset_le

/-- The parts of a pair correspond. -/
def PartsRestyled (e : LineEnd) (text : List Char) (parts parts' : TagParts) : Prop :=
  parts'.attributes = e.stretch text parts.attributes ∧ parts'.body = e.stretch text parts.body

theorem takeWhile_restyled {p : Char → Bool} (hp : p '\r' = p '\n') (h : r.Restyled e text r') :
    (r'.takeWhile p).1.stretch = e.stretch text (r.takeWhile p).1.stretch ∧
      (r.takeWhile p).2.Restyled e text (r'.takeWhile p).2 := by
  have hlater := h.skipWhile hp
  -- what is captured ends where the reader goes on
  have hstop : ∀ r : Reader, (r.takeWhile p).1.stop = (r.skipWhile p).offset := by
    intro r
    rw [Reader.skipWhile_eq]
    rfl
  refine ⟨Stretch.ends_inj _ _ (Prod.ext h.offset ?_), hlater⟩
  exact (hstop r').trans (hlater.offset.trans (congrArg _ (hstop r).symm))

theorem pair?_restyled (hname : ∀ c ∈ name, isLineBreak c = false) (h : r.Restyled e text r') :
    Option.Rel (fun found found' => PartsRestyled e text found.1 found'.1 ∧
        found.2.Restyled e text found'.2) (pair? name r) (pair? name r') := by
  apply rel_bind (opening?_restyled hname h)
  intro behindName behindName' hopening
  obtain ⟨hattributes, hbehind⟩ := takeWhile_restyled (p := (· != '>')) (by decide) hopening
  apply rel_bind (hbehind.one? (by decide))
  intro behindTag behindTag' htag
  have hbehindTag := hbehind.step htag
  apply rel_bind (hbehindTag.through? (restyles_closing hname))
  rintro ⟨body, last⟩ ⟨body', last'⟩ ⟨hbody, hlast⟩
  exact .some ⟨⟨hattributes, hbody⟩, hlast⟩

theorem restyles_pair (hname : ∀ c ∈ name, isLineBreak c = false) :
    (pair name).Restyles e text (PartsRestyled e text) where
  read h := pair?_restyled hname h
  read_lineBreak h := by
    simp only [pair, pair?, opening?, Option.bind_eq_bind]
    rw [Reader.one?_eq_none_of_lineBreak (by decide) h]
    rfl
  advances := by
    intro r later value h
    simp only [pair, pair?, Option.bind_eq_bind, Option.bind_eq_some_iff, Prod.exists] at h
    obtain ⟨behindName, hopening, behindTag, htag, _, _, hbody, heq⟩ := h
    obtain ⟨-, rfl⟩ := by simpa using heq
    have hattributes := behindName.takeWhile_reaches (· != '>')
    have hle := ((opening?_reaches hopening).trans hattributes).offset_le
    have hlt := Reader.one?_advances htag
    have hle' := (Reader.through?_reaches hbody).offset_le
    omega

end Tag

theorem map_eq_of_forall₂ {α β γ : Type} {R : α → β → Prop} {f : α → γ} {g : β → γ} {xs : List α}
    {ys : List β} (h : List.Forall₂ R xs ys) (hvalue : ∀ a b, R a b → g b = f a) :
    ys.map g = xs.map f := by
  induction h with
  | nil => rfl
  | cons hab _ ih => rw [List.map_cons, List.map_cons, hvalue _ _ hab, ih]

namespace Source

variable {src src' : Source} {α : Type} {R : α → α → Prop} {pattern : Pattern α}

theorem Restyled.reader (h : src.Restyled e src') {start stop : Nat} (hle : start ≤ stop) :
    (src.reader start stop).Restyled e src.text
      (src'.reader (e.offset src.text start) (e.offset src.text stop)) where
  ahead := h.slice_eq hle
  offset := rfl
  inside := List.take_prefix _ _
  before _ _ := rfl

theorem Restyled.occurrencesIn (h : src.Restyled e src') (within : Option Span)
    (hpattern : pattern.Restyles e src.text R) :
    List.Forall₂ (fun o o' => o'.stretch = e.stretch src.text o.stretch ∧ R o.value o'.value)
      (src.occurrencesIn within pattern) (src'.occurrencesIn within pattern) := by
  unfold Source.occurrencesIn
  rw [h.bounds_eq]
  exact occurrences_restyled hpattern (h.reader (src.isExtent_bounds within).start_le_stop)

/-- **The tags are the same.** -/
theorem Restyled.tags_eq (h : src.Restyled e src') (hname : ∀ c ∈ name, isLineBreak c = false)
    (within : Option Span) : src'.tags name within = src.tags name within := by
  apply map_eq_of_forall₂ (h.occurrencesIn within (Tag.restyles_pair hname))
  rintro o o' ⟨hstretch, hattributes, hbody⟩
  rw [hstretch, hattributes, hbody, h.spanOf_eq, h.spanOf_eq, h.spanOf_eq]

end Source

/-! ## Comments that the patterns find -/

namespace CommentPattern

theorem restyles_block {a b : Char} {opener closer : List Char}
    (hopener : ∀ c ∈ a :: opener, isLineBreak c = false)
    (hcloser : ∀ c ∈ b :: closer, isLineBreak c = false) :
    (Pattern.plain (block? (a :: opener) (b :: closer)) block?_reaches).Restyles e text
      fun _ _ => True := by
  apply Pattern.restyles_plain
  · intro r r' h
    apply rel_bind (h.literal? hopener)
    intro inside inside' hinside
    have hthrough := (h.step hinside).through? (Pattern.restyles_literal hcloser)
    exact rel_bind hthrough fun _ _ hlater => .some hlater.2
  · intro r h
    rw [block?, Reader.literal?_eq_none_of_lineBreak (hopener a List.mem_cons_self) h]
    rfl
  · intro r later h
    simp only [block?, Option.bind_eq_bind, Option.bind_eq_some_iff, Prod.exists] at h
    obtain ⟨inside, hinside, _, _, hthrough, heq⟩ := h
    obtain rfl := Option.some.inj heq
    exact Nat.lt_of_lt_of_le (Reader.literal?_advances hinside)
      (Reader.through?_reaches hthrough).offset_le

theorem restyles_scriptLine :
    (Pattern.plain scriptLine? scriptLine?_reaches).Restyles e text fun _ _ => True := by
  apply Pattern.restyles_plain
  · intro r r' h
    apply rel_bind (h.literal? (by decide))
    intro inside inside' hinside
    exact .some ((h.step hinside).skipWhile (by decide))
  · intro r h
    rw [scriptLine?, Reader.literal?_eq_none_of_lineBreak (by decide) h]
    rfl
  · intro r later h
    simp only [scriptLine?, Option.bind_eq_bind, Option.bind_eq_some_iff] at h
    obtain ⟨inside, hinside, heq⟩ := h
    obtain rfl := Option.some.inj heq
    exact Nat.lt_of_lt_of_le (Reader.literal?_advances hinside)
      (inside.skipWhile_reaches _).offset_le

theorem restyles_ofDialect (dialect : Dialect) :
    ∀ pattern ∈ ofDialect dialect, pattern.Restyles e text fun _ _ => True := by
  cases dialect with
  | script =>
    rw [ofDialect, List.forall_mem_cons, List.forall_mem_singleton]
    exact ⟨restyles_block (by decide) (by decide), restyles_scriptLine⟩
  | tag =>
    rw [ofDialect, List.forall_mem_singleton]
    exact restyles_block (by decide) (by decide)

end CommentPattern

/-! ## Comments that the scan finds -/

namespace JumpLexer

variable {t rest : List Char}

/-- A line break is never the beginning of a delimiter. -/
theorem distance?_append_breaks {delimiter : List Char} (hne : delimiter ≠ [])
    (hdelimiter : ∀ c ∈ delimiter, isLineBreak c = false) (breaks : List Char)
    (hbreaks : ∀ c ∈ breaks, isLineBreak c = true) (rest : List Char) :
    distance? delimiter (breaks ++ rest) =
      (distance? delimiter rest).map (· + breaks.length) := by
  induction breaks with
  | nil => simp
  | cons c breaks ih =>
    obtain ⟨hc, hbreaks⟩ := List.forall_mem_cons.mp hbreaks
    have hnot : delimiter.isPrefixOf (c :: (breaks ++ rest)) = false := by
      obtain ⟨d, delimiter, rfl⟩ := List.exists_cons_of_ne_nil hne
      have hd := hdelimiter d List.mem_cons_self
      have hdc := (ne_of_isLineBreak hc hd).symm
      simp [List.isPrefixOf, hdc]
    rw [List.cons_append, distance?, hnot, ih hbreaks, Option.map_map]
    rfl

theorem distance?_restyle {delimiter : List Char} (hne : delimiter ≠ [])
    (hdelimiter : ∀ c ∈ delimiter, isLineBreak c = false) (rest : List Char) :
    distance? delimiter (e.restyle rest) = (distance? delimiter rest).map (e.offset rest) := by
  induction rest with
  | nil => rfl
  | cons c rest ih =>
    by_cases hc : c = '\n'
    · subst hc
      have hfeed := distance?_append_breaks hne hdelimiter ['\n'] (by decide) rest
      rw [List.singleton_append] at hfeed
      rw [e.restyle_feed_cons, hfeed,
        distance?_append_breaks hne hdelimiter e.text e.isLineBreak_of_mem_text, ih, Option.map_map,
        Option.map_map]
      congr 1
      funext n
      exact (Nat.add_comm _ _).trans (e.offset_feed_cons rest n).symm
    · have hstands := e.prefix_restyle_iff hdelimiter (c :: rest)
      rw [e.restyle_cons hc] at hstands ⊢
      rw [distance?, distance?]
      by_cases hhere : delimiter <+: c :: rest
      · rw [if_pos (List.isPrefixOf_iff_prefix.mpr hhere),
          if_pos (List.isPrefixOf_iff_prefix.mpr (hstands.mpr hhere))]
        rfl
      · rw [if_neg fun h => hhere (List.isPrefixOf_iff_prefix.mp h),
          if_neg fun h => hhere (hstands.mp (List.isPrefixOf_iff_prefix.mp h)), ih, Option.map_map,
          Option.map_map]
        congr 1
        funext n
        exact (e.offset_cons hc rest n).symm

theorem through_restyle {closer : List Char} (hne : closer ≠ [])
    (hcloser : ∀ c ∈ closer, isLineBreak c = false) (rest : List Char) :
    through closer (e.restyle rest) = e.offset rest (through closer rest) := by
  have hfeed : '\n' ∉ closer := fun hmem => absurd (hcloser _ hmem) (by decide)
  rw [through, through, distance?_restyle hne hcloser]
  cases hdistance : distance? closer rest with
  | none => exact (e.offset_length rest).symm
  | some n =>
    have hstands := ((distance?_eq_some_iff hne).mp hdistance).1
    rw [e.offset_add_of_prefix hstands, e.restyle_of_notMem hfeed]
    rfl

theorem toLineEnd_restyle (rest : List Char) :
    toLineEnd (e.restyle rest) = e.offset rest (toLineEnd rest) := by
  have htake := (e.takeWhile_restyle (p := (!isLineBreak ·)) (by decide) rest).1
  have hstands := List.takeWhile_prefix (!isLineBreak ·) (l := rest)
  rw [toLineEnd, htake, LineEnd.offset, toLineEnd, ← List.prefix_iff_eq_take.mp hstands]

theorem literal_append_breaks {quote : Char} (hquote : isLineBreak quote = false)
    (breaks : List Char) (hbreaks : ∀ c ∈ breaks, isLineBreak c = true) (odd : Bool)
    (rest : List Char) :
    literal quote odd (breaks ++ rest) = literal quote odd rest + breaks.length := by
  induction breaks with
  | nil => rfl
  | cons c breaks ih =>
    obtain ⟨hc, hbreaks⟩ := List.forall_mem_cons.mp hbreaks
    have hne : ∀ d, isLineBreak d = false → (c == d) = false := fun d hd =>
      beq_eq_false_iff_ne.mpr (ne_of_isLineBreak hc hd)
    rw [List.cons_append, literal, hne quote hquote, hne '#' (by decide)]
    simp only [Bool.false_and, Bool.false_eq_true, if_false]
    rw [ih hbreaks]
    rfl

theorem literal_restyle {quote : Char} (hquote : isLineBreak quote = false) (odd : Bool)
    (rest : List Char) :
    literal quote odd (e.restyle rest) = e.offset rest (literal quote odd rest) := by
  induction rest generalizing odd with
  | nil => rfl
  | cons c rest ih =>
    by_cases hc : c = '\n'
    · subst hc
      have hfeed := literal_append_breaks hquote ['\n'] (by decide) odd rest
      rw [List.singleton_append] at hfeed
      rw [e.restyle_feed_cons, literal_append_breaks hquote e.text e.isLineBreak_of_mem_text, hfeed,
        ih]
      exact (Nat.add_comm _ _).trans (e.offset_feed_cons rest _).symm
    · rw [e.restyle_cons hc, literal, literal]
      split
      · rw [e.offset_cons hc]
        rfl
      · rw [e.offset_cons hc, ih]

theorem toEnd_restyle {dialect : Dialect} {form : CommentForm} (hform : form ∈ dialect.comments)
    (rest : List Char) : toEnd form (e.restyle rest) = e.offset rest (toEnd form rest) := by
  unfold toEnd
  cases hkind : form.kind with
  | line => exact toLineEnd_restyle rest
  | block =>
    have hcloser : ∀ c ∈ form.closer, isLineBreak c = false := by
      have hall : ∀ dialect : Dialect, ∀ form ∈ dialect.comments, ∀ c ∈ form.closer,
          isLineBreak c = false := by
        rintro (_ | _) <;> decide
      exact hall dialect form hform
    exact through_restyle (CommentScan.closer_ne_nil hform hkind) hcloser rest

theorem isLineBreak_of_mem_opener {dialect : Dialect} {form : CommentForm}
    (hform : form ∈ dialect.comments) : ∀ c ∈ form.opener, isLineBreak c = false := by
  have hall : ∀ dialect : Dialect, ∀ form ∈ dialect.comments, ∀ c ∈ form.opener,
      isLineBreak c = false := by
    rintro (_ | _) <;> decide
  exact hall dialect form hform

theorem isLineBreak_of_isQuote {quote : Char} (h : isQuote quote = true) :
    isLineBreak quote = false := by
  rcases Bool.or_eq_true_iff.mp h with heq | heq
  · obtain rfl := beq_iff_eq.mp heq
    decide
  · obtain rfl := beq_iff_eq.mp heq
    decide

/-- **The lexer finds corresponding comments.** The induction follows its rules: each of them takes
corresponding stretches of the two texts. -/
theorem comments_restyle (dialect : Dialect) {t : List Char} {o : Nat} (h : t <+: text.drop o) :
    comments dialect (e.offset text o) (e.restyle t) =
      (comments dialect o t).map (e.stretch text) := by
  induction t using rule_induction dialect generalizing o with
  | nil => simp
  | comment form hform rest ih =>
    have hfeed : '\n' ∉ form.opener := fun hmem =>
      absurd (isLineBreak_of_mem_opener hform _ hmem) (by decide)
    have hfront : form.opener ++ rest.take (toEnd form rest) ++ rest.drop (toEnd form rest) <+:
        text.drop o := by
      rwa [List.append_assoc, List.take_append_drop]
    have hlength : (form.opener ++ rest.take (toEnd form rest)).length =
        form.opener.length + toEnd form rest := by
      rw [List.length_append, List.length_take, Nat.min_eq_left (toEnd_le_length form rest)]
    have hstop := e.offset_add_of_prefix ((List.prefix_append _ _).trans hfront)
    have hbehind := prefix_drop_add hfront
    rw [hlength] at hstop hbehind
    rw [e.restyle_append, e.restyle_of_notMem hfeed, List.length_append] at hstop
    rw [e.restyle_append, e.restyle_of_notMem hfeed, comments_form hform, comments_form hform,
      toEnd_restyle hform, e.drop_restyle, List.map_cons, ← ih hbehind]
    simp only [LineEnd.stretch, hstop]
    rfl
  | string quote rest hscript hquote ih =>
    subst hscript
    have hbreak := isLineBreak_of_isQuote hquote
    have hfront : quote :: rest.take (literal quote false rest) ++
        rest.drop (literal quote false rest) <+: text.drop o := by
      rwa [List.cons_append, List.take_append_drop]
    have hlength : (quote :: rest.take (literal quote false rest)).length =
        1 + literal quote false rest := by
      rw [List.length_cons, List.length_take, Nat.min_eq_left (literal_le_length quote false rest),
        Nat.add_comm]
    have hne := (isLineBreak_eq_false_iff.mp hbreak).2
    have hbehind := prefix_drop_add hfront
    have hstop : e.offset text (o + 1 + literal quote false rest) =
        e.offset text o + 1 + e.offset rest (literal quote false rest) := by
      have hadd := e.offset_add_of_prefix ((List.prefix_append _ _).trans hfront)
      rw [hlength, ← Nat.add_assoc, e.restyle_cons hne] at hadd
      rw [hadd, List.length_cons, LineEnd.offset.eq_def e rest]
      omega
    rw [hlength, ← Nat.add_assoc] at hbehind
    rw [e.restyle_cons hne, CommentScan.comments_quote hquote, CommentScan.comments_quote hquote,
      literal_restyle hbreak, e.drop_restyle, ← ih hbehind, hstop]
  | code c rest hquote hnone ih =>
    have hbehind := ih (prefix_drop_succ h)
    rw [CommentScan.comments_cons o rest hquote hnone, ← hbehind]
    by_cases hc : c = '\n'
    · subst hc
      exact e.pass_feed (fun i _ rest hbreak => CommentScan.comments_lineBreak hbreak i rest) h
    · have hnone' : ∀ form ∈ dialect.comments, ¬ form.opener <+: c :: e.restyle rest := by
        intro form hform
        rw [← e.restyle_cons hc, e.prefix_restyle_iff (isLineBreak_of_mem_opener hform)]
        exact hnone form hform
      rw [e.offset_succ_of_prefix h, e.restyle_cons hc, e.restyle_cons hc,
        CommentScan.comments_cons _ _ hquote hnone']
      rfl

end JumpLexer

/-! ## Comments of a source -/

namespace Source

variable {src src' : Source}

theorem Restyled.matchedComments_eq (h : src.Restyled e src') (dialect : Dialect)
    (within : Option Span) :
    src'.matchedComments dialect within = src.matchedComments dialect within := by
  unfold matchedComments
  apply List.flatMap_congr
  intro pattern hpattern
  apply map_eq_of_forall₂
    (h.occurrencesIn within (CommentPattern.restyles_ofDialect dialect pattern hpattern))
  rintro o o' ⟨hstretch, -⟩
  rw [hstretch, h.spanOf_eq]

theorem Restyled.scannedComments_eq (h : src.Restyled e src') (dialect : Dialect)
    (within : Option Span) :
    src'.scannedComments dialect within = src.scannedComments dialect within := by
  have hle := (src.isExtent_bounds within).start_le_stop
  have hinside : src.slice (src.bounds within).1 (src.bounds within).2 <+:
      src.text.drop (src.bounds within).1 := List.take_prefix _ _
  unfold scannedComments
  rw [h.bounds_eq]
  simp only
  rw [h.slice_eq hle, scanComments_eq_comments, scanComments_eq_comments,
    JumpLexer.comments_restyle dialect hinside, List.map_map]
  apply List.map_congr_left
  intro s _
  exact h.spanOf_eq s

theorem Restyled.embeddedSpans_eq (h : src.Restyled e src') (within : Option Span)
    (dialect : Dialect) : src'.embeddedSpans within dialect = src.embeddedSpans within dialect := by
  cases dialect with
  | script => rfl
  | tag =>
    rw [embeddedSpans, embeddedSpans, cfscriptSpans, cfscriptSpans, h.tags_eq (by decide)]

/-- **The comments are the same**, whichever way one looks for them. -/
theorem Restyled.comments_eq (h : src.Restyled e src') (dialect : Dialect) (within : Option Span)
    (fast : Bool) : src'.comments dialect within fast = src.comments dialect within fast := by
  have hmatched : ∀ dialect, src'.matchedComments dialect = src.matchedComments dialect :=
    fun dialect => funext (h.matchedComments_eq dialect)
  have hscanned : ∀ dialect, src'.scannedComments dialect = src.scannedComments dialect :=
    fun dialect => funext (h.scannedComments_eq dialect)
  rw [comments, comments, commentsFast, commentsFast, commentsAccurate, commentsAccurate,
    h.embeddedSpans_eq]
  simp only [hmatched, hscanned]

/-! ## Without comments -/

/-- A character lies in a stretch if the corresponding one lies in the corresponding stretch. -/
theorem holds_stretch (s : Stretch) {o : Nat} (h : o < text.length) :
    (e.stretch text s).holds (e.offset text o) = s.holds o := by
  rw [Bool.eq_iff_iff, Stretch.holds_iff, Stretch.holds_iff, ← Nat.not_lt, ← Nat.not_lt]
  exact and_congr (not_congr (e.offset_lt_iff h)) (e.offset_lt_iff h)

theorem blankOut_append_breaks (stretches : List Stretch) {breaks : List Char}
    (hbreaks : ∀ c ∈ breaks, isLineBreak c = true) (offset : Nat) (rest : List Char) :
    blankOut stretches offset (breaks ++ rest) =
      breaks ++ blankOut stretches (offset + breaks.length) rest := by
  induction breaks generalizing offset with
  | nil => rfl
  | cons c breaks ih =>
    obtain ⟨hc, hbreaks⟩ := List.forall_mem_cons.mp hbreaks
    rw [List.cons_append, blankOut, hc, ih hbreaks, List.length_cons, Nat.add_assoc,
      Nat.add_comm 1]
    rfl

/-- **What is blanked out corresponds.** -/
theorem blankOut_restyle (stretches : List Stretch) {t : List Char} {o : Nat}
    (h : t <+: text.drop o) :
    blankOut (stretches.map (e.stretch text)) (e.offset text o) (e.restyle t) =
      e.restyle (blankOut stretches o t) := by
  induction t generalizing o with
  | nil => rfl
  | cons c rest ih =>
    have hstop := e.offset_succ_of_prefix h
    have hbehind := ih (prefix_drop_succ h)
    rw [hstop] at hbehind
    by_cases hc : c = '\n'
    · subst hc
      rw [e.restyle_singleton] at hbehind
      rw [e.restyle_feed_cons, blankOut_append_breaks _ e.isLineBreak_of_mem_text, hbehind]
      rfl
    · have hlt : o < text.length := by
        have hle := h.length_le
        rw [List.length_cons, List.length_drop] at hle
        omega
      have hany : (stretches.map (e.stretch text)).any (·.holds (e.offset text o)) =
          stretches.any (·.holds o) := by
        rw [List.any_map]
        congr 1
        funext s
        exact holds_stretch s hlt
      rw [e.restyle_cons hc, e.restyle_nil, List.length_singleton] at hbehind
      rw [e.restyle_cons hc, blankOut, blankOut, hany, hbehind]
      split
      · exact (e.restyle_cons (by decide) _).symm
      · exact (e.restyle_cons hc _).symm

/-- **The texts without their comments differ in their line endings alone.** -/
theorem Restyled.withoutComments (h : src.Restyled e src') (dialect : Dialect) (fast : Bool) :
    (src.withoutComments dialect fast).Restyled e (src'.withoutComments dialect fast) where
  text_eq := by
    have hstretches : (src'.comments dialect none fast).map src'.stretchOf =
        ((src.comments dialect none fast).map src.stretchOf).map (e.stretch src.text) := by
      rw [h.comments_eq, List.map_map]
      exact List.map_congr_left fun s _ => h.stretchOf_eq s
    have hblank := blankOut_restyle (e := e) (o := 0)
      ((src.comments dialect none fast).map src.stretchOf) (List.prefix_refl src.text)
    rwa [← hstretches, ← h.text_eq, e.offset_zero] at hblank
  notMem hmem := h.notMem ((sameBreaks_withoutComments src dialect fast).mem rfl hmem)

end Source

end Cfml
