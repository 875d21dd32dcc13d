/-
Script without strings: the fast way to look for comments and the accurate one.

The fast way sweeps the text once for each form of comment and drops what overlaps. In a text
without quotes every opening delimiter stands in a comment of the scan or begins one, so what a
sweep finds begins in a comment of the scan, and only that comment can keep it from being dropped
(`Spans.normalize_eq_of_beginsIn`). What can still go wrong is that a sweep misses a comment of its
own form. That happens where the comment is not closed, and where the sweep found a delimiter inside
a comment of the other form and read on from there into the comment (`comments_fast_eq_iff`).
-/
import Cfml.Proofs.Comment.Blanked

set_option autoImplicit false

namespace Cfml

open JumpLexer

/-! ## One sweep -/

namespace CommentPattern

/-- The pattern that the fast way looks for to find the script comments of a form. -/
def ofForm (form : CommentForm) : Pattern Unit :=
  match form.kind with
  | .line => .plain scriptLine? scriptLine?_reaches
  | .block => .plain (block? form.opener form.closer) block?_reaches

/-- There is one sweep for each form. -/
theorem ofDialect_script : ofDialect .script = [ofForm .scriptBlock, ofForm .scriptLine] := rfl

variable {form : CommentForm} {r later : Reader}

/-- A comment is read where its opening delimiter stands, if it is not one that has to be closed and
is not. It goes as far as it goes for the scan. -/
theorem read_ofForm_iff (hform : form ∈ Dialect.script.comments) :
    (ofForm form).read r = some ((), later) ↔
      ∃ rest, r.ahead = form.opener ++ rest ∧ (form.kind = .block → form.closer <:+: rest) ∧
        later = r.passing (form.opener ++ rest.take (toEnd form rest))
          (rest.drop (toEnd form rest)) := by
  have hcases : form = .scriptLine ∨ form = .scriptBlock := by
    simpa [Dialect.comments] using hform
  rcases hcases with rfl | rfl
  · have hline : (ofForm .scriptLine).read r = some ((), later) ↔ scriptLine? r = some later :=
      Pattern.read_plain_iff scriptLine?_reaches
    rw [hline, scriptLine?_eq_some_iff]
    simp [CommentForm.scriptLine, toEnd]
  · have hblock : (ofForm .scriptBlock).read r = some ((), later) ↔
        block? ['/', '*'] ['*', '/'] r = some later := Pattern.read_plain_iff block?_reaches
    rw [hblock, block?_eq_some_iff (List.cons_ne_nil _ _)]
    simp [CommentForm.scriptBlock, toEnd]

end CommentPattern

/-! ## Without quotes -/

/-- In a text without quotes an opening delimiter that begins no comment stands in one. -/
theorem JumpLexer.exists_comment_of_opener {form : CommentForm} {offset : Nat} {text : List Char}
    (hquotes : ∀ c ∈ text, isQuote c = false) (hform : form ∈ Dialect.script.comments) {m : Stretch}
    (hm : form.IsWritten offset text m) :
    ∃ c ∈ comments .script offset text, c.start ≤ m.start ∧ m.start < c.stop := by
  induction text using rule_induction .script generalizing offset with
  | nil =>
    obtain ⟨passed, rest, htext, -, -⟩ := hm
    have hpos := opener_length_pos hform
    have hlength := congrArg List.length htext
    simp only [List.length_append, List.length_nil] at hlength
    omega
  | comment first hfirst rest ih =>
    have hle := toEnd_le_length first rest
    have hstart := hm.le_start
    rw [comments_form hfirst]
    by_cases hin : m.start < offset + (first.opener.length + toEnd first rest)
    · exact ⟨_, List.mem_cons_self, hstart, hin⟩
    -- it is written behind the first comment
    · have hsplit : first.opener ++ rest
          = (first.opener ++ rest.take (toEnd first rest)) ++ rest.drop (toEnd first rest) := by
        rw [List.append_assoc, List.take_append_drop]
      have hlength : (first.opener ++ rest.take (toEnd first rest)).length
          = first.opener.length + toEnd first rest := by
        rw [List.length_append, List.length_take, Nat.min_eq_left hle]
      rw [hsplit] at hm
      have hbehind := hm.behind (by rw [hlength]; omega)
      rw [hlength] at hbehind
      have hquotes' : ∀ c ∈ rest.drop (toEnd first rest), isQuote c = false := by
        intro c hc
        exact hquotes c (List.mem_append_right _ (List.mem_of_mem_drop hc))
      obtain ⟨c, hc, hcomment⟩ := ih hquotes' hbehind
      exact ⟨c, List.mem_cons_of_mem _ hc, hcomment⟩
  | string quote rest hscript hquote ih =>
    rw [hquotes quote List.mem_cons_self] at hquote
    exact absurd hquote (by decide)
  | code d rest hquote hnone ih =>
    rw [CommentScan.comments_cons offset rest hquote hnone]
    have hquotes' : ∀ c ∈ rest, isQuote c = false := by
      intro c hc
      exact hquotes c (List.mem_cons_of_mem d hc)
    -- no delimiter begins with the first character
    have hne : offset + [d].length ≤ m.start := by
      obtain ⟨passed, back, htext, hstart, -⟩ := hm
      rw [hstart, List.length_singleton]
      by_cases hempty : passed = []
      · rw [hempty, List.nil_append] at htext
        exact absurd (htext ▸ List.prefix_append _ _) (hnone form hform)
      · have := List.length_pos_of_ne_nil hempty
        omega
    have hsplit : d :: rest = [d] ++ rest := rfl
    rw [hsplit] at hm
    exact ih hquotes' (hm.behind hne)

/-! ## All sweeps -/

namespace CommentPattern

variable {form form' : CommentForm} {text : List Char} {m c : Stretch}

/-- What the fast way finds of a form of script comment in a text, nothing dropped. -/
def sweep (form : CommentForm) (text : List Char) : List Stretch :=
  (occurrences (ofForm form) (Reader.ofText text 0)).map Occurrence.stretch

/-- There is a closing delimiter behind the opening one, if the form has one. -/
def ClosesBehind (form : CommentForm) (text : List Char) (start : Nat) : Prop :=
  form.kind = .block → form.closer <:+: text.drop (start + form.opener.length)

theorem isWritten_of_mem_sweep (hform : form ∈ Dialect.script.comments) (h : m ∈ sweep form text) :
    form.IsWritten 0 text m ∧ ClosesBehind form text m.start := by
  obtain ⟨o, ho, rfl⟩ := List.mem_map.mp h
  obtain ⟨passed, back, later, hahead, -, hstart, hread, hstop⟩ := isRead_of_mem_occurrences ho
  obtain ⟨rest, hback, hclosed, hlater⟩ := (read_ofForm_iff hform).mp hread
  have htext : text = passed ++ (form.opener ++ rest) := by
    rw [← (show back = form.opener ++ rest from hback)]
    exact hahead
  have hle := toEnd_le_length form rest
  refine ⟨⟨passed, rest, htext, hstart, ?_⟩, ?_⟩
  · show o.stop = o.start + _
    rw [hstop, hlater, hstart]
    simp only [Reader.offset_passing, List.length_append, List.length_take, Nat.min_eq_left hle]
  · intro hkind
    show form.closer <:+: text.drop (o.start + form.opener.length)
    have hplace : o.start = passed.length := by
      rw [hstart]
      exact Nat.zero_add _
    rw [hplace, htext, ← List.append_assoc, ← List.length_append, List.drop_left]
    exact hclosed hkind

theorem pairwise_sweep (form : CommentForm) (text : List Char) :
    (sweep form text).Pairwise fun m m' => m.stop ≤ m'.start := by
  rw [sweep, List.pairwise_map]
  exact occurrencesFrom_pairwise (ofForm form) 0 0 none text

/-- A sweep finds what is written, unless it is on its way through something else. -/
theorem mem_sweep_of_isWritten (hform : form ∈ Dialect.script.comments)
    (hc : form.IsWritten 0 text c) (hclosed : ClosesBehind form text c.start)
    (hfree : ∀ m ∈ sweep form text, m.start < c.start → m.stop ≤ c.start) :
    c ∈ sweep form text := by
  obtain ⟨passed, rest, htext, hstart, hstop⟩ := id hc
  rw [Nat.zero_add] at hstart
  have hpos := opener_length_pos hform
  have hne : form.opener ++ rest ≠ [] :=
    List.append_ne_nil_of_left_ne_nil (List.ne_nil_of_length_pos hpos) rest
  have hcloser : form.kind = .block → form.closer <:+: rest := by
    intro hkind
    have hbehind := hclosed hkind
    rwa [htext, hstart, ← List.append_assoc, ← List.length_append, List.drop_left] at hbehind
  -- the pattern is read there, so the place is not free
  have hread : (ofForm form).read ((Reader.ofText text 0).passing passed (form.opener ++ rest))
      ≠ none := by
    rw [(read_ofForm_iff hform).mpr ⟨rest, Reader.ahead_passing _ _ _, hcloser, rfl⟩]
    exact Option.some_ne_none _
  by_contra hnot
  apply hread
  apply nothingBeside_occurrences (ofForm form) (Reader.ofText text 0) passed _ htext hne
  intro o ho
  have hmem : o.stretch ∈ sweep form text := List.mem_map_of_mem ho
  show o.Spares (0 + passed.length)
  rw [Nat.zero_add, ← hstart]
  by_cases hlt : c.start < o.start
  · exact Or.inl hlt
  · right
    by_cases heq : o.start = c.start
    · obtain ⟨-, hsame⟩ := (isWritten_of_mem_sweep hform hmem).1.unique hc hform hform heq
      exact absurd (hsame ▸ hmem) hnot
    · have hbefore : o.stretch.start < c.start := by
        show o.start < c.start
        omega
      exact ⟨hbefore, hfree _ hmem hbefore⟩

end CommentPattern

/-! ## In a source -/

namespace Source

open CommentPattern

variable {src : Source} {form : CommentForm} {c m : Stretch}

/-- In script nothing is embedded, so what the fast way finds are the two sweeps. -/
theorem comments_script_fast (src : Source) : src.comments .script none true
    = Spans.normalize ((sweep .scriptBlock src.text ++ sweep .scriptLine src.text).map
        src.spanOf) := by
  have hsweep : ∀ form, (src.occurrencesIn none (ofForm form)).map (fun o => src.spanOf o.stretch)
      = (sweep form src.text).map src.spanOf := by
    intro form
    rw [occurrencesIn_none, sweep, List.map_map]
    rfl
  rw [comments, if_pos rfl, commentsFast, matchedComments, ofDialect_script, embeddedSpans,
    List.flatMap_nil, List.append_nil, List.flatMap_cons, List.flatMap_cons, List.flatMap_nil,
    List.append_nil, hsweep, hsweep, List.map_append]

/-- A sweep is one of the two. -/
theorem mem_sweeps : m ∈ sweep .scriptBlock src.text ++ sweep .scriptLine src.text ↔
    ∃ form ∈ Dialect.script.comments, m ∈ sweep form src.text := by
  rw [List.mem_append, Dialect.comments]
  simp [or_comm]

/-- A comment of the scan is of the form with which it begins. -/
theorem isWritten_of_begins (hform : form ∈ Dialect.script.comments)
    (hc : c ∈ JumpLexer.comments .script 0 src.text)
    (hbegins : form.opener <+: src.text.drop c.start) : form.IsWritten 0 src.text c := by
  have hpos := opener_length_pos hform
  obtain ⟨found, hfound, hwritten⟩ := exists_isWritten_of_mem_comments hc
  obtain ⟨_, hhere, hstart⟩ :=
    CommentForm.exists_isWritten (List.ne_nil_of_length_pos hpos) hbegins
  obtain ⟨rfl, -⟩ := hwritten.unique hhere hfound hform hstart.symm
  exact hwritten

/-- If both ways find the same, a sweep finds every comment of its form. -/
theorem mem_sweep_of_comments_eq
    (heq : src.comments .script none true = src.comments .script none false)
    (hform : form ∈ Dialect.script.comments) (hc : c ∈ JumpLexer.comments .script 0 src.text)
    (hbegins : form.opener <+: src.text.drop c.start) : c ∈ sweep form src.text := by
  have hmem : src.spanOf c ∈ src.comments .script none true := by
    rw [heq, comments_script]
    exact List.mem_map_of_mem hc
  rw [comments_script_fast] at hmem
  obtain ⟨m, hm, hspan⟩ := List.mem_map.mp (Spans.mem_of_mem_normalize hmem)
  obtain ⟨found, hfound, hm⟩ := mem_sweeps.mp hm
  have hwritten := (isWritten_of_mem_sweep hfound hm).1
  have hhere := isWritten_of_begins hform hc hbegins
  -- offsets can be told apart by their positions at places only
  have hplace := (isComment_of_isWritten hfound hwritten).place_start
  have hplace' := (isComment_of_isWritten hform hhere).place_start
  have hstart := (position_inj hplace hplace').mp (congrArg Span.start hspan)
  obtain ⟨rfl, rfl⟩ := hwritten.unique hhere hfound hform hstart
  exact hm

/-- What a sweep finds begins in a comment of the scan, and if it begins where the comment does it
is that comment. -/
theorem exists_beginsIn (hquotes : ∀ c ∈ src.text, isQuote c = false)
    (hform : form ∈ Dialect.script.comments) (hm : m ∈ sweep form src.text) :
    ∃ l ∈ (JumpLexer.comments .script 0 src.text).map src.spanOf,
      Spans.BeginsIn (src.spanOf m) l := by
  have hwritten := (isWritten_of_mem_sweep hform hm).1
  obtain ⟨c, hc, hle, hlt⟩ := exists_comment_of_opener hquotes hform hwritten
  obtain ⟨found, hfound, hhere⟩ := exists_isWritten_of_mem_comments hc
  have hplace := (isComment_of_isWritten hform hwritten).place_start
  have hcomment := isComment_of_mem_comments_text hc
  refine ⟨src.spanOf c, List.mem_map_of_mem hc, ?_, ?_, ?_⟩
  · exact src.position_mono hle
  · exact position_lt hplace hcomment.place_stop hlt
  · intro heq
    have hstart := (position_inj hplace hcomment.place_start).mp heq
    obtain ⟨-, rfl⟩ := hwritten.unique hhere hform hfound hstart
    rfl

/-- **When both ways find the same.** In a text without quotes the fast way and the accurate one
agree exactly if every comment that needs a closing delimiter has one, and no sweep runs from in
front of a comment of its own form into the comment. -/
theorem comments_fast_eq_iff (src : Source) (hquotes : ∀ c ∈ src.text, isQuote c = false) :
    src.comments .script none true = src.comments .script none false ↔
      ∀ form ∈ Dialect.script.comments, ∀ c ∈ scanComments .script 0 src.text,
        form.opener <+: src.text.drop c.start → ClosesBehind form src.text c.start ∧
          ∀ m ∈ sweep form src.text, m.start < c.start → m.stop ≤ c.start := by
  rw [scanComments_eq_comments]
  constructor
  · intro heq form hform c hc hbegins
    have hmem := mem_sweep_of_comments_eq heq hform hc hbegins
    refine ⟨(isWritten_of_mem_sweep hform hmem).2, ?_⟩
    intro m hm hlt
    exact stop_le_start_of_pairwise (pairwise_sweep form src.text) hm hmem hlt
  · intro hfree
    rw [comments_script_fast, comments_script]
    apply Spans.normalize_eq_of_beginsIn
    · rw [Spans.Apart, List.pairwise_map]
      exact (JumpLexer.comments_pairwise .script 0 src.text).imp fun h => src.position_mono h
    · intro l hl
      obtain ⟨c, hc, rfl⟩ := List.mem_map.mp hl
      have hcomment := isComment_of_mem_comments_text hc
      exact position_lt hcomment.place_start hcomment.place_stop hcomment.start_lt_stop
    · intro l hl
      obtain ⟨c, hc, rfl⟩ := List.mem_map.mp hl
      obtain ⟨form, hform, hwritten⟩ := exists_isWritten_of_mem_comments hc
      obtain ⟨hclosed, hfree⟩ := hfree form hform c hc hwritten.prefix_drop
      apply List.mem_map_of_mem
      exact mem_sweeps.mpr ⟨form, hform, mem_sweep_of_isWritten hform hwritten hclosed hfree⟩
    · intro s hs
      obtain ⟨m, hm, rfl⟩ := List.mem_map.mp hs
      obtain ⟨form, hform, hm⟩ := mem_sweeps.mp hm
      exact exists_beginsIn hquotes hform hm

/-- An opening delimiter in a comment to the end of the line, and a comment behind it. -/
def withOpenerInLine : Source := ofText "// /*\n/* c */".toList none

/-- Every comment there is closed, and the fast way misses one of them. -/
theorem comments_withOpenerInLine :
    (∀ c ∈ withOpenerInLine.text, isQuote c = false) ∧
      (∀ c ∈ scanComments .script 0 withOpenerInLine.text,
        CommentForm.scriptBlock.opener <+: withOpenerInLine.text.drop c.start →
          ClosesBehind .scriptBlock withOpenerInLine.text c.start) ∧
      withOpenerInLine.comments .script none true
        ≠ withOpenerInLine.comments .script none false := by
  have hquotes : ∀ c ∈ withOpenerInLine.text, isQuote c = false := by decide
  have hscan : scanComments .script 0 withOpenerInLine.text
      = [⟨0, 5, Nat.zero_le _⟩, ⟨6, 13, by decide⟩] := by decide
  have hsweep : (⟨3, 13, by decide⟩ : Stretch) ∈ sweep .scriptBlock withOpenerInLine.text := by
    decide
  refine ⟨hquotes, ?_, ?_⟩
  · rw [hscan]
    unfold ClosesBehind
    decide
  · intro heq
    have hfree := (comments_fast_eq_iff _ hquotes).mp heq .scriptBlock (by decide)
      ⟨6, 13, by decide⟩ (by rw [hscan]; decide) (by decide)
    exact absurd (hfree.2 _ hsweep (by decide)) (by decide)

end Source

end Cfml
