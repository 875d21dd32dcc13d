/-
Comments of markup with script in it.

One would expect that each part of a template is scanned on its own, the markup as markup and the
bodies as script. The scan of the markup, however, runs over the bodies too, and what it finds there
is dropped only if it lies in one body. So the parts are on their own exactly if no body leaves open
what is a comment by the rules of the markup (`comments_template_iff`), say with an opening
delimiter in a string.
-/
import Cfml.Proofs.Comment.Template
import Cfml.Proofs.Source.Position
import Cfml.Proofs.Source.Spans
import Mathlib.Data.List.Pairwise

set_option autoImplicit false

namespace Cfml

namespace Template

variable {template : Template} {offset : Nat} {p : Piece} {src : Source}

/-! ## Places -/

/-- The offset behind a closing bracket or before an opening one is a place. -/
theorem isPlace_bracket {before middle after : List Char}
    (htext : src.text = before ++ (middle ++ after)) {n : Nat} (hn : n ≤ middle.length)
    (h : (before ++ middle.take n).getLast? = some '>' ∨
      (middle.drop n ++ after).head? = some '<') :
    src.IsPlace (before.length + n) := by
  have hsplit : src.text = (before ++ middle.take n) ++ (middle.drop n ++ after) := by
    rw [htext, List.append_assoc, ← List.append_assoc (middle.take n), List.take_append_drop]
  have hlength : before.length + n = (before ++ middle.take n).length := by
    rw [List.length_append, List.length_take, Nat.min_eq_left hn]
  rw [hlength]
  refine (Source.isBoundary_append hsplit (h.imp ?_ ?_)).isPlace
  · intro hlast
    rw [hlast]
    decide
  · intro hhead
    rw [hhead]
    decide

/-- The ends of a body are places. -/
theorem isPlace_stretch (htext : src.text = template.text) (h : p ∈ template.pieces 0)
    (hscript : p.dialect = .script) :
    src.IsPlace p.stretch.start ∧ src.IsPlace p.stretch.stop := by
  obtain ⟨before, after, heq, hoffset, hbrackets⟩ := exists_append h
  obtain ⟨hbefore, hafter⟩ := hbrackets hscript
  rw [Nat.zero_add] at hoffset
  rw [heq] at htext
  rw [Piece.start_stretch, Piece.stop_stretch, hoffset]
  refine ⟨isPlace_bracket htext (Nat.zero_le _) (Or.inl ?_),
    isPlace_bracket htext (Nat.le_refl _) (Or.inr ?_)⟩
  · rw [List.take_zero, List.append_nil, hbefore]
  · rw [List.drop_length, List.nil_append, hafter]

theorem slice_stretch (htext : src.text = template.text) (h : p ∈ template.pieces 0) :
    src.slice p.stretch.start p.stretch.stop = p.text := by
  obtain ⟨before, after, heq, hoffset, -⟩ := exists_append h
  rw [Nat.zero_add] at hoffset
  rw [Source.slice, htext, heq, Piece.start_stretch, Piece.stop_stretch, hoffset, List.drop_left,
    Nat.add_sub_cancel_left, List.take_left]

/-- So are the ends of a comment of the markup. -/
theorem isPlace_of_mem_scanned (htext : src.text = template.text) (h : p ∈ template.pieces 0)
    (htag : p.dialect = .tag) {c : Stretch} (hc : c ∈ p.scanned .tag) :
    src.IsPlace c.start ∧ src.IsPlace c.stop := by
  obtain ⟨before, after, heq, hoffset, -⟩ := exists_append h
  rw [Nat.zero_add] at hoffset
  rw [heq] at htext
  obtain ⟨d, hd, rfl⟩ := List.mem_map.mp hc
  obtain ⟨front, hclosed⟩ := closes_of_mem_pieces h htag d hd
  rw [scanComments_eq_comments] at hd
  obtain ⟨behind, hopener⟩ := TagComments.opener_prefix hd
  have hwithin := JumpLexer.comments_within .tag 0 p.text d hd
  simp only [JumpLexer.Within, Nat.zero_add] at hwithin
  show src.IsPlace (d.start + p.offset) ∧ src.IsPlace (d.stop + p.offset)
  rw [hoffset, Nat.add_comm, Nat.add_comm d.stop]
  refine ⟨isPlace_bracket htext (by omega) (Or.inr ?_),
    isPlace_bracket htext (by omega) (Or.inl ?_)⟩
  · rw [Nat.sub_zero] at hopener
    rw [← hopener]
    rfl
  -- a closed comment ends with the last character of its closing delimiter
  · have hlast : ((p.text.take d.stop).drop (d.start + TagComments.opener.length)).getLast?
        = some '>' := by
      rw [← hclosed, List.getLast?_append]
      rfl
    have hsplit := List.take_append_drop (d.start + TagComments.opener.length)
      (p.text.take d.stop)
    rw [← hsplit, ← List.append_assoc, List.getLast?_append, hlast]
    rfl

/-- Every comment that the scan of the markup finds begins at a place, wherever it ends. -/
theorem isPlace_start (htext : src.text = template.text) {c : Stretch}
    (hc : c ∈ JumpLexer.comments .tag 0 template.text) : src.IsPlace c.start := by
  obtain ⟨behind, hopener⟩ := TagComments.opener_prefix hc
  have hwithin := JumpLexer.comments_within .tag 0 template.text c hc
  simp only [JumpLexer.Within, Nat.zero_add] at hwithin
  rw [Nat.sub_zero] at hopener
  have hwhole : src.text = [] ++ (template.text ++ []) := by
    rw [htext, List.append_nil]
    rfl
  have hbegin := isPlace_bracket hwhole (n := c.start) (by omega)
    (Or.inr (by rw [← hopener]; rfl))
  rwa [List.length_nil, Nat.zero_add] at hbegin

/-- Markup and a body lie apart. -/
theorem isApart_of_dialect {q : Piece} (hp : p ∈ template.pieces offset)
    (hq : q ∈ template.pieces offset) (htag : p.dialect = .tag) (hscript : q.dialect = .script) :
    p.IsApart q := by
  have hpairwise : (template.pieces offset).Pairwise Piece.IsApart :=
    (template.pieces_pairwise offset).imp Or.inl
  apply hpairwise.forall hp hq
  rintro rfl
  rw [htag] at hscript
  exact absurd hscript (by decide)

/-! ## The embedded regions -/

/-- The bodies of a template that are not empty. -/
def scripts (template : Template) : List Piece :=
  (template.pieces 0).filter fun p => p.dialect == .script && !p.text.isEmpty

theorem mem_scripts : p ∈ template.scripts ↔
    p ∈ template.pieces 0 ∧ p.dialect = .script ∧ p.text ≠ [] := by
  simp [scripts]

/-- **The embedded regions of a template are its bodies.** -/
theorem embeddedSpans_template (htext : src.text = template.text) :
    src.embeddedSpans none .tag = template.scripts.map (src.spanOf ·.stretch) := by
  have hahead : (src.reader 0 src.length).ahead = template.text := by
    rw [← htext, Source.reader, Reader.ofText, Source.slice, List.drop_zero, Nat.sub_zero]
    exact List.take_length
  have hbodies : (src.tags tagName none).map Tag.body
      = (((template.pieces 0).filter (·.dialect == .script)).map Piece.stretch).map src.spanOf := by
    rw [Source.tags, Source.occurrencesIn, Source.bounds, List.map_map]
    simp only
    have := template.occurrences_template hahead
    rw [show (src.reader 0 src.length).offset = 0 from rfl] at this
    rw [← this, List.map_map]
    rfl
  rw [Source.embeddedSpans, Source.cfscriptSpans, show "cfscript".toList = tagName from rfl,
    hbodies, List.map_map, List.filter_map, List.filter_filter, scripts]
  refine congrArg _ (List.filter_congr fun p hp => ?_)
  by_cases hscript : p.dialect = .script
  · obtain ⟨hstart, hstop⟩ := isPlace_stretch htext hp hscript
    -- a body is empty as a span exactly if it is as a text
    have hempty : (src.spanOf p.stretch).isEmpty = p.text.isEmpty := by
      rw [Bool.eq_iff_iff, Source.isEmpty_spanOf hstart hstop, List.isEmpty_iff,
        Piece.start_stretch, Piece.stop_stretch, ← List.length_eq_zero_iff]
      omega
    simp [hscript, hempty]
  · have hfalse : (p.dialect == .script) = false := beq_eq_false_iff_ne.mpr hscript
    simp [hfalse]

/-! ## What the scans find -/

/-- The scan of the markup runs over the whole text. -/
theorem scannedComments_none (htext : src.text = template.text) :
    src.scannedComments .tag none = (JumpLexer.comments .tag 0 template.text).map src.spanOf := by
  have hslice : src.slice 0 src.length = template.text := by
    rw [← htext, Source.slice, List.drop_zero, Nat.sub_zero]
    exact List.take_length
  rw [Source.scannedComments, Source.bounds]
  simp only
  rw [hslice, scanComments_eq_comments]

/-- The comments that the scan of the dialect finds, in the pieces of the dialect only. -/
def scannedIn (dialect : Dialect) (p : Piece) : List Stretch :=
  if p.dialect = dialect then p.scanned dialect else []

/-- A comment of the markup lies in no body. -/
theorem not_covers_of_tag (htext : src.text = template.text) (hp : p ∈ template.pieces 0)
    (htag : p.dialect = .tag) {c : Stretch} (hc : c ∈ p.scanned .tag) :
    Spans.covers (src.embeddedSpans none .tag) (src.spanOf c) = false := by
  rw [embeddedSpans_template htext, Spans.covers, List.any_eq_false]
  intro span hspan hcovers
  obtain ⟨q, hq, rfl⟩ := List.mem_map.mp hspan
  obtain ⟨hq, hscript, -⟩ := mem_scripts.mp hq
  obtain ⟨hstart, hstop⟩ := isPlace_of_mem_scanned htext hp htag hc
  obtain ⟨hfirst, hlast⟩ := isPlace_stretch htext hq hscript
  obtain ⟨hbegin, hend⟩ := Source.of_covers_spanOf hfirst hlast hstart hstop hcovers
  have hwithin := Piece.mem_scanned hc
  rw [Piece.start_stretch] at hbegin
  rw [Piece.stop_stretch] at hend
  rcases isApart_of_dialect hp hq htag hscript with h | h <;> omega

/-- What the scan of the markup finds in a body lies in it. -/
theorem covers_of_script (htext : src.text = template.text) (hp : p ∈ template.pieces 0)
    (hscript : p.dialect = .script) {c : Stretch} (hc : c ∈ p.scanned .tag) :
    Spans.covers (src.embeddedSpans none .tag) (src.spanOf c) = true := by
  obtain ⟨hstart, hne, hstop⟩ := Piece.mem_scanned hc
  rw [embeddedSpans_template htext, Spans.covers, List.any_eq_true]
  refine ⟨_, List.mem_map_of_mem (mem_scripts.mpr ⟨hp, hscript, ?_⟩),
    Source.covers_spanOf hstart hstop⟩
  rintro hempty
  rw [hempty, List.length_nil] at hstop
  omega

/-- The scan of the markup, without what it finds in bodies, finds the comments of the markup. -/
theorem filter_scannedComments (htext : src.text = template.text)
    (hcloses : ∀ body ∈ template.bodies, ClosesTagComments body.text) :
    (src.scannedComments .tag none).filter (!Spans.covers (src.embeddedSpans none .tag) ·)
      = ((template.pieces 0).flatMap (scannedIn .tag)).map src.spanOf := by
  rw [scannedComments_none htext, comments_text template hcloses, List.filter_map,
    List.filter_flatMap]
  refine congrArg _ (List.flatMap_congr fun p hp => ?_)
  by_cases htag : p.dialect = .tag
  · rw [scannedIn, if_pos htag, List.filter_eq_self]
    intro c hc
    simp only [Function.comp_apply, not_covers_of_tag htext hp htag hc, Bool.not_false]
  · have hscript : p.dialect = .script := by
      cases h : p.dialect
      · rfl
      · exact absurd h htag
    rw [scannedIn, if_neg htag, List.filter_eq_nil_iff]
    intro c hc
    simp only [Function.comp_apply, covers_of_script htext hp hscript hc, Bool.not_true,
      Bool.false_eq_true, not_false_iff]

/-- No body lies in a comment of the markup. -/
theorem filter_embeddedSpans (htext : src.text = template.text) :
    (src.embeddedSpans none .tag).filter
        (!Spans.covers (((template.pieces 0).flatMap (scannedIn .tag)).map src.spanOf) ·)
      = src.embeddedSpans none .tag := by
  rw [List.filter_eq_self]
  intro span hspan
  rw [embeddedSpans_template htext] at hspan
  obtain ⟨q, hq, rfl⟩ := List.mem_map.mp hspan
  obtain ⟨hq, hscript, hne⟩ := mem_scripts.mp hq
  rw [Bool.not_eq_true', Spans.covers, List.any_eq_false]
  intro span hspan hcovers
  obtain ⟨c, hc, rfl⟩ := List.mem_map.mp hspan
  obtain ⟨p, hp, hc⟩ := List.mem_flatMap.mp hc
  by_cases htag : p.dialect = .tag
  · rw [scannedIn, if_pos htag] at hc
    obtain ⟨hstart, hstop⟩ := isPlace_of_mem_scanned htext hp htag hc
    obtain ⟨hfirst, hlast⟩ := isPlace_stretch htext hq hscript
    obtain ⟨hbegin, hend⟩ := Source.of_covers_spanOf hstart hstop hfirst hlast hcovers
    have hwithin := Piece.mem_scanned hc
    have hpos := List.length_pos_of_ne_nil hne
    rw [Piece.start_stretch] at hbegin
    rw [Piece.stop_stretch] at hend
    rcases isApart_of_dialect hp hq htag hscript with h | h <;> omega
  · rw [scannedIn, if_neg htag] at hc
    exact absurd hc List.not_mem_nil

/-- A body without characters has no comments. -/
theorem flatMap_scripts (template : Template) : template.scripts.flatMap (Piece.scanned .script)
    = (template.pieces 0).flatMap (scannedIn .script) := by
  rw [scripts]
  induction template.pieces 0 with
  | nil => rfl
  | cons p pieces ih =>
    rw [List.filter_cons, List.flatMap_cons, ← ih, scannedIn]
    by_cases hscript : p.dialect = .script
    · rw [if_pos hscript]
      by_cases hempty : p.text = []
      · simp [hempty, Piece.scanned_eq]
      · simp [hscript, hempty]
    · have hfalse : (p.dialect == .script) = false := beq_eq_false_iff_ne.mpr hscript
      simp [hscript, hfalse]

/-- A body is scanned as script on its own. -/
theorem scannedComments_stretch (htext : src.text = template.text) (hp : p ∈ template.scripts) :
    src.scannedComments .script (some (src.spanOf p.stretch))
      = (p.scanned .script).map src.spanOf := by
  obtain ⟨hp, hscript, -⟩ := mem_scripts.mp hp
  obtain ⟨hstart, hstop⟩ := isPlace_stretch htext hp hscript
  rw [Source.scannedComments, Source.bounds_spanOf hstart hstop]
  simp only
  rw [slice_stretch htext hp, scanComments_eq_comments, Piece.scanned_eq, Piece.start_stretch]

theorem flatMap_embeddedSpans (htext : src.text = template.text) :
    (src.embeddedSpans none .tag).flatMap (fun inner => src.scannedComments .script (some inner))
      = ((template.pieces 0).flatMap (scannedIn .script)).map src.spanOf := by
  rw [embeddedSpans_template htext, List.flatMap_map,
    List.flatMap_congr fun p hp => scannedComments_stretch htext hp, ← List.map_flatMap,
    flatMap_scripts]

/-! ## Parts on their own -/

theorem comments_pairwise (template : Template) :
    template.comments.Pairwise fun c c' => c.stop ≤ c'.start := by
  rw [comments, List.pairwise_flatMap]
  refine ⟨?_, ?_⟩
  · intro p _
    rw [Piece.scanned_eq]
    exact JumpLexer.comments_pairwise _ _ _
  · apply (template.pieces_pairwise 0).imp
    intro p q hapart c hc c' hc'
    have := Piece.mem_scanned hc
    have := Piece.mem_scanned hc'
    omega

/-- **Each part is scanned on its own** in a template of which no body leaves a comment of the
markup open. -/
theorem comments_eq (htext : src.text = template.text)
    (hcloses : ∀ body ∈ template.bodies, ClosesTagComments body.text) :
    src.comments .tag none false = template.comments.map src.spanOf := by
  -- a piece has comments of its own dialect only
  have hboth : ∀ p : Piece, scannedIn .tag p ++ scannedIn .script p = p.scanned p.dialect := by
    rintro ⟨dialect, offset, text⟩
    cases dialect <;> simp [scannedIn]
  have hperm : (src.commentsAccurate .tag none).Perm (template.comments.map src.spanOf) := by
    rw [Source.commentsAccurate, filter_scannedComments htext hcloses, filter_embeddedSpans htext,
      flatMap_embeddedSpans htext, ← List.map_append, comments, ← funext hboth]
    exact (List.flatMap_append_perm _ _ _).map _
  rw [Source.comments, if_neg Bool.false_ne_true]
  apply Spans.normalize_of_perm hperm
  rw [Spans.Apart, List.pairwise_map]
  exact template.comments_pairwise.imp fun h => src.position_mono h

/-! ## Parts that are not on their own -/

/-- **A comment that is swallowed.** A comment of the markup is not found where the scan is in
another one. -/
theorem spanOf_notMem_comments (htext : src.text = template.text) (hp : p ∈ template.pieces 0)
    (htag : p.dialect = .tag) {c across : Stretch} (hc : c ∈ p.scanned .tag)
    (hacross : across ∈ JumpLexer.comments .tag 0 template.text)
    (hstart : across.start < c.start) (hstop : c.start < across.stop) :
    src.spanOf c ∉ src.comments .tag none false := by
  obtain ⟨hbegin, hend⟩ := isPlace_of_mem_scanned htext hp htag hc
  intro hmem
  rw [Source.comments, if_neg Bool.false_ne_true] at hmem
  have hmem := Spans.mem_of_mem_normalize hmem
  rw [Source.commentsAccurate] at hmem
  rcases List.mem_append.mp hmem with hown | hscript
  -- one of the scan would have to begin in the one that goes across
  · have hown := (List.mem_filter.mp hown).1
    rw [scannedComments_none htext] at hown
    obtain ⟨found, hfound, hspan⟩ := List.mem_map.mp hown
    -- offsets can be told apart by their positions at places only
    have hbegin' := isPlace_start htext hfound
    have hsame : found.start = c.start :=
      (Source.position_inj hbegin' hbegin).mp (congrArg Span.start hspan)
    have := JumpLexer.stop_le_start .tag 0 template.text hacross hfound (by omega)
    omega
  -- a body lies apart from the markup
  · obtain ⟨span, hspan, hfound⟩ := List.mem_flatMap.mp hscript
    have hspan := (List.mem_filter.mp hspan).1
    rw [embeddedSpans_template htext] at hspan
    obtain ⟨q, hq, rfl⟩ := List.mem_map.mp hspan
    rw [scannedComments_stretch htext hq] at hfound
    obtain ⟨found, hfound, hspan⟩ := List.mem_map.mp hfound
    obtain ⟨hq, hscript, -⟩ := mem_scripts.mp hq
    obtain ⟨hfirst, hlast⟩ := isPlace_stretch htext hq hscript
    have hwithin := Piece.mem_scanned hc
    obtain ⟨hbegin', hne, hend'⟩ := Piece.mem_scanned hfound
    have hsame : src.position found.start = src.position c.start := congrArg Span.start hspan
    have hsame' : src.position found.stop = src.position c.stop := congrArg Span.stop hspan
    have hle : q.stretch.start ≤ c.start :=
      (Source.position_le_iff hfirst hbegin).mp (hsame ▸ src.position_mono hbegin')
    have hle' : c.stop ≤ q.stretch.stop :=
      (Source.position_le_iff hend hlast).mp (hsame' ▸ src.position_mono hend')
    rw [Piece.start_stretch] at hle
    rw [Piece.stop_stretch] at hle'
    rcases isApart_of_dialect hp hq htag hscript with h | h <;> omega

/-- Around a body that leaves a comment open there can be markup whose comments are not all
found. -/
theorem exists_comments_ne {bodies : List ScriptBody}
    (hopen : ∃ body ∈ bodies, ¬ ClosesTagComments body.text) (path : Option Path) :
    ∃ template : Template, template.bodies = bodies ∧
      (Source.ofText template.text path).comments .tag none false
        ≠ template.comments.map (Source.ofText template.text path).spanOf := by
  let template := around emptyComment bodies
  have hbodies : template.bodies = bodies := bodies_around emptyComment bodies
  rw [← hbodies] at hopen
  obtain ⟨across, hacross, p, hp, htag, hstart, hstop⟩ := exists_across hopen 0
  have htext : p.text = emptyComment.text := text_of_mem_around hp htag
  have hscan : scanComments .tag 0 emptyComment.text = [⟨0, 9, Nat.zero_le _⟩] := by decide
  let found : Stretch := (⟨0, 9, Nat.zero_le _⟩ : Stretch).shift p.offset
  have hfound : found ∈ p.scanned .tag := by
    rw [Piece.scanned, htext, hscan]
    exact List.mem_singleton_self _
  have hbegin : found.start = p.offset := Nat.zero_add _
  have hlost : (Source.ofText template.text path).spanOf found
      ∉ (Source.ofText template.text path).comments .tag none false :=
    spanOf_notMem_comments rfl hp htag hfound hacross (hbegin ▸ hstart)
      (hbegin ▸ hstop (by rw [htext]; decide))
  refine ⟨template, hbodies, fun heq => hlost ?_⟩
  rw [heq]
  exact List.mem_map_of_mem (List.mem_flatMap.mpr ⟨p, hp, htag.symm ▸ hfound⟩)

/-- **When the parts of a template are on their own.** Whatever the markup around the bodies is, the
comments of the whole are those of its parts exactly if no body leaves a comment of the markup
open. -/
theorem comments_template_iff (bodies : List ScriptBody) :
    (∀ template : Template, template.bodies = bodies → ∀ path : Option Path,
        (Source.ofText template.text path).comments .tag none false
          = template.comments.map (Source.ofText template.text path).spanOf) ↔
      ∀ body ∈ bodies, ClosesTagComments body.text := by
  constructor
  · intro heq
    by_contra hnot
    push Not at hnot
    obtain ⟨template, hbodies, hne⟩ := exists_comments_ne hnot none
    exact hne (heq template hbodies none)
  · rintro hcloses template rfl path
    exact comments_eq rfl hcloses

/-- A delimiter in a string of script is enough. -/
example : ¬ ClosesTagComments "x = \"<!---\";".toList := by
  unfold ClosesTagComments TagComments.IsClosed
  decide

end Template

end Cfml
