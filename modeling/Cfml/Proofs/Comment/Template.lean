/-
Templates: markup with bodies of script in it.

A template is put together from markup and the bodies of `<cfscript>`. Of its text the pairs of tags
are exactly those around the bodies, and the scan of the markup, which runs over the bodies too, can
be taken apart if no body leaves a comment of the markup open. If one does, the comment goes on in
the markup behind the body.
-/
import Cfml.Comment.Spans
import Cfml.Proofs.Comment.Parts
import Cfml.Proofs.Text.TagPair

set_option autoImplicit false

namespace Cfml

/-! ## Templates -/

namespace Template

/-- The name of the tags around a body, and the tags. -/
def tagName : List Char := "cfscript".toList
def openTag : List Char := "<cfscript>".toList
def closeTag : List Char := "</cfscript>".toList

end Template

/-- Markup without script: no tag of a body is in it, and no comment goes on behind it. -/
structure Markup where
  text : List Char
  noOpening : Tag.NoOpeningIn Template.tagName text
  noClosing : Tag.NoClosingIn Template.tagName text
  closes : ClosesTagComments text

/-- The body of a `<cfscript>`: any text without a closing tag. -/
structure ScriptBody where
  text : List Char
  noClosing : Tag.NoClosingIn Template.tagName text

/-- Markup with bodies of script in it. -/
inductive Template where
  | markup (front : Markup)
  | embed (front : Markup) (body : ScriptBody) (rest : Template)

/-- A part of a text that begins at the offset and is written in one dialect. -/
structure Piece where
  dialect : Dialect
  offset : Nat
  text : List Char

namespace Piece

/-- Where the piece stands. -/
def stretch (p : Piece) : Stretch := ⟨p.offset, p.offset + p.text.length, Nat.le_add_right _ _⟩

@[simp] theorem start_stretch (p : Piece) : p.stretch.start = p.offset := rfl

@[simp] theorem stop_stretch (p : Piece) : p.stretch.stop = p.offset + p.text.length := rfl

/-- The comments that a scan by the rules of the dialect finds in the piece on its own, moved to
their place. -/
def scanned (dialect : Dialect) (p : Piece) : List Stretch :=
  (scanComments dialect 0 p.text).map (·.shift p.offset)

theorem scanned_eq (dialect : Dialect) (p : Piece) :
    p.scanned dialect = JumpLexer.comments dialect p.offset p.text := by
  rw [scanned, scanComments_eq_comments, ← JumpLexer.comments_add, Nat.zero_add]

/-- The pieces do not touch each other. -/
def IsApart (p q : Piece) : Prop :=
  p.offset + p.text.length < q.offset ∨ q.offset + q.text.length < p.offset

instance : Std.Symm IsApart := ⟨fun _ _ => Or.symm⟩

theorem mem_scanned {dialect : Dialect} {p : Piece} {c : Stretch} (h : c ∈ p.scanned dialect) :
    p.offset ≤ c.start ∧ c.start < c.stop ∧ c.stop ≤ p.offset + p.text.length := by
  rw [scanned_eq] at h
  exact JumpLexer.comments_within dialect p.offset p.text c h

end Piece

namespace Template

/-- The text of a template. -/
def text : Template → List Char
  | .markup front => front.text
  | .embed front body rest => front.text ++ (openTag ++ (body.text ++ (closeTag ++ rest.text)))

/-- The bodies in a template. -/
def bodies : Template → List ScriptBody
  | .markup _ => []
  | .embed _ body rest => body :: rest.bodies

/-- The markup and the bodies of a template that begins at the offset, in order. -/
def pieces (offset : Nat) : Template → List Piece
  | .markup front => [⟨.tag, offset, front.text⟩]
  | .embed front body rest =>
    let inside := offset + front.text.length + openTag.length
    ⟨.tag, offset, front.text⟩ :: ⟨.script, inside, body.text⟩ ::
      rest.pieces (inside + body.text.length + closeTag.length)

/-- The comments of the markup and the script comments of the bodies, each scanned on its own. -/
def comments (template : Template) : List Stretch :=
  (template.pieces 0).flatMap fun p => p.scanned p.dialect

/-! ### The tags -/

theorem isPlainName_tagName : Tag.IsPlainName tagName := by
  have hall : tagName.all (fun c => !sameLetter c '<' && !sameLetter c '>') = true := by decide
  intro c hc
  simpa using List.all_eq_true.mp hall c hc

theorem isOpening_openTag : Tag.IsOpening tagName openTag := by
  refine ⟨tagName, [], rfl, Reader.forall₂_sameLetter tagName, List.not_mem_nil, ?_⟩
  unfold Tag.WordBoundary
  decide

theorem isClosing_closeTag : Tag.IsClosing tagName closeTag :=
  ⟨tagName, [], rfl, Reader.forall₂_sameLetter tagName, by simp⟩

/-! ### Where the pieces stand -/

variable {template : Template} {offset : Nat} {p : Piece}

theorem mem_pieces (h : p ∈ template.pieces offset) :
    offset ≤ p.offset ∧ p.offset + p.text.length ≤ offset + template.text.length := by
  induction template generalizing offset with
  | markup front =>
    obtain rfl := List.mem_singleton.mp h
    exact ⟨Nat.le_refl _, Nat.le_refl _⟩
  | embed front body rest ih =>
    simp only [pieces, List.mem_cons] at h
    simp only [text, List.length_append]
    rcases h with rfl | rfl | h
    · simp only
      omega
    · simp only
      omega
    · have := ih h
      omega

/-- Between two pieces stands a tag. -/
theorem pieces_pairwise (template : Template) (offset : Nat) :
    (template.pieces offset).Pairwise fun p q => p.offset + p.text.length < q.offset := by
  have hopen : 0 < openTag.length := by decide
  have hclose : 0 < closeTag.length := by decide
  induction template generalizing offset with
  | markup front => exact List.pairwise_singleton _ _
  | embed front body rest ih =>
    simp only [pieces, List.pairwise_cons, List.mem_cons, forall_eq_or_imp]
    refine ⟨⟨by omega, ?_⟩, ?_, ih _⟩
    · intro q hq
      have := (mem_pieces hq).1
      omega
    · intro q hq
      have := (mem_pieces hq).1
      omega

/-- A piece is what stands at its place, and a body stands between brackets. -/
theorem exists_append (h : p ∈ template.pieces offset) : ∃ before after,
    template.text = before ++ (p.text ++ after) ∧ p.offset = offset + before.length ∧
      (p.dialect = .script → before.getLast? = some '>' ∧ after.head? = some '<') := by
  induction template generalizing offset with
  | markup front =>
    obtain rfl := List.mem_singleton.mp h
    exact ⟨[], [], (List.append_nil _).symm, rfl, fun h => absurd h (by simp)⟩
  | embed front body rest ih =>
    simp only [pieces, List.mem_cons] at h
    rcases h with rfl | rfl | h
    · exact ⟨[], _, rfl, rfl, fun h => absurd h (by simp)⟩
    · refine ⟨front.text ++ openTag, closeTag ++ rest.text, ?_, ?_, ?_⟩
      · rw [text, List.append_assoc]
      · rw [List.length_append, Nat.add_assoc]
      · rintro -
        exact ⟨by rw [List.getLast?_append]; rfl, rfl⟩
    · obtain ⟨before, after, htext, hoffset, hbrackets⟩ := ih h
      -- what stands before the rest ends with a closing tag
      let front' := front.text ++ (openTag ++ (body.text ++ closeTag))
      have hlast : front'.getLast? = some '>' := by
        simp only [front', List.getLast?_append]
        rfl
      refine ⟨front' ++ before, after, ?_, ?_, ?_⟩
      · rw [text, htext]
        simp only [front', List.append_assoc]
      · rw [hoffset]
        simp only [front', List.length_append]
        omega
      · intro hscript
        obtain ⟨hbefore, hafter⟩ := hbrackets hscript
        exact ⟨by rw [List.getLast?_append, hbefore]; rfl, hafter⟩

/-- The markup leaves no comment open. -/
theorem closes_of_mem_pieces (h : p ∈ template.pieces offset) (htag : p.dialect = .tag) :
    ClosesTagComments p.text := by
  induction template generalizing offset with
  | markup front =>
    obtain rfl := List.mem_singleton.mp h
    exact front.closes
  | embed front body rest ih =>
    simp only [pieces, List.mem_cons] at h
    rcases h with rfl | rfl | h
    · exact front.closes
    · exact absurd htag (by simp)
    · exact ih h

/-! ### What the searches find in the text of a template -/

/-- **The pairs of tags have the bodies of the template.** -/
theorem occurrences_template (template : Template) {r : Reader} (hahead : r.ahead = template.text) :
    (occurrences (Tag.pair tagName) r).map (·.value.body)
      = ((template.pieces r.offset).filter (·.dialect == .script)).map Piece.stretch := by
  induction template generalizing r with
  | markup front =>
    rw [Tag.occurrences_pair_eq_nil (hahead ▸ front.noOpening)]
    rfl
  | embed front body rest ih =>
    have hbody := Tag.hasNoClosing_of_noClosingIn isPlainName_tagName body.noClosing
      isClosing_closeTag rest.text
    obtain ⟨o, ho, hstart, hstop⟩ := Tag.occurrences_pair isPlainName_tagName front.noOpening
      isOpening_openTag isClosing_closeTag hbody hahead
    -- the pair has the body between its tags
    have hstretch : o.value.body = Piece.stretch
        ⟨.script, r.offset + front.text.length + openTag.length, body.text⟩ := by
      refine Stretch.ends_inj _ _ (Prod.ext ?_ ?_)
      · rw [Stretch.ends, hstart, List.length_append, Nat.add_assoc]
        rfl
      · rw [Stretch.ends, hstop, List.length_append, Nat.add_assoc]
        simp only [Piece.stretch, Stretch.ends, Nat.add_assoc]
    rw [ho, List.map_cons, hstretch, ih rfl]
    simp [pieces, Nat.add_assoc]

theorem noneAcross_openTag (text rest : List Char) :
    TagComments.NoneAcross text (openTag ++ rest) := TagComments.noneAcross_bracket text _

theorem noneAcross_closeTag (text rest : List Char) :
    TagComments.NoneAcross text (closeTag ++ rest) := TagComments.noneAcross_bracket text _

/-- A tag has no comment in it. -/
theorem comments_append_of_not_mem {tag rest : List Char} (hmark : '!' ∉ tag)
    (hnone : TagComments.NoneAcross tag rest) (offset : Nat) :
    JumpLexer.comments .tag offset (tag ++ rest)
      = JumpLexer.comments .tag (offset + tag.length) rest := by
  induction tag generalizing offset with
  | nil => rfl
  | cons c tag ih =>
    -- an opening delimiter has a mark in it, and would have to lie in the tag
    have hopener : ¬ TagComments.opener <+: c :: (tag ++ rest) := by
      intro hbegins
      have hin := hnone _ (List.cons_ne_nil c tag) (List.suffix_refl _) hbegins
      exact hmark (hin.subset (by decide))
    rw [List.cons_append, TagComments.comments_cons _ hopener,
      ih (List.not_mem_of_not_mem_cons hmark) (hnone.suffix (List.suffix_cons c tag)),
      List.length_cons, Nat.add_right_comm, Nat.add_assoc]

theorem comments_openTag (offset : Nat) (rest : List Char) :
    JumpLexer.comments .tag offset (openTag ++ rest)
      = JumpLexer.comments .tag (offset + openTag.length) rest :=
  comments_append_of_not_mem (by decide) (TagComments.noneAcross_concat "<cfscript".toList rest) _

theorem comments_closeTag (offset : Nat) (rest : List Char) :
    JumpLexer.comments .tag offset (closeTag ++ rest)
      = JumpLexer.comments .tag (offset + closeTag.length) rest :=
  comments_append_of_not_mem (by decide) (TagComments.noneAcross_concat "</cfscript".toList rest) _

/-- **The markup is scanned in pieces** if no body leaves a comment open: the scan then finds in
each body what it would find there if it were markup. -/
theorem comments_text (template : Template)
    (hcloses : ∀ body ∈ template.bodies, ClosesTagComments body.text) (offset : Nat) :
    JumpLexer.comments .tag offset template.text
      = (template.pieces offset).flatMap (Piece.scanned .tag) := by
  induction template generalizing offset with
  | markup front => simp [text, pieces, Piece.scanned_eq]
  | embed front body rest ih =>
    obtain ⟨hbody, hrest⟩ := List.forall_mem_cons.mp hcloses
    rw [text, TagComments.comments_append front.closes (noneAcross_openTag _ _),
      comments_openTag, TagComments.comments_append hbody (noneAcross_closeTag _ _),
      comments_closeTag, ih hrest]
    simp [pieces, Piece.scanned_eq]

/-! ### A body that leaves a comment open -/

/-- A template begins with markup. -/
theorem exists_front (template : Template) (offset : Nat) : ∃ p ∈ template.pieces offset,
    p.dialect = .tag ∧ p.offset = offset ∧ (p.text ≠ [] → template.text ≠ []) := by
  cases template with
  | markup front => exact ⟨_, List.mem_singleton_self _, rfl, rfl, id⟩
  | embed front body rest =>
    refine ⟨_, List.mem_cons_self, rfl, rfl, fun hne hnil => hne ?_⟩
    exact (List.append_eq_nil_iff.mp hnil).1

/-- The closing delimiter of a comment has nothing in common with the tag. -/
theorem not_isInfix_append_closeTag {inside : List Char} (h : ¬ TagComments.closer <:+: inside) :
    ¬ TagComments.closer <:+: inside ++ closeTag := by
  intro hin
  rcases List.infix_append_iff_ne_nil.mp hin with hin | hin | ⟨left, right, -, hright, heq, -, hin⟩
  · exact h hin
  · exact absurd hin (by decide)
  -- a delimiter across the end would have the bracket of the tag in it
  · obtain ⟨c, right, rfl⟩ := List.exists_cons_of_ne_nil hright
    obtain rfl : c = '<' := (List.cons_prefix_cons.mp hin).1
    have hmem : '<' ∈ TagComments.closer := by
      rw [heq]
      simp
    exact absurd hmem (by decide)

/-- **A body that leaves a comment open.** A comment of the scan begins in the body and is not over
where the markup behind the body begins. -/
theorem exists_across (hopen : ∃ body ∈ template.bodies, ¬ ClosesTagComments body.text)
    (offset : Nat) : ∃ across ∈ JumpLexer.comments .tag offset template.text,
      ∃ p ∈ template.pieces offset, p.dialect = .tag ∧ across.start < p.offset ∧
        (p.text ≠ [] → p.offset < across.stop) := by
  induction template generalizing offset with
  | markup front => simp [bodies] at hopen
  | embed front body rest ih =>
    let inside := offset + front.text.length + openTag.length
    let behind := inside + body.text.length + closeTag.length
    -- up to the body the scan finds what is in the markup
    have hsplit : JumpLexer.comments .tag offset (Template.embed front body rest).text
        = JumpLexer.comments .tag offset front.text ++
          JumpLexer.comments .tag inside (body.text ++ (closeTag ++ rest.text)) := by
      rw [text, TagComments.comments_append front.closes (noneAcross_openTag _ _),
        comments_openTag]
    by_cases hcloses : ClosesTagComments body.text
    -- the comment is in the rest
    · have hrest : ∃ body ∈ rest.bodies, ¬ ClosesTagComments body.text := by
        obtain ⟨open', hmem, hnot⟩ := hopen
        rcases List.mem_cons.mp hmem with rfl | hmem
        · exact absurd hcloses hnot
        · exact ⟨open', hmem, hnot⟩
      obtain ⟨across, hacross, p, hp, hwhere⟩ := ih hrest behind
      refine ⟨across, ?_, p, List.mem_cons_of_mem _ (List.mem_cons_of_mem _ hp), hwhere⟩
      rw [hsplit, TagComments.comments_append hcloses (noneAcross_closeTag _ _), comments_closeTag]
      exact List.mem_append_right _ (List.mem_append_right _ hacross)
    · obtain ⟨before, unclosed, hbody, hnot, hcomment⟩ := TagComments.exists_open hcloses
      obtain ⟨across, hacross, hstart, hstop⟩ :=
        hcomment inside (closeTag ++ rest.text) (noneAcross_closeTag _ _)
      obtain ⟨p, hp, htag, hoffset, hne⟩ := rest.exists_front behind
      have hlength : body.text.length
          = before.length + (TagComments.opener.length + unclosed.length) := by
        rw [hbody, List.length_append, List.length_append]
      refine ⟨across, ?_, p, List.mem_cons_of_mem _ (List.mem_cons_of_mem _ hp), htag, ?_, ?_⟩
      · rw [hsplit]
        exact List.mem_append_right _ hacross
      · have hpos : 0 < closeTag.length := by decide
        rw [hstart, hoffset]
        simp only [behind]
        omega
      · intro htext
        -- the comment is closed behind the tag at the earliest
        have hlt := JumpLexer.lt_through_append TagComments.closer_ne_nil
          (not_isInfix_append_closeTag hnot) (hne htext)
        rw [List.append_assoc, List.length_append] at hlt
        rw [hstop, hoffset]
        simp only [behind]
        omega

/-! ### The same markup around all bodies -/

/-- The template that has the bodies, with the same markup before, between and behind them. -/
def around (front : Markup) : List ScriptBody → Template
  | [] => .markup front
  | body :: rest => .embed front body (around front rest)

theorem bodies_around (front : Markup) (bodies : List ScriptBody) :
    (around front bodies).bodies = bodies := by
  induction bodies with
  | nil => rfl
  | cons body rest ih => rw [around, Template.bodies, ih]

theorem text_of_mem_around {front : Markup} {bodies : List ScriptBody}
    (h : p ∈ (around front bodies).pieces offset) (htag : p.dialect = .tag) :
    p.text = front.text := by
  induction bodies generalizing offset with
  | nil =>
    obtain rfl := List.mem_singleton.mp h
    rfl
  | cons body rest ih =>
    simp only [around, pieces, List.mem_cons] at h
    rcases h with rfl | rfl | h
    · rfl
    · exact absurd htag (by simp)
    · exact ih h

/-- A comment without anything in it. -/
def emptyComment : Markup where
  text := "<!------>".toList
  noOpening := by
    intro tag htag hpart
    exact absurd (htag.length_lt.trans_le hpart.length_le) (by decide)
  noClosing := by
    intro tag htag hpart
    exact absurd (htag.length_lt.trans_le hpart.length_le) (by decide)
  closes := by
    unfold ClosesTagComments TagComments.IsClosed
    decide

end Template

end Cfml
