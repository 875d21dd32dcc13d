/-
Where the values of documentation blocks stand.

The lines of a block are runs of characters without a line break, so a line break stands between any
two of them (`pairwise_docLines_apart`), also when less counts of them than is there. A value that
is put together from several lines therefore goes across a line break, and any other one stands in
the source as it is (`spells_of_mem_docEntries`). In either case its last piece stands where it
ends, with no white space behind it (`isPlaced_of_mem_drafts`).
-/
import Cfml.DocBlock
import Cfml.Proofs.Source.Captures
import Cfml.Proofs.Text.Blank

set_option autoImplicit false

namespace Cfml

variable {src : Source}

/-- A part of a line that is not empty stands in the source between boundaries. -/
structure Capture.IsLine (line : Capture) (src : Source) : Prop where
  ne_nil : line.text ≠ []
  clean : ∀ d ∈ line.text, isLineBreak d = false
  slice : src.slice line.start line.stop = line.text

/-- A line break stands between the two. -/
def Capture.Apart (src : Source) (line next : Capture) : Prop :=
  ∃ place d, line.stop ≤ place ∧ place < next.start ∧ src.text[place]? = some d ∧
    isLineBreak d = true

namespace Capture.IsLine

variable {line : Capture}

theorem isIn (h : line.IsLine src) : line.IsIn src := by
  refine ⟨h.slice, ?_, ?_⟩
  · obtain ⟨c, rest, hcons⟩ := List.exists_cons_of_ne_nil h.ne_nil
    have hc : c ≠ '\n' := by
      rintro rfl
      exact absurd (h.clean '\n' (by simp [hcons])) (by decide)
    exact Source.isBoundary_of_getElem? (Source.getElem?_of_slice_cons (h.slice.trans hcons)) hc
  · obtain ⟨init, c, hconcat⟩ := (List.eq_nil_or_concat line.text).resolve_left h.ne_nil
    rw [List.concat_eq_append] at hconcat
    have hc : c ≠ '\r' := by
      rintro rfl
      exact absurd (h.clean '\r' (by simp [hconcat])) (by decide)
    rw [Capture.stop, hconcat, List.length_append, ← Nat.add_assoc]
    exact Source.isBoundary_succ (Source.getElem?_of_slice (h.slice.trans hconcat)) hc

/-- What is left of a line when both ends are cut. -/
theorem of_part {short : Capture} {front back : List Char} (h : line.IsLine src)
    (hne : short.text ≠ []) (htext : line.text = front ++ (short.text ++ back))
    (hstart : short.start = line.start + front.length) : short.IsLine src := by
  refine ⟨hne, ?_, ?_⟩
  · intro d hd
    exact h.clean d (by simp [htext, hd])
  · rw [Capture.stop, hstart]
    exact Source.slice_part (h.slice.trans htext)

end Capture.IsLine

namespace DocBlock

/-! ## Lines -/

theorem dropClosingStars_prefix (text : List Char) : dropClosingStars text <+: text := by
  unfold dropClosingStars
  simp only
  split
  · refine ( trimRight_prefix _).trans ?_
    rw [← List.reverse_suffix, List.reverse_reverse]
    exact (List.dropWhile_suffix _).trans (List.dropWhile_suffix _)
  · exact trimRight_prefix text

theorem exists_of_shorten {text : List Char → List Char} (htext : ∀ t, text t <+: t)
    (line : Capture) : ∃ front back, line.text = front ++ ((shorten text line).text ++ back) ∧
      (shorten text line).start = line.start + front.length := by
  have hreaches := ((Reader.ofText line.text line.start).blanks_reaches.trans
    (Reader.skipWhile_reaches (· == '*') _)).trans (Reader.blanks_reaches _)
  obtain ⟨front, hahead, hoffset, -⟩ := hreaches
  obtain ⟨back, hback⟩ := htext (content line).text
  refine ⟨front, back, ?_, hoffset⟩
  rw [show (shorten text line).text ++ back = (content line).text from hback]
  exact hahead

/-- What counts of a line stands in it. -/
theorem exists_of_mem_shortened {lines : List Capture} {short : Capture}
    (h : short ∈ shortened lines) : ∃ line ∈ lines, ∃ front back,
      line.text = front ++ (short.text ++ back) ∧ short.start = line.start + front.length := by
  fun_induction shortened lines with
  | case1 => exact absurd h List.not_mem_nil
  | case2 last =>
    obtain rfl := List.mem_singleton.mp h
    exact ⟨last, List.mem_singleton_self last, exists_of_shorten dropClosingStars_prefix last⟩
  | case3 line rest _ ih =>
    rcases List.mem_cons.mp h with rfl | h
    · exact ⟨line, List.mem_cons_self, exists_of_shorten trimRight_prefix line⟩
    · obtain ⟨line', hmem, hpart⟩ := ih h
      exact ⟨line', List.mem_cons_of_mem line hmem, hpart⟩

theorem isLine_of_mem_contents {lines : List Capture} (hlines : ∀ line ∈ lines, line.IsLine src) :
    ∀ short ∈ contents lines, short.IsLine src := by
  intro short hshort
  obtain ⟨hmem, hne⟩ := List.mem_filter.mp hshort
  obtain ⟨line, hline, front, back, htext, hstart⟩ := exists_of_mem_shortened hmem
  exact (hlines line hline).of_part (by simpa using hne) htext hstart

theorem pairwise_contents_apart {lines : List Capture}
    (h : lines.Pairwise (Capture.Apart src)) :
    (contents lines).Pairwise (Capture.Apart src) := by
  apply List.Pairwise.filter
  fun_induction shortened lines with
  | case1 => exact List.Pairwise.nil
  | case2 last => exact List.pairwise_singleton _ _
  | case3 line rest _ ih =>
    obtain ⟨hline, hrest⟩ := List.pairwise_cons.mp h
    refine List.Pairwise.cons ?_ (ih hrest)
    intro short hshort
    obtain ⟨next, hnext, hstart, -⟩ := mem_shortened hshort
    obtain ⟨place, d, hstop, hlt, hbreak⟩ := hline next hnext
    have hle := (shorten_within length_trimRight_le line).2
    exact ⟨place, d, Nat.le_trans hle hstop, Nat.lt_of_lt_of_le hlt hstart, hbreak⟩

/-! ## Entries under way -/

/-- The value of an entry under way. -/
def Draft.value (draft : Draft) : List Char := [' '].intercalate draft.pieces

/-- The value of the entry stands in the source, if it is on one line, and a line break stands
between it and the line. -/
structure Draft.IsIn (draft : Draft) (src : Source) : Prop where
  le : draft.start ≤ draft.stop
  spells : src.Spells ⟨draft.start, draft.stop, le⟩ draft.value

/-- A line break stands between the entry and the line. -/
def Draft.Before (src : Source) (draft : Draft) (line : Capture) : Prop :=
  ∃ place d, draft.stop ≤ place ∧ place < line.start ∧ src.text[place]? = some d ∧
    isLineBreak d = true

/-- A line that goes on with an entry leaves it across a line break. -/
theorem Draft.IsIn.goOn {draft : Draft} {line : Capture} (h : draft.IsIn src)
    (hbefore : draft.Before src line) (hline : line.IsLine src) :
    Draft.IsIn { draft with pieces := draft.pieces ++ [line.text], stop := line.stop } src := by
  obtain ⟨place, d, hstop, hlt, hget, hbreak⟩ := hbefore
  have hle := h.le
  have hle' : line.start ≤ line.stop := Nat.le_add_right _ _
  refine ⟨by simp only; omega, h.spells.start, hline.isIn.stop, ?_⟩
  intro hclean
  have hmem : d ∈ src.slice draft.start line.stop := by
    rw [Source.slice]
    apply List.mem_of_getElem? (i := place - draft.start)
    rw [List.getElem?_take_of_lt (by omega), List.getElem?_drop,
      show draft.start + (place - draft.start) = place by omega, hget]
  exact absurd (hbreak.symm.trans (hclean d hmem)) Bool.false_ne_true.symm

/-- Behind a key the rest of the line is read. -/
theorem exists_of_key? {line : Capture} {key : List Char} {r : Reader}
    (h : key? line = some (key, r)) : ∃ passed, line.text = passed ++ r.ahead ∧
      r.offset = line.start + passed.length ∧ line.stop = r.offset + r.ahead.length := by
  simp only [key?, Option.bind_eq_bind, Option.bind_eq_some_iff, Prod.exists] at h
  obtain ⟨sign, hsign, _, behind, hname, heq⟩ := h
  obtain ⟨-, rfl⟩ := by simpa using heq
  have hreaches := ((Reader.one?_reaches hsign).trans (Reader.name?_reaches hname)).trans
    behind.blanks_reaches
  have hlength := hreaches.offset_add_length
  obtain ⟨passed, hahead, hoffset, -⟩ := hreaches
  exact ⟨passed, hahead, hoffset, hlength.symm⟩

theorem isIn_of_addLine {draft : Option Draft} {line : Capture}
    (hdraft : ∀ d ∈ draft, d.IsIn src ∧ d.Before src line) (hline : line.IsLine src) :
    (∀ d ∈ (addLine draft line).1, d.IsIn src ∧ d.stop = line.stop) ∧
      ∀ d ∈ (addLine draft line).2, d.IsIn src := by
  unfold addLine
  split
  · next key r hkey =>
    refine ⟨?_, fun d hd => (hdraft d hd).1⟩
    rintro _ ⟨⟩
    obtain ⟨passed, hsplit, hstart, hstop⟩ := exists_of_key? hkey
    refine ⟨⟨by simp only; omega, ?_, hline.isIn.stop, fun _ => ?_⟩, rfl⟩
    · simp only [hstart]
      exact hline.isIn.isBoundary hline.clean hsplit
    · have hvalue : Draft.value ⟨key, if r.ahead.isEmpty then []
          else [r.ahead], r.offset, line.stop⟩ = r.ahead := by
        unfold Draft.value
        split
        · next hempty => simpa using (List.isEmpty_iff.mp hempty).symm
        · simp
      rw [hvalue]
      simp only [hstop, hstart]
      have hwhole : src.slice line.start line.stop = passed ++ (r.ahead ++ []) := by
        rw [hline.slice, hsplit, List.append_nil]
      exact Source.slice_part hwhole
  · refine ⟨?_, by simp⟩
    rintro _ ⟨⟩
    refine ⟨?_, rfl⟩
    cases draft with
    | none =>
      refine ⟨Nat.le_add_right _ _, hline.isIn.start, hline.isIn.stop, fun _ => ?_⟩
      simpa [Draft.value] using hline.slice
    | some draft =>
      obtain ⟨hin, hbefore⟩ := hdraft draft rfl
      exact hin.goOn hbefore hline

/-- **The values of the entries stand in the source.** The induction is on the lines, behind an
entry under way. -/
theorem isIn_of_mem_drafts {draft : Option Draft} {lines : List Capture}
    (hlines : ∀ line ∈ lines, line.IsLine src) (hapart : lines.Pairwise (Capture.Apart src))
    (hdraft : ∀ d ∈ draft, d.IsIn src ∧ ∀ line ∈ lines, d.Before src line) :
    ∀ d ∈ drafts draft lines, d.IsIn src := by
  induction lines generalizing draft with
  | nil =>
    intro d hd
    exact (hdraft d (by simpa [drafts] using hd)).1
  | cons line rest ih =>
    obtain ⟨hbehind, hrest⟩ := List.pairwise_cons.mp hapart
    obtain ⟨hline, hlines⟩ := List.forall_mem_cons.mp hlines
    obtain ⟨hnext, hcomplete⟩ := isIn_of_addLine
      (fun d hd => ⟨(hdraft d hd).1, (hdraft d hd).2 line List.mem_cons_self⟩) hline
    intro d hd
    simp only [drafts, List.mem_append, Option.mem_toList] at hd
    rcases hd with hd | hd
    · exact hcomplete d hd
    · refine ih hlines hrest ?_ d hd
      intro d hd
      obtain ⟨hin, hstop⟩ := hnext d hd
      refine ⟨hin, ?_⟩
      intro later hlater
      obtain ⟨place, c, hle, hlt, hbreak⟩ := hbehind later hlater
      exact ⟨place, c, hstop ▸ hle, hlt, hbreak⟩

/-! ## The last piece of an entry -/

/-- The text is the last piece of the entry: it stands where that ends, and no white space ends
it. -/
structure Draft.EndsIn (draft : Draft) (src : Source) (piece : Capture) : Prop where
  start_le : draft.start ≤ piece.start
  stop_eq : draft.stop = piece.stop
  isLine : piece.IsLine src
  trimmed : trimRight piece.text = piece.text

/-- The last piece of the entry, if it has one, stands where it ends. -/
def Draft.IsPlaced (draft : Draft) (src : Source) : Prop :=
  ∀ text ∈ draft.pieces.getLast?, ∃ start, draft.EndsIn src ⟨start, text⟩

theorem trimRight_dropClosingStars (text : List Char) :
    trimRight (dropClosingStars text) = dropClosingStars text := by
  unfold dropClosingStars
  simp only
  split
  · exact trimRight_trimRight _
  · exact trimRight_trimRight text

/-- No white space ends what counts of a line. -/
theorem trimRight_of_mem_contents {lines : List Capture} :
    ∀ short ∈ contents lines, trimRight short.text = short.text := by
  intro short hshort
  have hmem := (List.mem_filter.mp hshort).1
  clear hshort
  fun_induction shortened lines with
  | case1 => exact absurd hmem List.not_mem_nil
  | case2 last =>
    obtain rfl := List.mem_singleton.mp hmem
    exact trimRight_dropClosingStars _
  | case3 line rest _ ih =>
    rcases List.mem_cons.mp hmem with rfl | hmem
    · exact trimRight_trimRight _
    · exact ih hmem

theorem isPlaced_of_addLine {draft : Option Draft} {line : Capture}
    (hdraft : ∀ d ∈ draft, d.IsPlaced src ∧ d.start ≤ line.start) (hline : line.IsLine src)
    (htrim : trimRight line.text = line.text) :
    (∀ d ∈ (addLine draft line).1, d.IsPlaced src ∧ d.start ≤ line.stop) ∧
      ∀ d ∈ (addLine draft line).2, d.IsPlaced src := by
  have hle : line.start ≤ line.stop := Nat.le_add_right _ _
  unfold addLine
  split
  · next key r hkey =>
    refine ⟨?_, fun d hd => (hdraft d hd).1⟩
    rintro _ ⟨⟩
    obtain ⟨passed, hsplit, hstart, hstop⟩ := exists_of_key? hkey
    refine ⟨?_, by simp only; omega⟩
    intro text htext
    cases hahead : r.ahead with
    | nil => exact absurd htext (by simp [hahead])
    | cons c rest =>
      obtain rfl : r.ahead = text := by simpa [hahead] using htext
      have hne : r.ahead ≠ [] := by simp [hahead]
      refine ⟨r.offset, Nat.le_refl _, hstop, ?_, ?_⟩
      · have hsplit : line.text = passed ++ (r.ahead ++ []) := by rw [hsplit, List.append_nil]
        exact hline.of_part hne hsplit hstart
      · -- the line and what is read of it end with the same character
        apply trimRight_of_getLast?
        have hlast := (exists_trimRight line.text).2
        rwa [htrim, hsplit, List.getLast?_append_of_ne_nil passed hne] at hlast
  · refine ⟨?_, by simp⟩
    rintro _ ⟨⟩
    have hstart : (draft.getD ⟨"hint".toList, [], line.start, line.stop⟩).start ≤ line.start := by
      cases draft with
      | none => exact Nat.le_refl _
      | some draft => exact (hdraft draft rfl).2
    refine ⟨?_, hstart.trans hle⟩
    intro text htext
    obtain rfl : line.text = text := by simpa using htext
    exact ⟨line.start, hstart, rfl, hline, htrim⟩

/-- **The last piece of an entry stands where it ends.** The induction is on the lines, behind an
entry under way. -/
theorem isPlaced_of_mem_drafts {draft : Option Draft} {lines : List Capture}
    (hlines : ∀ line ∈ lines, line.IsLine src ∧ trimRight line.text = line.text)
    (hpairwise : lines.Pairwise Follows)
    (hdraft : ∀ d ∈ draft, d.IsPlaced src ∧ ∀ line ∈ lines, d.start ≤ line.start) :
    ∀ d ∈ drafts draft lines, d.IsPlaced src := by
  induction lines generalizing draft with
  | nil =>
    intro d hd
    exact (hdraft d (by simpa [drafts] using hd)).1
  | cons line rest ih =>
    obtain ⟨hbehind, hrest⟩ := List.pairwise_cons.mp hpairwise
    obtain ⟨⟨hline, htrim⟩, hlines⟩ := List.forall_mem_cons.mp hlines
    obtain ⟨hnext, hcomplete⟩ := isPlaced_of_addLine
      (fun d hd => ⟨(hdraft d hd).1, (hdraft d hd).2 line List.mem_cons_self⟩) hline htrim
    intro d hd
    simp only [drafts, List.mem_append, Option.mem_toList] at hd
    rcases hd with hd | hd
    · exact hcomplete d hd
    · refine ih hlines hrest ?_ d hd
      intro d hd
      refine ⟨(hnext d hd).1, fun later hlater => ?_⟩
      exact (hnext d hd).2.trans (hbehind later hlater)

theorem suffix_intercalate (separator : List Char) (init : List (List Char)) (last : List Char) :
    last <:+ separator.intercalate (init ++ [last]) := by
  induction init with
  | nil => simp
  | cons first init ih =>
    obtain ⟨next, rest, hrest⟩ := List.exists_cons_of_ne_nil (List.concat_ne_nil last init)
    rw [List.cons_append, hrest, List.intercalate_cons_cons, ← hrest]
    exact ih.trans (List.suffix_append _ _)

/-- No white space ends the value of such an entry. -/
theorem Draft.IsPlaced.trimRight_value {draft : Draft} (h : draft.IsPlaced src) :
    trimRight draft.value = draft.value := by
  rcases List.eq_nil_or_concat' draft.pieces with hnil | ⟨init, last, hconcat⟩
  · rw [Draft.value, hnil]
    rfl
  · obtain ⟨start, hends⟩ := h last (by simp [hconcat])
    obtain ⟨front, hvalue⟩ : last <:+ draft.value := by
      rw [Draft.value, hconcat]
      exact suffix_intercalate [' '] init last
    have htrimmed : trimRight last = last := hends.trimmed
    rw [← hvalue, trimRight_append (by rw [htrimmed]; exact hends.isLine.ne_nil), htrimmed]

end DocBlock

namespace Source

/-! ## The lines and entries of a source -/

theorem runOfLine_reaches {r later : Reader} (h : r.some? (!isLineBreak ·) = some later) :
    r.Reaches later := Reader.some?_reaches h

/-- The pattern of a line of a block. -/
def runOfLine : Pattern Unit := .plain (·.some? (!isLineBreak ·)) @runOfLine_reaches

variable {within : Option Span}

/-- A line goes up to a line break, or to the end of what is read. -/
theorem exists_of_mem_runs {run : Occurrence Unit} (h : run ∈ src.occurrencesIn within runOfLine) :
    Capture.IsLine ⟨run.start, src.slice run.start run.stop⟩ src ∧
      run.stop = run.start + (src.slice run.start run.stop).length ∧
      (run.stop < (src.bounds within).2 →
        ∃ d, src.text[run.stop]? = some d ∧ isLineBreak d = true) := by
  obtain ⟨passed, rest, later, hahead, -, hstart, hread, hstop⟩ :=
    isRead_of_mem_occurrences (r := src.reader (src.bounds within).1 (src.bounds within).2) h
  have hplace := (Reader.Reads.reader src within).passing hahead
  have hread := Pattern.read_plain Reader.some?_reaches hread
  obtain ⟨line, hline, hne, hclean, hlater⟩ := Reader.exists_of_some? hread
  have hend : later.ahead.head?.any (!isLineBreak ·) = false := by
    obtain ⟨second, -, rfl⟩ := Option.map_eq_some_iff.mp hread
    exact Reader.head?_skipWhile _ second
  have hslice := hplace.slice_eq hline
  have hlength : run.stop = run.start + line.length := by
    rw [hstop, hlater, hstart]
    rfl
  rw [Reader.offset_passing, ← hstart, ← hlength] at hslice
  refine ⟨⟨hslice ▸ hne, ?_, ?_⟩, ?_, ?_⟩
  · simpa [hslice] using hclean
  · simp only [Capture.stop, hslice]
    rw [← hlength, hslice]
  · rw [hslice]
    exact hlength
  · intro hlt
    have hbehind := hplace.passing hline
    rw [← hlater] at hbehind
    have hpos := hbehind.length_eq
    rw [← hstop] at hpos
    obtain ⟨d, more, hd⟩ := List.exists_cons_of_ne_nil
      (List.ne_nil_of_length_pos (show 0 < later.ahead.length by omega))
    refine ⟨d, ?_, ?_⟩
    · rw [hstop]
      exact getElem?_of_slice_cons (hbehind.ahead ▸ hd)
    · rw [hd] at hend
      simpa using hend

theorem isLine_of_mem_docLines {line : Capture} (h : line ∈ src.docLines within) :
    line.IsLine src := by
  obtain ⟨run, hrun, rfl⟩ := List.mem_map.mp h
  exact (exists_of_mem_runs hrun).1

/-- **A line break stands between any two lines.** -/
theorem pairwise_docLines_apart (src : Source) (within : Option Span) :
    (src.docLines within).Pairwise (Capture.Apart src) := by
  have hpairwise : (src.occurrencesIn within runOfLine).Pairwise fun run next =>
      run.stop ≤ next.start := occurrencesFrom_pairwise runOfLine 0 _ _ _
  rw [docLines, List.pairwise_map]
  refine hpairwise.imp_of_mem ?_
  intro run next hrun hnext hle
  obtain ⟨-, hlength, hbreak⟩ := exists_of_mem_runs hrun
  obtain ⟨hline, hlength', -⟩ := exists_of_mem_runs hnext
  obtain ⟨c, rest, hcons⟩ := List.exists_cons_of_ne_nil hline.ne_nil
  have hwithin := (occurrences_within
    (r := src.reader (src.bounds within).1 (src.bounds within).2) hnext).2
  rw [(Reader.Reads.reader src within).length_eq] at hwithin
  have hextent := (src.isExtent_bounds within).start_le_stop
  have hpos := List.length_pos_of_ne_nil hline.ne_nil
  simp only [Source.reader, Reader.ofText] at hwithin hpos
  obtain ⟨d, hd, hisBreak⟩ := hbreak (by omega)
  refine ⟨run.stop, d, hlength.ge, ?_, hd, hisBreak⟩
  -- the next line does not begin with the line break
  refine Nat.lt_of_le_of_ne hle ?_
  intro heq
  have hfirst : src.text[next.start]? = some c :=
    getElem?_of_slice_cons (hline.slice.trans hcons)
  have hclean := hline.clean c (hcons ▸ List.mem_cons_self)
  rw [← show run.stop = next.start from heq, hd] at hfirst
  rw [Option.some.inj hfirst, hclean] at hisBreak
  exact Bool.false_ne_true hisBreak

/-- The entries of a block, as they were under way. -/
def docDrafts (src : Source) (within : Option Span) : List DocBlock.Draft :=
  DocBlock.drafts none (DocBlock.contents (src.docLines within))

section Drafts

variable {draft : DocBlock.Draft}

theorem isIn_of_mem_docDrafts (h : draft ∈ src.docDrafts within) : draft.IsIn src :=
  DocBlock.isIn_of_mem_drafts
    (DocBlock.isLine_of_mem_contents fun _ hline => isLine_of_mem_docLines hline)
    (DocBlock.pairwise_contents_apart (src.pairwise_docLines_apart within)) (by simp) draft h

theorem isPlaced_of_mem_docDrafts (h : draft ∈ src.docDrafts within) : draft.IsPlaced src :=
  DocBlock.isPlaced_of_mem_drafts
    (fun line hline => ⟨DocBlock.isLine_of_mem_contents
      (fun _ hline => isLine_of_mem_docLines hline) line hline,
      DocBlock.trimRight_of_mem_contents line hline⟩)
    (DocBlock.pairwise_contents (src.pairwise_docLines within)) (by simp) draft h

end Drafts

variable {entry : DocEntry}

/-- No white space ends the value of an entry. -/
theorem trimRight_of_mem_docEntries (h : entry ∈ src.docEntries within) :
    trimRight entry.value = entry.value := by
  obtain ⟨draft, hdraft, rfl⟩ := List.mem_pmap.mp h
  exact (isPlaced_of_mem_docDrafts hdraft).trimRight_value

end Source

end Cfml
