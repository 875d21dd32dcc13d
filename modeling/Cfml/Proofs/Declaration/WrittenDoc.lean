/-
Documentation blocks, read as they are written.

A block is written line by line: each line has a star, and behind it a line of a value, the first of
which follows a key, or nothing. Whatever ends the lines, their runs of characters are found one
after the other (`docLines_of_rows`). What counts of them are the lines of the values alone, at the
places where they stand (`contents_captures`); the space before the end of the block counts for
nothing. A line with a key begins an entry and every other line goes on with it, so the entries are
those that were written, each with its lines (`forall₂_drafts`).
-/
import Cfml.Proofs.Declaration.DocEntries
import Cfml.Proofs.LineEnd.Positions

set_option autoImplicit false

namespace Cfml

/-! ## What is written -/

/-- The end of a line, and the ends of blank lines behind it, which have a star only. -/
structure LineGap where
  ending : LineEnd
  blanks : List LineEnd

/-- A line of a value, and what stands between it and the next one. -/
structure ValueLine where
  text : List Char
  ne_nil : text ≠ []
  trimmed : trim text = text
  noBreak : ∀ c ∈ text, isLineBreak c = false
  noStar : text.head? ≠ some '*'
  gap : LineGap

/-- A line that does not begin with a key. -/
structure PlainLine extends ValueLine where
  noKey : ∀ rest, text = '@' :: rest → rest.head?.any DocBlock.key?.isKeyPart = false

/-- An entry with a key. The first line of its value stands behind the key. -/
structure KeyedLines where
  key : List Char
  key_ne_nil : key ≠ []
  isKey : ∀ c ∈ key, DocBlock.key?.isKeyPart c = true
  isLower : lower key = key
  first : ValueLine
  more : List PlainLine

/-- A documentation block: what ends its first line, the lines before any key, if there are any, and
the entries with keys. -/
structure WrittenDoc where
  gap : LineGap
  hint : List PlainLine
  entries : List KeyedLines

/-- A line of a block: what stands behind its star, and what ends it. -/
abbrev DocRow := List Char × LineEnd

namespace DocRow

/-- The line without what ends it. -/
def line (row : DocRow) : List Char := [' ', '*'] ++ row.1

/-- The line as it is written. -/
def text (row : DocRow) : List Char := row.line ++ row.2.text

end DocRow

/-- The blank lines. -/
def LineGap.rows (gap : LineGap) : List DocRow := gap.blanks.map fun e => ([], e)

/-- The line with a text behind its star, and the blank lines behind it. -/
def ValueLine.rows (content : List Char) (line : ValueLine) : List DocRow :=
  (' ' :: content, line.gap.ending) :: line.gap.rows

namespace KeyedLines

/-- What stands in the line of the key. -/
def keyText (entry : KeyedLines) : List Char := '@' :: (entry.key ++ ' ' :: entry.first.text)

/-- The lines of the entry. -/
def rows (entry : KeyedLines) : List DocRow :=
  entry.first.rows entry.keyText ++ entry.more.flatMap fun line => line.rows line.text

end KeyedLines

namespace WrittenDoc

/-- The lines of the block but the first and the last one. -/
def rows (doc : WrittenDoc) : List DocRow :=
  doc.gap.rows ++ ((doc.hint.flatMap fun line => line.rows line.text)
    ++ doc.entries.flatMap KeyedLines.rows)

/-- What stands in the block. -/
def inside (doc : WrittenDoc) : List Char :=
  doc.gap.ending.text ++ (doc.rows.flatMap DocRow.text ++ [' '])

/-- The block as it is written. -/
def text (doc : WrittenDoc) : List Char := ['/', '*', '*'] ++ (doc.inside ++ ['*', '/'])

/-- The keys with the lines of their values. -/
def values (doc : WrittenDoc) : List (List Char × List (List Char)) :=
  (if doc.hint.isEmpty then [] else [("hint".toList, doc.hint.map (·.text))])
    ++ doc.entries.map fun entry => (entry.key, entry.first.text :: entry.more.map (·.text))

end WrittenDoc

/-- The entry has the key, its value are the lines with single spaces between them, and a value of
one line is the text of its span. -/
structure IsReadAs (src : Source) (written : List Char × List (List Char)) (entry : DocEntry) :
    Prop where
  key : entry.key = written.1
  value : entry.value = [' '].intercalate written.2
  text : written.2.length = 1 → src.textOf entry.span = entry.value

/-! ## The lines are found -/

namespace DocRow

/-- The captures of lines the first of which begins at the offset. -/
def captures (offset : Nat) : List DocRow → List Capture
  | [] => []
  | row :: rows => ⟨offset, line row⟩ :: captures (offset + (text row).length) rows

theorem captures_append (offset : Nat) (rows rows' : List DocRow) :
    captures offset (rows ++ rows')
      = captures offset rows ++ captures (offset + (rows.flatMap text).length) rows' := by
  induction rows generalizing offset with
  | nil => rfl
  | cons row rows ih =>
    rw [List.cons_append, captures, ih, captures, List.flatMap_cons, List.length_append,
      Nat.add_assoc]
    rfl

end DocRow

namespace Source

section Lines

variable {r : Reader} {rest : List Char}

/-- Line breaks are passed over. -/
theorem occurrences_lineEnd (e : LineEnd) (hahead : r.ahead = e.text ++ rest) :
    occurrences runOfLine r = occurrences runOfLine (r.passing e.text rest) := by
  apply occurrences_append hahead
  intro front back hne hsplit
  obtain ⟨c, more, rfl⟩ := List.exists_cons_of_ne_nil hne
  have hbreak := e.isLineBreak_of_mem_text c (by simp [hsplit])
  have hone : (r.passing front (c :: more ++ rest)).one? (!isLineBreak ·) = none :=
    Reader.one?_eq_none (by simp [hbreak])
  exact Option.map_eq_none_iff.mpr (Option.map_eq_none_iff.mpr hone)

/-- A line is found where it begins. -/
theorem occurrences_line {line : List Char} (hahead : r.ahead = line ++ rest) (hne : line ≠ [])
    (hline : ∀ c ∈ line, isLineBreak c = false)
    (hrest : rest.head?.any (!isLineBreak ·) = false) :
    ∃ o : Occurrence Unit, o.start = r.offset ∧ o.stop = r.offset + line.length ∧
      occurrences runOfLine r = o :: occurrences runOfLine (r.passing line rest) := by
  have hread : r.some? (!isLineBreak ·) = some (r.passing line rest) :=
    Reader.some?_of_append hahead hne (by simpa using hline) hrest
  obtain ⟨c, line, rfl⟩ := List.exists_cons_of_ne_nil hne
  have hpattern : runOfLine.read r = some ((), r.passing (c :: line) rest) :=
    Option.map_eq_some_iff.mpr ⟨_, hread, rfl⟩
  exact ⟨_, rfl, rfl, occurrences_eq_cons hahead hpattern⟩

variable {src : Source} {stop : Nat}

/-- **The lines are found one after the other**, and the space behind them. The induction is on the
lines, wherever the first of them begins. -/
theorem map_runs {rows : List DocRow}
    (hrows : ∀ row ∈ rows, ∀ c ∈ row.1, isLineBreak c = false) (hreads : r.Reads src stop)
    (hahead : r.ahead = rows.flatMap DocRow.text ++ [' ']) :
    (occurrences runOfLine r).map (fun o => (⟨o.start, src.slice o.start o.stop⟩ : Capture))
      = DocRow.captures r.offset rows
        ++ [⟨r.offset + (rows.flatMap DocRow.text).length, [' ']⟩] := by
  induction rows generalizing r with
  | nil =>
    have hspace : r.ahead = [' '] ++ [] := hahead
    obtain ⟨o, hstart, hstop, heq⟩ := occurrences_line hspace (by simp) (by decide) rfl
    have hslice := hreads.slice_eq hspace
    have hnone : occurrences runOfLine (r.passing [' '] []) = [] := rfl
    rw [heq, hnone, List.map_singleton, hstart, hstop, hslice]
    rfl
  | cons row rows ih =>
    obtain ⟨hrow, hrows⟩ := List.forall_mem_cons.mp hrows
    let behind := rows.flatMap DocRow.text ++ [' ']
    have hsplit : r.ahead = row.line ++ (row.2.text ++ behind) := by
      rw [hahead, List.flatMap_cons, DocRow.text]
      simp only [List.append_assoc, behind]
    have hline : ∀ c ∈ row.line, isLineBreak c = false := by
      rw [DocRow.line, List.forall_mem_append]
      exact ⟨by decide, hrow⟩
    have hbreak : (row.2.text ++ behind).head?.any (!isLineBreak ·) = false := by
      cases row.2 <;> rfl
    obtain ⟨o, hstart, hstop, heq⟩ := occurrences_line hsplit (by simp [DocRow.line]) hline hbreak
    have hslice := hreads.slice_eq hsplit
    have hwhole : r.ahead = row.text ++ behind := by
      rw [hsplit, DocRow.text, List.append_assoc]
    rw [heq, occurrences_lineEnd row.2 rfl, Reader.passing_passing, List.map_cons, hstart, hstop,
      hslice, show row.line ++ row.2.text = row.text from rfl,
      ih hrows (hreads.passing hwhole) rfl, Reader.offset_passing, List.flatMap_cons,
      List.length_append, Nat.add_assoc]
    rfl

end Lines

end Source

/-! ## What counts of them -/

namespace DocBlock

theorem shortened_append (lines : List Capture) (last : Capture) :
    shortened (lines ++ [last])
      = lines.map (shorten trimRight) ++ [shorten dropClosingStars last] := by
  induction lines with
  | nil => rfl
  | cons line lines ih =>
    obtain ⟨next, rest, hnext⟩ := List.exists_cons_of_ne_nil (List.concat_ne_nil last lines)
    rw [List.cons_append, hnext, shortened, ← hnext, ih]
    · rfl
    · exact List.cons_ne_nil next rest

/-- What counts of lines that are not the last ones. -/
def kept (offset : Nat) (rows : List DocRow) : List Capture :=
  ((DocRow.captures offset rows).map (shorten trimRight)).filter (!·.text.isEmpty)

theorem kept_append (offset : Nat) (rows rows' : List DocRow) :
    kept offset (rows ++ rows')
      = kept offset rows ++ kept (offset + (rows.flatMap DocRow.text).length) rows' := by
  rw [kept, DocRow.captures_append, List.map_append, List.filter_append]
  rfl

/-- The space before the end of a block does not count. -/
theorem contents_captures (offset last : Nat) (rows : List DocRow) :
    contents (DocRow.captures offset rows ++ [⟨last, [' ']⟩]) = kept offset rows := by
  have hlast : (shorten dropClosingStars ⟨last, [' ']⟩).text = [] := rfl
  rw [contents, shortened_append, List.filter_append, List.filter_singleton, hlast]
  exact List.append_nil _

/-- What counts of a line stands behind its star and the white space there. -/
theorem content_starred {offset : Nat} {blanks behind : List Char}
    (hblanks : ∀ c ∈ blanks, isBlank c = true) (hbehind : behind.head?.any isBlank = false)
    (hstar : (blanks ++ behind).head?.any (· == '*') = false) :
    content ⟨offset, [' ', '*'] ++ (blanks ++ behind)⟩ = ⟨offset + 2 + blanks.length, behind⟩ := by
  let r := Reader.ofText ([' ', '*'] ++ (blanks ++ behind)) offset
  have hspace : r.blanks = r.passing [' '] (['*'] ++ (blanks ++ behind)) :=
    Reader.blanks_of_append rfl (by decide) (show isBlank '*' = false by decide)
  have hsign : (r.passing [' '] (['*'] ++ (blanks ++ behind))).skipWhile (· == '*')
      = r.passing [' ', '*'] (blanks ++ behind) := by
    rw [Reader.skipWhile_of_append rfl (by decide) hstar, Reader.passing_passing]
    rfl
  have hblank : (r.passing [' ', '*'] (blanks ++ behind)).blanks
      = r.passing ([' ', '*'] ++ blanks) behind := by
    rw [Reader.blanks_of_append rfl hblanks hbehind, Reader.passing_passing]
  unfold content
  simp only
  rw [hspace, hsign, hblank, Reader.offset_passing, Reader.ahead_passing, List.length_append,
    Nat.add_assoc]
  rfl

theorem kept_blank (offset : Nat) (e : LineEnd) : kept offset [([], e)] = [] := by
  have hcontent : content ⟨offset, [' ', '*'] ++ ([] ++ [])⟩ = ⟨offset + 2 + 0, []⟩ :=
    content_starred (by simp) rfl rfl
  have hshort : (shorten trimRight ⟨offset, DocRow.line ([], e)⟩).text = [] := by
    rw [shorten, show content ⟨offset, DocRow.line ([], e)⟩ = _ from hcontent]
    rfl
  rw [kept, DocRow.captures, DocRow.captures, List.map_singleton, List.filter_singleton, hshort]
  rfl

/-- Blank lines do not count. -/
theorem kept_gap (offset : Nat) (gap : LineGap) : kept offset gap.rows = [] := by
  rw [LineGap.rows]
  generalize gap.blanks = blanks
  induction blanks generalizing offset with
  | nil => rfl
  | cons e blanks ih =>
    rw [List.map_cons, ← List.singleton_append, kept_append, kept_blank, ih]
    rfl

/-- A line that counts: no white space stands around it, and no star begins it. -/
structure IsContent (content : List Char) : Prop where
  ne_nil : content ≠ []
  notBlank : content.head?.any isBlank = false
  trimmed : trimRight content = content
  noStar : content.head? ≠ some '*'
  noBreak : ∀ c ∈ content, isLineBreak c = false

/-- **Of a written line its text counts**, and of the blank lines behind it nothing. -/
theorem kept_rows {content : List Char} (h : IsContent content) (offset : Nat) (line : ValueLine) :
    kept offset (line.rows content) = [⟨offset + 3, content⟩] := by
  have hcontent : DocBlock.content ⟨offset, DocRow.line (' ' :: content, line.gap.ending)⟩
      = ⟨offset + 3, content⟩ :=
    @content_starred offset [' '] content (by decide) h.notBlank rfl
  have hshort : shorten trimRight ⟨offset, DocRow.line (' ' :: content, line.gap.ending)⟩
      = ⟨offset + 3, content⟩ := by
    rw [shorten, hcontent, h.trimmed]
  have hne : (!content.isEmpty) = true := by simpa using h.ne_nil
  rw [ValueLine.rows, ← List.singleton_append, kept_append, kept_gap, kept, DocRow.captures,
    DocRow.captures, List.map_singleton, hshort, List.filter_singleton, hne]
  rfl

/-! ## Lines with a key and without one -/

theorem isContent_text (line : ValueLine) : IsContent line.text := by
  obtain ⟨c, rest, hcons⟩ := List.exists_cons_of_ne_nil line.ne_nil
  have hlast := (exists_trimRight (trimLeft line.text)).2
  rw [← trim, line.trimmed] at hlast
  refine ⟨line.ne_nil, ?_, trimRight_of_getLast? hlast, line.noStar, line.noBreak⟩
  rw [hcons]
  exact not_isBlank_of_trim (hcons ▸ line.trimmed)

theorem isContent_keyText (entry : KeyedLines) : IsContent entry.keyText := by
  obtain ⟨-, -, htrimmed, -, hclean⟩ := isContent_text entry.first
  refine ⟨List.cons_ne_nil _ _, (show isBlank '@' = false by decide), ?_, ?_, ?_⟩
  · -- the text of the first line ends it
    have hsplit : entry.keyText = ('@' :: (entry.key ++ [' '])) ++ entry.first.text := by
      simp [KeyedLines.keyText]
    rw [hsplit, trimRight_append (by rw [htrimmed]; exact entry.first.ne_nil), htrimmed]
  · exact fun h => absurd (Option.some.inj h) (by decide)
  · have hkey : ∀ c ∈ entry.key, isLineBreak c = false := by
      intro c hc
      have hpart := entry.isKey c hc
      rw [isLineBreak_eq_false_iff]
      constructor
      · rintro rfl
        exact absurd hpart (by decide)
      · rintro rfl
        exact absurd hpart (by decide)
    rw [KeyedLines.keyText, List.forall_mem_cons, List.forall_mem_append, List.forall_mem_cons]
    exact ⟨by decide, hkey, by decide, hclean⟩

/-- A key is read with the space behind it. -/
theorem key?_keyText (entry : KeyedLines) (offset : Nat) :
    ∃ r, key? ⟨offset, entry.keyText⟩ = some (entry.key, r) ∧ r.ahead = entry.first.text := by
  let r := Reader.ofText entry.keyText offset
  let front := r.passing ['@'] (entry.key ++ ' ' :: entry.first.text)
  let behind := front.passing entry.key (' ' :: entry.first.text)
  have hsign : r.one? (· == '@') = some front := Reader.one?_of_cons rfl rfl
  have hname : front.name? key?.isKeyPart key?.isKeyPart
      = some (⟨front.offset, entry.key⟩, behind) := by
    obtain ⟨c, name, hcons⟩ := List.exists_cons_of_ne_nil entry.key_ne_nil
    have hkey := entry.isKey
    rw [hcons, List.forall_mem_cons] at hkey
    have hahead : front.ahead = (c :: name) ++ ' ' :: entry.first.text := by
      rw [← hcons]
      rfl
    have hspace : (' ' :: entry.first.text).head?.any key?.isKeyPart = false :=
      (show key?.isKeyPart ' ' = false by decide)
    rw [Reader.name?_of_append hahead hkey.1 hkey.2 hspace, ← hcons]
  have hblank : behind.blanks = behind.passing [' '] entry.first.text :=
    Reader.blanks_of_append rfl (by decide) (isContent_text entry.first).notBlank
  refine ⟨behind.passing [' '] entry.first.text, ?_, rfl⟩
  unfold key?
  rw [show (Reader.ofText entry.keyText offset).one? (· == '@') = some front from hsign]
  simp only [Option.bind_eq_bind, Option.bind_some, hname, hblank, entry.isLower]
  rfl

theorem key?_eq_none (line : PlainLine) (offset : Nat) : key? ⟨offset, line.text⟩ = none := by
  rw [Option.eq_none_iff_forall_ne_some]
  rintro ⟨key, r⟩ hkey
  simp only [key?, Option.bind_eq_bind, Option.bind_eq_some_iff, Prod.exists] at hkey
  obtain ⟨sign, hsign, _, behind, hname, -⟩ := hkey
  obtain ⟨c, rest, htext, hc, rfl⟩ := Reader.one?_eq_some_iff.mp hsign
  obtain rfl : c = '@' := by simpa using hc
  obtain ⟨d, more, hrest, hd, -⟩ := Reader.exists_of_name? hname
  have hnone := line.noKey rest htext
  rw [show rest = d :: more ++ behind.ahead from hrest] at hnone
  exact Bool.false_ne_true (hnone.symm.trans hd)

/-- What counts of the lines that go on with an entry are their texts. -/
theorem forall₂_kept (lines : List PlainLine) (offset : Nat) :
    List.Forall₂ (fun line capture => Capture.text capture = line.text) lines
      (kept offset (lines.flatMap fun line => line.rows line.text)) := by
  induction lines generalizing offset with
  | nil => exact .nil
  | cons line lines ih =>
    rw [List.flatMap_cons, kept_append, kept_rows (isContent_text line.toValueLine)]
    exact .cons rfl (ih _)

/-- What counts of a line, of the plain lines behind it, and of what follows them. -/
theorem exists_kept {content : List Char} (h : IsContent content) (first : ValueLine)
    (more : List PlainLine) (rest : List DocRow) (offset : Nat) :
    ∃ o lines, kept offset
          ((first.rows content ++ more.flatMap fun line => line.rows line.text) ++ rest)
        = ⟨offset + 3, content⟩ :: (lines ++ kept o rest) ∧
      List.Forall₂ (fun line capture => Capture.text capture = line.text) more lines := by
  rw [kept_append, kept_append, kept_rows h]
  exact ⟨_, _, rfl, forall₂_kept more _⟩

/-! ## Entries under way -/

/-- The entry under way behind lines that go on with it. -/
def Draft.goOn (draft : Draft) (lines : List Capture) : Draft :=
  lines.foldl (fun draft line => { draft with
    pieces := draft.pieces ++ [line.text]
    stop := line.stop }) draft

theorem Draft.key_goOn (draft : Draft) (lines : List Capture) :
    (draft.goOn lines).key = draft.key ∧ (draft.goOn lines).start = draft.start ∧
      (draft.goOn lines).pieces = draft.pieces ++ lines.map Capture.text := by
  induction lines generalizing draft with
  | nil => exact ⟨rfl, rfl, (List.append_nil _).symm⟩
  | cons line lines ih =>
    obtain ⟨hkey, hstart, hpieces⟩ :=
      ih { draft with pieces := draft.pieces ++ [line.text], stop := line.stop }
    refine ⟨hkey, hstart, hpieces.trans ?_⟩
    rw [List.append_assoc]
    rfl

theorem drafts_goOn {lines : List Capture} (h : ∀ line ∈ lines, key? line = none) (draft : Draft)
    (rest : List Capture) :
    drafts (some draft) (lines ++ rest) = drafts (some (draft.goOn lines)) rest := by
  induction lines generalizing draft with
  | nil => rfl
  | cons line lines ih =>
    obtain ⟨hline, hlines⟩ := List.forall_mem_cons.mp h
    have hadd : addLine (some draft) line
        = (some { draft with pieces := draft.pieces ++ [line.text], stop := line.stop }, none) := by
      rw [addLine, hline]
      rfl
    rw [List.cons_append, drafts, hadd]
    exact ih hlines _

/-- The entry has the key and the lines, and its only line stands where it does. -/
structure Draft.IsOf (src : Source) (written : List Char × List (List Char)) (draft : Draft) :
    Prop where
  key : draft.key = written.1
  pieces : draft.pieces = written.2
  single : ∀ piece, draft.pieces = [piece] →
    Capture.IsLine ⟨draft.start, piece⟩ src ∧ draft.stop = draft.start + piece.length

section Drafts

variable {src : Source}

/-- An entry that begins with a line goes on with those behind it. -/
theorem isOf_goOn {key first : List Char} {start : Nat} {more : List PlainLine}
    {lines : List Capture} (hfirst : Capture.IsLine ⟨start, first⟩ src)
    (hmore : List.Forall₂ (fun line capture => Capture.text capture = line.text) more lines) :
    (Draft.goOn ⟨key, [first], start, start + first.length⟩ lines).IsOf src
      (key, first :: more.map (·.text)) := by
  obtain ⟨hkey, hstart, hpieces⟩ :=
    Draft.key_goOn ⟨key, [first], start, start + first.length⟩ lines
  have htexts : lines.map Capture.text = more.map (·.text) := by
    rw [← List.forall₂_eq_eq_eq, List.forall₂_map_left_iff, List.forall₂_map_right_iff]
    exact hmore.flip
  refine ⟨hkey, ?_, ?_⟩
  · rw [hpieces, htexts]
    rfl
  · intro piece hpiece
    rw [hpieces] at hpiece
    obtain ⟨rfl, hnone⟩ := List.cons.inj hpiece
    obtain rfl := List.map_eq_nil_iff.mp hnone
    exact ⟨hfirst, rfl⟩

theorem key?_of_forall₂ {more : List PlainLine} {lines : List Capture}
    (h : List.Forall₂ (fun line capture => Capture.text capture = line.text) more lines) :
    ∀ capture ∈ lines, key? capture = none := by
  induction h with
  | nil => simp
  | @cons line capture more lines htext _ ih =>
    refine List.forall_mem_cons.mpr ⟨?_, ih⟩
    have hnone := key?_eq_none line capture.start
    rwa [← htext] at hnone

/-- **The entries with keys are those that were written.** The induction is on the entries, wherever
the first of them begins and behind any entry under way. -/
theorem forall₂_drafts (entries : List KeyedLines) (offset : Nat) (draft : Option Draft)
    (hlines : ∀ capture ∈ kept offset (entries.flatMap KeyedLines.rows), capture.IsLine src) :
    ∃ found, drafts draft (kept offset (entries.flatMap KeyedLines.rows)) = draft.toList ++ found ∧
      List.Forall₂ (Draft.IsOf src)
        (entries.map fun entry => (entry.key, entry.first.text :: entry.more.map (·.text)))
        found := by
  induction entries generalizing offset draft with
  | nil => exact ⟨[], (List.append_nil _).symm, .nil⟩
  | cons entry entries ih =>
    -- the line of the key, the other lines of the entry, and the other entries
    obtain ⟨o, more, hkept, hmore⟩ := exists_kept (isContent_keyText entry) entry.first entry.more
      (entries.flatMap KeyedLines.rows) offset
    have hrows : (entry :: entries).flatMap KeyedLines.rows
        = (entry.first.rows entry.keyText ++ entry.more.flatMap fun line => line.rows line.text)
          ++ entries.flatMap KeyedLines.rows := List.flatMap_cons
    rw [← hrows] at hkept
    rw [hkept, List.forall_mem_cons, List.forall_mem_append] at hlines
    obtain ⟨hfirst, -, hlines⟩ := hlines
    obtain ⟨r, hkey, hahead⟩ := key?_keyText entry (offset + 3)
    obtain ⟨passed, hpassed, hstart, hstop⟩ := exists_of_key? hkey
    have hvalue : (if r.ahead.isEmpty then [] else [r.ahead]) = [entry.first.text] := by
      rw [hahead, if_neg (by simpa using entry.first.ne_nil)]
    have hbegun : addLine draft ⟨offset + 3, entry.keyText⟩ = (some ⟨entry.key,
        [entry.first.text], r.offset, r.offset + entry.first.text.length⟩, draft) := by
      rw [addLine, hkey]
      simp only
      rw [hvalue, hstop, hahead]
    have hpart : Capture.IsLine ⟨r.offset, entry.first.text⟩ src := by
      have htext : entry.keyText = passed ++ (entry.first.text ++ []) := by
        rw [List.append_nil, ← hahead]
        exact hpassed
      exact hfirst.of_part entry.first.ne_nil htext hstart
    obtain ⟨found, hfound, hentries⟩ := ih o _ hlines
    refine ⟨_, ?_, .cons (isOf_goOn hpart hmore) hentries⟩
    rw [hkept, drafts, hbegun]
    simp only
    rw [drafts_goOn (key?_of_forall₂ hmore), hfound]
    rfl

/-- **All entries are those that were written**, the lines before any key included. -/
theorem forall₂_drafts_values (doc : WrittenDoc) (offset : Nat)
    (hlines : ∀ capture ∈ kept offset doc.rows, capture.IsLine src) :
    List.Forall₂ (Draft.IsOf src) doc.values (drafts none (kept offset doc.rows)) := by
  rw [WrittenDoc.rows, kept_append, kept_gap, List.nil_append] at *
  generalize offset + _ = offset at *
  obtain ⟨gap, hint, entries⟩ := doc
  cases hint with
  | nil =>
    obtain ⟨found, hfound, hentries⟩ := forall₂_drafts entries offset none hlines
    simp only [List.flatMap_nil, List.nil_append, hfound]
    exact hentries
  | cons line hint =>
    obtain ⟨o, more, hkept, hmore⟩ := exists_kept (isContent_text line.toValueLine)
      line.toValueLine hint (entries.flatMap KeyedLines.rows) offset
    rw [← List.flatMap_cons (f := fun line : PlainLine => line.rows line.text)] at hkept
    simp only at hlines ⊢
    rw [hkept, List.forall_mem_cons, List.forall_mem_append] at hlines
    obtain ⟨hfirst, -, hlines⟩ := hlines
    have hbegun : addLine none ⟨offset + 3, line.text⟩ = (some ⟨"hint".toList, [line.text],
        offset + 3, offset + 3 + line.text.length⟩, none) := by
      rw [addLine, key?_eq_none line]
      rfl
    obtain ⟨found, hfound, hentries⟩ := forall₂_drafts entries o
      (some (Draft.goOn ⟨"hint".toList, [line.text], offset + 3,
        offset + 3 + line.text.length⟩ more)) hlines
    rw [hkept, drafts, hbegun]
    simp only
    rw [drafts_goOn (key?_of_forall₂ hmore), hfound]
    exact .cons (isOf_goOn hfirst hmore) hentries

/-- An entry under way has the value and the place that were written. -/
theorem Draft.IsOf.isReadAs {written : List Char × List (List Char)} {draft : Draft}
    (h : draft.IsOf src written) (hle : draft.start ≤ draft.stop) :
    IsReadAs src written ⟨draft.key, [' '].intercalate draft.pieces,
      src.spanOf ⟨draft.start, draft.stop, hle⟩⟩ := by
  obtain ⟨hkey, hpieces, hsingle⟩ := h
  refine ⟨hkey, congrArg ([' '].intercalate ·) hpieces, ?_⟩
  intro hone
  obtain ⟨piece, hpiece⟩ := List.length_eq_one_iff.mp hone
  obtain ⟨hline, hstop⟩ := hsingle piece (hpieces.trans hpiece)
  have hsplit : piece = [] ++ (piece ++ []) := (List.append_nil piece).symm
  simp only
  rw [hpieces, hpiece, List.intercalate_singleton]
  exact hline.isIn.textOf_part hline.clean hsplit rfl hstop

end Drafts

end DocBlock

/-! ## In a source -/

namespace Source

theorem forall₂_pmap {α β γ : Type} {P : β → Prop} {R : α → β → Prop} {S : α → γ → Prop}
    {f : ∀ b, P b → γ} (hf : ∀ a b (hb : P b), R a b → S a (f b hb)) {as : List α} {bs : List β}
    (h : List.Forall₂ R as bs) (hbs : ∀ b ∈ bs, P b) : List.Forall₂ S as (bs.pmap f hbs) := by
  induction h with
  | nil => exact .nil
  | cons hab _ ih =>
    obtain ⟨hb, hbs⟩ := List.forall_mem_cons.mp hbs
    exact .cons (hf _ _ hb hab) (ih hbs)

variable {src : Source} {front back : List Char} {doc : WrittenDoc}

/-- No character of a line ends it. -/
theorem noBreak_of_mem_rows (doc : WrittenDoc) :
    ∀ row ∈ doc.rows, ∀ c ∈ row.1, isLineBreak c = false := by
  have hgap : ∀ gap : LineGap, ∀ row ∈ gap.rows, ∀ c ∈ row.1, isLineBreak c = false := by
    intro gap row hrow
    obtain ⟨e, -, rfl⟩ := List.mem_map.mp hrow
    simp
  have hline : ∀ {content : List Char} (line : ValueLine), DocBlock.IsContent content →
      ∀ row ∈ line.rows content, ∀ c ∈ row.1, isLineBreak c = false := by
    intro content line h
    rw [ValueLine.rows, List.forall_mem_cons]
    exact ⟨List.forall_mem_cons.mpr ⟨by decide, h.noBreak⟩, hgap line.gap⟩
  have hplain : ∀ lines : List PlainLine, ∀ row ∈ lines.flatMap fun line => line.rows line.text,
      ∀ c ∈ row.1, isLineBreak c = false := by
    intro lines row hrow
    obtain ⟨line, -, hrow⟩ := List.mem_flatMap.mp hrow
    exact hline line.toValueLine (DocBlock.isContent_text line.toValueLine) row hrow
  rw [WrittenDoc.rows, List.forall_mem_append, List.forall_mem_append]
  refine ⟨hgap doc.gap, hplain doc.hint, ?_⟩
  intro row hrow
  obtain ⟨entry, -, hrow⟩ := List.mem_flatMap.mp hrow
  rcases List.mem_append.mp hrow with hrow | hrow
  · exact hline entry.first (DocBlock.isContent_keyText entry) row hrow
  · exact hplain entry.more row hrow

variable {src : Source} {front back : List Char} {doc : WrittenDoc}

/-- The inside of a block stands between places. -/
theorem bounds_writtenDoc (htext : src.text = front ++ (doc.text ++ back)) :
    let inside := src.span (front.length + 3) doc.inside.length
    src.bounds (some inside) = (front.length + 3, front.length + 3 + doc.inside.length) ∧
      src.slice (front.length + 3) (front.length + 3 + doc.inside.length) = doc.inside ∧
      src.textOf inside = doc.inside := by
  have hsplit : src.text = (front ++ ['/', '*', '*']) ++ (doc.inside ++ ('*' :: '/' :: back)) := by
    rw [htext, WrittenDoc.text]
    simp only [List.append_assoc, List.cons_append, List.nil_append]
  have hlength : (front ++ ['/', '*', '*']).length = front.length + 3 := List.length_append
  have hlast : (front ++ ['/', '*', '*']).getLast? = some '*' := by
    rw [List.getLast?_append]
    rfl
  have hbefore : (front ++ ['/', '*', '*']).getLast? ≠ some '\r' := by
    rw [hlast]
    decide
  have hbehind : ('*' :: '/' :: back).head? ≠ some '\n' :=
    fun h => absurd (Option.some.inj h) (by decide)
  obtain ⟨hstart, hstop⟩ := isPlace_between hsplit (.inl hbefore) (.inr hbehind)
  have hslice := slice_between hsplit
  rw [hlength] at hstart hstop hslice
  let s : Stretch := ⟨front.length + 3, front.length + 3 + doc.inside.length, Nat.le_add_right _ _⟩
  exact ⟨bounds_spanOf (s := s) hstart hstop, hslice,
    textOf_between (s := s) hsplit hlength.symm (by rw [hlength]) (.inl hbefore) (.inr hbehind)⟩

/-- **The lines of a written block are found where they stand.** -/
theorem docLines_writtenDoc (htext : src.text = front ++ (doc.text ++ back)) :
    let offset := front.length + 3 + doc.gap.ending.text.length
    src.docLines (some (src.span (front.length + 3) doc.inside.length))
      = DocRow.captures offset doc.rows
        ++ [⟨offset + (doc.rows.flatMap DocRow.text).length, [' ']⟩] := by
  obtain ⟨hbounds, hslice, -⟩ := bounds_writtenDoc htext
  let within := src.span (front.length + 3) doc.inside.length
  let r := src.reader (src.bounds (some within)).1 (src.bounds (some within)).2
  have hreads : r.Reads src (src.bounds (some within)).2 := Reader.Reads.reader src (some within)
  have hoffset : r.offset = front.length + 3 := congrArg Prod.fst hbounds
  have hahead : r.ahead = doc.gap.ending.text ++ (doc.rows.flatMap DocRow.text ++ [' ']) := by
    rw [show r.ahead = src.slice _ _ from rfl, hbounds]
    exact hslice
  have hruns := map_runs (noBreak_of_mem_rows doc) (hreads.passing hahead) rfl
  rw [← occurrences_lineEnd doc.gap.ending hahead, Reader.offset_passing, hoffset] at hruns
  exact hruns

/-- **A documentation block is read as it was written**, wherever it stands and whatever ends its
lines: its entries have the keys that were written, in order, with the lines of their values joined
by single spaces, and a value of one line stands in its span. -/
theorem docEntries_writtenDoc (doc : WrittenDoc) (front back : List Char) (path : Option Path) :
    let src := Source.ofText (front ++ (doc.text ++ back)) path
    let inside := src.span (front.length + 3) doc.inside.length
    src.textOf inside = doc.inside ∧
      List.Forall₂ (IsReadAs src) doc.values (src.docEntries (some inside)) := by
  intro src inside
  have htext : src.text = front ++ (doc.text ++ back) := rfl
  obtain ⟨-, -, hinside⟩ := bounds_writtenDoc htext
  let offset := front.length + 3 + doc.gap.ending.text.length
  have hcontents : DocBlock.contents (src.docLines (some inside))
      = DocBlock.kept offset doc.rows := by
    rw [docLines_writtenDoc htext, DocBlock.contents_captures]
  have hlines : ∀ capture ∈ DocBlock.kept offset doc.rows, capture.IsLine src := by
    rw [← hcontents]
    exact DocBlock.isLine_of_mem_contents fun _ hline => isLine_of_mem_docLines hline
  have hdrafts : List.Forall₂ (DocBlock.Draft.IsOf src) doc.values
      (DocBlock.drafts none (DocBlock.contents (src.docLines (some inside)))) := by
    rw [hcontents]
    exact DocBlock.forall₂_drafts_values doc offset hlines
  exact ⟨hinside, forall₂_pmap (fun _ _ hle h => h.isReadAs hle) hdrafts _⟩

end Source

end Cfml
