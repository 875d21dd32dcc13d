/-
Documentation blocks.

The inside of a block is a list of lines, each with leading stars and white space that do not count.
A line that begins with an at sign and a key starts an entry; other lines continue the entry above
them, and before any key they are the entry `hint`. The pieces of a value are joined by single
spaces.
-/
import Cfml.Source.Stretch

set_option autoImplicit false

namespace Cfml

/-- An entry of a documentation block: its key in lower case, its value and where the value
stands. -/
structure DocEntry where
  key : List Char
  value : List Char
  span : Span

namespace DocBlock

/-- An entry under way: its key, its pieces and the offsets of its value. -/
structure Draft where
  key : List Char
  pieces : List (List Char)
  start : Nat
  stop : Nat

/-- What counts of a line: the line without the stars and the white space at its start. -/
def content (line : Capture) : Capture :=
  let r := ((Reader.ofText line.text line.start).blanks.skipWhile (· == '*')).blanks
  ⟨r.offset, r.ahead⟩

/-- A text without the stars at its end and the white space around them. -/
def dropClosingStars (text : List Char) : List Char :=
  -- white space is cut behind the stars as well as before them
  let reversed := text.reverse.dropWhile isBlank
  if reversed.head? == some '*' then trimRight (reversed.dropWhile (· == '*')).reverse
  else trimRight text

/-- What counts of a line, with the end of it cut as given. -/
def shorten (text : List Char → List Char) (line : Capture) : Capture :=
  ⟨(content line).start, text (content line).text⟩

/-- What counts of each line. The last line also ends with stars that do not count. -/
def shortened : List Capture → List Capture
  | [] => []
  | [last] => [shorten dropClosingStars last]
  | line :: rest => shorten trimRight line :: shortened rest

/-- What counts of the lines. Lines of which nothing is left do not count at all. -/
def contents (lines : List Capture) : List Capture :=
  (shortened lines).filter (!·.text.isEmpty)

/-- Reads an at sign, a key and the white space behind it. -/
def key? (line : Capture) : Option (List Char × Reader) := do
  let r ← (Reader.ofText line.text line.start).one? (· == '@')
  let (key, r) ← r.name? isKeyPart isKeyPart
  return (lower key.text, r.blanks)
where
  isKeyPart (c : Char) : Bool := isWord c || c == '.'

/-- The entry under way behind a line, and the entry that the line completes. -/
def addLine (draft : Option Draft) (line : Capture) : Option Draft × Option Draft :=
  match key? line with
  | some (key, r) =>
    -- a new key completes the entry under way
    (some ⟨key, if r.ahead.isEmpty then [] else [r.ahead], r.offset, line.stop⟩, draft)
  | none =>
    -- text before any key is a hint
    let draft := draft.getD ⟨"hint".toList, [], line.start, line.stop⟩
    (some { draft with pieces := draft.pieces ++ [line.text], stop := line.stop }, none)

/-- The entries of the lines, behind the entry under way. -/
def drafts (draft : Option Draft) : List Capture → List Draft
  | [] => draft.toList
  | line :: rest =>
    let (next, complete) := addLine draft line
    complete.toList ++ drafts next rest

/-! ## A value ends behind its start -/

/-- One line stands behind the other. -/
def Follows (line next : Capture) : Prop := line.stop ≤ next.start

theorem content_within (line : Capture) :
    line.start ≤ (content line).start ∧ (content line).stop = line.stop := by
  have hreaches := ((Reader.ofText line.text line.start).blanks_reaches.trans
    (Reader.skipWhile_reaches (· == '*') _)).trans (Reader.blanks_reaches _)
  exact ⟨hreaches.offset_le, hreaches.offset_add_length⟩

theorem length_dropClosingStars_le (text : List Char) :
    (dropClosingStars text).length ≤ text.length := by
  unfold dropClosingStars
  simp only
  split
  · apply Nat.le_trans (length_trimRight_le _)
    rw [List.length_reverse, ← @List.length_reverse _ text]
    exact ((List.dropWhile_suffix _).trans (List.dropWhile_suffix _)).length_le
  · exact length_trimRight_le text

theorem shorten_within {text : List Char → List Char} (htext : ∀ t, (text t).length ≤ t.length)
    (line : Capture) :
    line.start ≤ (shorten text line).start ∧ (shorten text line).stop ≤ line.stop := by
  obtain ⟨hstart, hstop⟩ := content_within line
  refine ⟨hstart, ?_⟩
  rw [← hstop]
  exact Nat.add_le_add_left (htext _) _

theorem mem_shortened {lines : List Capture} {short : Capture} (h : short ∈ shortened lines) :
    ∃ line ∈ lines, line.start ≤ short.start ∧ short.stop ≤ line.stop := by
  fun_induction shortened lines with
  | case1 => simp at h
  | case2 last =>
    obtain rfl := List.mem_singleton.mp h
    exact ⟨last, List.mem_singleton_self last, shorten_within length_dropClosingStars_le last⟩
  | case3 line rest _ ih =>
    rcases List.mem_cons.mp h with rfl | h
    · exact ⟨line, List.mem_cons_self, shorten_within length_trimRight_le line⟩
    · obtain ⟨line', hmem, hwithin⟩ := ih h
      exact ⟨line', List.mem_cons_of_mem line hmem, hwithin⟩

theorem pairwise_contents {lines : List Capture} (h : lines.Pairwise Follows) :
    (contents lines).Pairwise Follows := by
  apply List.Pairwise.filter
  fun_induction shortened lines with
  | case1 => exact List.Pairwise.nil
  | case2 last => exact List.pairwise_singleton _ _
  | case3 line rest _ ih =>
    obtain ⟨hline, hrest⟩ := List.pairwise_cons.mp h
    refine List.Pairwise.cons ?_ (ih hrest)
    intro short hshort
    obtain ⟨next, hnext, hstart, -⟩ := mem_shortened hshort
    -- a line that gets shorter on both sides stays before the next one
    have hstop := (shorten_within length_trimRight_le line).2
    exact Nat.le_trans hstop (Nat.le_trans (hline next hnext) hstart)

/-- The value behind a key starts in the line of the key. -/
theorem key?_within {line : Capture} {key : List Char} {r : Reader}
    (h : key? line = some (key, r)) : r.offset ≤ line.stop := by
  simp only [key?, Option.bind_eq_bind, Option.bind_eq_some_iff, Prod.exists] at h
  obtain ⟨sign, hsign, _, behind, hname, heq⟩ := h
  obtain ⟨-, rfl⟩ := by simpa using heq
  -- the sign, the key and the blanks are read in the line
  have hreaches := ((Reader.one?_reaches hsign).trans (Reader.name?_reaches hname)).trans
    behind.blanks_reaches
  have := hreaches.offset_add_length
  rw [Capture.stop]
  simp only [Reader.ofText] at this
  omega

/-- Adding a line keeps it that no entry ends before it starts, if the entry under way started no
later than the line ends. -/
theorem addLine_ordered {draft : Option Draft} {line : Capture}
    (hdraft : ∀ d ∈ draft, d.start ≤ d.stop ∧ d.start ≤ line.stop) :
    (∀ d ∈ (addLine draft line).1, d.start ≤ d.stop ∧ d.start ≤ line.stop) ∧
      ∀ d ∈ (addLine draft line).2, d.start ≤ d.stop := by
  unfold addLine
  split
  · next hkey =>
    refine ⟨?_, fun d hd => (hdraft d hd).1⟩
    rintro _ ⟨⟩
    exact ⟨key?_within hkey, key?_within hkey⟩
  · refine ⟨?_, by simp⟩
    rintro _ ⟨⟩
    cases draft with
    | none => exact ⟨Nat.le_add_right _ _, Nat.le_add_right _ _⟩
    | some draft => exact ⟨(hdraft draft rfl).2, (hdraft draft rfl).2⟩

theorem drafts_ordered {lines : List Capture} (hlines : lines.Pairwise Follows)
    {draft : Option Draft} (hdraft : ∀ d ∈ draft, d.start ≤ d.stop ∧
      ∀ line ∈ lines, d.start ≤ line.stop) :
    ∀ d ∈ drafts draft lines, d.start ≤ d.stop := by
  induction lines generalizing draft with
  | nil =>
    intro d hd
    exact (hdraft d (by simpa [drafts] using hd)).1
  | cons line rest ih =>
    obtain ⟨hline, hrest⟩ := List.pairwise_cons.mp hlines
    obtain ⟨hnext, hcomplete⟩ := addLine_ordered fun d hd =>
      ⟨(hdraft d hd).1, (hdraft d hd).2 line List.mem_cons_self⟩
    intro d hd
    simp only [drafts, List.mem_append, Option.mem_toList] at hd
    rcases hd with hd | hd
    · exact hcomplete d hd
    · refine ih hrest ?_ d hd
      intro d hd
      refine ⟨(hnext d hd).1, ?_⟩
      intro later hlater
      have hfollows : line.stop ≤ later.start := hline later hlater
      exact Nat.le_trans (hnext d hd).2 (Nat.le_trans hfollows (Nat.le_add_right _ _))

end DocBlock

namespace Source

/-- The lines of a documentation block whose inside is the given span, without those that are
empty. -/
def docLines (src : Source) (within : Option Span) : List Capture :=
  let isLine : Pattern Unit := .plain (·.some? (!isLineBreak ·)) Reader.some?_reaches
  (src.occurrencesIn within isLine).map fun found =>
    ⟨found.start, src.slice found.start found.stop⟩

theorem pairwise_docLines (src : Source) (within : Option Span) :
    (src.docLines within).Pairwise DocBlock.Follows := by
  refine List.Pairwise.map _ ?_ (occurrencesFrom_pairwise _ 0 _ _ _)
  intro found next hfollows
  have hlength : (src.slice found.start found.stop).length ≤ found.stop - found.start :=
    List.length_take_le _ _
  have := found.start_le_stop
  simp only [DocBlock.Follows, Capture.stop]
  omega

/-- The entries of the documentation block whose inside is the given span. -/
def docEntries (src : Source) (within : Option Span) : List DocEntry :=
  let drafts := DocBlock.drafts none (DocBlock.contents (src.docLines within))
  drafts.pmap (fun draft h =>
      { key := draft.key
        value := [' '].intercalate draft.pieces
        span := src.spanOf ⟨draft.start, draft.stop, h⟩ })
    (DocBlock.drafts_ordered (DocBlock.pairwise_contents (src.pairwise_docLines within)) (by simp))

end Source

end Cfml
