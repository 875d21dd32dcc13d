/-
Finding comments character by character.

The scan is a fold over the characters. Outside of comments it remembers the characters since the
last string or comment ended, so that an opening delimiter is recognised when its last character
arrives and never reaches back into what is already closed. In script it follows string literals, in
which delimiters mean nothing. Within a block comment it remembers the characters since the opening
delimiter, so that the closing one cannot share characters with it. A comment that is still open at
the end ends there.
-/
import Cfml.Comment.Form
import Cfml.Lexical.StringState
import Cfml.Source.Stretch

set_option autoImplicit false

namespace Cfml

/-- Where the scan is. Remembered characters are listed last one first. -/
inductive CommentScan.Place where
  /-- Outside of strings and comments. -/
  | code (recent : List Char)
  /-- In a string literal. -/
  | literal (state : StringState)
  /-- In a comment that began at the offset `start`. -/
  | comment (form : CommentForm) (start : Nat) (recent : List Char)

/-- A scan under way: where it is, and the comments found, last one first, each as the offsets at
which it starts and ends. -/
structure CommentScan where
  place : CommentScan.Place
  found : List (Nat × Nat)

namespace CommentScan

/-- Before the first character. -/
def start : CommentScan := ⟨.code [], []⟩

/-- Whether the remembered characters end with the delimiter. -/
def justRead (delimiter recent : List Char) : Bool := delimiter.reverse.isPrefixOf recent

/-- The scan behind the character `c`, which has the offset `offset`. -/
def step (dialect : Dialect) (scan : CommentScan) (offset : Nat) (c : Char) : CommentScan :=
  match scan.place with
  | .comment form start recent =>
    match form.kind with
    -- a line break is no part of the comment that it ends, a closing delimiter is
    | .line => if isLineBreak c then ⟨.code [], (start, offset) :: scan.found⟩ else scan
    | .block =>
      if justRead form.closer (c :: recent) then ⟨.code [], (start, offset + 1) :: scan.found⟩
      else { scan with place := .comment form start (c :: recent) }
  | .literal state =>
    let state := state.advance c
    { scan with place := if state.inString then .literal state else .code [] }
  | .code recent =>
    if dialect == .script && isQuote c then
      { scan with place := .literal (StringState.outside.advance c) }
    else
      match dialect.comments.find? fun form => justRead form.opener (c :: recent) with
      -- `c` is the last character of the delimiter, and the comment began with the first one
      | some form => { scan with place := .comment form (offset + 1 - form.opener.length) [] }
      | none => { scan with place := .code (c :: recent) }

/-- The comments of a scan that ends at the offset `stop`, in order. -/
def finish (scan : CommentScan) (stop : Nat) : List (Nat × Nat) :=
  match scan.place with
  | .comment _ start _ => ((start, stop) :: scan.found).reverse
  | _ => scan.found.reverse

/-- Scans on through a text that begins at the offset `offset`. -/
def run (dialect : Dialect) (scan : CommentScan) (offset : Nat) :
    List Char → List (Nat × Nat)
  | [] => scan.finish offset
  | c :: rest => run dialect (scan.step dialect offset c) (offset + 1) rest

/-! ## No comment ends before it starts -/

/-- What a scan that has reached the offset keeps to: a comment that is open began no later, and
those found are in order. -/
structure IsOrdered (scan : CommentScan) (offset : Nat) : Prop where
  opened : ∀ form start recent, scan.place = .comment form start recent → start ≤ offset
  found : ∀ c ∈ scan.found, c.1 ≤ c.2

theorem isOrdered_start (offset : Nat) : start.IsOrdered offset where
  opened _ _ _ h := by simp [start] at h
  found c h := by simp [start] at h

theorem IsOrdered.step {scan : CommentScan} {offset : Nat} (h : scan.IsOrdered offset)
    (dialect : Dialect) (c : Char) : (scan.step dialect offset c).IsOrdered (offset + 1) := by
  have hfound : ∀ {place}, (∀ form start recent, place = .comment form start recent →
      start ≤ offset + 1) → (⟨place, scan.found⟩ : CommentScan).IsOrdered (offset + 1) :=
    fun hplace => ⟨hplace, h.found⟩
  have hclosed : ∀ {start stop}, start ≤ stop →
      (⟨.code [], (start, stop) :: scan.found⟩ : CommentScan).IsOrdered (offset + 1) := by
    intro start stop hle
    refine ⟨by simp, ?_⟩
    rintro c (_ | ⟨_, hc⟩)
    · exact hle
    · exact h.found c hc
  unfold CommentScan.step
  split
  -- in a comment: it began no later than here, and if it ends, it ends here
  · next form start recent hplace =>
    have hstart := h.opened form start recent hplace
    split
    · split
      · exact hclosed hstart
      · exact ⟨fun _ _ _ h' => Nat.le_succ_of_le (h.opened _ _ _ h'), h.found⟩
    · split
      · exact hclosed (Nat.le_succ_of_le hstart)
      · apply hfound
        rintro _ _ _ ⟨⟩
        exact Nat.le_succ_of_le hstart
  -- in a string literal no comment begins
  · apply hfound
    intro _ _ _ hplace
    split at hplace <;> cases hplace
  -- outside of both a comment may begin, as far back as its delimiter is long
  · split
    · exact hfound (by simp)
    · split
      · apply hfound
        rintro _ _ _ ⟨⟩
        exact Nat.sub_le _ _
      · exact hfound (by simp)

theorem IsOrdered.finish {scan : CommentScan} {stop : Nat} (h : scan.IsOrdered stop) :
    ∀ c ∈ scan.finish stop, c.1 ≤ c.2 := by
  intro c hc
  unfold CommentScan.finish at hc
  split at hc
  -- a comment that is still open is one more that is found
  · next form start recent hplace =>
    rcases List.mem_cons.mp (List.mem_reverse.mp hc) with rfl | hc
    · exact h.opened form start recent hplace
    · exact h.found c hc
  · exact h.found c (List.mem_reverse.mp hc)

theorem IsOrdered.run {scan : CommentScan} {offset : Nat} (h : scan.IsOrdered offset)
    (dialect : Dialect) (text : List Char) :
    ∀ c ∈ scan.run dialect offset text, c.1 ≤ c.2 := by
  induction text generalizing scan offset with
  | nil => exact h.finish
  | cons c rest ih => exact ih (h.step dialect c)

end CommentScan

/-- The comments in a text that begins at the offset `offset`. -/
def scanComments (dialect : Dialect) (offset : Nat) (text : List Char) : List Stretch :=
  (CommentScan.start.run dialect offset text).pmap (fun c h => ⟨c.1, c.2, h⟩)
    ((CommentScan.isOrdered_start offset).run dialect text)

end Cfml
