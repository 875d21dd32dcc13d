/-
The comments of a text in parts.

The comments that the scan finds follow each other and lie in the text, and they move with it. Each
is written there, from its opening delimiter on (`CommentForm.IsWritten`). In tag markup a text can
be scanned in parts if no comment is open where it is cut and no delimiter lies across
(`TagComments.comments_append`). A part that leaves a comment open swallows what follows up to the
next closing delimiter (`TagComments.exists_open`).
-/
import Cfml.Proofs.Comment.JumpLexer
import Mathlib.Data.List.Pairwise

set_option autoImplicit false

namespace Cfml

namespace JumpLexer

/-! ## Where comments lie -/

theorem through_le_length (closer text : List Char) : through closer text ≤ text.length := by
  -- an empty delimiter is found at once, in every text but the empty one
  by_cases hne : closer = []
  · subst hne
    cases text <;> simp [through, distance?]
  · rw [through]
    cases hfirst : distance? closer text with
    | none => exact Nat.le_refl _
    | some n =>
      have hat := ((distance?_eq_some_iff hne).mp hfirst).1.length_le
      have hpos := List.length_pos_of_ne_nil hne
      rw [List.length_drop] at hat
      show n + closer.length ≤ text.length
      omega

theorem toLineEnd_le_length (text : List Char) : toLineEnd text ≤ text.length :=
  (List.takeWhile_prefix _).length_le

theorem literal_le_length (quote : Char) (odd : Bool) (text : List Char) :
    literal quote odd text ≤ text.length := by
  induction text generalizing odd with
  | nil => exact Nat.le_refl _
  | cons c rest ih =>
    rw [literal, List.length_cons]
    split
    · exact Nat.le_add_left _ _
    · exact Nat.add_le_add_right (ih _) 1

/-- The number of characters that a comment of the form has behind its opening delimiter. -/
def toEnd (form : CommentForm) (rest : List Char) : Nat :=
  match form.kind with
  | .line => toLineEnd rest
  | .block => through form.closer rest

theorem toEnd_le_length (form : CommentForm) (rest : List Char) :
    toEnd form rest ≤ rest.length := by
  unfold toEnd
  split
  · exact toLineEnd_le_length rest
  · exact through_le_length form.closer rest

variable {dialect : Dialect} {form : CommentForm}

theorem opener_length_pos (hform : form ∈ dialect.comments) : 0 < form.opener.length := by
  rw [CommentScan.length_opener hform]
  cases dialect <;> decide

/-- A comment of either kind. -/
theorem comments_form (hform : form ∈ dialect.comments) (offset : Nat) (rest : List Char) :
    comments dialect offset (form.opener ++ rest) =
      ⟨offset, offset + (form.opener.length + toEnd form rest), Nat.le_add_right _ _⟩ ::
        comments dialect (offset + (form.opener.length + toEnd form rest))
          (rest.drop (toEnd form rest)) := by
  cases hkind : form.kind with
  | line =>
    rw [CommentScan.comments_line hform hkind]
    simp only [toEnd, hkind, Nat.add_assoc]
  | block =>
    rw [CommentScan.comments_block hform hkind]
    simp only [toEnd, hkind, Nat.add_assoc]

/-- **The rules of the lexer.** What holds of the empty text holds of every text, if it is kept by
a comment at the start, by a string literal at the start, and by a character at which neither
begins. -/
theorem rule_induction (dialect : Dialect) {motive : List Char → Prop} (nil : motive [])
    (comment : ∀ form ∈ dialect.comments, ∀ rest, motive (rest.drop (toEnd form rest)) →
      motive (form.opener ++ rest))
    (string : ∀ quote rest, dialect = .script → isQuote quote = true →
      motive (rest.drop (literal quote false rest)) → motive (quote :: rest))
    (code : ∀ c rest, (dialect == .script && isQuote c) = false →
      (∀ form ∈ dialect.comments, ¬ form.opener <+: c :: rest) → motive rest → motive (c :: rest))
    (text : List Char) : motive text := by
  -- each rule leaves fewer characters, so the induction is on how many there are
  induction hlength : text.length using Nat.strongRecOn generalizing text with
  | ind length ih =>
    subst hlength
    by_cases hopener : ∃ form ∈ dialect.comments, form.opener <+: text
    · obtain ⟨form, hform, rest, rfl⟩ := hopener
      have hpos := opener_length_pos hform
      apply comment form hform rest
      refine ih _ ?_ _ rfl
      rw [List.length_append, List.length_drop]
      omega
    · have hnone : ∀ form ∈ dialect.comments, ¬ form.opener <+: text := by
        intro form hform hbegins
        exact hopener ⟨form, hform, hbegins⟩
      cases text with
      | nil => exact nil
      | cons c rest =>
        by_cases hquote : (dialect == .script && isQuote c) = true
        · obtain ⟨hscript, hc⟩ : dialect = .script ∧ isQuote c = true := by simpa using hquote
          apply string c rest hscript hc
          refine ih _ ?_ _ rfl
          rw [List.length_cons, List.length_drop]
          omega
        · apply code c rest (eq_false_of_ne_true hquote) hnone
          exact ih _ (Nat.lt_succ_self _) rest rfl

@[simp] theorem comments_nil (dialect : Dialect) (offset : Nat) :
    comments dialect offset [] = [] := by
  cases dialect <;> simp [comments, script, tag]

/-- **The jumps of the lexer.** What holds of the comments of every text if it is kept from jump to
jump: a jump goes on by some characters, with a comment over them or without one, and how many these
are does not depend on where the text begins. -/
theorem jump_induction (dialect : Dialect) {motive : List Char → Prop} (nil : motive [])
    (jump : ∀ (text : List Char) (n : Nat), 0 < n → n ≤ text.length → motive (text.drop n) →
      ((∀ offset, comments dialect offset text = comments dialect (offset + n) (text.drop n)) ∨
        ∀ offset, comments dialect offset text =
          ⟨offset, offset + n, Nat.le_add_right _ _⟩ ::
            comments dialect (offset + n) (text.drop n)) → motive text)
    (text : List Char) : motive text := by
  induction text using rule_induction dialect with
  | nil => exact nil
  | comment form hform rest ih =>
    have hpos := opener_length_pos hform
    have hle := toEnd_le_length form rest
    apply jump (form.opener ++ rest) (form.opener.length + toEnd form rest)
    · omega
    · rw [List.length_append]
      omega
    · rwa [List.drop_length_add_append]
    · right
      intro offset
      rw [comments_form hform, List.drop_length_add_append]
  | string quote rest hscript hquote ih =>
    subst hscript
    have hle := literal_le_length quote false rest
    apply jump (quote :: rest) (literal quote false rest + 1)
    · omega
    · rw [List.length_cons]
      omega
    · rwa [List.drop_succ_cons]
    · left
      intro offset
      rw [CommentScan.comments_quote hquote, List.drop_succ_cons]
      simp only [Nat.add_assoc, Nat.add_comm 1]
  | code c rest hquote hnone ih =>
    apply jump (c :: rest) 1 Nat.one_pos
    · rw [List.length_cons]
      omega
    · exact ih
    · left
      intro offset
      exact CommentScan.comments_cons offset rest hquote hnone

/-- The stretch is not empty and lies between the offsets. -/
def Within (start stop : Nat) (c : Stretch) : Prop :=
  start ≤ c.start ∧ c.start < c.stop ∧ c.stop ≤ stop

theorem comments_within (dialect : Dialect) (offset : Nat) (text : List Char) :
    ∀ c ∈ comments dialect offset text, Within offset (offset + text.length) c := by
  induction text using jump_induction dialect generalizing offset with
  | nil => simp
  | jump text n hpos hle ih heq =>
    intro c hc
    have hrest := ih (offset + n)
    rw [List.length_drop] at hrest
    simp only [Within] at hrest ⊢
    rcases heq with heq | heq
    · rw [heq] at hc
      have := hrest c hc
      omega
    · rw [heq] at hc
      rcases List.mem_cons.mp hc with rfl | hc
      · simp only
        omega
      · have := hrest c hc
        omega

theorem comments_pairwise (dialect : Dialect) (offset : Nat) (text : List Char) :
    (comments dialect offset text).Pairwise fun c c' => c.stop ≤ c'.start := by
  induction text using jump_induction dialect generalizing offset with
  | nil => simp
  | jump text n _ _ ih heq =>
    rcases heq with heq | heq
    · rw [heq]
      exact ih (offset + n)
    · rw [heq]
      exact List.Pairwise.cons (fun c hc => (comments_within _ _ _ c hc).1) (ih (offset + n))

/-- Of stretches that follow each other none begins within another one. -/
theorem stop_le_start_of_pairwise {found : List Stretch}
    (hpairwise : found.Pairwise fun c c' => c.stop ≤ c'.start) {c c' : Stretch} (hc : c ∈ found)
    (hc' : c' ∈ found) (h : c.start < c'.start) : c.stop ≤ c'.start := by
  -- the order of the list does not matter for this, so it holds for any two
  let FromLeft (d d' : Stretch) : Prop := d.start < d'.start → d.stop ≤ d'.start
  have hself : ∀ d ∈ found, FromLeft d d := fun d _ hlt => absurd hlt (Nat.lt_irrefl _)
  have hleft : found.Pairwise FromLeft := by
    apply hpairwise.imp
    intro d d' hle _
    exact hle
  have hright : found.Pairwise (flip FromLeft) := by
    apply hpairwise.imp
    intro d d' hle hlt
    have := d.start_le_stop
    omega
  exact hleft.forall_of_forall_of_flip hself hright hc hc' h

/-- No comment begins within another one. -/
theorem stop_le_start (dialect : Dialect) (offset : Nat) (text : List Char) {c c' : Stretch}
    (hc : c ∈ comments dialect offset text) (hc' : c' ∈ comments dialect offset text)
    (h : c.start < c'.start) : c.stop ≤ c'.start :=
  stop_le_start_of_pairwise (comments_pairwise dialect offset text) hc hc' h

/-- A text that is moved takes its comments along. -/
theorem comments_add (dialect : Dialect) (offset distance : Nat) (text : List Char) :
    comments dialect (offset + distance) text
      = (comments dialect offset text).map (·.shift distance) := by
  induction text using jump_induction dialect generalizing offset with
  | nil => simp
  | jump text n _ _ ih heq =>
    rcases heq with heq | heq
    · rw [heq, heq, Nat.add_right_comm, ih]
    · rw [heq, heq, List.map_cons, ← ih]
      simp only [Stretch.shift, Nat.add_right_comm]

/-! ## Cutting a text of tag markup -/

/-- A closing delimiter that is in the first part is the first one in the whole. -/
theorem through_append_of_infix {closer text : List Char} (hne : closer ≠ [])
    (h : closer <:+: text) (rest : List Char) :
    through closer (text ++ rest) = through closer text := by
  cases hfirst : distance? closer text with
  | none => exact absurd h ((distance?_eq_none_iff hne).mp hfirst)
  | some n =>
    obtain ⟨hat, hbefore⟩ := (distance?_eq_some_iff hne).mp hfirst
    have hlength := hat.length_le
    have hpos := List.length_pos_of_ne_nil hne
    rw [List.length_drop] at hlength
    -- what is appended does not make a delimiter stand any earlier
    have hwhole : distance? closer (text ++ rest) = some n := by
      rw [distance?_eq_some_iff hne, List.drop_append_of_le_length (by omega)]
      refine ⟨hat.trans (List.prefix_append _ _), ?_⟩
      intro m hm hbegins
      rw [List.drop_append_of_le_length (by omega)] at hbegins
      refine hbefore m hm (List.prefix_of_prefix_length_le hbegins (List.prefix_append _ _) ?_)
      rw [List.length_drop]
      omega
    rw [through, through, hwhole, hfirst]

/-- A closing delimiter ends behind a text that has none. -/
theorem lt_through_append {closer text rest : List Char} (hclosing : closer ≠ [])
    (h : ¬ closer <:+: text) (hrest : rest ≠ []) : text.length < through closer (text ++ rest) := by
  rw [through]
  cases hfirst : distance? closer (text ++ rest) with
  | none =>
    have := List.length_pos_of_ne_nil hrest
    show text.length < (text ++ rest).length
    rw [List.length_append]
    omega
  | some n =>
    obtain ⟨hat, -⟩ := (distance?_eq_some_iff hclosing).mp hfirst
    show text.length < n + closer.length
    -- one that ended in the text would be one of the text
    by_contra hle
    have hpos := List.length_pos_of_ne_nil hclosing
    rw [List.drop_append_of_le_length (by omega)] at hat
    refine h (List.IsPrefix.isInfix ?_ |>.trans (List.drop_suffix n text).isInfix)
    apply List.prefix_of_prefix_length_le hat (List.prefix_append _ _)
    rw [List.length_drop]
    omega

theorem through_eq_of_infix {closer text : List Char} (hne : closer ≠ []) (h : closer <:+: text) :
    closer <:+ text.take (through closer text) := by
  cases hfirst : distance? closer text with
  | none => exact absurd h ((distance?_eq_none_iff hne).mp hfirst)
  | some n =>
    obtain ⟨⟨rest, hrest⟩, -⟩ := (distance?_eq_some_iff hne).mp hfirst
    rw [through, hfirst]
    refine ⟨text.take n, ?_⟩
    show _ = text.take (n + closer.length)
    rw [List.take_add, ← hrest, List.take_left]

end JumpLexer

open JumpLexer

/-! ## What is written at a place -/

/-- The stretch is what a comment of the form takes up, in a text that begins at the offset. -/
def CommentForm.IsWritten (form : CommentForm) (offset : Nat) (text : List Char) (c : Stretch) :
    Prop :=
  ∃ passed rest, text = passed ++ (form.opener ++ rest) ∧ c.start = offset + passed.length ∧
    c.stop = c.start + (form.opener.length + toEnd form rest)

section Written

variable {dialect : Dialect} {form form' : CommentForm} {offset : Nat} {text : List Char}
  {c c' : Stretch}

theorem CommentForm.IsWritten.append {front : List Char}
    (h : form.IsWritten (offset + front.length) text c) :
    form.IsWritten offset (front ++ text) c := by
  obtain ⟨passed, rest, htext, hstart, hstop⟩ := h
  refine ⟨front ++ passed, rest, ?_, ?_, hstop⟩
  · rw [htext, List.append_assoc]
  · rw [hstart, List.length_append, Nat.add_assoc]

theorem CommentForm.IsWritten.le_start (h : form.IsWritten offset text c) : offset ≤ c.start := by
  obtain ⟨passed, rest, -, hstart, -⟩ := h
  rw [hstart]
  exact Nat.le_add_right _ _

theorem CommentForm.IsWritten.stop_le (h : form.IsWritten offset text c) :
    c.stop ≤ offset + text.length := by
  obtain ⟨passed, rest, htext, hstart, hstop⟩ := h
  have hle := toEnd_le_length form rest
  rw [hstop, hstart, htext]
  simp only [List.length_append]
  omega

theorem CommentForm.IsWritten.behind {front : List Char}
    (h : form.IsWritten offset (front ++ text) c) (hle : offset + front.length ≤ c.start) :
    form.IsWritten (offset + front.length) text c := by
  obtain ⟨passed, rest, htext, hstart, hstop⟩ := h
  have hprefix : front <+: passed := by
    have hpassed : passed <+: front ++ text := htext ▸ List.prefix_append _ _
    exact List.prefix_of_prefix_length_le (List.prefix_append _ _) hpassed (by omega)
  obtain ⟨more, rfl⟩ := hprefix
  refine ⟨more, rest, ?_, ?_, hstop⟩
  · rw [List.append_assoc] at htext
    exact List.append_cancel_left htext
  · rw [hstart, List.length_append, Nat.add_assoc]

theorem CommentForm.IsWritten.prefix_drop (h : form.IsWritten 0 text c) :
    form.opener <+: text.drop c.start := by
  obtain ⟨passed, rest, htext, hstart, -⟩ := h
  rw [htext, hstart, Nat.zero_add, List.drop_left]
  exact List.prefix_append form.opener rest

/-- Where the opening delimiter stands a comment of the form can be written. -/
theorem CommentForm.exists_isWritten {start : Nat} (hne : form.opener ≠ [])
    (h : form.opener <+: text.drop start) : ∃ c, form.IsWritten 0 text c ∧ c.start = start := by
  obtain ⟨rest, hrest⟩ := h
  have hlength := congrArg List.length hrest
  have hpos := List.length_pos_of_ne_nil hne
  rw [List.length_append, List.length_drop] at hlength
  refine ⟨⟨start, start + (form.opener.length + toEnd form rest), Nat.le_add_right _ _⟩, ?_, rfl⟩
  refine ⟨text.take start, rest, ?_, ?_, rfl⟩
  · rw [hrest, List.take_append_drop]
  · rw [List.length_take]
    simp only
    omega

/-- Opening delimiters at one place are the same, and so is what begins with them. -/
theorem CommentForm.IsWritten.unique (h : form.IsWritten 0 text c) (h' : form'.IsWritten 0 text c')
    (hform : form ∈ dialect.comments) (hform' : form' ∈ dialect.comments)
    (hstart : c.start = c'.start) : form = form' ∧ c = c' := by
  have hlength : form.opener.length = form'.opener.length := by
    rw [CommentScan.length_opener hform, CommentScan.length_opener hform']
  have hprefix := h.prefix_drop
  have hprefix' := h'.prefix_drop
  rw [hstart] at hprefix
  have hopener := List.prefix_of_prefix_length_le hprefix hprefix' (Nat.le_of_eq hlength)
  obtain rfl := CommentScan.eq_of_opener_eq hform hform' (hopener.eq_of_length hlength)
  refine ⟨rfl, Stretch.ends_inj c c' ?_⟩
  obtain ⟨passed, rest, htext, hplace, hstop⟩ := h
  obtain ⟨passed', rest', htext', hplace', hstop'⟩ := h'
  have hpassed : passed.length = passed'.length := by omega
  obtain ⟨-, hrest⟩ := List.append_inj (htext.symm.trans htext') hpassed
  rw [Stretch.ends, Stretch.ends, hstop, hstop', hstart, List.append_cancel_left hrest]

/-- The scan finds what is written. -/
theorem exists_isWritten_of_mem_comments (h : c ∈ comments dialect offset text) :
    ∃ form ∈ dialect.comments, form.IsWritten offset text c := by
  induction text using rule_induction dialect generalizing offset with
  | nil => exact absurd h (by simp)
  | comment form hform rest ih =>
    rw [comments_form hform] at h
    rcases List.mem_cons.mp h with rfl | h
    · exact ⟨form, hform, [], rest, rfl, rfl, rfl⟩
    · have hle := toEnd_le_length form rest
      have hsplit : form.opener ++ rest
          = (form.opener ++ rest.take (toEnd form rest)) ++ rest.drop (toEnd form rest) := by
        rw [List.append_assoc, List.take_append_drop]
      have hlength : (form.opener ++ rest.take (toEnd form rest)).length
          = form.opener.length + toEnd form rest := by
        rw [List.length_append, List.length_take, Nat.min_eq_left hle]
      rw [← hlength] at h
      obtain ⟨found, hfound, hwritten⟩ := ih h
      rw [hsplit]
      exact ⟨found, hfound, hwritten.append⟩
  | string quote rest hscript hquote ih =>
    subst hscript
    have hle := literal_le_length quote false rest
    have hsplit : quote :: rest = (quote :: rest.take (literal quote false rest))
        ++ rest.drop (literal quote false rest) := by
      rw [List.cons_append, List.take_append_drop]
    have hlength : (quote :: rest.take (literal quote false rest)).length
        = 1 + literal quote false rest := by
      rw [List.length_cons, List.length_take, Nat.min_eq_left hle, Nat.add_comm]
    rw [CommentScan.comments_quote hquote, Nat.add_assoc, ← hlength] at h
    obtain ⟨found, hfound, hwritten⟩ := ih h
    rw [hsplit]
    exact ⟨found, hfound, hwritten.append⟩
  | code d rest hquote hnone ih =>
    rw [CommentScan.comments_cons offset rest hquote hnone] at h
    obtain ⟨found, hfound, hwritten⟩ := ih h
    have hsplit : d :: rest = [d] ++ rest := rfl
    rw [hsplit]
    exact ⟨found, hfound, hwritten.append⟩

end Written

namespace TagComments

/-- The delimiters of comments in tag markup. -/
abbrev opener : List Char := CommentForm.tagBlock.opener
abbrev closer : List Char := CommentForm.tagBlock.closer

theorem mem_comments : CommentForm.tagBlock ∈ Dialect.tag.comments := List.mem_singleton_self _

theorem closer_ne_nil : closer ≠ [] := List.cons_ne_nil _ _

/-- The comment ends with its closing delimiter, which is not part of the opening one. -/
def IsClosed (text : List Char) (c : Stretch) : Prop :=
  closer <:+ (text.take c.stop).drop (c.start + opener.length)

end TagComments

open TagComments in
/-- Every comment of tag markup in the text is closed in it. -/
def ClosesTagComments (text : List Char) : Prop :=
  ∀ c ∈ scanComments .tag 0 text, IsClosed text c

namespace TagComments

variable {text rest : List Char}

theorem isClosed_shift (text : List Char) (c : Stretch) (n : Nat) :
    IsClosed text (c.shift n) ↔ IsClosed (text.drop n) c := by
  -- the same characters, counted from the start of the text and from `n`
  have hsame : (text.take (c.stop + n)).drop (c.start + n + opener.length)
      = ((text.drop n).take c.stop).drop (c.start + opener.length) := by
    rw [List.take_drop, List.drop_drop]
    congr 1
    · omega
    · rw [Nat.add_comm]
  rw [IsClosed, IsClosed, Stretch.shift, hsame]

/-- The comments behind a place in the text are closed in it if they are in the text from there. -/
theorem isClosed_drop (text : List Char) (n : Nat) :
    (∀ c ∈ comments .tag n (text.drop n), IsClosed text c) ↔ ClosesTagComments (text.drop n) := by
  rw [ClosesTagComments, scanComments_eq_comments, ← Nat.zero_add n, comments_add, Nat.zero_add]
  simp only [List.mem_map, forall_exists_index, and_imp, forall_apply_eq_imp_iff₂, isClosed_shift]

theorem closes_nil : ClosesTagComments [] := by
  intro c hc
  rw [scanComments_eq_comments, comments_nil] at hc
  exact absurd hc (List.not_mem_nil)

theorem comments_cons {c : Char} (offset : Nat) (h : ¬ opener <+: c :: rest) :
    comments .tag offset (c :: rest) = comments .tag (offset + 1) rest := by
  apply CommentScan.comments_cons offset rest (by simp)
  intro form hform
  rwa [List.mem_singleton.mp hform]

theorem comments_opener (offset : Nat) (rest : List Char) : comments .tag offset (opener ++ rest) =
    ⟨offset, offset + (opener.length + through closer rest), Nat.le_add_right _ _⟩ ::
      comments .tag (offset + (opener.length + through closer rest))
        (rest.drop (through closer rest)) := by
  rw [CommentScan.comments_block mem_comments rfl]
  simp only [Nat.add_assoc]

theorem closes_cons {c : Char} (h : ¬ opener <+: c :: rest) :
    ClosesTagComments (c :: rest) ↔ ClosesTagComments rest := by
  rw [ClosesTagComments, scanComments_eq_comments, comments_cons 0 h]
  exact isClosed_drop (c :: rest) 1

/-- A comment at the start is closed if a closing delimiter follows. -/
theorem closes_opener : ClosesTagComments (opener ++ rest) ↔
    closer <:+: rest ∧ ClosesTagComments (rest.drop (through closer rest)) := by
  have hfirst : IsClosed (opener ++ rest) ⟨0, opener.length + through closer rest, Nat.zero_le _⟩ ↔
      closer <:+: rest := by
    rw [IsClosed, List.take_length_add_append, Nat.zero_add, List.drop_left]
    constructor
    · exact fun h => h.isInfix.trans (List.take_prefix _ _).isInfix
    · exact through_eq_of_infix closer_ne_nil
  have hdrop : rest.drop (through closer rest)
      = (opener ++ rest).drop (opener.length + through closer rest) := by
    rw [List.drop_length_add_append]
  rw [hdrop, ← isClosed_drop, ← hfirst, ClosesTagComments, scanComments_eq_comments,
    comments_opener]
  simp only [List.mem_cons, forall_eq_or_imp, Nat.zero_add, List.drop_length_add_append]

/-! ### Delimiters that lie across -/

/-- No opening delimiter begins in the text and ends in what follows. -/
def NoneAcross (text rest : List Char) : Prop :=
  ∀ behind, behind ≠ [] → behind <:+ text → opener <+: behind ++ rest → opener <+: behind

theorem NoneAcross.suffix {back : List Char} (h : NoneAcross text rest) (hback : back <:+ text) :
    NoneAcross back rest :=
  fun behind hne hsuffix => h behind hne (hsuffix.trans hback)

/-- A delimiter has a bracket at its start only. -/
theorem noneAcross_bracket (text rest : List Char) : NoneAcross text ('<' :: rest) := by
  intro behind hne _ hbegins
  rcases List.prefix_or_prefix_of_prefix hbegins (List.prefix_append behind _) with hin | hout
  · exact hin
  · obtain ⟨more, hmore⟩ := hout
    obtain ⟨b, back, rfl⟩ := List.exists_cons_of_ne_nil hne
    cases more with
    | nil => exact ⟨[], by rw [← hmore]; simp⟩
    | cons c more =>
      rw [← hmore, List.prefix_append_right_inj] at hbegins
      obtain rfl : c = '<' := (List.cons_prefix_cons.mp hbegins).1
      have htail : back ++ '<' :: more = ['!', '-', '-', '-'] := (List.cons.inj hmore).2
      -- the second text would begin within the delimiter
      have hmem : '<' ∈ ['!', '-', '-', '-'] := by
        rw [← htail]
        simp
      exact absurd hmem (by decide)

/-- A delimiter that opens a comment has no closing bracket. -/
theorem noneAcross_concat (text rest : List Char) : NoneAcross (text ++ ['>']) rest := by
  intro behind hne hsuffix hbegins
  rcases List.prefix_or_prefix_of_prefix hbegins (List.prefix_append behind _) with hin | hout
  · exact hin
  · have hmem : '>' ∈ behind := by
      rcases List.suffix_concat_iff.mp hsuffix with rfl | ⟨front, rfl, -⟩
      · exact absurd rfl hne
      · simp
    exact absurd (hout.subset hmem) (by decide)

/-! ### The parts -/

/-- **The steps of the scan.** The rules of the lexer in tag markup, where there is one form of
comment and no string literal. -/
theorem scan_induction {motive : List Char → Prop} (nil : motive [])
    (cons : ∀ c rest, ¬ opener <+: c :: rest → motive rest → motive (c :: rest))
    (block : ∀ inside, motive (inside.drop (through closer inside)) → motive (opener ++ inside))
    (text : List Char) : motive text := by
  induction text using rule_induction .tag with
  | nil => exact nil
  | comment form hform inside ih =>
    obtain rfl : form = .tagBlock := List.mem_singleton.mp hform
    exact block inside ih
  | string quote rest hscript => exact absurd hscript (by decide)
  | code c rest _ hnone ih => exact cons c rest (hnone _ mem_comments) ih

/-- A comment begins with its opening delimiter. -/
theorem opener_prefix {offset : Nat} {c : Stretch} (h : c ∈ comments .tag offset text) :
    opener <+: text.drop (c.start - offset) := by
  induction text using scan_induction generalizing offset with
  | nil => exact absurd h (by simp)
  | cons d text hopener ih =>
    rw [comments_cons offset hopener] at h
    have hstart := (comments_within _ _ _ c h).1
    rw [show c.start - offset = c.start - (offset + 1) + 1 by omega, List.drop_succ_cons]
    exact ih h
  | block inside ih =>
    rw [comments_opener] at h
    rcases List.mem_cons.mp h with rfl | h
    · rw [Nat.sub_self]
      exact List.prefix_append _ _
    · have hstart := (comments_within _ _ _ c h).1
      have hsplit : c.start - offset = opener.length + through closer inside
          + (c.start - (offset + (opener.length + through closer inside))) := by omega
      rw [hsplit, ← List.drop_drop, List.drop_length_add_append]
      exact ih h

/-- **A text is scanned in parts** if the first one leaves no comment open. -/
theorem comments_append (hcloses : ClosesTagComments text) (hnone : NoneAcross text rest)
    (offset : Nat) : comments .tag offset (text ++ rest) =
      comments .tag offset text ++ comments .tag (offset + text.length) rest := by
  induction text using scan_induction generalizing offset with
  | nil => simp
  | cons c text hopener ih =>
    -- nor does a comment begin at `c` that ends in the second part
    have hnot : ¬ opener <+: c :: (text ++ rest) := fun hbegins =>
      hopener (hnone _ (List.cons_ne_nil c text) (List.suffix_refl _) hbegins)
    rw [List.cons_append, comments_cons _ hnot, comments_cons _ hopener,
      ih ((closes_cons hopener).mp hcloses) (hnone.suffix (List.suffix_cons c text)),
      List.length_cons, Nat.add_right_comm, Nat.add_assoc]
  | block inside ih =>
    obtain ⟨hclosed, hbehind⟩ := closes_opener.mp hcloses
    have hle := through_le_length closer inside
    have hsuffix : inside.drop (through closer inside) <:+ opener ++ inside :=
      (List.drop_suffix _ _).trans (List.suffix_append _ _)
    -- both scans go on behind the comment, the one of the first part alone by induction
    have hstop : offset + (opener.length + through closer inside)
          + (inside.drop (through closer inside)).length
        = offset + (opener ++ inside).length := by
      rw [List.length_append, List.length_drop]
      omega
    rw [List.append_assoc, comments_opener, comments_opener,
      through_append_of_infix closer_ne_nil hclosed, List.drop_append_of_le_length hle,
      ih hbehind (hnone.suffix hsuffix), hstop]
    rfl

/-- **A text that leaves a comment open** has an opening delimiter with no closing one behind it,
and the comment goes on in what follows. -/
theorem exists_open (h : ¬ ClosesTagComments text) :
    ∃ front inside, text = front ++ (opener ++ inside) ∧ ¬ closer <:+: inside ∧
      ∀ offset rest, NoneAcross text rest → ∃ c ∈ comments .tag offset (text ++ rest),
        c.start = offset + front.length ∧
        c.stop = offset + front.length + (opener.length + through closer (inside ++ rest)) := by
  induction text using scan_induction with
  | nil => exact absurd closes_nil h
  | cons c text hopener ih =>
    obtain ⟨front, inside, rfl, hnot, hcomment⟩ := ih fun hrest =>
      h ((closes_cons hopener).mpr hrest)
    refine ⟨c :: front, inside, rfl, hnot, ?_⟩
    intro offset rest hnone
    have hnot' : ¬ opener <+: c :: (front ++ (opener ++ inside) ++ rest) := fun hbegins =>
      hopener (hnone _ (List.cons_ne_nil c _) (List.suffix_refl _) hbegins)
    obtain ⟨found, hfound, hstart, hstop⟩ := hcomment (offset + 1) rest
      (hnone.suffix (List.suffix_cons c _))
    refine ⟨found, ?_, ?_, ?_⟩
    · rw [List.cons_append, comments_cons _ hnot']
      exact hfound
    · rw [hstart, List.length_cons]
      omega
    · rw [hstop, List.length_cons]
      omega
  | block inside ih =>
    by_cases hclosed : closer <:+: inside
    -- this comment is closed; another one is not
    · have hle := through_le_length closer inside
      obtain ⟨front, inside', hsplit, hnot, hcomment⟩ := ih fun hbehind =>
        h (closes_opener.mpr ⟨hclosed, hbehind⟩)
      refine ⟨opener ++ inside.take (through closer inside) ++ front, inside', ?_, hnot, ?_⟩
      · rw [List.append_assoc, ← hsplit, List.append_assoc, List.take_append_drop]
      · intro offset rest hnone
        have hsuffix : inside.drop (through closer inside) <:+ opener ++ inside :=
          (List.drop_suffix _ _).trans (List.suffix_append _ _)
        obtain ⟨c, hc, hstart, hstop⟩ := hcomment
          (offset + (opener.length + through closer inside)) rest (hnone.suffix hsuffix)
        have hlength : (opener ++ inside.take (through closer inside) ++ front).length
            = opener.length + through closer inside + front.length := by
          rw [List.length_append, List.length_append, List.length_take, Nat.min_eq_left hle]
        refine ⟨c, ?_, ?_, ?_⟩
        · rw [List.append_assoc, comments_opener, through_append_of_infix closer_ne_nil hclosed,
            List.drop_append_of_le_length hle]
          exact List.mem_cons_of_mem _ hc
        · rw [hstart, hlength]
          omega
        · rw [hstop, hlength]
          omega
    · refine ⟨[], inside, rfl, hclosed, ?_⟩
      intro offset rest _
      rw [List.append_assoc, comments_opener]
      exact ⟨_, List.mem_cons_self, rfl, rfl⟩

end TagComments

end Cfml
