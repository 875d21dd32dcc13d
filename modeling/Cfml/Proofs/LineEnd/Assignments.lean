/-
Assignments, and how lines end.

In tag markup an assignment is found however lines end. In script it is looked for at the start of a
line, and a line starts behind a line feed alone. Where lines end in carriage returns, what stands
at the start of a later line is therefore lost, while what stands behind a separator is found as
always (`LineEnd.assignments_restyle`).

To compare the two texts, the pattern is taken with another notion of where a line starts
(`LineEnd.startsLine`), which does not tell one line ending from another. In the text with the other
line endings it reads what the pattern reads (`read_script_restyle`). In the text with line feeds it
finds the assignments that are not lost (`occurrences_script_startsLine`): no separator stands in an
assignment that begins a line (`avoids_of_target?`), so nothing else is found in its place.
-/
import Cfml.Proofs.Declaration.Header
import Cfml.Proofs.LineEnd.Functions

set_option autoImplicit false

namespace Cfml

/-! ## Reading without certain characters -/

namespace Reader

/-- The later place is reached by passing over a text without the characters. -/
def Avoids (others : List Char) (r later : Reader) : Prop :=
  ∃ passed, r.ahead = passed ++ later.ahead ∧ later = r.passing passed later.ahead ∧
    ∀ c ∈ passed, c ∉ others

variable {others : List Char} {r later last : Reader} {p : Char → Bool}

theorem Avoids.trans (h : Avoids others r later) (h' : Avoids others later last) :
    Avoids others r last := by
  obtain ⟨passed, hahead, hlater, hpassed⟩ := h
  obtain ⟨more, hahead', hlast, hmore⟩ := h'
  refine ⟨passed ++ more, ?_, ?_, List.forall_mem_append.mpr ⟨hpassed, hmore⟩⟩
  · rw [hahead, hahead', List.append_assoc]
  · rw [hlater, passing_passing] at hlast
    exact hlast

theorem avoids_of_one? (hp : ∀ d ∈ others, p d = false) (h : r.one? p = some later) :
    Avoids others r later := by
  obtain ⟨c, rest, hahead, hc, rfl⟩ := one?_eq_some_iff.mp h
  refine ⟨[c], hahead, rfl, ?_⟩
  rw [List.forall_mem_singleton]
  exact notMem_of_kind hp hc

theorem avoids_skipWhile (hp : ∀ d ∈ others, p d = false) (r : Reader) :
    Avoids others r (r.skipWhile p) := by
  obtain ⟨passed, hahead, hpassed, hlater⟩ := exists_of_skipWhile p r
  exact ⟨passed, hahead, hlater, fun c hc => notMem_of_kind hp (hpassed c hc)⟩

theorem avoids_of_caseless? {word : List Char}
    (hword : ∀ d ∈ others, ∀ c ∈ word, sameLetter c d = false)
    (h : r.caseless? word = some later) : Avoids others r later := by
  obtain ⟨written, rest, hwritten, hahead, rfl⟩ := caseless?_eq_some_iff.mp h
  exact ⟨written, hahead, rfl, notMem_of_written hword hwritten⟩

theorem avoids_of_name? {first part : Char → Bool} {name : Capture}
    (hfirst : ∀ d ∈ others, first d = false) (hpart : ∀ d ∈ others, part d = false)
    (h : r.name? first part = some (name, later)) : Avoids others r later := by
  obtain ⟨c, more, hahead, hc, hmore, hlater⟩ := exists_of_name? h
  refine ⟨c :: more, hahead, hlater, ?_⟩
  rw [List.forall_mem_cons]
  exact ⟨notMem_of_kind hfirst hc, fun d hd => notMem_of_kind hpart (hmore d hd)⟩

end Reader

namespace Assignment

variable {e : LineEnd} {text : List Char} {r r' later : Reader} {target : Target}

/-! ## Targets -/

/-- The same is assigned to, at corresponding places. -/
structure Target.Restyled (e : LineEnd) (text : List Char) (target target' : Target) : Prop where
  isDeclared_eq : target'.isDeclared = target.isDeclared
  scope_eq : target'.scope = target.scope
  name : target.name.Restyled e text target'.name

theorem scope?_restyled (h : r.Restyled e text r') :
    Option.Rel (fun found found' => found'.1 = found.1 ∧ found.2.Restyled e text found'.2)
      (scope? r) (scope? r') := by
  have hscopes : ∀ scope ∈ scopes, ∀ c ∈ scope, isLineBreak c = false := by decide
  apply rel_findSome?
  intro scope hscope
  apply rel_bind (h.caseless? (hscopes scope hscope))
  intro behind behind' hbehind
  have hblanks := (h.step hbehind).skipWhile (p := isBlank) (by decide)
  apply rel_bind (hblanks.one? (by decide))
  intro dot dot' hdot
  exact .some ⟨(hbehind.upTo h).2, (hblanks.step hdot).skipWhile (by decide)⟩

theorem assigned?_restyled (h : r.Restyled e text r') :
    Option.Rel (fun found found' => found.1.Restyled e text found'.1 ∧
        found.2.Restyled e text found'.2) (assigned? r) (assigned? r') := by
  apply rel_bind (h.name? (by decide) (by decide))
  rintro ⟨name, behind⟩ ⟨name', behind'⟩ ⟨hname, hbehind⟩
  have hblanks := (h.step hbehind).skipWhile (p := isBlank) (by decide)
  apply rel_bind (hblanks.one? (by decide))
  intro sign sign' hsign
  have hlater := hblanks.step hsign
  rw [FunctionDecl.beq_some_eq_any, FunctionDecl.beq_some_eq_any, hlater.any_head? (by decide)]
  split
  · exact .none
  · exact .some ⟨hname, hlater⟩

theorem scoped?_restyled (isDeclared : Bool) (h : r.Restyled e text r') :
    Option.Rel (fun found found' => found.1.Restyled e text found'.1 ∧
        found.2.Restyled e text found'.2) (scoped? isDeclared r) (scoped? isDeclared r') := by
  apply rel_orElse
  · apply rel_bind (scope?_restyled h)
    rintro ⟨scope, behind⟩ ⟨scope', behind'⟩ ⟨hscope, hbehind⟩
    apply rel_bind (assigned?_restyled hbehind)
    rintro ⟨name, later⟩ ⟨name', later'⟩ ⟨hname, hlater⟩
    exact .some ⟨⟨rfl, congrArg some hscope, hname⟩, hlater⟩
  · apply rel_map (assigned?_restyled h)
    rintro ⟨name, later⟩ ⟨name', later'⟩ ⟨hname, hlater⟩
    exact ⟨⟨rfl, rfl, hname⟩, hlater⟩

theorem target?_restyled (h : r.Restyled e text r') :
    Option.Rel (fun found found' => found.1.Restyled e text found'.1 ∧
        found.2.Restyled e text found'.2) (target? r) (target? r') := by
  apply rel_orElse
  · apply rel_bind (FunctionDecl.modifier?_restyled (by decide) h)
    rintro ⟨word, behind⟩ ⟨word', behind'⟩ ⟨-, hbehind⟩
    exact scoped?_restyled true hbehind
  · exact scoped?_restyled false h

/-- The equals sign is read. -/
theorem assigned?_advances {name : Capture} (h : assigned? r = some (name, later)) :
    r.offset < later.offset := by
  simp only [assigned?, Option.bind_eq_bind, Option.bind_eq_some_iff, Prod.exists] at h
  obtain ⟨_, behind, hname, sign, hsign, heq⟩ := h
  split at heq
  · exact absurd heq (by simp)
  · obtain ⟨-, rfl⟩ := Prod.mk.inj (Option.some.inj heq)
    have hreaches := (Reader.name?_reaches hname).trans behind.blanks_reaches
    exact Nat.lt_of_le_of_lt hreaches.offset_le (Reader.one?_advances hsign)

theorem scoped?_advances {isDeclared : Bool} (h : scoped? isDeclared r = some (target, later)) :
    r.offset < later.offset := by
  rcases Reader.eq_some_of_orElse h with hscoped | hplain
  · simp only [Option.bind_eq_bind, Option.bind_eq_some_iff, Prod.exists] at hscoped
    obtain ⟨_, _, hscope, _, _, hassigned, heq⟩ := hscoped
    obtain ⟨-, rfl⟩ := Prod.mk.inj (Option.some.inj heq)
    exact Nat.lt_of_le_of_lt (scope?_reaches hscope).offset_le (assigned?_advances hassigned)
  · simp only [Option.map_eq_some_iff, Prod.exists] at hplain
    obtain ⟨_, _, hassigned, heq⟩ := hplain
    obtain ⟨-, rfl⟩ := Prod.mk.inj heq
    exact assigned?_advances hassigned

theorem target?_advances (h : target? r = some (target, later)) : r.offset < later.offset := by
  rcases Reader.eq_some_of_orElse h with hdeclared | hplain
  · simp only [Option.bind_eq_some_iff, Prod.exists] at hdeclared
    obtain ⟨_, _, hword, hscoped⟩ := hdeclared
    exact Nat.lt_of_le_of_lt (FunctionDecl.modifier?_reaches hword).offset_le
      (scoped?_advances hscoped)
  · exact scoped?_advances hplain

/-! ### No separator stands in them -/

/-- The characters behind which a statement starts. -/
def separators : List Char := [';', '{', '}']

theorem avoids_of_scope? {scope : List Char} (h : scope? r = some (scope, later)) :
    r.Avoids separators later := by
  have hscopes : ∀ scope ∈ scopes, ∀ d ∈ separators, ∀ c ∈ scope, sameLetter c d = false := by
    decide +kernel
  obtain ⟨word, hword, hscope⟩ := List.exists_of_findSome?_eq_some h
  simp only [Option.bind_eq_bind, Option.bind_eq_some_iff] at hscope
  obtain ⟨behind, hread, dot, hdot, heq⟩ := hscope
  obtain ⟨-, rfl⟩ := Prod.mk.inj (Option.some.inj heq)
  exact ((Reader.avoids_of_caseless? (hscopes word hword) hread).trans
    (Reader.avoids_skipWhile (by decide) behind)).trans
      ((Reader.avoids_of_one? (by decide) hdot).trans (Reader.avoids_skipWhile (by decide) dot))

theorem avoids_of_assigned? {name : Capture} (h : assigned? r = some (name, later)) :
    r.Avoids separators later := by
  simp only [assigned?, Option.bind_eq_bind, Option.bind_eq_some_iff, Prod.exists] at h
  obtain ⟨_, behind, hname, sign, hsign, heq⟩ := h
  split at heq
  · exact absurd heq (by simp)
  · obtain ⟨-, rfl⟩ := Prod.mk.inj (Option.some.inj heq)
    exact ((Reader.avoids_of_name? (by decide) (by decide) hname).trans
      (Reader.avoids_skipWhile (by decide) behind)).trans (Reader.avoids_of_one? (by decide) hsign)

theorem avoids_of_scoped? {isDeclared : Bool} (h : scoped? isDeclared r = some (target, later)) :
    r.Avoids separators later := by
  rcases Reader.eq_some_of_orElse h with hscoped | hplain
  · simp only [Option.bind_eq_bind, Option.bind_eq_some_iff, Prod.exists] at hscoped
    obtain ⟨_, _, hscope, _, _, hassigned, heq⟩ := hscoped
    obtain ⟨-, rfl⟩ := Prod.mk.inj (Option.some.inj heq)
    exact (avoids_of_scope? hscope).trans (avoids_of_assigned? hassigned)
  · simp only [Option.map_eq_some_iff, Prod.exists] at hplain
    obtain ⟨_, _, hassigned, heq⟩ := hplain
    obtain ⟨-, rfl⟩ := Prod.mk.inj heq
    exact avoids_of_assigned? hassigned

/-- **No separator stands in what is assigned to.** -/
theorem avoids_of_target? (h : target? r = some (target, later)) : r.Avoids separators later := by
  rcases Reader.eq_some_of_orElse h with hdeclared | hplain
  · simp only [Option.bind_eq_some_iff, Prod.exists] at hdeclared
    obtain ⟨_, behind, hword, hscoped⟩ := hdeclared
    simp only [FunctionDecl.modifier?, Option.bind_eq_bind, Option.bind_eq_some_iff] at hword
    obtain ⟨second, hvar, last, hblank, heq⟩ := hword
    obtain ⟨-, rfl⟩ := Prod.mk.inj (Option.some.inj heq)
    obtain ⟨third, hone, rfl⟩ := Option.map_eq_some_iff.mp hblank
    exact ((Reader.avoids_of_caseless? (by decide +kernel) hvar).trans
      ((Reader.avoids_of_one? (by decide) hone).trans
        (Reader.avoids_skipWhile (by decide) third))).trans (avoids_of_scoped? hscoped)
  · exact avoids_of_scoped? hplain

theorem atVisible_of_scoped? {isDeclared : Bool} (h : scoped? isDeclared r = some (target, later)) :
    r.AtVisible := by
  rcases Reader.eq_some_of_orElse h with hscoped | hplain
  · simp only [Option.bind_eq_bind, Option.bind_eq_some_iff, Prod.exists] at hscoped
    obtain ⟨_, _, hscope, -⟩ := hscoped
    have hscopes : ∀ scope ∈ scopes, beginsVisibly scope = true := by decide
    obtain ⟨word, hword, hread⟩ := List.exists_of_findSome?_eq_some hscope
    simp only [Option.bind_eq_bind, Option.bind_eq_some_iff] at hread
    obtain ⟨_, hread, -⟩ := hread
    exact Reader.atVisible_of_caseless? (hscopes word hword) hread
  · simp only [Option.map_eq_some_iff, Prod.exists] at hplain
    obtain ⟨_, _, hassigned, -⟩ := hplain
    exact (atVisible_of_assigned? hassigned).1

theorem atVisible_of_target? (h : target? r = some (target, later)) : r.AtVisible := by
  rcases Reader.eq_some_of_orElse h with hdeclared | hplain
  · simp only [Option.bind_eq_some_iff, Prod.exists] at hdeclared
    obtain ⟨_, _, hword, -⟩ := hdeclared
    exact FunctionDecl.atVisible_of_modifier? (by decide) hword
  · exact atVisible_of_scoped? hplain

/-! ## Statements -/

/-- Whether a statement starts behind the character. -/
def isSeparator (c : Char) : Bool := c == ';' || c == '{' || c == '}'

theorem mem_separators_iff {c : Char} : c ∈ separators ↔ isSeparator c = true := by
  simp [separators, isSeparator, or_assoc]

/-- Whether the character can stand before a statement. -/
def isMargin (c : Char) : Bool := c == ' ' || c == '\t'

/-- Reads an assignment from the start of its statement. -/
def statement? (r : Reader) : Option (Target × Reader) := target? (r.skipWhile isMargin)

/-- Reads an assignment in script, where lines start as told. -/
def scriptAt? (starts : Reader → Bool) (r : Reader) : Option (Target × Reader) :=
  (if starts r then statement? r else none) <|> (r.one? isSeparator).bind statement?

variable {starts starts' : Reader → Bool}

theorem statement?_reaches (h : statement? r = some (target, later)) : r.Reaches later :=
  (r.skipWhile_reaches _).trans (target?_reaches h)

theorem avoids_of_statement? (h : statement? r = some (target, later)) :
    r.Avoids separators later :=
  (Reader.avoids_skipWhile (by decide) r).trans (avoids_of_target? h)

theorem scriptAt?_reaches (h : scriptAt? starts r = some (target, later)) : r.Reaches later := by
  rcases Reader.eq_some_of_orElse h with hline | hbehind
  · exact statement?_reaches (Option.ite_none_right_eq_some.mp hline).2
  · obtain ⟨start, hstart, hstatement⟩ := Option.bind_eq_some_iff.mp hbehind
    exact (Reader.one?_reaches hstart).trans (statement?_reaches hstatement)

/-- The pattern of an assignment in script, where lines start as told. -/
def scriptPattern (starts : Reader → Bool) : Pattern Target :=
  ⟨scriptAt? starts, scriptAt?_reaches⟩

theorem pattern_script : pattern .script = scriptPattern atLineStart := rfl

theorem statement?_advances (h : statement? r = some (target, later)) : r.offset < later.offset :=
  Nat.lt_of_le_of_lt (r.skipWhile_reaches isMargin).offset_le (target?_advances h)

theorem scriptAt?_advances (h : scriptAt? starts r = some (target, later)) :
    r.offset < later.offset := by
  rcases Reader.eq_some_of_orElse h with hline | hbehind
  · exact statement?_advances (Option.ite_none_right_eq_some.mp hline).2
  · obtain ⟨start, hstart, hstatement⟩ := Option.bind_eq_some_iff.mp hbehind
    exact Nat.lt_trans (Reader.one?_advances hstart) (statement?_advances hstatement)

theorem statement?_restyled (h : r.Restyled e text r') :
    Option.Rel (fun found found' => found.1.Restyled e text found'.1 ∧
        found.2.Restyled e text found'.2) (statement? r) (statement? r') :=
  target?_restyled (h.skipWhile (by decide))

/-- No statement begins with a line break or a separator. -/
theorem statement?_eq_none
    (h : r.ahead.head?.any (fun c => isLineBreak c || isSeparator c) = true) :
    statement? r = none := by
  cases hahead : r.ahead with
  | nil => simp [hahead] at h
  | cons c rest =>
    have hc : (isLineBreak c || isSeparator c) = true := by simpa [hahead] using h
    have hmargin : isMargin c = false := by
      apply eq_false_of_ne_true
      simp only [isMargin, Bool.or_eq_true, beq_iff_eq]
      rintro (rfl | rfl)
      · exact absurd hc (by decide)
      · exact absurd hc (by decide)
    have hskip : r.skipWhile isMargin = r := by
      have hnothing : r.ahead = [] ++ r.ahead := rfl
      have hhead : r.ahead.head?.any isMargin = false := by simp [hahead, hmargin]
      rw [Reader.skipWhile_of_append hnothing (by simp) hhead, Reader.passing_nil rfl]
    rw [statement?, hskip, Option.eq_none_iff_forall_ne_some]
    rintro ⟨target, later⟩ htarget
    rcases Bool.or_eq_true_iff.mp hc with hbreak | hseparator
    · obtain ⟨d, more, hvisible, hd⟩ := atVisible_of_target? htarget
      rw [hahead] at hvisible
      exact hd (Or.inr ((List.cons.inj hvisible).1 ▸ hbreak))
    · obtain ⟨passed, hpassed, hlater, havoids⟩ := avoids_of_target? htarget
      have hadvances := target?_advances htarget
      cases passed with
      | nil =>
        rw [hlater, Reader.offset_passing] at hadvances
        exact absurd hadvances (Nat.lt_irrefl _)
      | cons d passed =>
        rw [hahead] at hpassed
        obtain ⟨rfl, -⟩ := List.cons.inj hpassed
        exact havoids c List.mem_cons_self (mem_separators_iff.mpr hseparator)

/-- Behind a separator it makes no difference where lines start. -/
theorem scriptAt?_of_separator (h : r.ahead.head?.any isSeparator = true) :
    scriptAt? starts r = (r.one? isSeparator).bind statement? := by
  have hnone : statement? r = none := by
    apply statement?_eq_none
    cases hhead : r.ahead.head? with
    | none => simp [hhead] at h
    | some c => simpa [hhead] using Or.inr (by simpa [hhead] using h)
  rw [scriptAt?, hnone, ite_self]
  rfl

theorem scriptAt?_of_not_separator (h : r.ahead.head?.any isSeparator = false) :
    scriptAt? starts r = if starts r then statement? r else none := by
  rw [scriptAt?, Reader.one?_eq_none h, Option.bind_none, Option.orElse_eq_orElse,
    Option.orElse_eq_or, Option.or_none]

theorem scriptAt?_of_lineBreak (h : r.ahead.head?.any isLineBreak = true) :
    scriptAt? starts r = none := by
  have hnone : statement? r = none := by
    apply statement?_eq_none
    cases hhead : r.ahead.head? with
    | none => simp [hhead] at h
    | some c => simpa [hhead] using Or.inl (by simpa [hhead] using h)
  rw [scriptAt?, hnone, ite_self, Reader.one?_eq_none_of_lineBreak (by decide) h]
  rfl

theorem scriptAt?_congr (h : starts r = starts' r) : scriptAt? starts r = scriptAt? starts' r := by
  rw [scriptAt?, scriptAt?, h]

/-- **Where the start of a line does not depend on how lines end, the pattern reads alike.** -/
theorem restyles_scriptPattern
    (hstarts : ∀ {r r' : Reader}, r.Restyled e text r' → starts r' = starts r) :
    (scriptPattern starts).Restyles e text (Target.Restyled e text) where
  read {r r'} h := by
    apply rel_orElse
    · rw [hstarts h]
      split
      · exact statement?_restyled h
      · exact .none
    · apply rel_bind (h.one? (by decide))
      intro start start' hstart
      exact statement?_restyled (h.step hstart)
  read_lineBreak := scriptAt?_of_lineBreak
  advances := scriptAt?_advances

theorem restyles_tag : (pattern .tag).Restyles e text (Target.Restyled e text) where
  read {r r'} h := by
    apply rel_bind (h.one? (by decide))
    intro opened opened' hopened
    apply rel_bind ((h.step hopened).caseless? (by decide))
    intro name name' hname
    apply rel_bind (((h.step hopened).step hname).some? (by decide))
    intro blanks blanks' hblanks
    exact target?_restyled hblanks
  read_lineBreak {r} h := by
    change tag? r = none
    rw [tag?, Reader.one?_eq_none_of_lineBreak (by decide) h]
    rfl
  advances {r later target} h := by
    simp only [pattern, tag?, Option.bind_eq_bind, Option.bind_eq_some_iff] at h
    obtain ⟨_, hopen, _, hname, _, hblank, htarget⟩ := h
    have hreaches := (Reader.caseless?_reaches hname).trans
      ((Reader.some?_reaches hblank).trans (target?_reaches htarget))
    exact Nat.lt_of_lt_of_le (Reader.one?_advances hopen) hreaches.offset_le

end Assignment

/-! ## Where lines start -/

namespace LineEnd

variable (e : LineEnd) {t passed rest : List Char} {r r' : Reader}

/-- Whether a line starts at the place, in a text with the line ending: the first line, and where
the line ending has a line feed, every other one. -/
def startsLine (r : Reader) : Bool :=
  r.before.isNone || (e != .carriage && r.isAfter isLineBreak)

theorem startsLine_restyled {e : LineEnd} {text : List Char} (h : r.Restyled e text r')
    (f : LineEnd) : f.startsLine r' = f.startsLine r := by
  have hnone : r'.before.isNone = r.before.isNone := by
    have hany := h.before (fun _ => true) rfl
    cases hbefore : r.before <;> cases hbefore' : r'.before <;> simp_all
  rw [startsLine, startsLine, hnone, Reader.isAfter, Reader.isAfter, h.before isLineBreak rfl]

/-- The first of the two characters of a line ending is followed by the second; every other line
break is a line feed unless lines end in carriage returns. -/
theorem eq_feed_of_restyle (ht : '\r' ∉ t) (hsplit : e.restyle t = passed ++ rest) {c : Char}
    (hlast : passed.getLast? = some c) (hc : isLineBreak c = true) :
    (c == '\n') = (e != .carriage) ∨ rest.head? = some '\n' := by
  obtain ⟨init, rfl⟩ := List.getLast?_eq_some_iff.mp hlast
  rw [List.append_assoc, List.singleton_append] at hsplit
  clear hlast
  induction t generalizing init with
  | nil => exact absurd hsplit.symm (by simp)
  | cons d t ih =>
    have hd : d ≠ '\r' := fun heq => ht (heq ▸ List.mem_cons_self)
    have htail : '\r' ∉ t := fun hmem => ht (List.mem_cons_of_mem d hmem)
    by_cases hfeed : d = '\n'
    · subst hfeed
      rw [restyle_feed_cons] at hsplit
      cases e with
      | feed =>
        cases init with
        | nil =>
          obtain ⟨rfl, -⟩ := List.cons.inj hsplit
          exact Or.inl rfl
        | cons b init => exact ih htail init (List.cons.inj hsplit).2
      | pair =>
        cases init with
        | nil =>
          obtain ⟨-, hrest⟩ := List.cons.inj hsplit
          exact Or.inr (congrArg List.head? hrest).symm
        | cons b init =>
          obtain ⟨-, hrest⟩ := List.cons.inj hsplit
          cases init with
          | nil =>
            obtain ⟨rfl, -⟩ := List.cons.inj hrest
            exact Or.inl rfl
          | cons b init => exact ih htail init (List.cons.inj hrest).2
      | carriage =>
        cases init with
        | nil =>
          obtain ⟨rfl, -⟩ := List.cons.inj hsplit
          exact Or.inl rfl
        | cons b init => exact ih htail init (List.cons.inj hsplit).2
    · rw [e.restyle_cons hfeed] at hsplit
      cases init with
      | nil =>
        obtain ⟨rfl, -⟩ := List.cons.inj hsplit
        exact absurd (isLineBreak_eq_false_iff.mpr ⟨hd, hfeed⟩) (by simp [hc])
      | cons b init => exact ih htail init (List.cons.inj hsplit).2

open Assignment

/-- **In a text with the line ending the pattern reads what it reads where lines start as told.** -/
theorem read_script_restyle (ht : '\r' ∉ t) (hbefore : r.before = none)
    (hsplit : e.restyle t = passed ++ rest) :
    scriptAt? e.startsLine (r.passing passed rest) =
      scriptAt? atLineStart (r.passing passed rest) := by
  have hplace : (r.passing passed rest).before = passed.getLast? := by
    rw [Reader.passing, hbefore, Option.or_none]
  cases hlast : passed.getLast? with
  | none =>
    apply scriptAt?_congr
    rw [startsLine, atLineStart, hplace, hlast]
    rfl
  | some c =>
    have hstarts : startsLine e (r.passing passed rest) = (e != .carriage && isLineBreak c) := by
      rw [startsLine, Reader.isAfter, hplace, hlast]
      rfl
    have hstarts' : atLineStart (r.passing passed rest) = (c == '\n') := by
      rw [atLineStart, Reader.isAfter, hplace, hlast]
      rfl
    by_cases hc : isLineBreak c = true
    · rcases e.eq_feed_of_restyle ht hsplit hlast hc with heq | hfeed
      · apply scriptAt?_congr
        rw [hstarts, hstarts', hc, heq, Bool.and_true]
      -- in a line ending nothing is read
      · have hnone : (r.passing passed rest).ahead.head?.any isLineBreak = true := by
          rw [Reader.ahead_passing, hfeed]
          rfl
        rw [scriptAt?_of_lineBreak hnone, scriptAt?_of_lineBreak hnone]
    · apply scriptAt?_congr
      have hc := eq_false_of_ne_true hc
      rw [hstarts, hstarts', hc, Bool.and_false, beq_eq_false_iff_ne.mpr]
      exact (isLineBreak_eq_false_iff.mp hc).2

/-- In a text with line feeds a line starts at fewer places for another line ending. -/
theorem atLineStart_of_startsLine (ht : '\r' ∉ passed) (hbefore : r.before = none) :
    (e.startsLine (r.passing passed rest) = true → atLineStart (r.passing passed rest) = true) ∧
    (e ≠ .carriage →
      e.startsLine (r.passing passed rest) = atLineStart (r.passing passed rest)) := by
  have hplace : (r.passing passed rest).before = passed.getLast? := by
    rw [Reader.passing, hbefore, Option.or_none]
  rw [startsLine, atLineStart, Reader.isAfter, Reader.isAfter, hplace]
  cases hlast : passed.getLast? with
  | none => exact ⟨fun _ => rfl, fun _ => rfl⟩
  | some c =>
    have hc : (c == '\r') = false :=
      beq_eq_false_iff_ne.mpr fun heq => ht (heq ▸ List.mem_of_getLast? hlast)
    cases e <;> simp [isLineBreak, hc]

end LineEnd

namespace Assignment

variable {e : LineEnd} {r : Reader} {o : Occurrence Target} {starts : Reader → Bool}
  {beginsLine : Occurrence Target → Bool}

theorem start_lt_stop (h : o ∈ occurrences (scriptPattern starts) r) : o.start < o.stop := by
  obtain ⟨passed, rest, later, -, -, hstart, hread, hstop⟩ := isRead_of_mem_occurrences h
  rw [hstart, hstop]
  exact scriptAt?_advances hread

/-- No separator stands in what a statement is read from. -/
theorem not_separator_of_statement? {front back passed rest : List Char} {target : Target}
    {later : Reader} (h : statement? (r.passing front back) = some (target, later))
    (hwhole : r.ahead = front ++ back) (hahead : r.ahead = passed ++ rest)
    (hle : front.length ≤ passed.length) (hlt : r.offset + passed.length < later.offset) :
    rest.head?.any isSeparator = false := by
  obtain ⟨inside, hinside, hlater, havoids⟩ := avoids_of_statement? h
  rw [Reader.ahead_passing] at hinside
  rw [hlater, Reader.offset_passing, Reader.offset_passing] at hlt
  -- what is ahead there is a character of the statement
  have hrest : r.ahead[passed.length]? = rest.head? := by
    rw [hahead, List.getElem?_append_right (Nat.le_refl _), Nat.sub_self, List.head?_eq_getElem?]
  have hplace : rest.head? = inside[passed.length - front.length]? := by
    rw [← hrest, hwhole, List.getElem?_append_right (by omega), hinside,
      List.getElem?_append_left (by omega)]
  cases hhead : rest.head? with
  | none => rfl
  | some c =>
    have hc := havoids c (List.mem_of_getElem? (hplace.symm.trans hhead))
    rw [mem_separators_iff] at hc
    exact eq_false_of_ne_true hc

/-- Where lines end in carriage returns, a later statement has to follow a separator. -/
theorem scriptAt?_carriage_eq_none {passed rest : List Char} (hne : passed ≠ [])
    (hnot : rest.head?.any isSeparator = false) :
    scriptAt? LineEnd.carriage.startsLine (r.passing passed rest) = none := by
  have hstarts : LineEnd.carriage.startsLine (r.passing passed rest) = false := by
    rw [LineEnd.startsLine, Reader.passing, List.getLast?_eq_some_getLast hne]
    rfl
  rw [scriptAt?_of_not_separator hnot, hstarts]
  rfl

/-- **Where lines end in carriage returns, what begins a later line is lost.** It is told by where
it starts and by the character that stands there. -/
theorem occurrences_script_startsLine (hbefore : r.before = none) (ht : '\r' ∉ r.ahead)
    (hbegins : ∀ o passed rest, r.ahead = passed ++ rest → rest ≠ [] →
      o.start = r.offset + passed.length →
        beginsLine o = (!passed.isEmpty && !rest.head?.any isSeparator)) :
    occurrences (scriptPattern e.startsLine) r =
      (occurrences (scriptPattern atLineStart) r).filter fun o =>
        !(e == .carriage && beginsLine o) := by
  have hpassed : ∀ {passed rest : List Char}, r.ahead = passed ++ rest → '\r' ∉ passed := by
    intro passed rest hahead hmem
    exact ht (hahead ▸ List.mem_append_left rest hmem)
  apply occurrences_filter
  · exact fun o ho => start_lt_stop ho
  · intro o ho hkeep
    obtain ⟨passed, rest, later, hahead, hne, hstart, hread, hstop⟩ := isRead_of_mem_occurrences ho
    refine ⟨passed, rest, later, hahead, hne, hstart, ?_, hstop⟩
    rw [← hread]
    change scriptAt? _ _ = scriptAt? _ _
    by_cases hcarriage : e = .carriage
    · subst hcarriage
      rw [hbegins o passed rest hahead hne hstart] at hkeep
      by_cases hseparator : rest.head?.any isSeparator = true
      · rw [scriptAt?_of_separator hseparator, scriptAt?_of_separator hseparator]
      -- the first line
      · obtain rfl : passed = [] := by simpa [hseparator] using hkeep
        apply scriptAt?_congr
        rw [LineEnd.startsLine, atLineStart, Reader.passing, hbefore]
        rfl
    · exact scriptAt?_congr ((e.atLineStart_of_startsLine (hpassed hahead) hbefore).2 hcarriage)
  · intro o ho hdrop passed rest hahead hne hle hlt
    obtain ⟨front, back, later, hwhole, hne', hstart, hread, hstop⟩ := isRead_of_mem_occurrences ho
    rw [hbegins o front back hwhole hne' hstart] at hdrop
    obtain ⟨hcarriage, hfront, hfirst⟩ : e = .carriage ∧ front ≠ [] ∧
        back.head?.any isSeparator = false := by
      simpa using hdrop
    subst hcarriage
    change scriptAt? _ _ = _ at hread
    rw [scriptAt?_of_not_separator hfirst] at hread
    have hstatement := (Option.ite_none_right_eq_some.mp hread).2
    have hpos := List.length_pos_of_ne_nil hfront
    apply scriptAt?_carriage_eq_none (List.ne_nil_of_length_pos (by omega))
    exact not_separator_of_statement? hstatement hwhole hahead (by omega) (by omega)
  · intro passed rest hahead hne hnone
    change scriptAt? _ _ = none at hnone
    change scriptAt? _ _ = none
    by_cases hseparator : rest.head?.any isSeparator = true
    · rw [scriptAt?_of_separator hseparator] at hnone ⊢
      exact hnone
    · have hseparator := eq_false_of_ne_true hseparator
      rw [scriptAt?_of_not_separator hseparator] at hnone ⊢
      split
      · next hstart =>
        have hstart := (e.atLineStart_of_startsLine (hpassed hahead) hbefore).1 hstart
        rwa [if_pos hstart] at hnone
      · rfl

/-- The assignment at an occurrence. -/
def ofOccurrence (src : Source) (found : Occurrence Target) : Assignment where
  identifier := found.value.name.text
  scope := found.value.scopeName
  span := src.spanOf found.value.name.stretch

end Assignment

/-! ## The assignments of a source -/

namespace Source

open Assignment

variable {e : LineEnd} {src src' : Source} {dialect : Dialect} {within : Option Span}

theorem assignments_eq_map (src : Source) (dialect : Dialect) (within : Option Span) :
    src.assignments dialect within =
      ((src.withoutComments dialect false).occurrencesIn within (pattern dialect)).map
        (ofOccurrence src) := rfl

/-- Whether what is found stands at the start of a line other than the first: it neither begins the
text that is searched, nor with a separator. -/
def beginsLine (src : Source) (within : Option Span) (found : Occurrence Target) : Bool :=
  (src.bounds within).1 != found.start && !src.text[found.start]?.any isSeparator

theorem occurrencesIn_script_startsLine (src : Source) (within : Option Span)
    (h : '\r' ∉ src.text) : src.occurrencesIn within (scriptPattern e.startsLine) =
      (src.occurrencesIn within (pattern .script)).filter fun found =>
        !(e == .carriage && src.beginsLine within found) := by
  let r := src.reader (src.bounds within).1 (src.bounds within).2
  change occurrences _ r = (occurrences _ r).filter _
  apply occurrences_script_startsLine rfl
  · intro hmem
    exact h (List.mem_of_mem_drop (List.mem_of_mem_take hmem))
  · intro o passed rest hahead hne hstart
    obtain ⟨c, more, rfl⟩ := List.exists_cons_of_ne_nil hne
    -- the first character of what is found, in the text
    have hreaches : r.Reaches (r.passing passed (c :: more)) := ⟨passed, hahead, rfl, rfl⟩
    have hchar : src.text[o.start]? = some c := by
      rw [hstart]
      exact getElem?_of_reaches hreaches rfl
    have hempty : ((src.bounds within).1 != o.start) = !passed.isEmpty := by
      rw [hstart]
      cases passed <;> simp [r, Source.reader, Reader.ofText]
    rw [beginsLine, hempty, hchar]
    rfl

theorem Restyled.ofOccurrence_eq {clean clean' : Source} (hclean : clean.Restyled e clean')
    {found found' : Occurrence Target}
    (hspan : clean.spanOf = src.spanOf) (hspan' : clean'.spanOf = src'.spanOf)
    (htarget : found.value.Restyled e clean.text found'.value) :
    ofOccurrence src' found' = ofOccurrence src found := by
  obtain ⟨hname, hword⟩ := htarget.name
  simp only [ofOccurrence, Target.scopeName, htarget.isDeclared_eq, htarget.scope_eq, hword, hname,
    ← hspan, ← hspan', hclean.spanOf_eq]

/-- In the text with the line endings the pattern is read where lines start as told. -/
theorem Restyled.occurrencesIn_script_eq (h : src.Restyled e src') (within : Option Span) :
    src'.occurrencesIn within (scriptPattern e.startsLine) =
      src'.occurrencesIn within (pattern .script) := by
  let r := src'.reader (src'.bounds within).1 (src'.bounds within).2
  change occurrences _ r = occurrences _ r
  apply occurrences_congr fun o ho => start_lt_stop ho
  intro passed rest hahead hne
  have hslice : r.ahead = e.restyle (src.slice (src.bounds within).1 (src.bounds within).2) := by
    rw [← h.slice_eq (src.isExtent_bounds within).start_le_stop]
    simp only [r, h.bounds_eq]
    rfl
  apply e.read_script_restyle (r := r) _ rfl (hslice.symm.trans hahead)
  intro hmem
  exact h.notMem (List.mem_of_mem_drop (List.mem_of_mem_take hmem))

/-- **The assignments that are found however lines end.** -/
theorem Restyled.assignments_eq (h : src.Restyled e src') (dialect : Dialect)
    (within : Option Span) : src'.assignments dialect within =
      (((src.withoutComments dialect false).occurrencesIn within (pattern dialect)).filter
        fun found => !(e == .carriage && dialect == .script &&
          (src.withoutComments dialect false).beginsLine within found)).map (ofOccurrence src) := by
  have hclean := h.withoutComments dialect false
  have hoccurrence : ∀ found found' : Occurrence Target,
      found'.stretch = e.stretch (src.withoutComments dialect false).text found.stretch ∧
        found.value.Restyled e (src.withoutComments dialect false).text found'.value →
      ofOccurrence src' found' = ofOccurrence src found := by
    rintro found found' ⟨-, htarget⟩
    exact hclean.ofOccurrence_eq (src.spanOf_withoutComments dialect false)
      (src'.spanOf_withoutComments dialect false) htarget
  rw [assignments_eq_map]
  cases dialect with
  | tag =>
    have hall : ∀ found : Occurrence Target, (!(e == .carriage && Dialect.tag == .script &&
        (src.withoutComments .tag false).beginsLine within found)) = true := by simp
    rw [List.filter_eq_self.mpr fun found _ => hall found]
    exact map_eq_of_forall₂ (hclean.occurrencesIn within restyles_tag) hoccurrence
  | script =>
    have hpattern : (scriptPattern e.startsLine).Restyles e
        (src.withoutComments .script false).text (Target.Restyled e _) :=
      restyles_scriptPattern fun h => LineEnd.startsLine_restyled h e
    have hfound := hclean.occurrencesIn within hpattern
    rw [occurrencesIn_script_startsLine _ _ hclean.notMem,
      hclean.occurrencesIn_script_eq within] at hfound
    simp only [beq_self_eq_true, Bool.and_true]
    exact map_eq_of_forall₂ hfound hoccurrence

end Source

/-- **Assignments, and how lines end.** Of the assignments in a text without carriage returns, those
are found in the same text with another line ending for each line feed that are not lost. In script
and where lines end in carriage returns, those are lost that stand at the start of a line other than
the first. The assignments are the same exactly if none is lost. -/
theorem LineEnd.assignments_restyle (e : LineEnd) (text : List Char) (path : Option Path)
    (dialect : Dialect) (within : Option Span) (h : '\r' ∉ text) :
    let src := Source.ofText text path
    let src' := Source.ofText (e.restyle text) path
    let clean := src.withoutComments dialect false
    let found := clean.occurrencesIn within (Assignment.pattern dialect)
    let isLost := fun o => e == .carriage && dialect == .script && clean.beginsLine within o
    src'.assignments dialect within =
      (found.filter fun o => !isLost o).map (Assignment.ofOccurrence src) ∧
    (src'.assignments dialect within = src.assignments dialect within ↔
      ∀ o ∈ found, isLost o = false) := by
  intro src src' clean found isLost
  have hrestyled : src.Restyled e src' := ⟨rfl, h⟩
  have heq : src'.assignments dialect within =
      (found.filter fun o => !isLost o).map (Assignment.ofOccurrence src) :=
    hrestyled.assignments_eq dialect within
  refine ⟨heq, ?_⟩
  rw [heq, src.assignments_eq_map]
  constructor
  · intro hsame o ho
    have hlength := congrArg List.length hsame
    rw [List.length_map, List.length_map, List.length_filter_eq_length_iff] at hlength
    simpa using hlength o ho
  · intro hnone
    rw [List.filter_eq_self.mpr fun o ho => by rw [hnone o ho, Bool.not_false]]

/-- Two assignments on a line of their own and one behind a semicolon: where lines end in carriage
returns, the one that begins the second line is lost. -/
theorem LineEnd.assignments_restyle_carriage :
    let text := "a = 1\nb = 2; c = 3".toList
    let src := Source.ofText text none
    let src' := Source.ofText (carriage.restyle text) none
    '\r' ∉ text ∧ carriage.restyle text = "a = 1\rb = 2; c = 3".toList ∧
      (src.assignments .script none).map Assignment.identifier = [['a'], ['b'], ['c']] ∧
      (src'.assignments .script none).map Assignment.identifier = [['a'], ['c']] ∧
      src'.assignments .script none ≠ src.assignments .script none := by
  intro text src src'
  have hreturn : '\r' ∉ text := by decide
  obtain ⟨hfound, -⟩ := carriage.assignments_restyle text none .script none hreturn
  have hidentifiers : (src.assignments .script none).map Assignment.identifier =
      [['a'], ['b'], ['c']] := by
    decide +kernel
  have hidentifiers' : (src'.assignments .script none).map Assignment.identifier =
      [['a'], ['c']] := by
    rw [hfound]
    decide +kernel
  refine ⟨hreturn, by decide, hidentifiers, hidentifiers', ?_⟩
  intro heq
  rw [heq, hidentifiers] at hidentifiers'
  exact absurd hidentifiers' (by decide)

end Cfml
