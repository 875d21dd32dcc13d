/-
The header of a function in script, as it is written.

A header that is written with a word for access or without one is read up to the parenthesis that
opens the arguments (`header?_of_append`). The word `function` stands in every header, and what
stands before it in the header is made of letters, white space and the like: a parenthesis or a
brace that closes something is a wall that no header reaches across. Without the word in front of a
wall there is no header there (`misses_header`).
-/
import Cfml.Proofs.Declaration.Outside
import Cfml.Proofs.Text.Blank
import Cfml.Proofs.Text.TagPair

set_option autoImplicit false

namespace Cfml

/-! ## Characters that do not occur -/

/-- What does not have a character ends before its first occurrence. -/
theorem exists_of_append_eq {α : Type} {c : α} {front back before behind : List α}
    (h : front ++ back = before ++ c :: behind) (hc : c ∉ front) :
    ∃ more, before = front ++ more ∧ back = more ++ c :: behind := by
  rcases List.append_eq_append_iff.mp h with ⟨more, hbefore, hback⟩ | ⟨more, hfront, hbehind⟩
  · exact ⟨more, hbefore, hback⟩
  · cases more with
    | nil =>
      rw [List.append_nil] at hfront
      exact ⟨[], by rw [List.append_nil, hfront], hbehind.symm⟩
    | cons d more =>
      obtain ⟨rfl, -⟩ := List.cons.inj hbehind
      exact absurd (hfront ▸ List.mem_append_right _ List.mem_cons_self) hc

/-- A character of a kind that none of the others are of. -/
theorem notMem_of_kind {p : Char → Bool} {others : List Char} (hp : ∀ d ∈ others, p d = false)
    {c : Char} (hc : p c = true) : c ∉ others := by
  intro hmem
  rw [hp c hmem] at hc
  exact absurd hc (by decide)

/-- Characters that a word has in no case. -/
theorem notMem_of_written {word written others : List Char}
    (hword : ∀ d ∈ others, ∀ c ∈ word, sameLetter c d = false)
    (h : List.Forall₂ (sameLetter · · = true) word written) : ∀ c ∈ written, c ∉ others :=
  fun c hc hother => Tag.notMem_of_forall₂ h (hword c hother) hc

variable {r later : Reader} {found : Capture}

namespace FunctionDecl

/-- White space is not in a name. -/
theorem not_name_of_isBlank {c : Char} (h : isBlank c = true) :
    isNameStart c = false ∧ isIdentifierPart c = false := by
  have hall : ∀ c ∈ blankChars, isNameStart c = false ∧ isIdentifierPart c = false := by
    decide +kernel
  exact hall c (mem_blankChars h)

/-- The words of a header that are known. -/
def headerWords : List (List Char) := "function".toList :: "static".toList :: accessWords

/-- In no case is there white space in one of them. -/
theorem not_isBlank_of_mem {word written : List Char} (hword : word ∈ headerWords)
    (h : List.Forall₂ (sameLetter · · = true) word written) : ∀ c ∈ written, isBlank c = false := by
  have hall : ∀ word ∈ headerWords, ∀ d ∈ blankChars, ∀ c ∈ word, sameLetter c d = false := by
    decide +kernel
  intro c hc
  apply eq_false_of_ne_true
  intro hblank
  exact Tag.notMem_of_forall₂ h (hall word hword c (mem_blankChars hblank)) hc

/-! ## Words with white space behind them -/

/-- A word in any case is read with the white space behind it. -/
theorem modifier?_of_append {word written blanks rest : List Char}
    (hwritten : List.Forall₂ (sameLetter · · = true) word written)
    (hahead : r.ahead = written ++ (blanks ++ rest)) (hne : blanks ≠ [])
    (hblanks : ∀ c ∈ blanks, isBlank c = true) (hrest : rest.head?.any isBlank = false) :
    modifier? word r = some (⟨r.offset, written⟩, r.passing (written ++ blanks) rest) := by
  have hword : r.caseless? word = some (r.passing written (blanks ++ rest)) :=
    Reader.caseless?_eq_some_iff.mpr ⟨written, blanks ++ rest, hwritten, hahead, rfl⟩
  have hblank := @Reader.some?_of_append isBlank (r.passing written (blanks ++ rest)) blanks rest
    rfl hne hblanks hrest
  rw [Reader.passing_passing] at hblank
  rw [modifier?, hword]
  simp only [Option.bind_eq_bind, Option.bind_some, hblank, Reader.upTo_passing hahead]
  rfl

/-- Behind the white space something else stands. -/
theorem head?_of_modifier? {word : List Char} (h : modifier? word r = some (found, later)) :
    later.ahead.head?.any isBlank = false := by
  simp only [modifier?, Option.bind_eq_bind, Option.bind_eq_some_iff] at h
  obtain ⟨behind, -, _, hblank, heq⟩ := h
  obtain ⟨-, rfl⟩ := by simpa using heq
  obtain ⟨second, -, rfl⟩ := Option.map_eq_some_iff.mp hblank
  exact Reader.head?_skipWhile isBlank second

/-- Only a word with white space behind it is read. -/
theorem exists_of_modifier? {word : List Char} (h : modifier? word r = some (found, later)) :
    ∃ written blanks, List.Forall₂ (sameLetter · · = true) word written ∧ blanks ≠ [] ∧
      (∀ c ∈ blanks, isBlank c = true) ∧ r.ahead = written ++ (blanks ++ later.ahead) ∧
      later = r.passing (written ++ blanks) later.ahead ∧ found = ⟨r.offset, written⟩ := by
  simp only [modifier?, Option.bind_eq_bind, Option.bind_eq_some_iff] at h
  obtain ⟨behind, hword, last, hblank, heq⟩ := h
  obtain ⟨rfl, rfl⟩ := by simpa using heq
  obtain ⟨written, rest, hwritten, hahead, rfl⟩ := Reader.caseless?_eq_some_iff.mp hword
  obtain ⟨blanks, hrest, hne, hblanks, hlast⟩ := Reader.exists_of_some? hblank
  rw [Reader.passing_passing] at hlast
  rw [Reader.ahead_passing] at hrest
  refine ⟨written, blanks, hwritten, hne, hblanks, ?_, hlast, Reader.upTo_passing hahead⟩
  rw [hahead, hrest]

/-- A word that begins with another letter is not read. -/
theorem modifier?_eq_none {c : Char} {word : List Char}
    (h : r.ahead.head?.any (sameLetter c) = false) : modifier? (c :: word) r = none := by
  rw [modifier?, Reader.caseless?, List.foldlM_cons, Reader.one?_eq_none h]
  rfl

/-- Which of the words is read does not matter: it goes up to the white space. -/
theorem modifier?_determined {word : List Char} (hword : word ∈ headerWords)
    (h : modifier? word r = some (found, later)) :
    found = (r.takeWhile (!isBlank ·)).1 ∧ later = (r.takeWhile (!isBlank ·)).2.blanks := by
  obtain ⟨written, blanks, hwritten, hne, hblanks, hahead, hlater, rfl⟩ := exists_of_modifier? h
  have hvisible : ∀ c ∈ written, (!isBlank c) = true := by
    intro c hc
    rw [not_isBlank_of_mem hword hwritten c hc]
    rfl
  have hbehind : (blanks ++ later.ahead).head?.any (!isBlank ·) = false := by
    obtain ⟨c, blanks, rfl⟩ := List.exists_cons_of_ne_nil hne
    have hc := hblanks c List.mem_cons_self
    simp [hc]
  have htake := Reader.takeWhile_of_append hahead hvisible hbehind
  have hskip := @Reader.blanks_of_append (r.passing written (blanks ++ later.ahead)) blanks
    later.ahead rfl hblanks (head?_of_modifier? h)
  rw [Reader.passing_passing, ← hlater] at hskip
  rw [htake]
  exact ⟨rfl, hskip.symm⟩

/-- One of the words is read with the white space behind it. -/
theorem anyModifier_of_mem {words : List (List Char)} (hwords : ∀ word ∈ words, word ∈ headerWords)
    {word : List Char} (hword : word ∈ words) (h : modifier? word r = some (found, later)) :
    anyModifier words r = (some found.text, later) := by
  unfold anyModifier
  cases hfirst : words.findSome? (modifier? · r) with
  | none => exact absurd h (by simp [List.findSome?_eq_none_iff.mp hfirst word hword])
  | some first =>
    obtain ⟨other, hother, hread⟩ := List.exists_of_findSome?_eq_some hfirst
    obtain ⟨hfound, hlater⟩ := modifier?_determined (hwords word hword) h
    obtain ⟨hfound', hlater'⟩ := modifier?_determined (hwords other hother) hread
    simp only [hfound, hlater, hfound', hlater']

/-- None of the words is read where they begin with other letters. -/
theorem anyModifier_eq_none {words : List (List Char)} {c : Char} (hc : r.ahead.head? = some c)
    (hwords : ∀ word ∈ words, word.head?.any (!sameLetter · c) = true) :
    anyModifier words r = (none, r) := by
  have hnone : words.findSome? (modifier? · r) = none := by
    rw [List.findSome?_eq_none_iff]
    intro word hword
    have hfirst := hwords word hword
    cases word with
    | nil => exact absurd hfirst (by simp)
    | cons d word =>
      apply modifier?_eq_none
      rw [hc]
      simpa using hfirst
  unfold anyModifier
  rw [hnone]

/-! ## The header as it is written -/

/-- What stands before the word `function`: the word for access and a space, if there is one. -/
def accessText : Option (List Char) → List Char
  | none => []
  | some word => word ++ [' ']

/-- The header of a function. -/
def headerText (access : Option (List Char)) (name : List Char) : List Char :=
  accessText access ++ ("function".toList ++ [' '] ++ name ++ ['('])

/-- The word is one for access, in any case. -/
def IsAccess (word : List Char) : Prop :=
  ∃ known ∈ accessWords, List.Forall₂ (sameLetter · · = true) known word

/-- The text is a name that a function can have. -/
def IsName (name : List Char) : Prop :=
  ∃ c more, name = c :: more ∧ isNameStart c = true ∧ ∀ d ∈ more, isIdentifierPart d = true

variable {name rest : List Char} {access : Option (List Char)}

/-- There is no white space in a name. -/
theorem IsName.not_isBlank (h : IsName name) : ∀ c ∈ name, isBlank c = false := by
  obtain ⟨c, more, rfl, hc, hmore⟩ := h
  have hnot : ∀ c, isNameStart c = true ∨ isIdentifierPart c = true → isBlank c = false := by
    intro c hpart
    apply eq_false_of_ne_true
    intro hblank
    obtain ⟨hstart, hlater⟩ := not_name_of_isBlank hblank
    simp [hstart, hlater] at hpart
  intro d hd
  rcases List.mem_cons.mp hd with rfl | hd
  · exact hnot d (Or.inl hc)
  · exact hnot d (Or.inr (hmore d hd))

theorem IsName.head? (h : IsName name) : (name ++ rest).head?.any isBlank = false := by
  have hvisible := h.not_isBlank
  obtain ⟨c, more, rfl, -⟩ := h
  exact hvisible c List.mem_cons_self

theorem signature?_of_append (hname : IsName name)
    (hahead : r.ahead = "function".toList ++ ([' '] ++ (name ++ '(' :: rest))) :
    signature? r = some (⟨r.offset + 9, name⟩,
      r.passing ("function".toList ++ [' '] ++ name ++ ['(']) rest) := by
  have hword := modifier?_of_append (Reader.forall₂_sameLetter _) hahead (by simp) (by decide)
    hname.head?
  obtain ⟨c, more, rfl, hc, hmore⟩ := hname
  have hparen : isIdentifierPart '(' = false ∧ isBlank '(' = false := by decide
  have hread := @Reader.name?_of_append isNameStart isIdentifierPart
    (r.passing ("function".toList ++ [' ']) (c :: more ++ '(' :: rest)) c more ('(' :: rest) rfl hc
    hmore hparen.1
  have hblanks := @Reader.blanks_of_append
    (r.passing ("function".toList ++ [' '] ++ (c :: more)) ('(' :: rest)) [] ('(' :: rest) rfl
    (by simp) hparen.2
  have hopen := @Reader.one?_of_cons (· == '(')
    (r.passing ("function".toList ++ [' '] ++ (c :: more) ++ []) ('(' :: rest)) '(' rest rfl
    (by decide)
  rw [Reader.passing_passing] at hread hblanks hopen
  simp only [signature?, hword, Option.bind_eq_bind, Option.bind_some, hread, hblanks, hopen]
  rw [List.append_nil]
  rfl

/-- The word `function` is read like a type. -/
theorem type?_of_append (hname : IsName name)
    (hahead : r.ahead = "function".toList ++ ([' '] ++ (name ++ rest))) :
    type? r = some (⟨r.offset, "function".toList⟩,
      r.passing ("function".toList ++ [' ']) (name ++ rest)) := by
  let isTypePart : Char → Bool := fun c => isWord c || c == '.'
  let behind := r.passing "function".toList ([' '] ++ (name ++ rest))
  have hsplit : "function".toList = 'f' :: ['u', 'n', 'c', 't', 'i', 'o', 'n'] := rfl
  have hspace : ([' '] ++ (name ++ rest)).head?.any isTypePart = false := by
    show isTypePart ' ' = false
    decide
  have hread : r.name? (fun c => c == '_' || isLatinLetter c) isTypePart
      = some (⟨r.offset, "function".toList⟩, behind) := by
    simp only [behind]
    rw [hsplit] at hahead ⊢
    exact Reader.name?_of_append hahead (by decide) (by decide) hspace
  have hbrackets : behind.literal? ['[', ']'] = none := rfl
  have hblank := @Reader.some?_of_append isBlank behind [' '] (name ++ rest) rfl (by simp)
    (by decide) hname.head?
  rw [Reader.passing_passing] at hblank
  simp only [type?, isTypePart] at hread ⊢
  simp only [hread, Option.bind_eq_bind, Option.bind_some, hbrackets, Option.getD_none, hblank,
    behind, Reader.upTo_passing hahead]
  rfl

/-- A name is not followed by white space, so no header begins with it. -/
theorem signature?_eq_none (hname : IsName name) (hahead : r.ahead = name ++ '(' :: rest) :
    signature? r = none := by
  have hword : modifier? "function".toList r = none := by
    rw [Option.eq_none_iff_forall_ne_some]
    rintro ⟨found, later⟩ hread
    obtain ⟨written, blanks, hwritten, hne, hblanks, hsplit, -, -⟩ := exists_of_modifier? hread
    obtain ⟨b, blanks, rfl⟩ := List.exists_cons_of_ne_nil hne
    have hb := hblanks b List.mem_cons_self
    have hparen : '(' ∉ written ++ [b] := by
      rw [List.mem_append, List.mem_singleton, not_or]
      refine ⟨Tag.notMem_of_forall₂ hwritten (by decide), ?_⟩
      rintro rfl
      exact absurd hb (by decide)
    have hwhole : (written ++ [b]) ++ (blanks ++ later.ahead) = name ++ '(' :: rest := by
      rw [← hahead, hsplit, List.append_assoc]
      rfl
    obtain ⟨more, hin, -⟩ := exists_of_append_eq hwhole hparen
    have hmem : b ∈ name := by
      rw [hin]
      simp
    rw [hname.not_isBlank b hmem] at hb
    exact absurd hb (by decide)
  rw [signature?, hword]
  rfl

/-- The word is no type, because no other word `function` follows it. -/
theorem typed?_of_append (hname : IsName name)
    (hahead : r.ahead = "function".toList ++ ([' '] ++ (name ++ '(' :: rest))) :
    typed? r = some ((none, ⟨r.offset + 9, name⟩),
      r.passing ("function".toList ++ [' '] ++ name ++ ['(']) rest) := by
  have htype := type?_of_append hname hahead
  have hnext := @signature?_eq_none
    (r.passing ("function".toList ++ [' ']) (name ++ '(' :: rest)) name rest hname rfl
  -- the word is read as a type, but no header begins behind it
  rw [typed?, htype, Option.bind_eq_bind, Option.bind_some, signature?_of_append hname hahead]
  dsimp only
  rw [hnext]
  rfl

/-- **A header is read as it is written.** -/
theorem header?_of_append (haccess : ∀ word ∈ access, IsAccess word) (hname : IsName name)
    (hbefore : r.isAfter (fun c => isIdentifierPart c || c == '.') = false)
    (hahead : r.ahead = headerText access name ++ rest) :
    header? r = some (⟨access, false, none, ⟨r.offset + (accessText access).length + 9, name⟩⟩,
      r.passing (headerText access name) rest) := by
  let behind := "function".toList ++ ([' '] ++ (name ++ '(' :: rest))
  let place := r.passing (accessText access) behind
  have hwhole : r.ahead = accessText access ++ behind := by
    rw [hahead, headerText]
    simp only [behind, List.append_assoc, List.cons_append, List.nil_append]
  have hfirst : anyModifier accessWords r = (access, place) := by
    cases access with
    | none =>
      have hplace : place = r := Reader.passing_nil hwhole
      rw [hplace]
      exact anyModifier_eq_none (by rw [hwhole]; rfl) (by decide)
    | some word =>
      obtain ⟨known, hknown, hwritten⟩ := haccess word rfl
      have hread := modifier?_of_append hwritten (hwhole.trans (List.append_assoc _ _ _))
        (by simp) (by decide) (show isBlank 'f' = false by decide)
      exact anyModifier_of_mem (by decide) hknown hread
  have hstatic : anyModifier ["static".toList] place = (none, place) :=
    anyModifier_eq_none rfl (by decide)
  have htyped := @typed?_of_append place name rest hname rfl
  rw [Reader.passing_passing] at htyped
  rw [header?, if_neg (by rw [hbefore]; exact Bool.false_ne_true), hfirst]
  simp only [hstatic, htyped]
  rfl

/-! ## Where no header is -/

/-- The characters that no header has before its parenthesis. -/
def walls : List Char := [')', '{', '}']

/-- The later place is reached by passing over a text without walls. Where that text ends there is
white space, if it is not empty. -/
def Leads (r later : Reader) : Prop :=
  ∃ passed, r.ahead = passed ++ later.ahead ∧ later = r.passing passed later.ahead ∧
    (∀ c ∈ passed, c ∉ walls) ∧ ∀ c ∈ passed.getLast?, isBlank c = true

theorem leads_refl (r : Reader) : Leads r r :=
  ⟨[], rfl, (Reader.passing_nil rfl).symm, by simp, by simp⟩

theorem Leads.trans {last : Reader} (h : Leads r later) (h' : Leads later last) : Leads r last := by
  obtain ⟨passed, hahead, hlater, hwalls, hend⟩ := h
  obtain ⟨passed', hahead', hlast, hwalls', hend'⟩ := h'
  refine ⟨passed ++ passed', ?_, ?_, List.forall_mem_append.mpr ⟨hwalls, hwalls'⟩, ?_⟩
  · rw [hahead, hahead', List.append_assoc]
  · rw [hlater, Reader.passing_passing] at hlast
    exact hlast
  · intro c hc
    rw [Option.mem_def, List.getLast?_append, Option.or_eq_some_iff] at hc
    rcases hc with hc | ⟨-, hc⟩
    · exact hend' c hc
    · exact hend c hc

theorem leads_of_blanks {front blanks : List Char}
    (hahead : r.ahead = front ++ (blanks ++ later.ahead))
    (hlater : later = r.passing (front ++ blanks) later.ahead) (hwalls : ∀ c ∈ front, c ∉ walls)
    (hne : blanks ≠ []) (hblanks : ∀ c ∈ blanks, isBlank c = true) : Leads r later := by
  refine ⟨front ++ blanks, ?_, hlater, ?_, ?_⟩
  · rw [hahead, List.append_assoc]
  · rw [List.forall_mem_append]
    exact ⟨hwalls, fun c hc => notMem_of_kind (by decide) (hblanks c hc)⟩
  · intro c hc
    rw [List.getLast?_append_of_ne_nil _ hne] at hc
    exact hblanks c (List.mem_of_getLast? hc)

theorem leads_of_anyModifier {words : List (List Char)}
    (hwords : ∀ word ∈ words, ∀ wall ∈ walls, ∀ c ∈ word, sameLetter c wall = false) (r : Reader) :
    Leads r (anyModifier words r).2 := by
  unfold anyModifier
  split
  · next hfirst =>
    obtain ⟨word, hword, hread⟩ := List.exists_of_findSome?_eq_some hfirst
    obtain ⟨written, blanks, hwritten, hne, hblanks, hahead, hlater, -⟩ := exists_of_modifier? hread
    exact leads_of_blanks hahead hlater (notMem_of_written (hwords word hword) hwritten) hne
      hblanks
  · exact leads_refl r

theorem leads_of_type? (h : type? r = some (found, later)) : Leads r later := by
  simp only [type?, Option.bind_eq_bind, Option.bind_eq_some_iff, Prod.exists] at h
  obtain ⟨_, behind, hname, last, hblank, heq⟩ := h
  obtain ⟨-, rfl⟩ := by simpa using heq
  obtain ⟨c, more, hahead, hc, hmore, hbehind⟩ := Reader.exists_of_name? hname
  obtain ⟨blanks, hrest, hne, hblanks, hlast⟩ := Reader.exists_of_some? hblank
  have hwalls : ∀ d ∈ c :: more, d ∉ walls := by
    have hfirst : ∀ wall ∈ walls, (wall == '_' || isLatinLetter wall) = false := by decide
    have hlater : ∀ wall ∈ walls, (isWord wall || wall == '.') = false := by decide
    rw [List.forall_mem_cons]
    exact ⟨notMem_of_kind hfirst hc, fun d hd => notMem_of_kind hlater (hmore d hd)⟩
  cases hbrackets : behind.literal? ['[', ']'] with
  | none =>
    rw [hbrackets, Option.getD_none] at hrest hlast
    rw [hrest] at hahead
    rw [hbehind, Reader.passing_passing] at hlast
    exact leads_of_blanks hahead hlast hwalls hne hblanks
  | some second =>
    rw [hbrackets, Option.getD_some] at hrest hlast
    obtain ⟨rest, hsecond, rfl⟩ := Reader.literal?_eq_some_iff.mp hbrackets
    rw [Reader.ahead_passing] at hrest
    rw [hsecond, hrest, ← List.append_assoc] at hahead
    rw [hbehind, Reader.passing_passing, Reader.passing_passing, ← List.append_assoc] at hlast
    refine leads_of_blanks hahead hlast ?_ hne hblanks
    rw [List.forall_mem_append]
    exact ⟨hwalls, by decide⟩

/-- The word `function` is written in the text, and not as a part of a longer name. -/
def HasFunctionWord (text : List Char) : Prop :=
  ∃ front written back, text = front ++ (written ++ back) ∧
    List.Forall₂ (sameLetter · · = true) "function".toList written ∧
    (∀ c ∈ front.getLast?, isIdentifierPart c = false) ∧
      ∀ c ∈ back.head?, isIdentifierPart c = false

/-- The word stands in every header, and no wall before it. -/
theorem exists_of_typed? {value : Option (List Char) × Capture}
    (h : typed? r = some (value, later)) :
    ∃ place found last, Leads r place ∧ modifier? "function".toList place = some (found, last) := by
  have hsignature : ∀ {r later : Reader} {name : Capture}, signature? r = some (name, later) →
      ∃ found last, modifier? "function".toList r = some (found, last) := by
    intro r later name h
    simp only [signature?, Option.bind_eq_bind, Option.bind_eq_some_iff, Prod.exists] at h
    obtain ⟨found, last, hword, -⟩ := h
    exact ⟨found, last, hword⟩
  rcases Reader.eq_some_of_orElse h with htyped | huntyped
  · simp only [Option.bind_eq_bind, Option.bind_eq_some_iff, Prod.exists] at htyped
    obtain ⟨_, place, htype, _, _, hread, -⟩ := htyped
    obtain ⟨found, last, hword⟩ := hsignature hread
    exact ⟨place, found, last, leads_of_type? htype, hword⟩
  · simp only [Option.map_eq_some_iff, Prod.exists] at huntyped
    obtain ⟨_, _, hread, -⟩ := huntyped
    obtain ⟨found, last, hword⟩ := hsignature hread
    exact ⟨r, found, last, leads_refl r, hword⟩

theorem exists_of_header? {value : Header} (h : header? r = some (value, later)) :
    r.isAfter (fun c => isIdentifierPart c || c == '.') = false ∧
      ∃ place found last, Leads r place ∧
        modifier? "function".toList place = some (found, last) := by
  unfold header? at h
  split at h
  · exact absurd h (by simp)
  · next hafter =>
    refine ⟨eq_false_of_ne_true hafter, ?_⟩
    simp only [Option.bind_eq_bind, Option.bind_eq_some_iff, Prod.exists] at h
    obtain ⟨_, _, _, htyped, -⟩ := h
    obtain ⟨place, found, last, hleads, hword⟩ := exists_of_typed? htyped
    have haccess := @leads_of_anyModifier accessWords (by decide) r
    have hstatic := @leads_of_anyModifier ["static".toList] (by decide)
      (anyModifier accessWords r).2
    exact ⟨place, found, last, (haccess.trans hstatic).trans hleads, hword⟩

/-- The word stands before the first wall with white space behind it, and not behind a name. -/
theorem exists_function_of_header? {value : Header} (h : header? r = some (value, later)) :
    ∃ passed written b more, r.ahead = passed ++ written ++ [b] ++ more ∧
      List.Forall₂ (sameLetter · · = true) "function".toList written ∧ isBlank b = true ∧
      (∀ c ∈ passed ++ written ++ [b], c ∉ walls) ∧
      ∀ c ∈ passed.getLast?.or r.before, isIdentifierPart c = false := by
  obtain ⟨hafter, place, found, last, ⟨passed, hahead, hplace, hwalls, hend⟩, hfunction⟩ :=
    exists_of_header? h
  obtain ⟨written, blanks, hwritten, hne, hblanks, hplace', -, -⟩ := exists_of_modifier? hfunction
  obtain ⟨b, blanks, rfl⟩ := List.exists_cons_of_ne_nil hne
  have hb := hblanks b List.mem_cons_self
  refine ⟨passed, written, b, blanks ++ last.ahead, ?_, hwritten, hb, ?_, ?_⟩
  · rw [hahead, hplace']
    simp only [List.append_assoc, List.cons_append, List.nil_append]
  · have hletters : ∀ c ∈ written, c ∉ walls := notMem_of_written (by decide) hwritten
    have hblank : ∀ c ∈ [b], c ∉ walls :=
      List.forall_mem_singleton.mpr (notMem_of_kind (by decide) hb)
    rw [List.forall_mem_append, List.forall_mem_append]
    exact ⟨⟨hwalls, hletters⟩, hblank⟩
  · intro c hc
    rw [Option.mem_def, Option.or_eq_some_iff] at hc
    rcases hc with hc | ⟨-, hc⟩
    · exact (not_name_of_isBlank (hend c hc)).2
    · rw [Reader.isAfter, hc, Option.any_some, Bool.or_eq_false_iff] at hafter
      exact hafter.1

/-- **No header is in front of a wall** if the word is not. -/
theorem misses_header {text : List Char} {wall : Char} (hwall : wall ∈ walls)
    (hword : ¬ HasFunctionWord text) (r : Reader) (rest : List Char) :
    header.Misses r (text ++ [wall]) rest := by
  intro front back hne hsplit
  rw [Option.eq_none_iff_forall_ne_some]
  rintro ⟨value, later⟩ hread
  obtain ⟨passed, written, b, more, hahead, hwritten, hb, hwalls, hend⟩ :=
    exists_function_of_header? hread
  -- the place is in front of the wall, and so is the word with the white space behind it
  obtain ⟨inside, rfl, rfl⟩ : ∃ inside, back = inside ++ [wall] ∧ text = front ++ inside := by
    rcases List.eq_nil_or_concat' back with rfl | ⟨inside, c, rfl⟩
    · exact absurd rfl hne
    · rw [← List.append_assoc] at hsplit
      obtain ⟨htext, heq⟩ := List.append_inj' hsplit rfl
      exact ⟨inside, by rw [heq], htext⟩
  have hwhole : passed ++ written ++ [b] ++ more = inside ++ wall :: rest :=
    hahead.symm.trans (List.append_cons ..).symm
  obtain ⟨tail, rfl, -⟩ := exists_of_append_eq hwhole fun hmem => hwalls wall hmem hwall
  apply hword
  refine ⟨front ++ passed, written, b :: tail, ?_, hwritten, ?_, ?_⟩
  · simp only [List.append_assoc, List.cons_append, List.nil_append]
  · intro c hc
    rw [List.getLast?_append] at hc
    apply hend c
    rw [Option.mem_def] at hc ⊢
    rw [Reader.passing, ← Option.or_assoc, hc, Option.some_or]
  · intro c hc
    obtain rfl : b = c := Option.some.inj hc
    exact (not_name_of_isBlank hb).2

end FunctionDecl

end Cfml
