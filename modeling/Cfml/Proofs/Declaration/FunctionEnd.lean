/-
Where a function in script ends.

What follows the parenthesis that opens the arguments decides it (`EndsAt`). An argument list that
is never closed ends the function at once. Behind the list the first brace or semicolon at the top
level counts: there is none, or it is a semicolon, or a brace that is closed, or one that is not
(`EndsBehind`). In every text exactly one of these is the case (`endsAt_iff`).

The search does not say that it has found nothing but goes to the end of the text, and then the last
character of the text is taken for what it was looking for. So a function ends as it should unless
nothing at the top level follows its arguments and the text ends with a brace or a semicolon all the
same (`IsMistaken`), and then it goes up to the end of the text (`stop_of_isMistaken`).
-/
import Cfml.Proofs.Declaration.Header
import Cfml.Proofs.Nesting.TopLevel

set_option autoImplicit false

namespace Cfml

namespace FunctionDecl

/-! ## What decides -/

/-- The characters that end a declaration or begin its body. -/
def terminators : List Char := ['{', ';']

/-- The text behind an argument list ends the declaration `n` characters further. -/
inductive EndsBehind (rest : List Char) : Nat → Prop
  | bare (hnone : ∀ j, ¬ IsTopLevel terminators rest j) : EndsBehind rest 0
  | semicolon {j : Nat} (hfirst : IsFirst (IsTopLevel terminators rest) j)
      (hchar : rest[j]? = some ';') : EndsBehind rest (j + 1)
  | body {j i : Nat} (hfirst : IsFirst (IsTopLevel terminators rest) j)
      (hchar : rest[j]? = some '{')
      (hclose : BracketKind.brace.ClosesAt .outside 0 (rest.drop (j + 1)) i) :
      EndsBehind rest (j + 1 + i + 1)
  | openBody {j : Nat} (hfirst : IsFirst (IsTopLevel terminators rest) j)
      (hchar : rest[j]? = some '{')
      (hopen : ∀ i, ¬ BracketKind.brace.ClosesAt .outside 0 (rest.drop (j + 1)) i) :
      EndsBehind rest rest.length

/-- The text behind the parenthesis that opens the arguments ends the declaration `n` characters
further. -/
inductive EndsAt (rest : List Char) : Nat → Prop
  | unclosed (hopen : ∀ k, ¬ BracketKind.paren.ClosesAt .outside 0 rest k) : EndsAt rest 0
  | closed {k n : Nat} (hclose : BracketKind.paren.ClosesAt .outside 0 rest k)
      (hend : EndsBehind (rest.drop (k + 1)) n) : EndsAt rest (k + 1 + n)

/-- Nothing at the top level follows an argument list, but the text ends with such a character. -/
structure EndsMistaken (rest : List Char) : Prop where
  none : ∀ j, ¬ IsTopLevel terminators rest j
  last : ∃ c ∈ terminators, rest.getLast? = some c

/-- The same of the text behind the parenthesis that opens the arguments. -/
def IsMistaken (rest : List Char) : Prop :=
  ∃ k, BracketKind.paren.ClosesAt .outside 0 rest k ∧ EndsMistaken (rest.drop (k + 1))

/-! ## The end as it should be -/

/-- How far a declaration goes on in the text behind its argument list. -/
def lengthBehind (rest : List Char) : Nat :=
  match firstUnnested terminators rest with
  | none => 0
  | some j =>
    if rest[j]? = some '{' then
      match closingIndex '}' (rest.drop (j + 1)) with
      | none => rest.length
      | some i => j + 1 + i + 1
    else j + 1

/-- How far a declaration goes on behind the parenthesis that opens its arguments. -/
def lengthFrom (rest : List Char) : Nat :=
  match closingIndex ')' rest with
  | none => 0
  | some k => k + 1 + lengthBehind (rest.drop (k + 1))

section Determined

variable {rest : List Char} {n : Nat}

theorem eq_or_eq_of_isTopLevel {j : Nat} (h : IsTopLevel terminators rest j) :
    rest[j]? = some '{' ∨ rest[j]? = some ';' := by
  obtain ⟨c, hc, hget⟩ := h.isTarget
  rcases List.mem_cons.mp hc with rfl | hc
  · exact .inl hget
  · obtain rfl := List.mem_singleton.mp hc
    exact .inr hget

theorem endsBehind_lengthBehind (rest : List Char) : EndsBehind rest (lengthBehind rest) := by
  unfold lengthBehind
  cases hfound : firstUnnested terminators rest with
  | none => exact .bare (firstUnnested_eq_none_iff.mp hfound)
  | some j =>
    have hfirst := firstUnnested_eq_some_iff.mp hfound
    rcases eq_or_eq_of_isTopLevel hfirst.1 with hbrace | hsemicolon
    · simp only [hbrace, if_true]
      cases hclose : closingIndex '}' (rest.drop (j + 1)) with
      | none => exact .openBody hfirst hbrace (closingIndex_eq_none_iff.mp hclose)
      | some i => exact .body hfirst hbrace (closingIndex_eq_some_iff.mp hclose)
    · have hother : ¬ rest[j]? = some '{' := by simp [hsemicolon]
      simp only [if_neg hother]
      exact .semicolon hfirst hsemicolon

theorem EndsBehind.eq_lengthBehind (h : EndsBehind rest n) : n = lengthBehind rest := by
  unfold lengthBehind
  cases h with
  | bare hnone => rw [firstUnnested_eq_none_iff.mpr hnone]
  | semicolon hfirst hchar =>
    rw [firstUnnested_eq_some_iff.mpr hfirst]
    simp only
    rw [hchar, if_neg (by decide)]
  | body hfirst hchar hclose =>
    have hindex : closingIndex '}' _ = _ := closingIndex_eq_some_iff.mpr hclose
    rw [firstUnnested_eq_some_iff.mpr hfirst]
    simp only
    rw [hchar, if_pos rfl, hindex]
  | openBody hfirst hchar hopen =>
    have hindex : closingIndex '}' _ = _ := closingIndex_eq_none_iff.mpr hopen
    rw [firstUnnested_eq_some_iff.mpr hfirst]
    simp only
    rw [hchar, if_pos rfl, hindex]

/-- **In every text the end is decided**, and in one way only. -/
theorem endsAt_iff : EndsAt rest n ↔ n = lengthFrom rest := by
  unfold lengthFrom
  constructor
  · rintro (hopen | ⟨hclose, hend⟩)
    · have hindex : closingIndex ')' rest = none := closingIndex_eq_none_iff.mpr hopen
      rw [hindex]
    · have hindex : closingIndex ')' rest = some _ := closingIndex_eq_some_iff.mpr hclose
      rw [hindex, hend.eq_lengthBehind]
  · rintro rfl
    cases hindex : closingIndex ')' rest with
    | none => exact .unclosed (closingIndex_eq_none_iff.mp hindex)
    | some k => exact .closed (closingIndex_eq_some_iff.mp hindex) (endsBehind_lengthBehind _)

/-- Where the end is mistaken, it should be just behind the argument list, and text follows. -/
theorem exists_of_isMistaken (h : IsMistaken rest) :
    ∃ k, rest[k]? = some ')' ∧ lengthFrom rest = k + 1 ∧ k + 1 < rest.length := by
  obtain ⟨k, hclose, hnone, c, -, hlast⟩ := h
  have hend := endsAt_iff.mp (.closed hclose (.bare hnone))
  refine ⟨k, hclose.isClosing, hend.symm, ?_⟩
  apply Nat.lt_of_not_le
  intro hle
  rw [List.drop_eq_nil_of_le hle] at hlast
  exact absurd hlast (by simp)

end Determined

/-! ## The end that is found -/

section Found

variable {text : List Char} {behind : Nat}

/-- Where a brace or a semicolon is found at the top level, it decides. -/
theorem stopBehind_of_firstUnnested {j : Nat} (hle : behind ≤ text.length)
    (h : firstUnnested terminators (text.drop behind) = some j) :
    stopBehind text behind = behind + lengthBehind (text.drop behind) := by
  have hopener : opener text behind = behind + j + 1 := by
    unfold opener
    rw [show firstUnnested ['{', ';'] (text.drop behind) = some j from h]
  have hdrop : (text.drop behind).drop (j + 1) = text.drop (behind + j + 1) := List.drop_drop
  have hchar : (text.drop behind)[j]? = text[behind + j]? := List.getElem?_drop
  unfold stopBehind lengthBehind
  simp only [hopener, h, Nat.add_sub_cancel]
  rw [hdrop, hchar]
  rcases eq_or_eq_of_isTopLevel (firstUnnested_eq_some_iff.mp h).1 with hbrace | hsemicolon
  · rw [hchar] at hbrace
    rw [hbrace]
    simp only [beq_self_eq_true, if_true]
    cases closingIndex '}' (text.drop (behind + j + 1)) with
    | none =>
      rw [List.length_drop]
      exact (Nat.add_sub_cancel' hle).symm
    | some i =>
      simp only
      omega
  · rw [hchar] at hsemicolon
    rw [hsemicolon]
    simp [Nat.add_assoc]

/-- Where none is found, the last character of the text is looked at. It is the parenthesis if
nothing follows that. -/
theorem stopBehind_of_none (hparen : text[behind]? = some ')')
    (h : firstUnnested terminators (text.drop (behind + 1)) = none) :
    stopBehind text (behind + 1) =
      if ((text.drop (behind + 1)).getLast?.getD ')') ∈ terminators then text.length
      else behind + 1 := by
  have hopener : opener text (behind + 1) = text.length := by
    unfold opener
    rw [show firstUnnested ['{', ';'] (text.drop (behind + 1)) = none from h]
  obtain ⟨hlt, hget⟩ := List.getElem?_eq_some_iff.mp hparen
  have hlast : text[text.length - 1]? = some ((text.drop (behind + 1)).getLast?.getD ')') := by
    have hdrop : (text.drop behind).getLast? = text.getLast? := by
      rw [List.getLast?_drop, if_neg (Nat.not_le_of_lt hlt)]
    rw [← List.getLast?_eq_getElem?, ← hdrop, List.drop_eq_getElem_cons hlt, hget,
      List.getLast?_cons]
  unfold stopBehind
  simp only [hopener, hlast]
  -- behind the last character no brace is closed
  rw [List.drop_length]
  generalize (text.drop (behind + 1)).getLast?.getD ')' = c
  by_cases hbrace : c = '{'
  · simp [hbrace, terminators, closingIndex, closingIndexFrom]
  by_cases hsemicolon : c = ';'
  · simp [hsemicolon, terminators]
  · simp [hbrace, hsemicolon, terminators]

/-- **An end that is mistaken is that of the text.** -/
theorem stop_of_isMistaken {arguments : Nat} (h : IsMistaken (text.drop arguments)) :
    stop text arguments = text.length := by
  obtain ⟨k, hclose, hnone, c, hc, hlast⟩ := h
  have hindex : closingIndex ')' (text.drop arguments) = some k :=
    closingIndex_eq_some_iff.mpr hclose
  have hparen : text[arguments + k]? = some ')' := List.getElem?_drop ▸ hclose.isClosing
  have hdrop : (text.drop arguments).drop (k + 1) = text.drop (arguments + k + 1) := List.drop_drop
  rw [hdrop] at hnone hlast
  unfold stop
  rw [hindex]
  simp only
  rw [stopBehind_of_none hparen (firstUnnested_eq_none_iff.mpr hnone), hlast]
  exact if_pos hc

/-- **Any other end is as it should be.** -/
theorem stop_of_not_isMistaken {arguments : Nat} (h : ¬ IsMistaken (text.drop arguments)) :
    stop text arguments = arguments + lengthFrom (text.drop arguments) := by
  unfold stop lengthFrom
  cases hindex : closingIndex ')' (text.drop arguments) with
  | none => rfl
  | some k =>
    have hclose : BracketKind.paren.ClosesAt .outside 0 (text.drop arguments) k :=
      closingIndex_eq_some_iff.mp hindex
    have hparen : text[arguments + k]? = some ')' := List.getElem?_drop ▸ hclose.isClosing
    have hdrop : (text.drop arguments).drop (k + 1) = text.drop (arguments + k + 1) :=
      List.drop_drop
    simp only
    rw [hdrop]
    cases hfound : firstUnnested terminators (text.drop (arguments + k + 1)) with
    | some j =>
      have hle : arguments + k + 1 ≤ text.length := (List.getElem?_eq_some_iff.mp hparen).1
      rw [stopBehind_of_firstUnnested hle hfound]
      omega
    | none =>
      have hnot : ¬ ((text.drop (arguments + k + 1)).getLast?.getD ')') ∈ terminators := by
        intro hc
        cases hlast : (text.drop (arguments + k + 1)).getLast? with
        | none =>
          rw [hlast] at hc
          exact absurd hc (by decide)
        | some c =>
          rw [hlast] at hc
          have hnone := firstUnnested_eq_none_iff.mp hfound
          rw [← hdrop] at hnone hlast
          exact h ⟨k, hclose, hnone, c, hc, hlast⟩
      rw [stopBehind_of_none hparen hfound, if_neg hnot, lengthBehind, hfound]
      rfl

end Found

/-! ## The header -/

section Headed

variable {r later : Reader}

/-- The name stands before the parenthesis, with nothing but white space between them. -/
theorem exists_of_signature? {name : Capture} (h : signature? r = some (name, later)) :
    ∃ front between, r.ahead = front ++ (name.text ++ (between ++ '(' :: later.ahead)) ∧
      name.start = r.offset + front.length ∧ (∀ c ∈ between, isBlank c = true) := by
  simp only [signature?, Option.bind_eq_bind, Option.bind_eq_some_iff, Prod.exists] at h
  obtain ⟨_, place, hword, name', behind, hname, last, hopen, heq⟩ := h
  obtain ⟨rfl, rfl⟩ := by simpa using heq
  obtain ⟨written, blanks, -, -, -, hahead, hplace, -⟩ := exists_of_modifier? hword
  obtain ⟨c, more, rfl, hname, -, -, -, -⟩ := Reader.name?_eq_some hname
  obtain ⟨between, hbehind, hblank, -⟩ := Reader.exists_of_skipWhile isBlank behind
  obtain ⟨d, rest, hparen, hd, rfl⟩ := Reader.one?_eq_some_iff.mp hopen
  obtain rfl : d = '(' := by simpa using hd
  have hrest : behind.ahead = between ++ '(' :: rest := by
    rw [hbehind]
    exact congrArg (between ++ ·) hparen
  refine ⟨written ++ blanks, between, ?_, ?_, hblank⟩
  · rw [hahead, hname, hrest, List.append_assoc, Reader.ahead_passing]
  · rw [hplace, Reader.offset_passing]

theorem exists_signature_of_typed? {found : Option (List Char) × Capture}
    (h : typed? r = some (found, later)) :
    ∃ place, r.Reaches place ∧ signature? place = some (found.2, later) := by
  rcases Reader.eq_some_of_orElse h with htyped | huntyped
  · simp only [Option.bind_eq_bind, Option.bind_eq_some_iff, Prod.exists] at htyped
    obtain ⟨_, place, htype, _, _, hsignature, heq⟩ := htyped
    obtain ⟨rfl, rfl⟩ := by simpa using heq
    exact ⟨place, type?_reaches htype, hsignature⟩
  · simp only [Option.map_eq_some_iff, Prod.exists] at huntyped
    obtain ⟨_, _, hsignature, heq⟩ := huntyped
    obtain ⟨rfl, rfl⟩ := by simpa using heq
    exact ⟨r, .refl r, hsignature⟩

theorem exists_signature_of_header? {value : Header} (h : header? r = some (value, later)) :
    ∃ place, r.Reaches place ∧ signature? place = some (value.name, later) := by
  unfold header? at h
  split at h
  · exact absurd h (by simp)
  · simp only [Option.bind_eq_bind, Option.bind_eq_some_iff, Prod.exists] at h
    obtain ⟨_, _, _, htyped, heq⟩ := h
    obtain ⟨rfl, rfl⟩ := by simpa using heq
    obtain ⟨place, hreaches, hsignature⟩ := exists_signature_of_typed? htyped
    -- before the type come access and staticness
    have hbefore := (anyModifier_reaches accessWords r).trans
      (anyModifier_reaches ["static".toList] _)
    exact ⟨place, hbefore.trans hreaches, hsignature⟩

/-- A header that is found ends just behind a parenthesis, before which its name stands. -/
theorem exists_of_mem_occurrences {text : List Char} {o : Occurrence Header}
    (h : o ∈ occurrences header (Reader.ofText text 0)) :
    ∃ front between rest, text = front ++ (o.value.name.text ++ (between ++ '(' :: rest)) ∧
      o.value.name.start = front.length ∧ (∀ c ∈ between, isBlank c = true) ∧
      text.drop o.stop = rest ∧ o.stop + rest.length = text.length := by
  obtain ⟨start, later, hstart, -, hread, hstop⟩ : ∃ start later,
      (Reader.ofText text 0).Reaches start ∧ start.offset = o.start ∧
        header.read start = some (o.value, later) ∧ o.stop = later.offset := by
    obtain ⟨passed, ahead, later, htext, -, hstart, hread, hstop⟩ := isRead_of_mem_occurrences h
    exact ⟨_, later, ⟨passed, htext, rfl, rfl⟩, hstart.symm, hread, hstop⟩
  obtain ⟨place, hplace, hsignature⟩ := exists_signature_of_header? hread
  obtain ⟨passed, hpassed, hoffset, -⟩ := hstart.trans hplace
  obtain ⟨front, between, hahead, hname, hblank⟩ := exists_of_signature? hsignature
  obtain ⟨all, hall, hlater, -⟩ := hstart.trans (header.forward hread)
  have hlength : o.stop = all.length := hstop.trans (hlater.trans (Nat.zero_add _))
  have hsplit : text = all ++ later.ahead := hall
  refine ⟨passed ++ front, between, later.ahead, ?_, ?_, hblank, ?_, ?_⟩
  · rw [List.append_assoc, ← hahead]
    exact hpassed
  · rw [hname, hoffset, List.length_append]
    exact congrArg (· + front.length) (Nat.zero_add _)
  · rw [hsplit, hlength, List.drop_left]
  · rw [hsplit, hlength, List.length_append]

end Headed

/-! ## In a source -/

/-- Behind the parenthesis at the given place a function ends as it should unless the end is
mistaken, and then it ends with the text, which is another place. -/
theorem position_stop (src : Source) (arguments : Nat) :
    let rest := src.text.drop arguments
    let found := src.position (stop src.text arguments)
    (found = src.position (arguments + lengthFrom rest) ↔ ¬ IsMistaken rest) ∧
      (IsMistaken rest → found = src.stop) := by
  intro rest found
  have hmistaken : IsMistaken rest → found = src.stop :=
    fun h => congrArg src.position (stop_of_isMistaken h)
  refine ⟨⟨?_, fun h => congrArg src.position (stop_of_not_isMistaken h)⟩, hmistaken⟩
  intro heq h
  obtain ⟨k, hparen, hend, hlt⟩ := exists_of_isMistaken h
  have hget : src.text[arguments + k]? = some ')' := List.getElem?_drop ▸ hparen
  have hbehind : src.IsBoundary (arguments + k + 1) := Source.isBoundary_succ hget (by decide)
  rw [hmistaken h, hend, ← Nat.add_assoc] at heq
  have hsame : src.length = arguments + k + 1 :=
    (Source.position_inj src.isBoundary_length.isPlace hbehind.isPlace).mp heq
  have hlength : rest.length = src.text.length - arguments := List.length_drop
  rw [Source.length] at hsame
  omega

/-- **Where a function in script ends.** In front of its arguments stands its name. What follows the
parenthesis that opens them says in one way only how far it goes. It ends there, unless the last
character of the text is mistaken for what ends it, and only then; it then ends with the text. -/
theorem scriptFunctions_end (src : Source) (dialect : Dialect) (f : FunctionDecl)
    (hf : f ∈ src.scriptFunctions dialect) :
    ∃ front between rest n,
      (src.withoutComments dialect false).text
          = front ++ (f.name ++ (between ++ '(' :: rest)) ∧
      (∀ c ∈ between, isBlank c = true) ∧ f.nameSpan.start = src.position front.length ∧
      (∀ m, EndsAt rest m ↔ m = n) ∧
      (f.span.stop = src.position (src.length - rest.length + n) ↔ ¬ IsMistaken rest) ∧
      (IsMistaken rest → f.span.stop = src.stop) := by
  let clean := src.withoutComments dialect false
  have hposition : ∀ o, clean.position o = src.position o :=
    Source.position_of_sameBreaks (src.sameBreaks_withoutComments dialect false)
  have hlength : clean.length = src.length := (src.withoutComments_spec.1 dialect false).1
  obtain ⟨o, ho, rfl⟩ := List.mem_map.mp hf
  rw [Source.occurrencesIn_none] at ho
  obtain ⟨front, between, rest, htext, hname, hblank, hdrop, hstop⟩ := exists_of_mem_occurrences ho
  have hwhole : o.stop + rest.length = clean.text.length := hstop
  have hopen : src.length - rest.length = o.stop := by
    rw [← hlength, Source.length, ← hwhole, Nat.add_sub_cancel]
  have hspan : (ofHeader src clean.text o).span.stop
      = clean.position (FunctionDecl.stop clean.text o.stop) := (hposition _).symm
  have hend : src.stop = clean.stop := by
    rw [Source.stop, Source.stop, hposition, hlength]
  obtain ⟨hright, hmistaken⟩ := position_stop clean o.stop
  rw [show clean.text.drop o.stop = rest from hdrop] at hright hmistaken
  refine ⟨front, between, rest, lengthFrom rest, htext, hblank, congrArg src.position hname,
    fun m => endsAt_iff, ?_, ?_⟩
  · rw [hopen, hspan, ← hposition]
    exact hright
  · rw [hspan, hend]
    exact hmistaken

/-- A semicolon within a parenthesis does not end the declaration, but here it is the last character
of the text. -/
theorem scriptFunctions_end_nested :
    let src := Source.ofText "function f() (;".toList none
    ∃ f ∈ src.scriptFunctions .script, f.name = ['f'] ∧
      EndsAt ") (;".toList 1 ∧ IsMistaken ") (;".toList ∧
      f.span.stop ≠ src.position 12 ∧ f.span.stop = src.position 15 := by
  intro src
  have hfound : (src.scriptFunctions .script).map (fun f => (f.name, f.nameSpan.start))
      = [(['f'], ⟨0, 9⟩)] := by decide +kernel
  obtain ⟨f, hlist, hf⟩ := List.map_eq_singleton_iff.mp hfound
  obtain ⟨hname, hplace⟩ := Prod.mk.inj hf
  have hmem : f ∈ src.scriptFunctions .script := by simp [hlist]
  obtain ⟨front, between, rest, n, htext, hblank, hstart, hends, hright, hmistaken⟩ :=
    scriptFunctions_end src .script f hmem
  have hclean : (src.withoutComments .script false).text = src.text := by decide +kernel
  have hnine : front.length = 9 := by
    have hplaces : ∀ k < 16, src.position k = ⟨0, 9⟩ → k = 9 := by decide +kernel
    have hbound := congrArg List.length htext
    rw [hclean, List.length_append] at hbound
    have hfifteen : src.text.length = 15 := rfl
    exact hplaces front.length (by omega) (hstart.symm.trans hplace)
  obtain rfl : rest = ") (;".toList := by
    have hdrop : "f() (;".toList = f.name ++ (between ++ '(' :: rest) := by
      have h := congrArg (List.drop 9) (hclean.symm.trans htext)
      rw [← hnine, List.drop_left, hnine] at h
      exact h
    rw [hname] at hdrop
    cases between with
    | nil => exact (List.cons.inj (List.cons.inj hdrop).2).2.symm
    | cons c between =>
      obtain rfl : '(' = c := (List.cons.inj (List.cons.inj hdrop).2).1
      exact absurd (hblank '(' List.mem_cons_self) (by decide)
  have hclose : BracketKind.paren.ClosesAt .outside 0 ") (;".toList 0 :=
    closingIndex_eq_some_iff.mp (by decide)
  have hnone : ∀ j, ¬ IsTopLevel terminators " (;".toList j :=
    firstUnnested_eq_none_iff.mp (by decide)
  have hend : EndsAt ") (;".toList 1 := .closed hclose (.bare hnone)
  have hwrong : IsMistaken ") (;".toList := ⟨0, hclose, hnone, ';', by decide, by decide⟩
  obtain rfl : 1 = n := (hends 1).mp hend
  exact ⟨f, hmem, hname, hend, hwrong, fun heq => hright.mp heq hwrong, hmistaken hwrong⟩

end FunctionDecl

end Cfml
