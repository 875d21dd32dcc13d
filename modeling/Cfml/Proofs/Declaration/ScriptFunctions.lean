/-
Functions in script, found as they are written.

A document declares functions one after the other, each with fragments for its arguments and its
body. The search for headers is led through the document with its comments blanked out: a header is
read where it stands, the walls behind it keep the search from reading anything else, and the two
searches for closing brackets end at the parenthesis and the brace that belong to the function. So
the functions are those that are written, and each has the span of its text
(`scriptFunctions_document`).
-/
import Cfml.Proofs.Declaration.Fragment
import Cfml.Proofs.Declaration.Header

set_option autoImplicit false

namespace Cfml

open FunctionDecl Source

/-- A function to be written: its word for access, if it has one, its name, and fragments for its
arguments and its body. The word `function` is in neither, but for their comments. -/
structure WrittenFunction where
  access : Option (List Char)
  isAccess : ∀ word ∈ access, IsAccess word
  name : List Char
  isName : IsName name
  arguments : Fragment
  body : Fragment
  noFunction_arguments : ¬ HasFunctionWord arguments.withoutComments
  noFunction_body : ¬ HasFunctionWord body.withoutComments

namespace WrittenFunction

/-- The function as it is written, if fragments are written in this way. -/
def render (write : Fragment → List Char) (f : WrittenFunction) : List Char :=
  headerText f.access f.name ++
    (write f.arguments ++ ([')', ' ', '{'] ++ (write f.body ++ ['}'])))

/-- The declaration of the function. -/
def text (f : WrittenFunction) : List Char := f.render Fragment.text

/-- Its declaration with the comments blanked out. -/
def withoutComments (f : WrittenFunction) : List Char := f.render Fragment.withoutComments

/-- A component that declares the functions, with a gap before, between and behind them. -/
def document (gap : List Char) (functions : List WrittenFunction) : List Char :=
  "component ".toList ++ ['{'] ++ gap ++ (functions.flatMap (fun f => f.text ++ gap) ++ ['}'])

/-- What was found is the function: its name and its access are those that were written, and so are
the texts of its spans. -/
structure IsFoundAs (src : Source) (f : WrittenFunction) (found : FunctionDecl) : Prop where
  name : found.name = f.name
  access : found.access = (f.access.map lower).getD "public".toList
  returnType : found.returnType = "any".toList
  isStatic : found.isStatic = false
  dialect : found.dialect = .script
  nameText : src.textOf found.nameSpan = f.name
  text : src.textOf found.span = f.text

/-! ## Comments -/

/-- The characters that a literal or a comment begins with. -/
def openers : List Char := ['"', '\'', '/']

theorem cleans_of_notMem {text : List Char} (h : ∀ c ∈ text, c ∉ openers) : Cleans text text := by
  apply cleans_of_forall
  intro c hc
  have hother := h c hc
  simp only [openers, List.mem_cons, List.not_mem_nil, or_false, not_or] at hother
  obtain ⟨hdouble, hsingle, hslash⟩ := hother
  exact ⟨by simp [isQuote, hdouble, hsingle], hslash⟩

theorem cleans_gap {gap : List Char} (hgap : ∀ c ∈ gap, IsBlanked c) : Cleans gap gap := by
  apply cleans_of_forall
  intro c hc
  obtain ⟨hquote, -, hslash⟩ := isCode_iff.mp (isCode_of_isBlanked (hgap c hc))
  exact ⟨hquote, hslash⟩

theorem cleans_headerText (f : WrittenFunction) :
    Cleans (headerText f.access f.name) (headerText f.access f.name) := by
  have haccess : ∀ c ∈ accessText f.access, c ∉ openers := by
    cases haccess : f.access with
    | none => simp [accessText]
    | some word =>
      obtain ⟨known, hknown, hwritten⟩ := f.isAccess word haccess
      have hall : ∀ known ∈ accessWords, ∀ d ∈ openers, ∀ c ∈ known, sameLetter c d = false := by
        decide
      rw [accessText, List.forall_mem_append]
      exact ⟨notMem_of_written (hall known hknown) hwritten, by decide⟩
  have hname : ∀ c ∈ f.name, c ∉ openers := by
    obtain ⟨c, more, hsplit, hc, hmore⟩ := f.isName
    have hfirst : ∀ d ∈ openers, isNameStart d = false := by decide
    have hlater : ∀ d ∈ openers, isIdentifierPart d = false := by decide
    rw [hsplit, List.forall_mem_cons]
    exact ⟨notMem_of_kind hfirst hc, fun d hd => notMem_of_kind hlater (hmore d hd)⟩
  have hword : ∀ c ∈ "function".toList ++ [' '], c ∉ openers := by decide
  have hparen : ∀ c ∈ ['('], c ∉ openers := by decide
  apply cleans_of_notMem
  rw [headerText, List.forall_mem_append, List.forall_mem_append, List.forall_mem_append]
  exact ⟨haccess, ⟨hword, hname⟩, hparen⟩

theorem cleans_text (f : WrittenFunction) : Cleans f.text f.withoutComments := by
  have hbetween : Cleans [')', ' ', '{'] [')', ' ', '{'] := cleans_of_notMem (by decide)
  have hbehind : Cleans ['}'] ['}'] := cleans_of_notMem (by decide)
  exact f.cleans_headerText.append (f.arguments.cleans.append
    (hbetween.append (f.body.cleans.append hbehind)))

variable {gap : List Char} {functions : List WrittenFunction} {path : Option Path}

theorem cleans_texts (hgap : ∀ c ∈ gap, IsBlanked c) (functions : List WrittenFunction) :
    Cleans (functions.flatMap (fun f => f.text ++ gap))
      (functions.flatMap (fun f => f.withoutComments ++ gap)) := by
  induction functions with
  | nil => exact cleans_nil
  | cons f functions ih => exact (f.cleans_text.append (cleans_gap hgap)).append ih

/-- **The comments of a document** are those of the fragments. -/
theorem text_withoutComments_document (hgap : ∀ c ∈ gap, IsBlanked c)
    (functions : List WrittenFunction) (path : Option Path) :
    ((Source.ofText (document gap functions) path).withoutComments .script false).text
      = "component ".toList ++ ['{'] ++ gap
        ++ (functions.flatMap (fun f => f.withoutComments ++ gap) ++ ['}']) := by
  have hfront : Cleans ("component ".toList ++ ['{']) ("component ".toList ++ ['{']) :=
    cleans_of_notMem (by decide)
  have hback : Cleans ['}'] ['}'] := cleans_of_notMem (by decide)
  have hbehind := (cleans_texts hgap functions).append hback
  have hread := ((hfront.append (cleans_gap hgap)).append hbehind) 0 []
  rw [List.append_nil] at hread
  rw [text_withoutComments_script]
  exact hread.trans (List.append_nil _)

/-! ## Where a function ends -/

/-- A function with a body ends with the brace that closes it. -/
theorem stopBehind_eq (body : Fragment) (front rest : List Char) :
    stopBehind (front ++ ([' ', '{'] ++ (body.withoutComments ++ '}' :: rest))) front.length
      = front.length + 2 + body.withoutComments.length + 1 := by
  let behind := front ++ [' ', '{']
  let text := front ++ ([' ', '{'] ++ (body.withoutComments ++ '}' :: rest))
  have hbehind : text = behind ++ (body.withoutComments ++ '}' :: rest) :=
    (List.append_assoc _ _ _).symm
  have hlength : behind.length = front.length + 2 := List.length_append
  have hopener : opener text front.length = behind.length := by
    have hfirst : firstUnnested ['{', ';'] ([' ', '{'] ++ (body.withoutComments ++ '}' :: rest))
        = some 1 := rfl
    rw [opener, List.drop_left, hfirst, hlength]
  have hbrace : text[behind.length - 1]? = some '{' := by
    have hsplit : text = (front ++ [' ']) ++ '{' :: (body.withoutComments ++ '}' :: rest) := by
      simp [text]
    have hlast : behind.length - 1 = (front ++ [' ']).length := by
      rw [hlength, List.length_append]
      rfl
    rw [hsplit, hlast, List.getElem?_append_right (Nat.le_refl _), Nat.sub_self]
    rfl
  have hclose : closingIndex '}' (text.drop behind.length) = some body.withoutComments.length := by
    rw [hbehind, List.drop_left]
    exact body.closingIndex_eq .brace rest
  show stopBehind text front.length = _
  unfold stopBehind
  simp only [hopener, hbrace, hclose, beq_self_eq_true, if_true]
  rw [hlength]

/-- What is written behind the header up to the end of the function. -/
def inside (f : WrittenFunction) : List Char :=
  f.arguments.withoutComments ++ ([')', ' ', '{'] ++ (f.body.withoutComments ++ ['}']))

theorem stop_eq (f : WrittenFunction) (front rest : List Char) :
    stop (front ++ (f.inside ++ rest)) front.length = front.length + f.inside.length := by
  let behind := front ++ f.arguments.withoutComments ++ [')']
  have hsplit : front ++ (f.inside ++ rest)
      = behind ++ ([' ', '{'] ++ (f.body.withoutComments ++ '}' :: rest)) := by
    simp [behind, inside]
  have hclose : closingIndex ')' ((front ++ (f.inside ++ rest)).drop front.length)
      = some f.arguments.withoutComments.length := by
    rw [List.drop_left, inside, List.append_assoc]
    exact f.arguments.closingIndex_eq .paren _
  have hbehind : front.length + f.arguments.withoutComments.length + 1 = behind.length := by
    simp only [behind, List.length_append, List.length_singleton]
  rw [FunctionDecl.stop, hclose]
  simp only
  rw [hbehind, hsplit, stopBehind_eq, ← hbehind, inside]
  simp only [List.length_append, List.length_cons, List.length_nil]
  omega

/-! ## The search for headers -/

variable {r : Reader} {rest : List Char}

theorem misses_gap (hgap : ∀ c ∈ gap, IsBlanked c) : header.Misses r gap rest := by
  rintro front back hne rfl
  rw [Option.eq_none_iff_forall_ne_some]
  rintro ⟨value, later⟩ hread
  obtain ⟨c, more, hahead, hvisible⟩ := atVisible_of_header? hread
  obtain ⟨d, back, rfl⟩ := List.exists_cons_of_ne_nil hne
  obtain ⟨rfl, -⟩ := List.cons.inj hahead
  exact hvisible (hgap d (by simp))

/-- The search goes on behind a wall. -/
theorem occurrences_wall {text : List Char} {wall : Char} (hwall : wall ∈ walls)
    (hword : ¬ HasFunctionWord text) (passed : List Char) (r : Reader) :
    occurrences header (r.passing passed (text ++ [wall] ++ rest))
      = occurrences header (r.passing (passed ++ (text ++ [wall])) rest) := by
  rw [occurrences_append rfl (misses_header hwall hword _ rest), Reader.passing_passing]

theorem not_hasFunctionWord {text : List Char} (h : ∀ c ∈ text, sameLetter 'f' c = false) :
    ¬ HasFunctionWord text := by
  rintro ⟨front, written, back, rfl, hwritten, -⟩
  have hsplit : "function".toList = 'f' :: ['u', 'n', 'c', 't', 'i', 'o', 'n'] := rfl
  rw [hsplit] at hwritten
  obtain ⟨c, more, hc, -, rfl⟩ := List.forall₂_cons_left_iff.mp hwritten
  rw [h c (by simp)] at hc
  exact absurd hc (by decide)

/-- Behind its header nothing of a function is taken for another one. -/
theorem occurrences_inside (f : WrittenFunction) (hgap : ∀ c ∈ gap, IsBlanked c)
    (passed : List Char) (r : Reader) (rest : List Char) :
    occurrences header (r.passing passed (f.inside ++ (gap ++ rest)))
      = occurrences header (r.passing (passed ++ f.inside ++ gap) rest) := by
  have hspace : ¬ HasFunctionWord [' '] := not_hasFunctionWord (by decide)
  have hsplit : f.inside ++ (gap ++ rest) = f.arguments.withoutComments ++ [')'] ++
      ([' '] ++ ['{'] ++ (f.body.withoutComments ++ ['}'] ++ (gap ++ rest))) := by
    simp [inside]
  rw [hsplit, occurrences_wall (by decide) f.noFunction_arguments,
    occurrences_wall (by decide) hspace, occurrences_wall (by decide) f.noFunction_body,
    occurrences_append rfl (misses_gap hgap), Reader.passing_passing]
  simp [inside]

/-- **The header is found**, and the search goes on behind the function. -/
theorem exists_occurrences (f : WrittenFunction) (hgap : ∀ c ∈ gap, IsBlanked c)
    (hbefore : r.isAfter (fun c => isIdentifierPart c || c == '.') = false)
    (hahead : r.ahead = f.withoutComments ++ (gap ++ rest)) :
    ∃ o : Occurrence Header,
      occurrences header r = o :: occurrences header (r.passing (f.withoutComments ++ gap) rest) ∧
        o.start = r.offset ∧ o.stop = r.offset + (headerText f.access f.name).length ∧
        o.value = ⟨f.access, false, none,
          ⟨r.offset + (accessText f.access).length + 9, f.name⟩⟩ := by
  have hwhole : r.ahead = headerText f.access f.name ++ (f.inside ++ (gap ++ rest)) := by
    rw [hahead]
    exact List.append_assoc _ _ _
  have hread := header?_of_append f.isAccess f.isName hbefore hwhole
  have hbehind := f.occurrences_inside hgap (headerText f.access f.name) r rest
  obtain ⟨c, passed, hsplit⟩ : ∃ c passed, headerText f.access f.name = c :: passed :=
    List.exists_cons_of_ne_nil (by simp [headerText])
  have hfunction : headerText f.access f.name ++ f.inside = f.withoutComments := rfl
  rw [hfunction] at hbehind
  rw [hsplit] at hwhole hread hbehind ⊢
  refine ⟨_, (occurrences_eq_cons hwhole hread).trans (congrArg _ hbehind), rfl, rfl, rfl⟩

/-! ## What is found -/

theorem length_withoutComments (f : WrittenFunction) :
    f.withoutComments.length = f.text.length := by
  simp only [withoutComments, text, render, List.length_append, Fragment.length_withoutComments]

/-- A function does not begin with a line break. -/
theorem head?_headerText (f : WrittenFunction) (rest : List Char) :
    (headerText f.access f.name ++ rest).head? ≠ some '\n' := by
  intro hhead
  cases haccess : f.access with
  | none =>
    rw [haccess] at hhead
    exact absurd (show 'f' = '\n' from Option.some.inj hhead) (by decide)
  | some word =>
    obtain ⟨known, hknown, hwritten⟩ := f.isAccess word haccess
    have hword : known ∈ headerWords := List.mem_cons_of_mem _ (List.mem_cons_of_mem _ hknown)
    rw [haccess] at hhead
    cases word with
    | nil =>
      rw [List.forall₂_nil_right_iff.mp hwritten] at hknown
      exact absurd hknown (by decide)
    | cons c more =>
      obtain rfl : c = '\n' := Option.some.inj hhead
      have hvisible := not_isBlank_of_mem hword hwritten '\n' List.mem_cons_self
      exact absurd hvisible (by decide)

variable {src : Source} {front back left : List Char}

/-- The name stands behind the word `function`. -/
theorem textOf_name (f : WrittenFunction) (htext : src.text = front ++ (f.text ++ back)) :
    src.textOf (src.spanOf
      (⟨front.length + (accessText f.access).length + 9, f.name⟩ : Capture).stretch) = f.name := by
  let before := front ++ (accessText f.access ++ ("function".toList ++ [' ']))
  have hsplit : src.text = before ++ (f.name ++ ('(' :: (f.arguments.text ++
      ([')', ' ', '{'] ++ (f.body.text ++ ['}']))) ++ back)) := by
    rw [htext]
    simp [before, WrittenFunction.text, render, headerText]
  have hlength : front.length + (accessText f.access).length + 9 = before.length := by
    simp only [before, List.length_append]
    rw [Nat.add_assoc]
    rfl
  apply textOf_between hsplit hlength
  · rw [← hlength]
    rfl
  · left
    simp [before, List.getLast?_append]
  · right
    simp

/-- The declaration goes up to the brace that closes the body. -/
theorem textOf_declaration (f : WrittenFunction) (htext : src.text = front ++ (f.text ++ back))
    {s : Stretch} (hstart : s.start = front.length)
    (hstop : s.stop = front.length + f.text.length) :
    src.textOf (src.spanOf s) = f.text := by
  apply textOf_between htext hstart hstop
  · right
    rw [WrittenFunction.text, render, List.append_assoc]
    exact f.head?_headerText _
  · left
    have hlast : f.text = (headerText f.access f.name ++
        (f.arguments.text ++ ([')', ' ', '{'] ++ f.body.text))) ++ ['}'] := by
      simp [WrittenFunction.text, render]
    rw [hlast, ← List.append_assoc, List.getLast?_concat]
    simp

/-- A header that was found where the function stands declares it. -/
theorem isFoundAs (f : WrittenFunction) (htext : src.text = front ++ (f.text ++ back))
    (hleft : left.length = front.length) {o : Occurrence Header} (hstart : o.start = left.length)
    (hstop : o.stop = left.length + (headerText f.access f.name).length)
    (hvalue : o.value = ⟨f.access, false, none,
      ⟨left.length + (accessText f.access).length + 9, f.name⟩⟩) :
    f.IsFoundAs src (ofHeader src (left ++ (f.withoutComments ++ rest)) o) := by
  rw [hleft] at hstart hvalue
  have hend : FunctionDecl.stop (left ++ (f.withoutComments ++ rest)) o.stop
      = front.length + f.text.length := by
    have hsplit : left ++ (f.withoutComments ++ rest)
        = (left ++ headerText f.access f.name) ++ (f.inside ++ rest) := by
      simp [withoutComments, render, inside]
    have hlength : f.withoutComments.length
        = (headerText f.access f.name).length + f.inside.length := List.length_append
    rw [hsplit, hstop, ← List.length_append, f.stop_eq, List.length_append, hleft, Nat.add_assoc,
      ← hlength, length_withoutComments]
  unfold ofHeader
  rw [hvalue]
  constructor
  · rfl
  · cases f.access <;> rfl
  · rfl
  · rfl
  · rfl
  · exact f.textOf_name htext
  · exact f.textOf_declaration htext hstart hend

/-- Behind a bracket and a gap no name goes on. -/
theorem not_name_behind (hgap : ∀ c ∈ gap, IsBlanked c) {front : List Char} {bracket : Char}
    (hbracket : isIdentifierPart bracket = false ∧ bracket ≠ '.') :
    ∀ c ∈ (front ++ [bracket] ++ gap).getLast?, isIdentifierPart c = false ∧ c ≠ '.' := by
  intro c hc
  rw [Option.mem_def, List.getLast?_append, Option.or_eq_some_iff, List.getLast?_concat] at hc
  rcases hc with hc | ⟨-, hc⟩
  · have hblanked := hgap c (List.mem_of_getLast? hc)
    have hpoint := eq_false_of_isBlanked (p := (· == '.')) (by decide) hblanked
    exact ⟨eq_false_of_isBlanked (by decide) hblanked, by simpa using hpoint⟩
  · obtain rfl := Option.some.inj hc
    exact hbracket

/-- So a header can be read there. -/
theorem isAfter_passing (hlast : ∀ c ∈ left.getLast?, isIdentifierPart c = false ∧ c ≠ '.')
    (clean rest : List Char) : ((Reader.ofText clean 0).passing left rest).isAfter
      (fun c => isIdentifierPart c || c == '.') = false := by
  rw [Reader.isAfter, Reader.passing, Reader.ofText, Option.or_none]
  cases hcases : left.getLast? with
  | none => rfl
  | some c =>
    obtain ⟨hpart, hpoint⟩ := hlast c hcases
    simp [hpart, hpoint]

/-- From a place where a name could begin on, the functions are found that are written there. -/
theorem forall₂_isFoundAs (hgap : ∀ c ∈ gap, IsBlanked c) {clean : List Char}
    (functions : List WrittenFunction) (hleft : left.length = front.length)
    (hbefore : ∀ c ∈ left.getLast?, isIdentifierPart c = false ∧ c ≠ '.')
    (htext : src.text = front ++ (functions.flatMap (fun f => f.text ++ gap) ++ ['}']))
    (hclean : clean = left ++ (functions.flatMap (fun f => f.withoutComments ++ gap) ++ ['}'])) :
    List.Forall₂ (IsFoundAs src) functions ((occurrences header
      ((Reader.ofText clean 0).passing left
        (functions.flatMap (fun f => f.withoutComments ++ gap) ++ ['}']))).map
          (ofHeader src clean)) := by
  induction functions generalizing front left with
  | nil =>
    have hword : ¬ HasFunctionWord [] := not_hasFunctionWord (by simp)
    have hnone : occurrences header ((Reader.ofText clean 0).passing left ['}']) = [] :=
      @occurrences_wall [] [] '}' (by decide) hword left (Reader.ofText clean 0)
    rw [List.flatMap_nil, List.nil_append, hnone]
    exact .nil
  | cons f functions ih =>
    let rest := functions.flatMap (fun f => f.withoutComments ++ gap) ++ ['}']
    have hsplit : (f :: functions).flatMap (fun f => f.withoutComments ++ gap) ++ ['}']
        = f.withoutComments ++ (gap ++ rest) := by
      simp only [rest, List.flatMap_cons, List.append_assoc]
    have hafter := isAfter_passing hbefore clean (f.withoutComments ++ (gap ++ rest))
    obtain ⟨o, hfound, hstart, hstop, hvalue⟩ := f.exists_occurrences hgap hafter rfl
    rw [Reader.offset_passing, show (Reader.ofText clean 0).offset = 0 from rfl, Nat.zero_add]
      at hstart hstop hvalue
    rw [hsplit] at hclean ⊢
    rw [hfound, List.map_cons]
    apply List.Forall₂.cons
    · rw [List.flatMap_cons, List.append_assoc, List.append_assoc] at htext
      rw [hclean]
      exact f.isFoundAs htext hleft hstart hstop hvalue
    · rw [Reader.passing_passing]
      refine @ih (front ++ (f.text ++ gap)) _ ?_ ?_ ?_ ?_
      · simp only [List.length_append, hleft, length_withoutComments]
      · have hlast : left ++ (f.withoutComments ++ gap) = left ++ (headerText f.access f.name ++
            (f.arguments.withoutComments ++ ([')', ' ', '{'] ++ f.body.withoutComments)))
              ++ ['}'] ++ gap := by
          simp [withoutComments, render]
        rw [hlast]
        exact not_name_behind hgap (by decide)
      · rw [htext]
        simp only [List.flatMap_cons, List.append_assoc]
      · rw [hclean]
        simp only [rest, List.append_assoc]

/-- **Functions in script are found as they are written.** -/
theorem scriptFunctions_document (functions : List WrittenFunction)
    (gap : List Char) (hgap : ∀ c ∈ gap, IsBlanked c) (path : Option Path) :
    List.Forall₂ (IsFoundAs (Source.ofText (document gap functions) path)) functions
      ((Source.ofText (document gap functions) path).scriptFunctions .script) := by
  let src := Source.ofText (document gap functions) path
  let front := "component ".toList ++ ['{'] ++ gap
  let rest := functions.flatMap (fun f => f.withoutComments ++ gap) ++ ['}']
  have hclean := text_withoutComments_document hgap functions path
  have hword : ¬ HasFunctionWord "component ".toList := not_hasFunctionWord (by decide)
  have hfirst : occurrences header (Reader.ofText (front ++ rest) 0)
      = occurrences header ((Reader.ofText (front ++ rest) 0).passing front rest) := by
    have hwall := @occurrences_wall (gap ++ rest) "component ".toList '{' (by decide) hword []
      (Reader.ofText (front ++ rest) 0)
    rw [Reader.passing_nil (List.append_assoc _ _ _)] at hwall
    rw [hwall, occurrences_append rfl (misses_gap hgap), Reader.passing_passing]
    rfl
  rw [Source.scriptFunctions]
  simp only [Source.occurrencesIn_none, hclean]
  rw [hfirst]
  apply forall₂_isFoundAs hgap functions rfl _ rfl rfl
  exact not_name_behind hgap (by decide)

/-- A function with a quote and a parenthesis in a literal within a literal, and with an apostrophe
and a brace in a comment. -/
def stray : WrittenFunction where
  access := some "PUBLIC".toList
  isAccess := by
    intro word hword
    obtain rfl := Option.some.inj hword
    exact ⟨"public".toList, by decide, by decide⟩
  name := "stray".toList
  isName := ⟨'s', "tray".toList, rfl, by decide, by decide⟩
  arguments := .code 'a' rfl (.code '=' rfl (.literal
    ⟨'"', '#' :: (['"', ')', '"'] ++ '#' :: []), rfl, .embedded (by decide) .nil⟩ .nil))
  body := .comment (.line " isn't \x7d".toList '\n' (by decide) rfl)
    (.nested .brace (.code 'x' rfl .nil) .nil)
  noFunction_arguments := not_hasFunctionWord (by decide)
  noFunction_body := not_hasFunctionWord (by decide)

/-- A function with the name `function`. -/
def namesake : WrittenFunction where
  access := none
  isAccess := by simp
  name := "function".toList
  isName := ⟨'f', "unction".toList, rfl, by decide, by decide⟩
  arguments := .nil
  body := .nil
  noFunction_arguments := not_hasFunctionWord (by decide)
  noFunction_body := not_hasFunctionWord (by decide)

/-- Both are found. -/
theorem scriptFunctions_stray :
    let src := Source.ofText (document ['\n'] [stray, namesake]) none
    ∃ f g, src.scriptFunctions .script = [f, g] ∧
      f.name = "stray".toList ∧ f.access = "public".toList ∧ src.textOf f.span =
        "PUBLIC function stray(a=\"#\")\"#\") \x7b// isn't \x7d\n\x7bx\x7d\x7d".toList ∧
      g.name = "function".toList ∧ g.access = "public".toList ∧
        src.textOf g.span = "function function() \x7b\x7d".toList := by
  intro src
  have hgap : ∀ c ∈ ['\n'], IsBlanked c := by simp [IsBlanked, isLineBreak]
  have hfound := scriptFunctions_document [stray, namesake] ['\n'] hgap none
  obtain ⟨f, others, hf, hothers, heq⟩ := List.forall₂_cons_left_iff.mp hfound
  obtain ⟨g, none, hg, hnone, rfl⟩ := List.forall₂_cons_left_iff.mp hothers
  obtain rfl := List.forall₂_nil_left_iff.mp hnone
  have haccess : lower "PUBLIC".toList = "public".toList := by decide
  exact ⟨f, g, heq, hf.name, hf.access.trans haccess, hf.text, hg.name, hg.access, hg.text⟩

end WrittenFunction

end Cfml
