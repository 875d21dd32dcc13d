/-
Reading an argument list back.

An argument is well nested text between commas, with white space around it. A cursor that reads a
list of arguments from its end passes over each of them as a whole: a literal is taken from its
closing quote to the next one of the kind, and a group raises a counter at its closing bracket and
lowers it at the opening one (`holdsOfParts_reads`). So it meets the commas of the list with all
counters at zero, and the parenthesis before the list as the first one without a partner
(`BackwardCursor.readArguments_written`).
-/
import Cfml.Proofs.Nesting.WellNested
import Cfml.Proofs.Source.Steps
import Cfml.Proofs.Text.Blank

set_option autoImplicit false

namespace Cfml

/-! ## White space -/

/-- White space is plain text and no comma. -/
theorem plain_of_isBlank {c : Char} (h : isBlank c = true) :
    isQuote c = false ∧ BracketKind.of? c = none ∧ c ≠ ',' := by
  refine ⟨?_, ?_, ?_⟩
  · rw [Bool.eq_false_iff]
    intro hquote
    rcases Bool.or_eq_true_iff.mp hquote with heq | heq
    · exact absurd (beq_iff_eq.mp heq ▸ h) (by decide)
    · exact absurd (beq_iff_eq.mp heq ▸ h) (by decide)
  · cases hbracket : BracketKind.of? c with
    | none => rfl
    | some found =>
      obtain ⟨kind, opens⟩ := found
      obtain rfl := BracketKind.eq_of_of? hbracket
      cases kind <;> cases opens <;> exact absurd h (by decide)
  · rintro rfl
    exact absurd h (by decide)

namespace BackwardCursor

/-! ## Reading -/

/-- Read backward, the text takes the counters from one value to another, and becomes part of the
argument under way. -/
def Reads (brackets brackets' : Brackets) (text : List Char) : Prop :=
  ∀ current complete reached steps rest, steps.map Prod.fst = text.reverse →
    ∃ reached', argumentsFrom ⟨brackets, none, current, complete⟩ reached (steps ++ rest)
      = argumentsFrom ⟨brackets', none, text ++ current, complete⟩ reached' rest

section Reading

variable {brackets brackets' brackets'' : Brackets} {text text' : List Char} {c : Char}

theorem reads_nil : Reads brackets brackets [] := by
  intro current complete reached steps rest hsteps
  obtain rfl := List.map_eq_nil_iff.mp hsteps
  exact ⟨reached, rfl⟩

/-- What stands behind is read first. -/
theorem Reads.append (h : Reads brackets' brackets'' text) (h' : Reads brackets brackets' text') :
    Reads brackets brackets'' (text ++ text') := by
  intro current complete reached steps rest hsteps
  rw [List.reverse_append] at hsteps
  obtain ⟨first, second, rfl, hfirst, hsecond⟩ := List.map_eq_append_iff.mp hsteps
  obtain ⟨reached', hread⟩ := h' current complete reached first (second ++ rest) hfirst
  obtain ⟨reached'', hread'⟩ := h (text' ++ current) complete reached' second rest hsecond
  refine ⟨reached'', ?_⟩
  rw [List.append_assoc, hread, hread', List.append_assoc]

/-- One character is read in one step. -/
theorem reads_singleton
    (h : ∀ current complete reached next rest,
      argumentsFrom ⟨brackets, none, current, complete⟩ reached ((c, next) :: rest)
        = argumentsFrom ⟨brackets', none, c :: current, complete⟩ next rest) :
    Reads brackets brackets' [c] := by
  intro current complete reached steps rest hsteps
  obtain ⟨⟨d, next⟩, rfl, hd⟩ := List.map_eq_singleton_iff.mp hsteps
  obtain rfl : d = c := hd
  exact ⟨next, h current complete reached next rest⟩

/-- A plain character is read if it is no comma that ends an argument. -/
theorem reads_plain (hquote : isQuote c = false) (hbracket : BracketKind.of? c = none)
    (hcomma : brackets.isBalanced = false ∨ c ≠ ',') : Reads brackets brackets [c] := by
  have hnot : (c == ',' && brackets.isBalanced) = false := by
    rcases hcomma with h | h
    · rw [h, Bool.and_false]
    · rw [beq_eq_false_iff_ne.mpr h, Bool.false_and]
  apply reads_singleton
  intro current complete reached next rest
  rw [argumentsFrom]
  simp only [hbracket, hquote, hnot, Bool.false_eq_true, if_false]

/-- A bracket is counted, unless it is the parenthesis that ends the list. -/
theorem reads_bracket {kind : BracketKind} {opens : Bool}
    (hbracket : BracketKind.of? c = some (kind, opens))
    (hparen : c = '(' → 0 ≤ (brackets.count kind (!opens)).parens) :
    Reads brackets (brackets.count kind (!opens)) [c] := by
  have hnot : (c == '(' && decide ((brackets.count kind (!opens)).parens < 0)) = false := by
    rw [Bool.and_eq_false_iff, beq_eq_false_iff_ne, decide_eq_false_iff_not]
    by_cases hc : c = '('
    · exact Or.inr (Int.not_lt.mpr (hparen hc))
    · exact Or.inl hc
  apply reads_singleton
  intro current complete reached next rest
  rw [argumentsFrom]
  simp only [hbracket, hnot, Bool.false_eq_true, if_false]

/-- A group is entered at its closing bracket and left at its opening one. -/
theorem reads_group (kind : BracketKind) (hnonneg : brackets.IsNonneg)
    (h : Reads (brackets.count kind true) (brackets.count kind true) text) :
    Reads brackets brackets (kind.opening :: (text ++ [kind.closing])) := by
  have hclosing : Reads brackets (brackets.count kind true) [kind.closing] := by
    apply reads_bracket kind.of?_closing
    intro heq
    cases kind <;> exact absurd heq (by decide)
  have hopening : Reads (brackets.count kind true) brackets [kind.opening] := by
    have hleave : (brackets.count kind true).count kind (!true) = brackets :=
      brackets.count_leave kind
    have hparen := hnonneg.parens
    rw [← hleave] at hparen
    have hread := reads_bracket kind.of?_opening fun _ => hparen
    rwa [hleave] at hread
  exact hopening.append (h.append hclosing)

/-- Within a literal that is open all is read up to the next quote of its kind. -/
theorem argumentsFrom_verbatim {quote : Char} (brackets : Brackets)
    (complete : List (List Char)) {text : List Char} (htext : quote ∉ text) (next : BackwardCursor)
    (rest : List (Char × BackwardCursor)) (current : List Char) (reached : BackwardCursor)
    (steps : List (Char × BackwardCursor)) (hsteps : steps.map Prod.fst = text) :
    argumentsFrom ⟨brackets, some quote, current, complete⟩ reached (steps ++ (quote, next) :: rest)
      = argumentsFrom ⟨brackets, none, quote :: (text.reverse ++ current), complete⟩ next rest := by
  subst hsteps
  induction steps generalizing current reached with
  | nil =>
    rw [List.nil_append, argumentsFrom]
    simp only [beq_self_eq_true, if_true]
    rfl
  | cons step steps ih =>
    obtain ⟨c, later⟩ := step
    obtain ⟨hc, hsteps⟩ := not_or.mp (List.mem_cons.not.mp htext)
    have hne : (c == quote) = false := beq_eq_false_iff_ne.mpr (Ne.symm hc)
    rw [List.cons_append, argumentsFrom]
    simp only [hne, Bool.false_eq_true, if_false]
    rw [ih _ _ hsteps, List.map_cons, List.reverse_cons, List.append_assoc]
    rfl

/-- A literal that ends with the next quote of its kind is read as a whole. -/
theorem reads_verbatim {quote : Char} {inside : List Char} (hquote : isQuote quote = true)
    (hinside : quote ∉ inside) : Reads brackets brackets (quote :: (inside ++ [quote])) := by
  have hbracket : BracketKind.of? quote = none := by
    rcases Bool.or_eq_true_iff.mp hquote with heq | heq
    · exact beq_iff_eq.mp heq ▸ rfl
    · exact beq_iff_eq.mp heq ▸ rfl
  intro current complete reached steps rest hsteps
  rw [List.reverse_cons, List.reverse_append, List.append_assoc] at hsteps
  obtain ⟨first, more, rfl, hfirst, hmore⟩ := List.map_eq_append_iff.mp hsteps
  obtain ⟨middle, last, rfl, hmiddle, hlast⟩ := List.map_eq_append_iff.mp hmore
  obtain ⟨⟨c, next⟩, rfl, hc⟩ := List.map_eq_singleton_iff.mp hfirst
  obtain ⟨⟨d, next'⟩, rfl, hd⟩ := List.map_eq_singleton_iff.mp hlast
  obtain rfl : c = quote := hc
  obtain rfl : d = c := hd
  refine ⟨next', ?_⟩
  rw [List.singleton_append, List.cons_append, List.append_assoc, List.singleton_append,
    argumentsFrom]
  simp only [hbracket, hquote, if_true]
  rw [argumentsFrom_verbatim brackets complete (by simpa using hinside) next' rest _ _ middle
    hmiddle, List.reverse_reverse, List.cons_append, List.append_assoc]
  rfl

end Reading

end BackwardCursor

/-- A literal that ends with the next quote of the kind that it begins with. -/
def IsVerbatimLiteral (text : List Char) : Prop :=
  ∃ quote inside, isQuote quote = true ∧ quote ∉ inside ∧ text = quote :: (inside ++ [quote])

open BackwardCursor in
/-- **Each part of well nested text is read as a whole**, and leaves the counters as they were. -/
theorem holdsOfParts_reads :
    HoldsOfParts IsVerbatimLiteral ',' fun brackets text => Reads brackets brackets text where
  nil _ := reads_nil
  append h h' := h.append h'
  plain hquote hbracket hcomma := reads_plain hquote hbracket hcomma
  literal hliteral := by
    obtain ⟨quote, inside, hquote, hinside, rfl⟩ := hliteral
    exact reads_verbatim hquote hinside
  group kind hnonneg h := reads_group kind hnonneg h

/-! ## Lists of arguments -/

/-- An argument as it is written in a list: its text with white space around it. Lines of the text
end in line feeds. -/
structure WrittenArgument where
  before : List Char
  text : List Char
  behind : List Char
  blank_before : ∀ c ∈ before, isBlank c = true
  blank_behind : ∀ c ∈ behind, isBlank c = true
  trimmed : trim text = text
  wellNested : WellNested IsVerbatimLiteral ',' false text
  feeds : '\r' ∉ text

namespace WrittenArgument

def written (a : WrittenArgument) : List Char := a.before ++ (a.text ++ a.behind)

/-- The arguments with commas in between. -/
def writtenList (arguments : List WrittenArgument) : List Char :=
  [','].intercalate (arguments.map written)

variable (a : WrittenArgument)

theorem trim_written : trim a.written = a.text :=
  (trim_padded a.blank_before a.blank_behind).trans a.trimmed

open BackwardCursor in
theorem reads_written : Reads {} {} a.written := by
  have hblank : ∀ text : List Char, (∀ c ∈ text, isBlank c = true) → Reads {} {} text := by
    intro text htext
    induction text with
    | nil => exact reads_nil
    | cons c rest ih =>
      obtain ⟨hc, hrest⟩ := List.forall_mem_cons.mp htext
      obtain ⟨hquote, hbracket, hcomma⟩ := plain_of_isBlank hc
      exact (reads_plain hquote hbracket (Or.inr hcomma)).append (ih hrest)
  have htext : Reads {} {} a.text :=
    a.wellNested.holds holdsOfParts_reads Brackets.isNonneg_start (by simp)
  exact (hblank _ a.blank_before).append (htext.append (hblank _ a.blank_behind))

theorem writtenList_cons_cons (a b : WrittenArgument) (rest : List WrittenArgument) :
    writtenList (a :: b :: rest) = a.written ++ ',' :: writtenList (b :: rest) := by
  rw [writtenList, List.map_cons, List.map_cons, List.intercalate_cons_cons, ← List.map_cons,
    List.append_assoc]
  rfl

theorem writtenList_cons (a : WrittenArgument) (rest : List WrittenArgument) :
    writtenList (a :: rest) = a.written ++ rest.flatMap fun a => ',' :: a.written := by
  induction rest generalizing a with
  | nil =>
    rw [List.flatMap_nil, List.append_nil]
    exact List.intercalate_singleton
  | cons b rest ih => rw [writtenList_cons_cons, ih b, List.flatMap_cons, List.cons_append]

/-- With a line feed for each line ending the same argument is written. -/
theorem exists_unified : ∃ b : WrittenArgument,
    b.text = a.text ∧ unifyLineEnds a.written = b.written := by
  have hbefore := isBlank_of_mem_unifyLineEnds a.blank_before
  have hbehind := isBlank_of_mem_unifyLineEnds a.blank_behind
  cases htext : a.text with
  | nil =>
    -- a line ending may begin before the argument and end behind it
    have hblank : ∀ c ∈ unifyLineEnds (a.before ++ a.behind), isBlank c = true :=
      isBlank_of_mem_unifyLineEnds (List.forall_mem_append.mpr ⟨a.blank_before, a.blank_behind⟩)
    refine ⟨⟨_, [], [], hblank, by simp, rfl, .nil, by simp⟩, rfl, ?_⟩
    simp [written, htext]
  | cons c rest =>
    have htrim := a.trimmed
    rw [htext] at htrim
    have hhead : (a.text ++ a.behind).head? ≠ some '\n' := by
      have hc := not_isBlank_of_trim htrim
      rw [htext]
      rintro heq
      obtain rfl : c = '\n' := Option.some.inj heq
      exact absurd hc (by decide)
    refine ⟨⟨_, a.text, _, hbefore, hbehind, a.trimmed, a.wellNested, a.feeds⟩, htext, ?_⟩
    rw [written, unifyLineEnds_append a.before hhead, unifyLineEnds_append_of_notMem a.feeds]
    rfl

/-- The same holds of the whole list. -/
theorem exists_unifiedList (rest : List WrittenArgument) :
    ∃ b later, (b :: later).map text = (a :: rest).map text ∧
      unifyLineEnds (writtenList (a :: rest)) = writtenList (b :: later) := by
  obtain ⟨b, htext, hwritten⟩ := a.exists_unified
  induction rest generalizing a b with
  | nil =>
    refine ⟨b, [], congrArg (fun t => [t]) htext, ?_⟩
    rw [writtenList_cons, writtenList_cons, List.flatMap_nil, List.append_nil, List.append_nil,
      hwritten]
  | cons next rest ih =>
    obtain ⟨next', htext', hwritten'⟩ := next.exists_unified
    obtain ⟨first, later, htexts, hlist⟩ := ih next next' htext' hwritten'
    refine ⟨b, first :: later, ?_, ?_⟩
    · rw [List.map_cons, htext, htexts]
      rfl
    · rw [writtenList_cons_cons, writtenList_cons_cons, unifyLineEnds_append a.written (by simp),
        unifyLineEnds_cons (by decide), hwritten, hlist]

end WrittenArgument

namespace BackwardCursor

open WrittenArgument

/-- Read backward, arguments that each stand behind a comma are complete at the first of these
commas. The induction is on the arguments: what stands behind the first one is read before it. -/
theorem argumentsFrom_commas (arguments : List WrittenArgument) (complete : List (List Char))
    (reached : BackwardCursor) (steps rest : List (Char × BackwardCursor))
    (hsteps : steps.map Prod.fst = (arguments.flatMap fun a => ',' :: a.written).reverse) :
    ∃ reached', argumentsFrom ⟨{}, none, [], complete⟩ reached (steps ++ rest)
      = argumentsFrom ⟨{}, none, [], arguments.map (·.text) ++ complete⟩ reached' rest := by
  induction arguments generalizing steps rest with
  | nil =>
    obtain rfl := List.map_eq_nil_iff.mp hsteps
    exact ⟨reached, rfl⟩
  | cons a later ih =>
    rw [List.flatMap_cons, List.reverse_append, List.reverse_cons] at hsteps
    obtain ⟨first, more, rfl, hfirst, hmore⟩ := List.map_eq_append_iff.mp hsteps
    obtain ⟨second, last, rfl, hsecond, hlast⟩ := List.map_eq_append_iff.mp hmore
    obtain ⟨⟨c, next⟩, rfl, hc⟩ := List.map_eq_singleton_iff.mp hlast
    obtain rfl : c = ',' := hc
    obtain ⟨reached', hlater⟩ := ih first (second ++ [(',', next)] ++ rest) hfirst
    obtain ⟨reached'', hread⟩ := a.reads_written [] (later.map (·.text) ++ complete) reached'
      second ([(',', next)] ++ rest) hsecond
    refine ⟨next, ?_⟩
    rw [List.append_assoc, hlater, List.append_assoc, hread, List.append_nil, List.singleton_append,
      argumentsFrom]
    simp only [BracketKind.of?, isQuote]
    rw [a.trim_written]
    rfl

/-- Read backward, a list ends with all of its arguments at the parenthesis before it. -/
theorem argumentsFrom_list (a : WrittenArgument) (later : List WrittenArgument)
    (reached next : BackwardCursor) (steps rest : List (Char × BackwardCursor))
    (hsteps : steps.map Prod.fst = (writtenList (a :: later)).reverse) :
    argumentsFrom {} reached (steps ++ ('(', next) :: rest)
      = ((a :: later).map (·.text), next) := by
  rw [writtenList_cons, List.reverse_append] at hsteps
  obtain ⟨first, second, rfl, hfirst, hsecond⟩ := List.map_eq_append_iff.mp hsteps
  obtain ⟨reached', hlater⟩ := argumentsFrom_commas later [] reached first
    (second ++ ('(', next) :: rest) hfirst
  obtain ⟨reached'', hread⟩ := a.reads_written [] (later.map (·.text) ++ []) reached' second
    (('(', next) :: rest) hsecond
  rw [List.append_assoc, hlater, hread, List.append_nil, List.append_nil, argumentsFrom]
  have hbracket : BracketKind.of? '(' = some (.paren, true) := rfl
  simp only [hbracket]
  rw [a.trim_written]
  rfl

/-- **Reading undoes writing an argument list.** From the end of the text the arguments come back in
their order, each without the white space around it, and the cursor is at the parenthesis. -/
theorem readArguments_written (front : List Char) {arguments : List WrittenArgument}
    (hne : arguments ≠ []) (path : Option Path) :
    let src := Source.ofText (front ++ '(' :: writtenList arguments) path
    let (found, cursor) := (atPosition src src.stop).readArguments
    found = arguments.map (·.text) ∧ cursor.position = src.position front.length := by
  intro src
  obtain ⟨a, rest, rfl⟩ := List.exists_cons_of_ne_nil hne
  obtain ⟨b, later, htexts, hlist⟩ := a.exists_unifiedList rest
  have htext : src.text = front ++ '(' :: writtenList (a :: rest) := rfl
  have hunify : unifyLineEnds src.text
      = unifyLineEnds front ++ ['('] ++ writtenList (b :: later) := by
    rw [htext, unifyLineEnds_append front (by simp), unifyLineEnds_cons (by decide), hlist,
      List.append_assoc]
    rfl
  have hboundary : src.IsBoundary front.length :=
    Source.isBoundary_append htext (Or.inr (by simp))
  have hstop := standsAt_position src.isBoundary_length
  have hbefore := hstop.before_eq
  rw [List.take_length, Source.length, List.take_length, hunify] at hbefore
  obtain ⟨steps, list, hsteps, hpassed, hlast, hclean⟩ := exists_steps hstop.clean hbefore
  obtain ⟨next, hstep, hfront, hclean⟩ := exists_step hclean hlast
  have hread : (atPosition src src.stop).readArguments = ((b :: later).map (·.text), next) := by
    rw [readArguments, Source.stop, hsteps, hstep]
    exact argumentsFrom_list b later _ next steps next.steps hpassed
  rw [hread]
  refine ⟨htexts, position_eq_of_before hboundary hclean ?_⟩
  rw [hfront, htext, List.take_left]

/-- A list with a group over two lines, a literal with a bracket in it and an empty argument. -/
theorem readArguments_written_group : ∃ arguments : List WrittenArgument, arguments ≠ [] ∧
    writtenList arguments = "\r\n[1,\n\x7b\x7d],  '),' , ".toList ∧
    arguments.map (·.text) = ["[1,\n\x7b\x7d]".toList, "'),'".toList, []] ∧
    let src := Source.ofText ("a.b".toList ++ '(' :: writtenList arguments) none
    let (found, cursor) := (atPosition src src.stop).readArguments
    found = arguments.map (·.text) ∧ cursor.position = ⟨0, 3⟩ := by
  have hgroup : WellNested IsVerbatimLiteral ',' false "[1,\n\x7b\x7d]".toList :=
    .group .square (.plain (by decide) (by decide) (Or.inl rfl) <|
      .plain (by decide) (by decide) (Or.inl rfl) <|
      .plain (by decide) (by decide) (Or.inl rfl) <| .group .brace .nil .nil) .nil
  have hquoted : IsVerbatimLiteral "'),'".toList :=
    ⟨'\'', "),".toList, by decide, by decide, rfl⟩
  have hliteral : WellNested IsVerbatimLiteral ',' false "'),'".toList := .literal hquoted .nil
  let group : WrittenArgument :=
    ⟨"\r\n".toList, _, [], by decide, by decide, by decide, hgroup, by decide⟩
  let literal : WrittenArgument :=
    ⟨"  ".toList, _, [' '], by decide, by decide, by decide, hliteral, by decide⟩
  let empty : WrittenArgument := ⟨[' '], [], [], by decide, by decide, rfl, .nil, by decide⟩
  have hne : [group, literal, empty] ≠ [] := List.cons_ne_nil _ _
  obtain ⟨hfound, hposition⟩ := readArguments_written "a.b".toList hne none
  exact ⟨_, hne, rfl, rfl, hfound, hposition.trans rfl⟩

end BackwardCursor

end Cfml
