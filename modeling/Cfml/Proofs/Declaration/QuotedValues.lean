/-
Which values in double quotes a declaration can have.

A declaration is cut out of the text before its attributes are read, and what it is cut out by knows
nothing of quotes: the head of a component ends at the first `>` or `{`, a property in script at the
first `;` or brace, an opening tag at the first `>`. A value is therefore opaque to a declaration
exactly if no character that ends the declaration is in it (`quotedValues_opaque_iff`). With such a
value in the list the declaration loses it, and what is read instead cannot have that character in
it; without one each attribute is read as written.
-/
import Cfml.Proofs.Declaration.QuotedComponent
import Cfml.Proofs.Declaration.QuotedProperty

set_option autoImplicit false

namespace Cfml

open Attribute (written writtenAll)

namespace QuotedAttributes

/-! ## Functions in tag markup -/

/-- The attributes that a function in tag markup can have besides its name. -/
abbrev functionNames : List (List Char) := others FunctionDecl.tagAttributes

/-- The characters that end an opening tag. -/
def tagStops : List Char := ['>']

/-- The opening tag of a function with the attributes. -/
def functionTag (as : QuotedAttributes functionNames) : List Char :=
  '<' :: ("cffunction".toList ++ (writtenAll (as.named "f".toList) ++ ['>']))

/-- The closing tag of a function. -/
def endOfFunction : List Char := '<' :: '/' :: ("cffunction".toList ++ ['>'])

/-- A function in tag markup with the attributes. -/
def functionText (as : QuotedAttributes functionNames) : List Char :=
  as.functionTag ++ endOfFunction

/-- The function that has the attributes. -/
def function (as : QuotedAttributes functionNames) (nameSpan span : Span) : FunctionDecl where
  name := "f".toList
  access := (((as.value? "access").filter (!·.isEmpty)).map lower).getD "public".toList
  returnType := ((as.value? "returntype").filter (!·.isEmpty)).getD "any".toList
  isStatic := (as.value? "static").any fun value => value.isEmpty || isTruthy value
  dialect := .tag
  nameSpan := nameSpan
  span := span

/-- The function is found with the attributes as they were written, and it is the only one. -/
def IsReadFromFunction (as : QuotedAttributes functionNames) : Prop :=
  ∀ path : Option Path, ∃ nameSpan span,
    (Source.ofText as.functionText path).tagFunctions = [as.function nameSpan span]

variable {as : QuotedAttributes functionNames} {path : Option Path}

theorem isName_function (as : QuotedAttributes functionNames) :
    ∀ e ∈ as.named "f".toList, Attribute.IsName e.1 := fun e he =>
  isName_of_mem (List.mem_append_right _ (List.mem_append_right _
    (as.known_named "f".toList (by decide) e he)))

theorem avoids_functionText (as : QuotedAttributes functionNames) :
    Avoids IsOpener as.functionText := by
  have hname : Avoids IsOpener "f".toList := avoids_isOpener (by decide)
  have hback : Avoids IsOpener ('>' :: endOfFunction) := avoids_isOpener (by decide)
  have hfront : Avoids IsOpener ('<' :: "cffunction".toList) := avoids_isOpener (by decide)
  have hall := areDelimiters_isOpener.avoids_writtenAll as.isName_function
    (List.forall_mem_cons.mpr ⟨hname, as.noComment_texts⟩) hback
  have hsplit : as.functionText = '<' :: "cffunction".toList ++
      (writtenAll (as.named "f".toList) ++ '>' :: endOfFunction) := by
    simp only [functionText, functionTag, List.cons_append, List.append_assoc, List.nil_append]
  -- the list begins with a space, so no delimiter goes into it
  have hspace : writtenAll (as.named "f".toList)
      = ' ' :: (written "name".toList "f".toList ++ writtenAll as.texts) := rfl
  rw [hspace, List.cons_append] at hall hsplit
  rw [hsplit]
  exact hfront.append_cons (fun word hword => areDelimiters_isOpener.apart word hword ' ' (by simp))
    (hall.of_infix (List.suffix_cons _ _).isInfix)

theorem tagFunctions_functionText (as : QuotedAttributes functionNames) (path : Option Path) :
    (Source.ofText as.functionText path).tagFunctions
      = ((Source.ofText as.functionText path).tags "cffunction".toList none).filterMap
        (FunctionDecl.ofTag? (Source.ofText as.functionText path)) := by
  rw [Source.tagFunctions, Source.withoutComments_of_avoids as.avoids_functionText]

theorem isClosing_endOfFunction : Tag.IsClosing "cffunction".toList endOfFunction :=
  ⟨"cffunction".toList, [], rfl, Reader.forall₂_sameLetter _, by simp⟩

theorem isOpening_functionTag (hspares : ∀ e ∈ as.entries, e.2.Spares tagStops) :
    Tag.IsOpening "cffunction".toList as.functionTag := by
  refine ⟨"cffunction".toList, writtenAll (as.named "f".toList), rfl, Reader.forall₂_sameLetter _,
    ?_, ?_⟩
  · have hvalues : ∀ e ∈ as.named "f".toList, ∀ c ∈ e.2, c ∉ tagStops := by
      intro e he
      rcases List.mem_cons.mp he with rfl | he
      · decide
      · exact as.spares_texts hspares e he
    intro hmem
    exact @notMem_of_mem_writtenAll _ tagStops (by decide) as.isName_function hvalues '>' hmem
      (List.mem_singleton_self _)
  · show "cffunction".toList.getLast?.any isWord ≠ isWord ' '
    decide

/-- The pair of tags is the one that is found. -/
theorem tags_functionText (hspares : ∀ e ∈ as.entries, e.2.Spares tagStops) (path : Option Path) :
    let src := Source.ofText as.functionText path
    ∃ tag : Tag, src.tags "cffunction".toList none = [tag] ∧
      src.readerOf tag.attributes = Reader.ofText (writtenAll (as.named "f".toList)) 11 := by
  intro src
  have hbody : Tag.HasNoClosing "cffunction".toList [] (endOfFunction ++ []) := by
    intro front back tag hne hsplit
    exact absurd (List.append_eq_nil_iff.mp hsplit.symm).2 hne
  have hahead : (Reader.ofText as.functionText 0).ahead
      = as.functionTag ++ ([] ++ (endOfFunction ++ [])) := by
    rw [List.append_nil, List.nil_append]
    rfl
  obtain ⟨o, ho, hparts⟩ := Tag.occurrences_pair_here (isOpening_functionTag hspares)
    isClosing_endOfFunction hbody hahead
  refine ⟨⟨src.spanOf o.stretch, src.spanOf o.value.attributes, src.spanOf o.value.body⟩, ?_, ?_⟩
  · rw [Source.tags, Source.occurrencesIn_none]
    exact congrArg (List.map _) ho
  · have hsplit : as.functionText = '<' :: "cffunction".toList ++
        (writtenAll (as.named "f".toList) ++ '>' :: endOfFunction) := by
      simp only [functionText, functionTag, List.cons_append, List.append_assoc, List.nil_append]
    have hstop := hparts.attributes_stop
    apply @Source.readerOf_between src ('<' :: "cffunction".toList) _ ('>' :: endOfFunction)
      o.value.attributes hsplit hparts.attributes_start _ (Or.inl (by decide)) (Or.inr (by decide))
    rw [functionTag] at hstop
    simp only [List.length_cons, List.length_append, List.length_nil, Reader.ofText] at hstop ⊢
    omega

/-- **A function has the attributes that are written**, if no value ends the tag. -/
theorem isReadFromFunction (hspares : ∀ e ∈ as.entries, e.2.Spares tagStops) :
    as.IsReadFromFunction := by
  intro path
  obtain ⟨tag, htags, hreader⟩ := tags_functionText hspares path
  have hquotes : ∀ e ∈ as.named "f".toList, '"' ∉ e.2 :=
    List.forall_mem_cons.mpr ⟨by decide, as.noQuote_texts⟩
  have hread := @Attribute.readings_writtenAll (Reader.ofText (writtenAll (as.named "f".toList)) 11)
    [] _ as.isName_function hquotes (by simp) (List.append_nil _).symm
  rw [← hreader] at hread
  have hvalues := Source.values_attributes hread (as.known_named "f".toList (by decide))
    (fun name hname => (isName_of_mem (List.mem_append_right _
      (List.mem_append_right _ hname))).lower) (as.distinct_named "f".toList)
  obtain ⟨⟨name, hname, htext⟩, hother⟩ := find?_of_values hvalues
  have hfunction : FunctionDecl.ofTag? (Source.ofText as.functionText path) tag
      = some (as.function name.span tag.whole) := by
    unfold FunctionDecl.ofTag?
    simp only [hname, Option.bind_eq_bind, Option.bind_some]
    rw [htext, if_neg (by decide), Keyed.value?_eq, Keyed.value?_eq, hother "access" (by decide),
      hother "returntype" (by decide), function, ← hother "static" (by decide), Option.any_map]
  refine ⟨name.span, tag.whole, ?_⟩
  rw [tagFunctions_functionText, htags, List.filterMap_cons, hfunction]
  rfl

/-- The attributes of a tag stand in front of the first `>`. -/
theorem notMem_readerOf {src : Source} {o : Occurrence TagParts}
    (ho : o ∈ src.occurrencesIn none (Tag.pair "cffunction".toList)) :
    '>' ∉ (src.readerOf (src.spanOf o.value.attributes)).ahead := by
  rw [Source.occurrencesIn_none] at ho
  obtain ⟨front, opening, body, closing, rest, ⟨tag, attributes, rfl, htag, hattributes, -⟩, -, -,
    hahead, hstart, hparts, -⟩ := Tag.exists_of_mem_occurrences ho
  have htext : src.text = (front ++ '<' :: tag) ++
      (attributes ++ '>' :: (body ++ (closing ++ rest))) := by
    have hwhole : src.text = front ++ ('<' :: (tag ++ (attributes ++ ['>'])) ++
        (body ++ (closing ++ rest))) := hahead
    rw [hwhole]
    simp only [List.cons_append, List.append_assoc, List.nil_append]
  -- the name of the tag ends in a letter
  have hbefore : (front ++ '<' :: tag).getLast? ≠ some '\r' := by
    have hletters : '\r' ∉ '<' :: tag := by
      rw [List.mem_cons, not_or]
      exact ⟨by decide, Tag.notMem_of_forall₂ htag (by decide)⟩
    rw [List.getLast?_append_of_ne_nil _ (List.cons_ne_nil '<' tag)]
    exact fun hlast => hletters (List.mem_of_getLast? hlast)
  have hbracket : ('>' :: (body ++ (closing ++ rest))).head? ≠ some '\n' := by simp
  have hlength := htag.length_eq
  have hbegin : o.start = front.length := hstart.trans (Nat.zero_add _)
  have hreader : src.readerOf (src.spanOf o.value.attributes)
      = Reader.ofText attributes (front ++ '<' :: tag).length := by
    apply Source.readerOf_between htext _ _ (Or.inl hbefore) (Or.inr hbracket)
    · rw [hparts.attributes_start, hbegin, List.length_append, List.length_cons, hlength]
    · have hstop := hparts.attributes_stop
      simp only [List.length_append, List.length_cons, List.length_nil] at hstop ⊢
      omega
  rw [hreader]
  exact hattributes

/-- A type is the value of an attribute, or the one of a function that declares none. -/
theorem returnType_cases {src : Source} {tag : Tag} {f : FunctionDecl}
    (hfound : FunctionDecl.ofTag? src tag = some f) : f.returnType = "any".toList ∨
      ∃ e ∈ src.attributes (some tag.attributes) (some FunctionDecl.tagAttributes),
        e.2.value = f.returnType := by
  simp only [FunctionDecl.ofTag?, Option.bind_eq_bind, Option.bind_eq_some_iff] at hfound
  obtain ⟨_, -, heq⟩ := hfound
  split at heq
  · exact absurd heq (by simp)
  · obtain rfl := Option.some.inj heq
    simp only [Keyed.value?]
    cases hvalue : (src.attributes (some tag.attributes)
        (some FunctionDecl.tagAttributes)).find? "returntype".toList with
    | none => exact Or.inl rfl
    | some a =>
      rw [Option.bind_some]
      by_cases hempty : a.value.isEmpty = true
      · rw [if_pos hempty]
        exact Or.inl rfl
      · rw [if_neg hempty]
        exact Or.inr ⟨("returntype".toList, a), Keyed.mem_of_find? hvalue, rfl⟩

/-- **A value that ends the tag is lost.** -/
theorem spares_of_isReadFromFunction {value : QuotableText}
    (hname : "returntype".toList ∈ functionNames)
    (h : (single "returntype".toList hname value).IsReadFromFunction) : value.Spares tagStops := by
  let as := single "returntype".toList hname value
  intro c hc hstop
  obtain ⟨nameSpan, span, hfunctions⟩ := h none
  rw [tagFunctions_functionText] at hfunctions
  have hmem : as.function nameSpan span ∈ [as.function nameSpan span] := List.mem_singleton_self _
  rw [← hfunctions] at hmem
  obtain ⟨tag, htag, hfound⟩ := List.mem_filterMap.mp hmem
  obtain ⟨o, ho, rfl⟩ := List.mem_map.mp htag
  rw [List.mem_singleton.mp hstop] at hc
  have htype : (as.function nameSpan span).returnType = value.text := by
    have hempty : value.text.isEmpty = false :=
      List.isEmpty_eq_false_iff.mpr (List.ne_nil_of_mem hc)
    show ((some value.text).filter (!·.isEmpty)).getD "any".toList = value.text
    rw [Option.filter_some, hempty]
    rfl
  rcases returnType_cases hfound with hany | ⟨e, he, hvalue⟩
  · rw [← htype, hany] at hc
    exact absurd hc (by decide)
  · have hsubset := Source.subset_of_mem_attributes he
    rw [hvalue, htype] at hsubset
    exact notMem_readerOf ho (hsubset hc)

end QuotedAttributes

/-! ## Opaque values -/

open QuotedAttributes in
/-- **Which values are opaque.** A value may stand in every list of attributes, among values that
are harmless themselves, exactly if no character that ends the declaration is in it: in the head of
a component, in a property of a component (where no value begins a `<cfproperty>` tag), and in a
function in tag markup. -/
theorem quotedValues_opaque_iff (value : QuotableText) :
    (IsOpaque IsReadFromComponent (·.Spares ['>', '{']) value ↔ value.Spares ['>', '{']) ∧
      (Avoids IsPropertyTag value.text →
        (IsOpaque IsReadFromProperty
          (fun v => v.Spares [';', '{', '}'] ∧ Avoids IsPropertyTag v.text) value ↔
            value.Spares [';', '{', '}'])) ∧
      (IsOpaque IsReadFromFunction (·.Spares ['>']) value ↔ value.Spares ['>']) := by
  refine ⟨?_, ?_, ?_⟩
  · exact @isOpaque_iff ComponentAttributes.names IsReadFromComponent (·.Spares ['>', '{']) value
      (fun _ => isReadFromComponent) "hint".toList (by decide)
      (spares_of_isReadFromComponent (by decide))
  · intro htag
    have hiff := @isOpaque_iff propertyNames IsReadFromProperty
      (fun v => v.Spares [';', '{', '}'] ∧ Avoids IsPropertyTag v.text) value
      (fun _ hvalues => isReadFromProperty (fun e he => (hvalues e he).1)
        fun e he => (hvalues e he).2)
      "hint".toList (by decide) fun h => ⟨spares_of_isReadFromProperty (by decide) htag h, htag⟩
    rw [hiff, and_iff_left htag]
  · exact @isOpaque_iff functionNames IsReadFromFunction (·.Spares ['>']) value
      (fun _ => isReadFromFunction) "returntype".toList (by decide)
      (spares_of_isReadFromFunction (by decide))

/-- The text `a>b`. -/
def comparison : QuotableText where
  text := "a>b".toList
  noQuote := by decide
  noComment := avoids_isOpener (by decide)

/-- A `>` is opaque to a property in script only. -/
theorem comparison_opaque_property :
    ¬ QuotedAttributes.IsOpaque QuotedAttributes.IsReadFromComponent (·.Spares ['>', '{'])
        comparison ∧
      QuotedAttributes.IsOpaque QuotedAttributes.IsReadFromProperty
        (fun v => v.Spares [';', '{', '}'] ∧ Avoids IsPropertyTag v.text) comparison ∧
      ¬ QuotedAttributes.IsOpaque QuotedAttributes.IsReadFromFunction (·.Spares ['>'])
        comparison := by
  obtain ⟨hcomponent, hproperty, hfunction⟩ := quotedValues_opaque_iff comparison
  refine ⟨?_, ?_, ?_⟩
  · rw [hcomponent]
    exact fun hspares => hspares '>' (by decide) (by decide)
  · rw [hproperty (avoids_isPropertyTag (by decide))]
    unfold QuotableText.Spares comparison
    decide
  · rw [hfunction]
    exact fun hspares => hspares '>' (by decide) (by decide)

end Cfml
