/-
Attributes of a property, with values in double quotes.

A property in script ends at the first semicolon, and there is none if a brace comes first, whether
these stand in quotes or not. Without one of them in a value the attributes are read as they are
written (`isReadFromProperty`); with one the value is lost (`spares_of_isReadFromProperty`).
Properties are looked for in tag markup too, so here no value may begin a `<cfproperty>` tag.
-/
import Cfml.Proofs.Declaration.Header
import Cfml.Proofs.Declaration.QuotedList
import Cfml.Proofs.Text.Blank

set_option autoImplicit false

namespace Cfml

open Attribute (written writtenAll)

/-- A character for which `p` holds is not the one for which it fails. -/
theorem ne_some_of_any {p : Char → Bool} {o : Option Char} {c : Char} (h : o.any p = false)
    (hc : p c = true) : o ≠ some c := by
  rintro rfl
  rw [Option.any_some, hc] at h
  exact absurd h (by decide)

namespace PropertyDecl

variable {r later : Reader}

/-- The characters that end a declaration in script. -/
def stops : List Char := [';', '{', '}']

/-- What does not end a declaration in script. -/
def isPart (c : Char) : Bool := c != ';' && c != '{' && c != '}'

theorem isPart_iff {c : Char} : isPart c = true ↔ c ∉ stops := by
  simp [isPart, stops, and_assoc]

/-- The pattern of a declaration in script. -/
def script : Pattern Capture := ⟨script?, script?_reaches⟩

/-- The pattern of a declaration in tag markup. -/
def tag : Pattern Capture := ⟨tag?, tag?_reaches⟩

theorem script?_eq_some {inside rest : List Char}
    (hbefore : r.isAfter (fun c => isIdentifierPart c || c == '.') = false)
    (hahead : r.ahead = "property".toList ++ ([' '] ++ (inside ++ ';' :: rest)))
    (hstops : ∀ c ∈ inside, c ∉ stops) (hne : inside ≠ [])
    (hfirst : inside.head?.any isBlank = false) (hlast : inside.getLast?.any isBlank = false) :
    script? r = some (⟨r.offset + 9, inside⟩,
      r.passing ("property".toList ++ [' '] ++ inside ++ [';']) rest) := by
  have hrest : (inside ++ ';' :: rest).head?.any isBlank = false := by
    obtain ⟨c, inside, rfl⟩ := List.exists_cons_of_ne_nil hne
    exact hfirst
  have hword := FunctionDecl.modifier?_of_append (Reader.forall₂_sameLetter _) hahead (by simp)
    (by decide) hrest
  have hinside := @Reader.takeWhile_of_append isPart
    (r.passing ("property".toList ++ [' ']) (inside ++ ';' :: rest)) inside (';' :: rest) rfl
    (fun c hc => isPart_iff.mpr (hstops c hc)) rfl
  have hclose := @Reader.one?_of_cons (· == ';')
    (r.passing ("property".toList ++ [' '] ++ inside) (';' :: rest)) ';' rest rfl (by decide)
  rw [Reader.passing_passing] at hinside hclose
  unfold isPart at hinside
  simp only [script?, hbefore, hword, Option.bind_eq_bind, Option.bind_some, hinside, hclose,
    trimRight_of_getLast? hlast]
  rfl

/-- There is no declaration within a longer name, and none that begins with another letter. -/
theorem script?_eq_none (h : r.isAfter (fun c => isIdentifierPart c || c == '.') = true ∨
    r.ahead.head?.any (sameLetter 'p') = false) : script? r = none := by
  by_cases hafter : r.isAfter (fun c => isIdentifierPart c || c == '.') = true
  · rw [script?, if_pos hafter]
  · have hhead := h.resolve_left hafter
    have hword : FunctionDecl.modifier? "property".toList r = none := by
      have hsplit : "property".toList = 'p' :: ['r', 'o', 'p', 'e', 'r', 't', 'y'] := rfl
      rw [hsplit]
      exact FunctionDecl.modifier?_eq_none hhead
    rw [script?, if_neg hafter, hword]
    rfl

/-- No declaration is found in a text where each character follows one of a name, or begins no
declaration itself. -/
theorem misses_script {text : List Char} (h : ∀ n < text.length,
    (text.take n).getLast?.any (fun c => isIdentifierPart c || c == '.') = true ∨
      (text.drop n).head?.any (sameLetter 'p') = false) (r : Reader) (rest : List Char) :
    script.Misses r text rest := by
  rintro front back hne rfl
  apply script?_eq_none
  obtain ⟨c, back, rfl⟩ := List.exists_cons_of_ne_nil hne
  have hhere := h front.length (by simp)
  rw [List.take_left, List.drop_left] at hhere
  rcases hhere with hafter | hhead
  · left
    cases hlast : front.getLast? with
    | none =>
      rw [hlast] at hafter
      exact absurd hafter (by simp)
    | some d =>
      rw [hlast] at hafter
      rw [Reader.isAfter, Reader.passing, hlast]
      exact hafter
  · right
    exact hhead

/-- What stands between the word and the semicolon has none of the characters that end a
declaration, and no white space around it. -/
theorem exists_of_script? {body : Capture} (h : script? r = some (body, later))
    (hne : body.text ≠ []) : ∃ front back, r.ahead = front ++ (body.text ++ back) ∧
      body.start = r.offset + front.length ∧ (∀ c ∈ body.text, c ∉ stops) ∧
      body.text.head?.any isBlank = false ∧ body.text.getLast?.any isBlank = false := by
  unfold script? at h
  split at h
  · exact absurd h (by simp)
  · simp only [Option.bind_eq_bind, Option.bind_eq_some_iff, Prod.exists] at h
    obtain ⟨_, inside, hword, _, -, heq⟩ := h
    obtain ⟨rfl, -⟩ := by simpa using heq
    obtain ⟨front, hahead, hinside⟩ := (FunctionDecl.modifier?_reaches hword).exists_passing
    let run := inside.ahead.takeWhile isPart
    obtain ⟨⟨blanks, hblanks⟩, hlast⟩ := exists_trimRight run
    have hrun : inside.ahead = trimRight run ++ (blanks ++ inside.ahead.dropWhile isPart) := by
      rw [← List.append_assoc, ← hblanks, List.takeWhile_append_dropWhile]
    have hbody : (⟨inside.offset, trimRight run⟩ : Capture).text ≠ [] := hne
    refine ⟨front, blanks ++ inside.ahead.dropWhile isPart, ?_, ?_, ?_, ?_, hlast⟩
    · rw [hahead]
      exact congrArg (front ++ ·) hrun
    · rw [hinside]
      rfl
    · intro c hc
      have hmem : c ∈ run := by
        rw [hblanks]
        exact List.mem_append_left blanks hc
      exact isPart_iff.mp (List.mem_takeWhile_imp hmem)
    -- white space behind the word belongs to the word
    · have hfirst := FunctionDecl.head?_of_modifier? hword
      obtain ⟨c, rest, hrest⟩ := List.exists_cons_of_ne_nil hbody
      rw [hrun, show trimRight run = c :: rest from hrest] at hfirst
      show (trimRight run).head?.any isBlank = false
      rw [show trimRight run = c :: rest from hrest]
      exact hfirst

theorem tag?_eq_none (h : Avoids IsPropertyTag r.ahead) : tag? r = none := by
  have hopening : Tag.opening? "cfproperty".toList r = none := by
    rw [Option.eq_none_iff_forall_ne_some]
    intro later hlater
    obtain ⟨written, rest, hwritten, hahead, -⟩ := Tag.opening?_eq_some_iff.mp hlater
    apply h ('<' :: written) ⟨written, hwritten, rfl⟩
    rw [hahead]
    exact (List.prefix_append ('<' :: written) rest).isInfix
  rw [tag?, hopening]
  rfl

/-- Where no tag begins no property in tag markup is found. -/
theorem occurrences_tag {text : List Char} (h : Avoids IsPropertyTag text) (offset : Nat) :
    occurrences tag (Reader.ofText text offset) = [] := by
  apply occurrences_eq_nil
  intro front back _ htext
  obtain rfl : text = front ++ back := htext
  apply tag?_eq_none
  rw [Reader.ahead_passing, List.append_nil]
  exact h.of_infix (List.suffix_append front back).isInfix

/-- What ends a declaration does not stand between the word and the semicolon. -/
theorem notMem_readerOf {src : Source} {o : Occurrence Capture}
    (ho : o ∈ occurrences script (Reader.ofText src.text 0)) (hne : o.value.text ≠ []) :
    ∀ c ∈ (src.readerOf (src.spanOf o.value.stretch)).ahead, c ∉ stops := by
  obtain ⟨passed, rest, later, hahead, -, hstart, hread, -⟩ := isRead_of_mem_occurrences ho
  obtain ⟨front, back, hrest, hbody, hstops, hfirst, hlast⟩ := exists_of_script? hread hne
  have hbetween : src.text = (passed ++ front) ++ (o.value.text ++ back) := by
    rw [List.append_assoc, ← show rest = front ++ (o.value.text ++ back) from hrest]
    exact hahead
  have hbegin : o.value.start = (passed ++ front).length := by
    rw [hbody, List.length_append]
    exact congrArg (· + front.length) (Nat.zero_add passed.length)
  have hreader : src.readerOf (src.spanOf o.value.stretch)
      = Reader.ofText o.value.text (passed ++ front).length := by
    apply Source.readerOf_between hbetween hbegin
    · show o.value.start + o.value.text.length = _
      rw [hbegin]
    -- there is no white space at either end of it
    · obtain ⟨d, tail, htail⟩ := List.exists_cons_of_ne_nil hne
      rw [htail] at hfirst ⊢
      exact Or.inr (ne_some_of_any hfirst (by decide))
    · rw [List.getLast?_append_of_ne_nil _ hne]
      exact Or.inl (ne_some_of_any hlast (by decide))
  rw [hreader]
  exact hstops

/-- A hint that is not empty is the value of an attribute. -/
theorem exists_of_hint {src : Source} {found : Occurrence Capture} {p : PropertyDecl}
    (h : ofFound? src found = some p) (hne : p.hint ≠ []) :
    found.value.text ≠ [] ∧ ∃ e ∈ src.attributes (some (src.spanOf found.value.stretch))
      (some attributeNames), e.2.value = p.hint := by
  simp only [ofFound?] at h
  split at h
  · next hsign =>
    refine ⟨?_, ?_⟩
    · intro hnil
      rw [hnil] at hsign
      exact absurd hsign (by simp)
    · simp only [ofAttributes?, Option.bind_eq_bind, Option.bind_eq_some_iff] at h
      obtain ⟨_, -, heq⟩ := h
      split at heq
      · exact absurd heq (by simp)
      · obtain rfl := Option.some.inj heq
        cases hfound : (src.attributes (some (src.spanOf found.value.stretch))
            (some attributeNames)).find? "hint".toList with
        | none =>
          simp only [hfound] at hne
          exact absurd rfl hne
        | some a =>
          exact ⟨("hint".toList, a), Keyed.mem_of_find? hfound, rfl⟩
  -- a name with a type before it has no hint
  · obtain ⟨_, -, rfl⟩ := Option.map_eq_some_iff.mp h
    exact absurd rfl hne

end PropertyDecl

namespace QuotedAttributes

/-- The attributes that a property can have besides its name. -/
abbrev propertyNames : List (List Char) := others PropertyDecl.attributeNames

/-- What stands in front of the property. -/
def propertyFront : List Char := "component ".toList ++ ['{', ' ']

/-- What stands between the word and the semicolon. -/
def propertyInside (as : QuotedAttributes propertyNames) : List Char :=
  written "name".toList "x".toList ++ writtenAll as.texts

/-- A property with the attributes, in a component. -/
def propertyText (as : QuotedAttributes propertyNames) : List Char :=
  propertyFront ++ ("property".toList ++ ([' '] ++ (as.propertyInside ++ [';', ' ', '}'])))

/-- The property that has the attributes. -/
def property (as : QuotedAttributes propertyNames) (nameSpan span : Span) : PropertyDecl where
  name := "x".toList
  dataType := (as.value? "type").getD "any".toList
  default := as.value? "default"
  hint := (as.value? "hint").getD []
  hasGetter := ((as.value? "getter").map isTruthy).getD true
  hasSetter := ((as.value? "setter").map isTruthy).getD true
  nameSpan := nameSpan
  span := span

/-- The property is found with the attributes as they were written, and it is the only one. -/
def IsReadFromProperty (as : QuotedAttributes propertyNames) : Prop :=
  ∀ path : Option Path, ∃ nameSpan span, (Source.ofText as.propertyText path).properties .script
    = [("x".toList, as.property nameSpan span)]

variable {as : QuotedAttributes propertyNames} {words : List Char → Prop} {path : Option Path}

theorem writtenAll_named (as : QuotedAttributes propertyNames) :
    writtenAll (as.named "x".toList) = ' ' :: as.propertyInside := rfl

theorem isName_named (as : QuotedAttributes propertyNames) :
    ∀ e ∈ as.named "x".toList, Attribute.IsName e.1 := fun e he =>
  isName_of_mem (List.mem_append_right _ (List.mem_append_left _
    (as.known_named "x".toList (by decide) e he)))

/-- What the values avoid is nowhere in the text. -/
theorem avoids_propertyText (hwords : AreDelimiters words)
    (hfront : Avoids words (propertyFront ++ "property".toList)) (hname : Avoids words "x".toList)
    (hvalues : ∀ e ∈ as.texts, Avoids words e.2) (hback : Avoids words [';', ' ', '}']) :
    Avoids words as.propertyText := by
  have hall := hwords.avoids_writtenAll as.isName_named
    (List.forall_mem_cons.mpr ⟨hname, hvalues⟩) hback
  rw [writtenAll_named, List.cons_append] at hall
  have htail : Avoids words (as.propertyInside ++ [';', ' ', '}']) :=
    hall.of_infix (List.suffix_cons _ _).isInfix
  have hwhole := hfront.append_cons (fun word hword => hwords.apart word hword ' ' (by simp)) htail
  rw [List.append_assoc] at hwhole
  exact hwhole

theorem withoutComments_propertyText (as : QuotedAttributes propertyNames) (path : Option Path) :
    (Source.ofText as.propertyText path).withoutComments .script false
      = Source.ofText as.propertyText path := by
  apply Source.withoutComments_of_avoids
  apply avoids_propertyText areDelimiters_isOpener _ _ as.noComment_texts _
  · exact avoids_isOpener (by decide)
  · exact avoids_isOpener (by decide)
  · exact avoids_isOpener (by decide)

/-- What stands behind the word ends with a quote and has no character that ends the declaration. -/
theorem propertyInside_spec (hspares : ∀ e ∈ as.entries, e.2.Spares PropertyDecl.stops) :
    (∀ c ∈ as.propertyInside, c ∉ PropertyDecl.stops) ∧ as.propertyInside ≠ [] ∧
      as.propertyInside.head?.any isBlank = false ∧
      as.propertyInside.getLast?.any isBlank = false := by
  refine ⟨?_, ?_, ?_, ?_⟩
  · have hvalues : ∀ e ∈ as.named "x".toList, ∀ c ∈ e.2, c ∉ PropertyDecl.stops := by
      intro e he
      rcases List.mem_cons.mp he with rfl | he
      · decide
      · exact as.spares_texts hspares e he
    have hlist := @notMem_of_mem_writtenAll _ PropertyDecl.stops (by decide) as.isName_named
      hvalues
    rw [writtenAll_named] at hlist
    exact fun c hc => hlist c (List.mem_cons_of_mem ' ' hc)
  · exact List.cons_ne_nil _ _
  · rfl
  · obtain ⟨init, hinit⟩ := Attribute.exists_concat_quote as.texts "name".toList "x".toList
    rw [propertyInside, hinit, List.getLast?_concat]
    rfl

/-- The property is the one declaration that is found. -/
theorem occurrences_propertyText (hspares : ∀ e ∈ as.entries, e.2.Spares PropertyDecl.stops) :
    ∃ o : Occurrence Capture, o.value = ⟨21, as.propertyInside⟩ ∧
      occurrences PropertyDecl.script (Reader.ofText as.propertyText 0) = [o] := by
  obtain ⟨hstops, hne, hfirst, hlast⟩ := propertyInside_spec hspares
  let behind := "property".toList ++ ([' '] ++ (as.propertyInside ++ [';', ' ', '}']))
  let r := (Reader.ofText as.propertyText 0).passing propertyFront behind
  let declaration := "property".toList ++ [' '] ++ as.propertyInside ++ [';']
  have hmisses : PropertyDecl.script.Misses (Reader.ofText as.propertyText 0) propertyFront
      behind := PropertyDecl.misses_script (by decide) _ _
  have hafter : r.isAfter (fun c => isIdentifierPart c || c == '.') = false := by
    show (isIdentifierPart ' ' || ' ' == '.') = false
    decide
  have hread : PropertyDecl.script.read r
      = some (⟨r.offset + 9, as.propertyInside⟩, r.passing declaration [' ', '}']) :=
    PropertyDecl.script?_eq_some hafter rfl hstops hne hfirst hlast
  have hnone : occurrences PropertyDecl.script (r.passing declaration [' ', '}']) = [] :=
    occurrences_eq_nil (@PropertyDecl.misses_script [' ', '}'] (by decide) _ _)
  have hahead : r.ahead = declaration ++ [' ', '}'] := by
    simp only [r, behind, declaration, Reader.ahead_passing, List.append_assoc]
    rfl
  obtain ⟨c, rest, hsplit⟩ : ∃ c rest, declaration = c :: rest := ⟨'p', _, rfl⟩
  rw [hsplit] at hread hnone hahead
  rw [occurrences_append rfl hmisses, occurrences_eq_cons hahead hread, hnone]
  exact ⟨_, rfl, rfl⟩

/-- No property begins in tag markup, so all of them are found by the pattern for script. -/
theorem properties_propertyText (htags : ∀ e ∈ as.texts, Avoids IsPropertyTag e.2)
    (path : Option Path) : (Source.ofText as.propertyText path).properties .script =
      Keyed.insertAll [] (((occurrences PropertyDecl.script
        (Reader.ofText as.propertyText 0)).filterMap
          (PropertyDecl.ofFound? (Source.ofText as.propertyText path))).map
            fun p => (lower p.name, p)) := by
  have havoids : Avoids IsPropertyTag as.propertyText := by
    apply avoids_propertyText areDelimiters_isPropertyTag _ _ htags _
    · exact avoids_isPropertyTag (by decide)
    · exact avoids_isPropertyTag (by decide)
    · exact avoids_isPropertyTag (by decide)
  have hfound : PropertyDecl.patterns.flatMap
      ((Source.ofText as.propertyText path).occurrencesIn none)
        = occurrences PropertyDecl.script (Reader.ofText as.propertyText 0) := by
    have hpatterns : PropertyDecl.patterns = [PropertyDecl.script, PropertyDecl.tag] := rfl
    rw [hpatterns, List.flatMap_cons, List.flatMap_singleton, Source.occurrencesIn_none,
      Source.occurrencesIn_none]
    exact (congrArg _ (PropertyDecl.occurrences_tag havoids 0)).trans (List.append_nil _)
  rw [Source.properties, withoutComments_propertyText]
  simp only [hfound]

/-- The attributes of the property are those that are written. -/
theorem values_propertyText (as : QuotedAttributes propertyNames) (path : Option Path) :
    let src := Source.ofText as.propertyText path
    let body : Capture := ⟨21, as.propertyInside⟩
    (src.attributes (some (src.spanOf body.stretch)) (some PropertyDecl.attributeNames)).map
      (fun e => (e.1, e.2.value)) = as.named "x".toList := by
  intro src body
  have hreader : src.readerOf (src.spanOf body.stretch)
      = Reader.ofText as.propertyInside 21 := by
    apply @Source.readerOf_between src (propertyFront ++ "property".toList ++ [' '])
      as.propertyInside [';', ' ', '}'] body.stretch _ rfl rfl (Or.inl (by decide))
      (Or.inr (by decide))
    show as.propertyText = _
    rw [propertyText]
    simp only [List.append_assoc]
  have hnames := List.forall_mem_cons.mp as.isName_named
  -- the name stands first, without a space in front
  have hfirst := @Attribute.readings_cons (Reader.ofText as.propertyInside 21) "name".toList
    "x".toList (writtenAll as.texts) hnames.1 (by decide) rfl rfl
  have hothers := @Attribute.readings_writtenAll ((Reader.ofText as.propertyInside 21).passing
    (written "name".toList "x".toList) (writtenAll as.texts)) [] as.texts hnames.2 as.noQuote_texts
    (by simp) (List.append_nil _).symm
  rw [hothers, ← hreader] at hfirst
  exact Source.values_attributes hfirst (as.known_named "x".toList (by decide))
    (fun name hname =>
      (isName_of_mem (List.mem_append_right _ (List.mem_append_left _ hname))).lower)
    (as.distinct_named "x".toList)

/-- **A property has the attributes that are written**, if no value ends the declaration or begins
a tag. -/
theorem isReadFromProperty (hspares : ∀ e ∈ as.entries, e.2.Spares PropertyDecl.stops)
    (htags : ∀ e ∈ as.entries, Avoids IsPropertyTag e.2.text) : as.IsReadFromProperty := by
  intro path
  have htags : ∀ e ∈ as.texts, Avoids IsPropertyTag e.2 := by
    intro e he
    obtain ⟨entry, hentry, rfl⟩ := List.mem_map.mp he
    exact htags entry hentry
  let src := Source.ofText as.propertyText path
  let body : Capture := ⟨21, as.propertyInside⟩
  let attributes := src.attributes (some (src.spanOf body.stretch))
    (some PropertyDecl.attributeNames)
  obtain ⟨o, hbody, hoccurrences⟩ := occurrences_propertyText hspares
  obtain ⟨⟨name, hname, htext⟩, hother⟩ := find?_of_values (values_propertyText as path)
  have hsign : as.propertyInside.contains '=' = true := rfl
  have hproperty : PropertyDecl.ofAttributes? attributes (src.spanOf o.stretch)
      = some (as.property name.span (src.spanOf o.stretch)) := by
    unfold PropertyDecl.ofAttributes?
    rw [hname]
    simp only [Option.bind_eq_bind, Option.bind_some]
    rw [htext, if_neg (by decide), hother "type" (by decide), hother "default" (by decide),
      hother "hint" (by decide), hother "getter" (by decide), hother "setter" (by decide)]
    rfl
  have hfound : PropertyDecl.ofFound? src o
      = some (as.property name.span (src.spanOf o.stretch)) := by
    unfold PropertyDecl.ofFound?
    rw [hbody]
    simp only [hsign, if_true]
    exact hproperty
  refine ⟨name.span, src.spanOf o.stretch, ?_⟩
  rw [properties_propertyText htags, hoccurrences]
  simp only [src] at hfound
  rw [List.filterMap_cons, hfound]
  rfl

/-- **A value that ends the declaration is lost.** -/
theorem spares_of_isReadFromProperty {value : QuotableText} (hname : "hint".toList ∈ propertyNames)
    (htag : Avoids IsPropertyTag value.text)
    (h : (single "hint".toList hname value).IsReadFromProperty) :
    value.Spares PropertyDecl.stops := by
  let as := single "hint".toList hname value
  intro c hc hstop
  obtain ⟨nameSpan, span, hproperties⟩ := h none
  have htags : ∀ e ∈ as.texts, Avoids IsPropertyTag e.2 := by
    intro e he
    obtain rfl := List.mem_singleton.mp he
    exact htag
  rw [properties_propertyText htags] at hproperties
  have hmem : ("x".toList, as.property nameSpan span) ∈ [("x".toList, as.property nameSpan span)] :=
    List.mem_singleton_self _
  rw [← hproperties] at hmem
  obtain ⟨p, hp, heq⟩ := List.mem_map.mp (Keyed.mem_of_mem_insertAll hmem)
  obtain ⟨o, ho, hfound⟩ := List.mem_filterMap.mp hp
  have hhint : p.hint = value.text := by
    rw [(Prod.mk.inj heq).2]
    rfl
  obtain ⟨hne, e, he, htext⟩ := PropertyDecl.exists_of_hint hfound
    (hhint ▸ List.ne_nil_of_mem hc)
  have hsubset := Source.subset_of_mem_attributes he
  rw [htext, hhint] at hsubset
  exact PropertyDecl.notMem_readerOf ho hne c (hsubset hc) hstop

end QuotedAttributes

end Cfml
