/-
Attributes of a component, with values in double quotes.

The head of a component ends at the first `>` or `{`, whether it stands in quotes or not. Without
one of them in a value the attributes are read as they are written (`isReadFromComponent`); with one
the value is lost (`spares_of_isReadFromComponent`).
-/
import Cfml.Proofs.Component.HeadTokens
import Cfml.Proofs.Component.Lookups
import Cfml.Proofs.Declaration.QuotedList

set_option autoImplicit false

namespace Cfml

open Attribute (written writtenAll)

namespace QuotedAttributes

/-- A component that is declared with the attributes. -/
def componentText (as : QuotedAttributes ComponentAttributes.names) : List Char :=
  "component".toList ++ (writtenAll as.texts ++ [' ', '{', '}'])

/-- The component is found with the attributes as they were written. Looking up what it extends can
fail only where a file is given that it belongs to. -/
def IsReadFromComponent (as : QuotedAttributes ComponentAttributes.names) : Prop :=
  ∀ (isFile : Path → Bool) (resolver : Resolver) (path : Option Path) (session : Session),
    let src := Source.ofText as.componentText path
    let result := ((src.component? isFile resolver).run.run session).1
    (path = none → ∀ e, result ≠ .error e) ∧ ∀ found, result = .ok found →
      ∃ component, found = some component ∧ component.attributes
        = ComponentAttributes.merge [] as.texts ComponentAttributes.booleanNames

end QuotedAttributes

/-- A component without a documentation block and without a tag in front. -/
theorem find?_component {rest : List Char} (hrest : rest.head?.any isIdentifierPart = false) :
    ∃ head, ComponentHead.find? ("component".toList ++ rest) = some head ∧ head.doc = none ∧
      head.attributesStart = 9 ∧
      head.stop = 9 + (rest.takeWhile fun c => c != '>' && c != '{').length := by
  have hsplit : "component".toList = 'c' :: ['o', 'm', 'p', 'o', 'n', 'e', 'n', 't'] := rfl
  rw [hsplit]
  let word := 'c' :: ['o', 'm', 'p', 'o', 'n', 'e', 'n', 't']
  let r := Reader.ofText (word ++ rest) 0
  have hword : r.caseless? word = some (r.passing word rest) := Reader.caseless?_of_append rfl
  have hkeyword : HeadToken.keyword? r = some (r.passing word rest) := by
    rw [HeadToken.keyword?, hsplit, hword]
    simp [hrest]
  have hdoc : HeadToken.doc? r = none := rfl
  have hblank : r.some? isBlank = none := rfl
  have htag : HeadToken.tagOpen? r = none := rfl
  have hnext : HeadToken.next? r = some (.keyword, r.passing word rest) := by
    rw [HeadToken.next?, hdoc, hblank, htag, hkeyword]
    rfl
  have htokens : HeadToken.tokens (word ++ rest)
      = ⟨.keyword, 0, 9, Nat.zero_le 9⟩ :: HeadToken.tokensFrom 9 rest :=
    HeadToken.tokensFrom_eq_cons hnext
  have hfirst : ComponentHead.first? (HeadToken.tokens (word ++ rest))
      = some ⟨none, none, ⟨.keyword, 0, 9, Nat.zero_le 9⟩⟩ := by
    rw [htokens]
    cases HeadToken.tokensFrom 9 rest <;> rfl
  refine ⟨ComponentHead.ofParts (word ++ rest) ⟨none, none, ⟨.keyword, 0, 9, Nat.zero_le 9⟩⟩, ?_,
    rfl, rfl, rfl⟩
  rw [ComponentHead.find?, hfirst, Option.map_some]

/-- With a head there is a component with the attributes of the head, unless a lookup fails. -/
theorem component?_of_head (isFile : Path → Bool) (resolver : Resolver) {src : Source}
    (session : Session) {head : ComponentHead} (hhead : ComponentHead.find? src.text = some head) :
    let result := ((src.component? isFile resolver).run.run session).1
    (src.path = none → ∀ e, result ≠ .error e) ∧ ∀ found, result = .ok found →
      ∃ component, found = some component ∧ component.attributes = head.attributes src := by
  intro result
  have hcases := Source.component?_cases isFile resolver src session
  rw [hhead] at hcases
  simp only at hcases
  cases hlookups : src.componentDotPaths.mapM
      (Source.answered isFile resolver session.cache src) with
  | error e =>
    rw [hlookups] at hcases
    rw [show result = .error e from hcases]
    refine ⟨?_, by simp⟩
    -- only with a file is anything looked for
    intro hpath
    obtain ⟨_, _, path, hsome, -⟩ := Source.exists_mapM_answered_eq_error_iff.mp ⟨e, hlookups⟩
    rw [hpath] at hsome
    exact absurd hsome (by simp)
  | ok references =>
    rw [hlookups] at hcases
    obtain ⟨extending, implementing, -, hresult⟩ := hcases
    rw [show result = _ from hresult]
    refine ⟨by simp, ?_⟩
    intro found hfound
    obtain rfl := Except.ok.inj hfound
    exact ⟨_, rfl, rfl⟩

namespace QuotedAttributes

variable {as : QuotedAttributes ComponentAttributes.names} {path : Option Path}

/-- The characters that end the head of a component. -/
def headStops : List Char := ['>', '{']

/-- What does not end the head of a component. -/
def isHeadPart (c : Char) : Bool := c != '>' && c != '{'

/-- What stands behind the word that declares the component, up to the end of the head. -/
def headText (as : QuotedAttributes ComponentAttributes.names) : List Char :=
  (writtenAll as.texts ++ [' ', '{', '}']).takeWhile isHeadPart

/-- The attributes of the component are read from what stands between the word and the first
character that ends the head. -/
theorem exists_head (as : QuotedAttributes ComponentAttributes.names) (path : Option Path) :
    let src := Source.ofText as.componentText path
    ∃ head within, ComponentHead.find? src.text = some head ∧
      head.attributes src = ComponentAttributes.merge []
        ((src.attributes (some within) (some ComponentAttributes.names)).map
          fun e => (e.1, e.2.value)) ComponentAttributes.booleanNames ∧
      src.readerOf within = Reader.ofText as.headText 9 := by
  intro src
  let rest := writtenAll as.texts ++ [' ', '{', '}']
  have hsplit : rest = as.headText ++ rest.dropWhile isHeadPart :=
    List.takeWhile_append_dropWhile.symm
  -- a space stands behind the word, whether there are attributes or not
  have hspace : rest.head? = some ' ' := by
    cases htexts : as.texts with
    | nil => simp [rest, htexts, writtenAll]
    | cons e entries => simp [rest, htexts, writtenAll]
  have hpos : 0 < as.headText.length := by
    obtain ⟨more, hmore⟩ := List.head?_eq_some_iff.mp hspace
    have hhead : as.headText = rest.takeWhile isHeadPart := rfl
    rw [hhead, hmore, List.takeWhile_cons_of_pos (by decide)]
    exact Nat.succ_pos _
  obtain ⟨head, hhead, hdoc, hstart, hstop⟩ := @find?_component rest (by rw [hspace]; decide)
  have htext : src.text = "component".toList ++ (as.headText ++ rest.dropWhile isHeadPart) := by
    rw [← hsplit]
    rfl
  have hbehind : (rest.dropWhile isHeadPart).head? ≠ some '\n' := by
    intro hbreak
    have hnot := List.head?_dropWhile_not isHeadPart rest
    rw [hbreak] at hnot
    exact absurd hnot (by decide)
  have hlt : head.attributesStart < head.stop := by
    rw [hstart, hstop]
    exact Nat.lt_add_of_pos_right hpos
  refine ⟨head, src.spanOf ⟨head.attributesStart, head.stop, Nat.le_of_lt hlt⟩, hhead, ?_, ?_⟩
  · rw [ComponentHead.attributes, ComponentHead.docAttributes, hdoc,
      ComponentHead.declaredAttributes, dif_pos hlt]
    simp only [List.map_nil, List.map_map]
    rfl
  · exact Source.readerOf_between htext hstart hstop (Or.inl (by decide)) (Or.inr hbehind)

theorem isName_texts (as : QuotedAttributes ComponentAttributes.names) :
    ∀ e ∈ as.texts, Attribute.IsName e.1 := by
  intro e he
  exact isName_of_mem (List.mem_append_left _ (as.known_texts e he))

/-- Without a character that ends the head the whole list stands in it. -/
theorem headText_eq (hspares : ∀ e ∈ as.entries, e.2.Spares headStops) :
    as.headText = writtenAll as.texts ++ [' '] := by
  have hlist := @notMem_of_mem_writtenAll _ headStops (by decide) as.isName_texts
    (as.spares_texts hspares)
  have hpart : ∀ c ∈ writtenAll as.texts ++ [' '], isHeadPart c = true := by
    intro c hc
    rcases List.mem_append.mp hc with hc | hc
    · simpa [headStops, isHeadPart] using hlist c hc
    · obtain rfl := List.mem_singleton.mp hc
      rfl
  have hstop : (['{', '}']).takeWhile isHeadPart = [] := List.takeWhile_cons_of_neg (by decide)
  rw [headText, List.append_cons, List.takeWhile_append_of_pos hpart, hstop, List.append_nil]

/-- **A component has the attributes that are written**, if no value ends the head. -/
theorem isReadFromComponent (hspares : ∀ e ∈ as.entries, e.2.Spares headStops) :
    as.IsReadFromComponent := by
  intro isFile resolver path session src result
  obtain ⟨head, within, hhead, hattributes, hreader⟩ := as.exists_head path
  have hread := @Attribute.readings_writtenAll (Reader.ofText as.headText 9) [' '] as.texts
    as.isName_texts as.noQuote_texts (by decide) (headText_eq hspares)
  rw [← hreader] at hread
  have hvalues := Source.values_attributes hread as.known_texts
    (fun name hname => (isName_of_mem (List.mem_append_left _ hname)).lower) as.distinct_texts
  rw [hvalues] at hattributes
  obtain ⟨hnone, hsome⟩ := component?_of_head isFile resolver session hhead
  refine ⟨hnone, ?_⟩
  intro found hfound
  obtain ⟨component, hcomponent, heq⟩ := hsome found hfound
  exact ⟨component, hcomponent, heq.trans hattributes⟩

/-- The text of a value that is not boolean is one of those that were merged. -/
theorem exists_of_merge_eq {doc declared : List (List Char × List Char)} {name text : List Char}
    (hname : ComponentAttributes.booleanNames.contains name = false)
    (h : ComponentAttributes.merge doc declared ComponentAttributes.booleanNames
      = [(name, .text text)]) : (name, text) ∈ doc ++ declared := by
  have hmem : (name, AttributeValue.text text) ∈
      ComponentAttributes.merge doc declared ComponentAttributes.booleanNames := by
    rw [h]
    exact List.mem_singleton_self _
  obtain ⟨⟨name', text'⟩, hin, heq⟩ := List.mem_map.mp (Keyed.mem_of_mem_insertAll hmem)
  obtain ⟨rfl, hvalue⟩ := Prod.mk.inj heq
  rw [ComponentAttributes.valueOf, hname] at hvalue
  obtain rfl := AttributeValue.text.inj hvalue
  exact hin

/-- **A value that ends the head is lost.** -/
theorem spares_of_isReadFromComponent {value : QuotableText}
    (hname : "hint".toList ∈ ComponentAttributes.names)
    (h : (single "hint".toList hname value).IsReadFromComponent) : value.Spares headStops := by
  obtain ⟨head, within, hhead, hattributes, hreader⟩ :=
    exists_head (single "hint".toList hname value) none
  obtain ⟨hnone, hsome⟩ := h (fun _ => false) ⟨[]⟩ none {}
  obtain ⟨-, hread⟩ := component?_of_head (fun _ => false) ⟨[]⟩ {} hhead
  cases hresult : (((Source.ofText (single "hint".toList hname value).componentText none).component?
      (fun _ => false) ⟨[]⟩).run.run {}).1 with
  | error e => exact absurd hresult (hnone rfl e)
  | ok found =>
    obtain ⟨component, rfl, hmerge⟩ := hsome found hresult
    obtain ⟨_, heq, hfound⟩ := hread _ hresult
    obtain rfl := Option.some.inj heq
    rw [hfound, hattributes] at hmerge
    -- the value is one of those that were read, so it stands in the head
    have hboolean : ComponentAttributes.booleanNames.contains "hint".toList = false := by decide
    have hmem := exists_of_merge_eq hboolean hmerge
    rw [List.nil_append] at hmem
    obtain ⟨e, he, hvalue⟩ := List.mem_map.mp hmem
    obtain ⟨-, htext⟩ := Prod.mk.inj hvalue
    have hsubset := Source.subset_of_mem_attributes he
    rw [hreader, htext] at hsubset
    intro c hc hstop
    have hpart : isHeadPart c = true := List.mem_takeWhile_imp (hsubset hc)
    have hall : ∀ d ∈ headStops, isHeadPart d = false := by decide
    rw [hall c hstop] at hpart
    exact absurd hpart (by decide)

end QuotedAttributes

end Cfml
