/-
Lists of attributes in a source.

Of a written list each attribute is read once and nothing else is, whatever its values look like. So
the attributes that are found are those of the list that are allowed: one for each name, without
regard to case, in the order in which the names first occur, with the value that the name is given
last (`Source.attributes_listText`). In a list that is not well formed, too, each value is the text
of its span.
-/
import Cfml.Proofs.Component.WrittenValues
import Cfml.Proofs.Declaration.AttributeForms

set_option autoImplicit false

namespace Cfml

namespace Attribute

/-- Whether a name in lower case is one of those that count, if not all do. -/
def isAllowed (allowed : Option (List (List Char))) (key : List Char) : Bool :=
  allowed.all fun names => (names.map lower).contains key

/-- The names that count with their values, of those that were read. -/
def counted (allowed : Option (List (List Char)))
    (readings : List (List Char × Option (List Char))) : List (List Char × List Char) :=
  (readings.map fun e => (lower e.1, e.2.getD [])).filter fun e => isAllowed allowed e.1

end Attribute

open Attribute

namespace Source

/-- What is found within a span is what is read there, the last value of each name. -/
theorem values_attributes_eq (src : Source) (within : Option Span)
    (allowed : Option (List (List Char))) :
    (src.attributes within allowed).map (fun e => (e.1, e.2.value))
      = Keyed.insertAll []
        (counted allowed (readings (src.occurrencesIn within Attribute.pattern))) := by
  rw [attributes, Keyed.map_insertAll Attribute.value]
  apply congrArg (Keyed.insertAll [])
  induction src.occurrencesIn within Attribute.pattern with
  | nil => rfl
  | cons o found ih =>
    obtain ⟨start, stop, ⟨name, value⟩, hle⟩ := o
    have hallowed : ((allowed.map (·.map lower)).map (·.contains (lower name.text))).getD true
        = isAllowed allowed (lower name.text) := by
      cases allowed <;> rfl
    have hvalue : (value.getD ⟨name.stop, []⟩).text = (value.map Capture.text).getD [] := by
      cases value <;> rfl
    rw [List.filterMap_cons]
    simp only
    rw [hallowed]
    cases hkey : isAllowed allowed (lower name.text) with
    | true =>
      rw [if_pos rfl]
      simp only [List.map_cons, ih, hvalue]
      simp [counted, readings, hkey]
    | false =>
      rw [if_neg Bool.false_ne_true]
      simp only [ih]
      simp [counted, readings, hkey]

section Written

variable {src : Source} {within : Option Span} {allowed : Option (List (List Char))}
  {list : List Written}

theorem counted_reading (allowed : Option (List (List Char))) (list : List Written) :
    counted allowed (list.map Written.reading)
      = (list.map fun w => (lower w.name, w.value)).filter fun e => isAllowed allowed e.1 := by
  rw [counted, List.map_map]
  apply congrArg (List.filter _)
  apply List.map_congr_left
  intro w _
  rfl

/-- The attributes of a written list are those of its entries that are allowed. -/
theorem values_listText
    (h : src.slice (src.bounds within).1 (src.bounds within).2 = Written.listText list) :
    (src.attributes within allowed).map (fun e => (e.1, e.2.value)) = Keyed.insertAll []
      ((list.map fun w => (lower w.name, w.value)).filter fun e => isAllowed allowed e.1) := by
  rw [values_attributes_eq, ← counted_reading]
  exact congrArg _ (congrArg _ (readings_list list h))

theorem keys_listText
    (h : src.slice (src.bounds within).1 (src.bounds within).2 = Written.listText list) :
    (src.attributes within allowed).map Prod.fst
      = ((list.map fun w => lower w.name).filter (isAllowed allowed)).eraseDups := by
  have hvalues : (src.attributes within allowed).map (fun e => (e.1, e.2.value)) = _ :=
    values_listText h
  have hkeys := congrArg (List.map Prod.fst) hvalues
  rw [Keyed.keys_insertAll, List.map_map] at hkeys
  apply hkeys.trans
  apply congrArg List.eraseDups
  rw [List.filter_map, List.filter_map, List.map_map]
  rfl

/-- Under each name stands the value of the last entry with the name. -/
theorem last_listText
    (h : src.slice (src.bounds within).1 (src.bounds within).2 = Written.listText list)
    {e : List Char × Attribute} (he : e ∈ src.attributes within allowed) :
    (list.filter fun w => lower w.name == e.1).getLast?.map Written.value = some e.2.value := by
  let pairs := (list.map fun w => (lower w.name, w.value)).filter fun p => isAllowed allowed p.1
  have hmem : (e.1, e.2.value) ∈ Keyed.insertAll [] pairs := by
    rw [← values_listText h]
    exact List.mem_map_of_mem he
  have hfind := Keyed.find?_of_mem (Keyed.distinct_insertAll pairs) hmem
  rw [Keyed.find?_insertAll] at hfind
  have hallowed : isAllowed allowed e.1 = true :=
    (List.mem_filter.mp (Keyed.mem_of_mem_insertAll hmem)).2
  -- of the entries with the name none is left out
  have hsame : (pairs.filter (·.1 == e.1)).map Prod.snd
      = (list.filter fun w => lower w.name == e.1).map Written.value := by
    have hname : ∀ w : Written, (lower w.name == e.1 && isAllowed allowed (lower w.name))
        = (lower w.name == e.1) := by
      intro w
      by_cases hw : lower w.name = e.1
      · rw [hw, hallowed, Bool.and_true]
      · rw [beq_eq_false_iff_ne.mpr hw, Bool.false_and]
    simp only [pairs, List.filter_filter, List.filter_map, List.map_map, Function.comp_def, hname]
  rw [← List.getLast?_map, ← hsame, hfind]

end Written

/-- The value of an attribute stands in its span, whatever the text. -/
theorem textOf_of_mem_attributes {src : Source} {within : Option Span}
    {allowed : Option (List (List Char))} {e : List Char × Attribute}
    (he : e ∈ src.attributes within allowed) :
    e.2.name = e.1 ∧ src.textOf e.2.span = e.2.value := by
  obtain ⟨found, hfound, hentry⟩ := List.mem_filterMap.mp (Keyed.mem_of_mem_insertAll he)
  have hin := Attribute.isIn_of_mem_occurrencesIn hfound
  simp only at hentry
  split at hentry
  · obtain rfl := Option.some.inj hentry
    exact ⟨rfl, hin.textOf_spanOf⟩
  · exact absurd hentry (by simp)

/-- **A written list is read as what it says.** Of its attributes one is found for each name that is
allowed, without regard to case, in the order in which the names first occur, with the value that
the name is given last. In any text each attribute has the value that stands in its span. -/
theorem attributes_listText :
    (∀ (list : List Written) (src : Source) (within : Option Span)
        (allowed : Option (List (List Char))),
      src.slice (src.bounds within).1 (src.bounds within).2 = Written.listText list →
      let found := src.attributes within allowed
      found.map Prod.fst
          = ((list.map fun w => lower w.name).filter (isAllowed allowed)).eraseDups ∧
        ∀ e ∈ found, (list.filter fun w => lower w.name == e.1).getLast?.map Written.value
          = some e.2.value) ∧
    ∀ (src : Source) (within : Option Span) (allowed : Option (List (List Char))),
      ∀ e ∈ src.attributes within allowed,
        e.2.name = e.1 ∧ src.textOf e.2.span = e.2.value :=
  ⟨fun _ _ _ _ h => ⟨keys_listText h, fun _ he => last_listText h he⟩,
    fun _ _ _ _ he => textOf_of_mem_attributes he⟩

/-- An attribute in each form. One name is given twice, and a value looks like an attribute. -/
def sampleList : List Written :=
  let double : Form := .double "b='c'".toList (by decide)
  let bare : Form := .bare ['d'] (by decide) (by decide)
  let single : Form := .single "h=".toList (by decide)
  [⟨[' '], by decide, by decide, 'a', by decide, [], by decide,
      some ⟨[' '], by decide, ['\n'], by decide, double⟩⟩,
    ⟨['\t'], by decide, by decide, 'A', by decide, [], by decide,
      some ⟨[], by decide, [], by decide, bare⟩⟩,
    ⟨[' '], by decide, by decide, 'e', by decide, "-f".toList, by decide,
      some ⟨[], by decide, [], by decide, single⟩⟩,
    ⟨[' '], by decide, by decide, 'H', by decide, [], by decide, none⟩]

theorem attributes_listText_samples :
    let src := Source.ofText " a =\n\"b='c'\"\tA=d e-f='h=' H".toList none
    let found := src.attributes none (some ["h".toList, "A".toList])
    src.slice (src.bounds none).1 (src.bounds none).2 = Written.listText sampleList ∧
      found.map (fun e => (e.1, e.2.value)) = [("a".toList, "d".toList), ("h".toList, [])] := by
  intro src found
  have htext : src.slice (src.bounds none).1 (src.bounds none).2 = Written.listText sampleList := by
    decide +kernel
  obtain ⟨hkeys, hvalues⟩ :=
    attributes_listText.1 sampleList src none (some ["h".toList, "A".toList]) htext
  change ∀ e ∈ found, _ at hvalues
  have hnames : found.map Prod.fst = ["a".toList, "h".toList] := hkeys.trans (by decide +kernel)
  refine ⟨htext, ?_⟩
  obtain ⟨a, others, hfound, ha, hothers⟩ := List.map_eq_cons_iff.mp hnames
  obtain ⟨h, hfound', hh⟩ := List.map_eq_singleton_iff.mp hothers
  rw [hfound, hfound'] at hvalues ⊢
  obtain ⟨hfirst, hsecond⟩ := List.forall_mem_cons.mp hvalues
  have hlast := hsecond h (List.mem_singleton_self h)
  rw [ha] at hfirst
  rw [hh] at hlast
  have hd : some "d".toList = some a.2.value := Eq.trans (by decide +kernel) hfirst
  have hempty : some [] = some h.2.value := Eq.trans (by decide +kernel) hlast
  simp only [List.map_cons, List.map_nil, ha, hh, ← Option.some.inj hd, ← Option.some.inj hempty]

end Source

end Cfml
