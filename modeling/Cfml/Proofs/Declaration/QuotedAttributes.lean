/-
Attributes that are written with values in double quotes.

An attribute `name="value"` is read as what it says, whatever the value is, as long as no double
quote is in it (`Attribute.read_quoted`). A list of such attributes with distinct names is therefore
read back entry by entry from any stretch that holds it (`Source.values_attributes`). The other way
round, a value that is read from a stretch stands in it (`Source.subset_of_mem_attributes`), so
what a stretch cuts off is in none of its values.
-/
import Cfml.Proofs.Comment.Blanked
import Cfml.Proofs.Component.Keyed
import Cfml.Proofs.Declaration.AttributeForms

set_option autoImplicit false

namespace Cfml

variable {r later : Reader}

/-- What is ahead further on was ahead before. -/
theorem Reader.Reaches.subset (h : r.Reaches later) : later.ahead ⊆ r.ahead := by
  obtain ⟨passed, hahead, -⟩ := h
  rw [hahead]
  exact List.subset_append_right passed later.ahead

namespace Attribute

/-! ## Reading one attribute -/

/-- A name that an attribute can have, in lower case. -/
structure IsName (name : List Char) : Prop where
  begins : name.head?.any isNameStart = true
  part : ∀ c ∈ name, isNamePart c = true
  lower : Cfml.lower name = name

/-- An attribute as written. -/
def written (name value : List Char) : List Char := name ++ '=' :: '"' :: (value ++ ['"'])

variable {name value rest : List Char}

/-- The value behind the name. -/
theorem value?_eq_some (hahead : r.ahead = '=' :: '"' :: (value ++ '"' :: rest))
    (hvalue : '"' ∉ value) :
    value? r = some (⟨r.offset + 2, value⟩,
      r.passing ('=' :: '"' :: (value ++ ['"'])) rest) := by
  let assigned : Assigned := ⟨[], by simp, [], by simp, .double value hvalue⟩
  have hsplit : r.ahead = assigned.text ++ rest := by
    rw [hahead]
    simp [assigned, Assigned.text, Form.text, Form.quote, Form.value]
  exact value?_assigned assigned hsplit fun hnone => absurd hnone (List.cons_ne_nil _ _)

/-- **A value in quotes is read as it is.** -/
theorem read_quoted (hname : IsName name) (hvalue : '"' ∉ value)
    (hbefore : r.isAfter isNamePart = false) (hahead : r.ahead = written name value ++ rest) :
    pattern.read r = some ((⟨r.offset, name⟩, some ⟨r.offset + name.length + 2, value⟩),
      r.passing (written name value) rest) := by
  have hahead' : r.ahead = name ++ '=' :: '"' :: (value ++ '"' :: rest) := by
    rw [hahead, written]
    simp
  obtain ⟨c, tail, rfl⟩ : ∃ c tail, name = c :: tail := by
    apply List.exists_cons_of_ne_nil
    rintro rfl
    exact absurd hname.begins (by simp)
  have hread := Reader.name?_of_append hahead' (by simpa using hname.begins)
    (fun d hd => hname.part d (List.mem_cons_of_mem c hd))
    (show isNamePart '=' = false by decide)
  have hvalue := @value?_eq_some (r.passing (c :: tail) ('=' :: '"' :: (value ++ '"' :: rest)))
    value rest rfl hvalue
  rw [Reader.passing_passing] at hvalue
  simp only [pattern, pattern?, hbefore, hread, Option.bind_eq_bind, Option.bind_some, hvalue]
  rfl

/-! ## Reading a list of attributes -/

/-- Attributes as written, each behind a space. -/
def writtenAll (entries : List (List Char × List Char)) : List Char :=
  entries.flatMap fun e => ' ' :: written e.1 e.2

/-- An attribute with others behind it ends with a quote. -/
theorem exists_concat_quote (entries : List (List Char × List Char)) (name value : List Char) :
    ∃ init, written name value ++ writtenAll entries = init ++ ['"'] := by
  induction entries generalizing name value with
  | nil => exact ⟨name ++ '=' :: '"' :: value, by simp [written, writtenAll]⟩
  | cons e entries ih =>
    obtain ⟨init, hinit⟩ := ih e.1 e.2
    refine ⟨written name value ++ ' ' :: init, ?_⟩
    rw [List.append_assoc, List.cons_append, ← hinit, writtenAll, List.flatMap_cons]
    rfl

variable {entries : List (List Char × List Char)}

/-- The attribute at the place is read, and then those behind it. -/
theorem readings_cons (hname : IsName name) (hvalue : '"' ∉ value)
    (hbefore : r.isAfter isNamePart = false) (hahead : r.ahead = written name value ++ rest) :
    readings (occurrences pattern r)
      = (name, some value) ::
        readings (occurrences pattern (r.passing (written name value) rest)) := by
  obtain ⟨c, tail, htail⟩ : ∃ c tail, written name value = c :: tail := by
    apply List.exists_cons_of_ne_nil
    simp [written]
  have hread := read_quoted hname hvalue hbefore hahead
  rw [htail] at hread hahead ⊢
  rw [occurrences_eq_cons hahead hread]
  rfl

/-- **Written attributes are read one after the other**, and nothing is read from what follows if no
name can begin there. -/
theorem readings_writtenAll (hnames : ∀ e ∈ entries, IsName e.1)
    (hvalues : ∀ e ∈ entries, '"' ∉ e.2)
    (hrest : ∀ c ∈ rest, isNameStart c = false) (hahead : r.ahead = writtenAll entries ++ rest) :
    readings (occurrences pattern r) = entries.map fun e => (e.1, some e.2) := by
  induction entries generalizing r with
  | nil =>
    rw [occurrences_gap (hahead.trans (List.append_nil rest).symm) hrest]
    rfl
  | cons e entries ih =>
    obtain ⟨hname, hnames⟩ := List.forall_mem_cons.mp hnames
    obtain ⟨hvalue, hvalues⟩ := List.forall_mem_cons.mp hvalues
    have hahead' : r.ahead = [' '] ++ (written e.1 e.2 ++ (writtenAll entries ++ rest)) := by
      rw [hahead, writtenAll, List.flatMap_cons]
      simp [writtenAll]
    have hspace : (r.passing [' '] (written e.1 e.2 ++ (writtenAll entries ++ rest))).isAfter
        isNamePart = false := by
      show isNamePart ' ' = false
      decide
    -- no name begins with the space
    rw [occurrences_gap hahead' (by decide), readings_cons hname hvalue hspace rfl,
      ih hnames hvalues rfl, List.map_cons]

/-! ## What is read stands in the text -/

theorem subset_of_quotedValue? {quote : Char} {found : Capture}
    (h : quotedValue? quote r = some (found, later)) : found.text ⊆ r.ahead := by
  simp only [quotedValue?, Option.bind_eq_bind, Option.bind_eq_some_iff] at h
  obtain ⟨inside, hopen, _, -, heq⟩ := h
  obtain ⟨rfl, -⟩ := by simpa using heq
  exact List.Subset.trans (List.takeWhile_subset _) (Reader.one?_reaches hopen).subset

theorem subset_of_value? {found : Capture} (h : value? r = some (found, later)) :
    found.text ⊆ r.ahead := by
  simp only [value?, Option.bind_eq_bind, Option.bind_eq_some_iff] at h
  obtain ⟨sign, hsign, hvalue⟩ := h
  have hbehind := (r.blanks_reaches.trans ((Reader.one?_reaches hsign).trans
    sign.blanks_reaches)).subset
  apply List.Subset.trans _ hbehind
  rcases Reader.eq_some_of_orElse hvalue with hdouble | hvalue
  · exact subset_of_quotedValue? hdouble
  · rcases Reader.eq_some_of_orElse hvalue with hsingle | hbare
    · exact subset_of_quotedValue? hsingle
    · obtain ⟨_, -, heq⟩ := Option.map_eq_some_iff.mp hbare
      obtain ⟨rfl, -⟩ := Prod.mk.inj heq
      exact List.take_subset _ _

theorem subset_of_read {found : Capture × Option Capture}
    (h : pattern.read r = some (found, later)) :
    (found.2.getD ⟨found.1.stop, []⟩).text ⊆ r.ahead := by
  simp only [pattern, pattern?] at h
  split at h
  · exact absurd h (by simp)
  · simp only [Option.bind_eq_bind, Option.bind_eq_some_iff, Prod.exists] at h
    obtain ⟨_, behindName, hname, hvalue⟩ := h
    split at hvalue
    · next hread =>
      obtain ⟨rfl, -⟩ := by simpa using hvalue
      exact List.Subset.trans (subset_of_value? hread) (Reader.name?_reaches hname).subset
    · obtain ⟨rfl, -⟩ := by simpa using hvalue
      exact List.nil_subset _

/-! ## The attributes of a source -/

/-- The attribute that was found, under its name, if the name is one of those that count. -/
def kept? (src : Source) (names : List (List Char)) (o : Occurrence (Capture × Option Capture)) :
    Option (List Char × Attribute) :=
  let key := lower o.value.1.text
  let value := o.value.2.getD ⟨o.value.1.stop, []⟩
  if names.contains key then some (key, ⟨key, value.text, src.spanOf value.stretch⟩) else none

/-- **Entry by entry, what was found becomes an attribute** with that name and value. -/
theorem filterMap_kept (src : Source) {names : List (List Char)}
    {found : List (Occurrence (Capture × Option Capture))}
    (hread : readings found = entries.map fun e => (e.1, some e.2))
    (hknown : ∀ e ∈ entries, e.1 ∈ names) (hlower : ∀ name ∈ names, lower name = name) :
    (found.filterMap (kept? src names)).map (fun e => (e.1, e.2.value)) = entries := by
  induction entries generalizing found with
  | nil =>
    rw [List.map_eq_nil_iff.mp hread]
    rfl
  | cons e entries ih =>
    obtain ⟨hfirst, hknown⟩ := List.forall_mem_cons.mp hknown
    obtain ⟨o, found, rfl, ho, hrest⟩ := List.map_eq_cons_iff.mp hread
    obtain ⟨hname, hvalue⟩ := Prod.mk.inj ho
    obtain ⟨value, hsome, htext⟩ := Option.map_eq_some_iff.mp hvalue
    have hkey : lower o.value.1.text = e.1 := by rw [hname, hlower e.1 hfirst]
    have hkept : kept? src names o = some (e.1, ⟨e.1, e.2, src.spanOf value.stretch⟩) := by
      simp only [kept?, hkey, hsome, Option.getD_some, htext]
      exact if_pos (List.contains_iff_mem.mpr hfirst)
    rw [List.filterMap_cons, hkept]
    simp only [List.map_cons]
    rw [ih hrest hknown]

end Attribute

/-- The value under a key is not empty. -/
theorem Keyed.value?_eq (key : String) (attributes : Keyed Attribute) : attributes.value? key =
    ((attributes.find? key.toList).map Attribute.value).filter (!·.isEmpty) := by
  rw [Keyed.value?]
  cases attributes.find? key.toList with
  | none => rfl
  | some a =>
    rw [Option.map_some, Option.bind_some, Option.filter_some]
    cases a.value.isEmpty <;> rfl

namespace Source

variable {src : Source} {within : Span} {names : List (List Char)}
  {entries : List (List Char × List Char)}

/-- Reads the span from its start. -/
def readerOf (src : Source) (within : Span) : Reader :=
  src.reader (src.bounds (some within)).1 (src.bounds (some within)).2

/-- What stands between two places is read from the first one. -/
theorem readerOf_between {before inside behind : List Char} {s : Stretch}
    (htext : src.text = before ++ (inside ++ behind)) (hstart : s.start = before.length)
    (hstop : s.stop = before.length + inside.length)
    (hbefore : before.getLast? ≠ some '\r' ∨ (inside ++ behind).head? ≠ some '\n')
    (hbehind : (before ++ inside).getLast? ≠ some '\r' ∨ behind.head? ≠ some '\n') :
    src.readerOf (src.spanOf s) = Reader.ofText inside before.length := by
  obtain ⟨hplace, hplace'⟩ := isPlace_between htext hbefore hbehind
  rw [← hstart] at hplace
  rw [← hstop] at hplace'
  rw [readerOf, bounds_spanOf hplace hplace', reader, hstart, hstop, slice_between htext]

theorem attributes_eq (src : Source) (within : Span) (names : List (List Char)) :
    src.attributes (some within) (some names) = Keyed.insertAll []
      ((occurrences Attribute.pattern (src.readerOf within)).filterMap
        (Attribute.kept? src (names.map lower))) := rfl

/-- **Attributes with distinct names are found as they were read.** -/
theorem values_attributes
    (hread : Attribute.readings (occurrences Attribute.pattern (src.readerOf within))
      = entries.map fun e => (e.1, some e.2))
    (hknown : ∀ e ∈ entries, e.1 ∈ names) (hlower : ∀ name ∈ names, lower name = name)
    (hdistinct : Keyed.Distinct entries) :
    (src.attributes (some within) (some names)).map (fun e => (e.1, e.2.value)) = entries := by
  have hnames : names.map lower = names := by
    apply (List.map_congr_left hlower).trans
    exact List.map_id names
  have hvalues := Attribute.filterMap_kept src hread hknown hlower
  -- the names are distinct, so no attribute takes the place of another one
  have hkeys : Keyed.Distinct ((occurrences Attribute.pattern (src.readerOf within)).filterMap
      (Attribute.kept? src names)) := by
    rw [Keyed.Distinct, ← hvalues, List.map_map] at hdistinct
    exact hdistinct
  rw [attributes_eq, hnames, Keyed.insertAll_of_distinct hkeys, hvalues]

/-- A value that is read from a span of the source stands in it. -/
theorem subset_of_mem_attributes {e : List Char × Attribute}
    (h : e ∈ src.attributes (some within) (some names)) :
    e.2.value ⊆ (src.readerOf within).ahead := by
  rw [attributes_eq] at h
  obtain ⟨o, ho, hentry⟩ := List.mem_filterMap.mp (Keyed.mem_of_mem_insertAll h)
  obtain ⟨place, later, hreaches, -, hread⟩ := exists_place_of_mem_occurrences ho
  have hsubset := List.Subset.trans (Attribute.subset_of_read hread) hreaches.subset
  unfold Attribute.kept? at hentry
  simp only at hentry
  split at hentry
  · obtain rfl := Option.some.inj hentry
    exact hsubset
  · exact absurd hentry (by simp)

end Source

end Cfml
