/-
The values that are written in the head of a component.

A name can be given a value more than once: in the documentation block, in the list of attributes,
or both. The last value in the list counts, and without one the last value in the block
(`ComponentHead.find?_written`). Wherever it is written, it is what stands in its span, if that lies
on one line (`ComponentHead.spells_of_winning?`).
-/
import Cfml.Component.Basic
import Cfml.Proofs.Component.Keyed
import Cfml.Proofs.Declaration.DocEntries
import Cfml.Proofs.Declaration.QuotedAttributes

set_option autoImplicit false

namespace Cfml

variable {src : Source} {r later : Reader} {stop : Nat}

/-! ## Attributes -/

namespace Attribute

variable {value : Capture}

theorem isIn_of_quotedValue? {quote : Char} (hfeed : quote ≠ '\n') (hreturn : quote ≠ '\r')
    (hreads : r.Reads src stop) (h : quotedValue? quote r = some (value, later)) :
    value.IsIn src := by
  simp only [quotedValue?, Option.bind_eq_bind, Option.bind_eq_some_iff] at h
  obtain ⟨inside, hopen, behind, hclose, heq⟩ := h
  obtain ⟨rfl, rfl⟩ := by simpa using heq
  obtain ⟨c, rest, hahead, hc, rfl⟩ := Reader.one?_eq_some_iff.mp hopen
  obtain rfl : c = quote := by simpa using hc
  have hinside : (r.passing [c] rest).Reads src stop := hreads.passing hahead
  have hsplit : rest = rest.takeWhile (· != c) ++ rest.dropWhile (· != c) :=
    List.takeWhile_append_dropWhile.symm
  have hbehind := hinside.passing hsplit
  rw [Reader.takeWhile, Reader.skipWhile_eq] at hclose
  obtain ⟨d, rest', hahead', hd, -⟩ := Reader.one?_eq_some_iff.mp hclose
  obtain rfl : d = c := by simpa using hd
  refine hinside.isIn hsplit ?_ ?_
  · exact hreads.isBoundary_behind (show r.ahead = [] ++ _ :: rest from hahead) hreturn
  · exact hbehind.isBoundary hahead' hfeed

/-- A line ending is no part of a value without quotes, and none of a name. -/
theorem not_isLineBreak {d : Char} (h : isBare d = true ∨ isNameStart d = true ∨
    isNamePart d = true) : d ≠ '\r' ∧ d ≠ '\n' := by
  constructor
  · rintro rfl
    exact absurd h (by decide)
  · rintro rfl
    exact absurd h (by decide)

/-- Behind a name is a boundary. -/
theorem isBoundary_of_name? {first part : Char → Bool} {name : Capture} (hreads : r.Reads src stop)
    (hpart : ∀ d, first d = true ∨ part d = true → d ≠ '\r')
    (h : r.name? first part = some (name, later)) : src.IsBoundary name.stop := by
  obtain ⟨c, more, rfl, hahead, hc, hmore, -, -⟩ := Reader.name?_eq_some h
  obtain ⟨init, d, hinit⟩ := (List.eq_nil_or_concat (c :: more)).resolve_left (by simp)
  rw [List.concat_eq_append] at hinit
  have hd : first d = true ∨ part d = true := by
    have hmem : d ∈ c :: more := by simp [hinit]
    rcases List.mem_cons.mp hmem with rfl | hmem
    · exact Or.inl hc
    · exact Or.inr (hmore d hmem)
  rw [hinit, List.append_assoc, List.singleton_append] at hahead
  rw [Capture.stop, hinit]
  exact hreads.isBoundary_behind hahead (hpart d hd)

/-- A name stands in the source, if its characters end no line. -/
theorem isIn_of_name? {first part : Char → Bool} {name : Capture} (hreads : r.Reads src stop)
    (hpart : ∀ d, first d = true ∨ part d = true → d ≠ '\r' ∧ d ≠ '\n')
    (h : r.name? first part = some (name, later)) : name.IsIn src := by
  have hend := isBoundary_of_name? hreads (fun d hd => (hpart d hd).1) h
  obtain ⟨c, more, rfl, hahead, hc, -⟩ := Reader.name?_eq_some h
  exact hreads.isIn hahead (hreads.isBoundary hahead (hpart c (Or.inl hc)).2) hend

theorem isIn_of_value? (hreads : r.Reads src stop) (h : value? r = some (value, later)) :
    value.IsIn src := by
  simp only [value?, Option.bind_eq_bind, Option.bind_eq_some_iff] at h
  obtain ⟨sign, hsign, hvalue⟩ := h
  have hreads : sign.blanks.Reads src stop :=
    ((hreads.of_reaches r.blanks_reaches).of_reaches (Reader.one?_reaches hsign)).of_reaches
      sign.blanks_reaches
  rcases Reader.eq_some_of_orElse hvalue with hdouble | hvalue
  · exact isIn_of_quotedValue? (by decide) (by decide) hreads hdouble
  rcases Reader.eq_some_of_orElse hvalue with hsingle | hbare
  · exact isIn_of_quotedValue? (by decide) (by decide) hreads hsingle
  · exact isIn_of_name? hreads (fun d hd => not_isLineBreak (Or.inl (hd.elim id id))) hbare

/-- **The value of an attribute stands in the source.** One without a value has it, empty, behind
its name. -/
theorem isIn_of_mem_occurrencesIn {within : Option Span}
    {found : Occurrence (Capture × Option Capture)}
    (h : found ∈ src.occurrencesIn within pattern) :
    (found.value.2.getD ⟨found.value.1.stop, []⟩).IsIn src := by
  obtain ⟨place, later, hreaches, -, hread⟩ := exists_place_of_mem_occurrences
    (r := src.reader (src.bounds within).1 (src.bounds within).2) h
  have hreads := (Reader.Reads.reader src within).of_reaches hreaches
  generalize found.value = parts at hread
  obtain ⟨name, value⟩ := parts
  change pattern? place = _ at hread
  unfold pattern? at hread
  split at hread
  · exact absurd hread (by simp)
  · simp only [Option.bind_eq_bind, Option.bind_eq_some_iff, Prod.exists] at hread
    obtain ⟨name', behind, hname, hvalue⟩ := hread
    have hbehind := hreads.of_reaches (Reader.name?_reaches hname)
    split at hvalue
    · next hsome =>
      obtain ⟨⟨rfl, rfl⟩, -⟩ := by simpa using hvalue
      exact isIn_of_value? hbehind hsome
    · obtain ⟨⟨rfl, rfl⟩, -⟩ := by simpa using hvalue
      have hend := isBoundary_of_name? hreads (fun d hd => (not_isLineBreak (Or.inr hd)).1) hname
      refine ⟨?_, hend, hend⟩
      change src.slice name'.stop (name'.stop + 0) = []
      rw [Nat.add_zero, Source.slice, Nat.sub_self, List.take_zero]

end Attribute

/-! ## The last value counts -/

namespace Keyed

variable {α β : Type}

theorem find?_insert (key key' : List Char) (value : α) (entries : Keyed α) :
    find? key (insert key' value entries)
      = if key' = key then some value else find? key entries := by
  induction entries with
  | nil =>
    by_cases h : key' = key
    · simp [insert, find?, h]
    · have hne : (key == key') = false := beq_eq_false_iff_ne.mpr (Ne.symm h)
      simp [insert, find?, List.lookup_cons, h, hne]
  | cons e rest ih =>
    obtain ⟨k, v⟩ := e
    by_cases hk : k = key'
    · subst hk
      rw [insert_cons_of_eq, find?, List.lookup_cons, find?, List.lookup_cons]
      by_cases h : k = key
      · simp [h]
      · have hne : (key == k) = false := beq_eq_false_iff_ne.mpr (Ne.symm h)
        simp [h, hne]
    · rw [insert_cons_of_ne hk, find?, List.lookup_cons, find?, List.lookup_cons]
      cases hkey : key == k with
      | true =>
        obtain rfl := beq_iff_eq.mp hkey
        simp [Ne.symm hk]
      | false => exact ih

/-- **The value under a key is the last one that was put there.** -/
theorem find?_insertAll (key : List Char) (pairs : List (List Char × α)) :
    find? key (insertAll [] pairs)
      = ((pairs.filter (·.1 == key)).map Prod.snd).getLast? := by
  induction pairs using List.reverseRecOn with
  | nil => rfl
  | append_singleton pairs p ih =>
    rw [insertAll_append, find?_insert, List.filter_append, List.map_append, List.getLast?_append,
      ih]
    by_cases h : p.1 = key
    · simp [h]
    · simp [h]

theorem map_insert (f : α → β) (key : List Char) (value : α) (entries : Keyed α) :
    (insert key value entries).map (fun e => (e.1, f e.2))
      = insert key (f value) (entries.map fun e => (e.1, f e.2)) := by
  induction entries with
  | nil => rfl
  | cons e rest ih =>
    obtain ⟨k, v⟩ := e
    by_cases hk : k = key
    · subst hk
      simp only [List.map_cons, insert_cons_of_eq]
    · simp only [List.map_cons, insert_cons_of_ne hk, ih]

theorem map_insertAll (f : α → β) (pairs : List (List Char × α)) :
    (insertAll [] pairs).map (fun e => (e.1, f e.2))
      = insertAll [] (pairs.map fun e => (e.1, f e.2)) := by
  induction pairs using List.reverseRecOn with
  | nil => rfl
  | append_singleton pairs p ih =>
    rw [insertAll_append, map_insert, ih, List.map_append, List.map_singleton, insertAll_append]

/-- So it is when some of them were put under their keys before. -/
theorem find?_insertAll_append (key : List Char) (first second : List (List Char × α)) :
    find? key (insertAll [] (first ++ insertAll [] second))
      = (find? key (insertAll [] second)).or (find? key (insertAll [] first)) := by
  have hsecond := find?_insertAll key (insertAll [] second)
  rw [insertAll_of_distinct (distinct_insertAll second)] at hsecond
  rw [find?_insertAll, List.filter_append, List.map_append, List.getLast?_append, ← hsecond,
    ← find?_insertAll]

end Keyed

namespace ComponentHead

variable {head : ComponentHead} {key : List Char} {value : WrittenValue}

theorem attributesStart_le (h : head.attributesStart < head.stop) :
    head.attributesStart ≤ head.stop := Nat.le_of_lt h

/-- The values that the list of attributes gives to a name, one behind the other. -/
def listedValues (src : Source) (head : ComponentHead) (key : List Char) : List WrittenValue :=
  if h : head.attributesStart < head.stop then
    let within := src.spanOf ⟨head.attributesStart, head.stop, attributesStart_le h⟩
    let found := (src.occurrencesIn (some within) Attribute.pattern).filter fun found =>
      lower found.value.1.text == key
    found.map fun found =>
      let value := found.value.2.getD ⟨found.value.1.stop, []⟩
      ⟨value.text, src.spanOf value.stretch⟩
  else []

/-- The values that the documentation block gives to a key, one behind the other. -/
def docValues (src : Source) (head : ComponentHead) (key : List Char) : List WrittenValue :=
  match head.doc with
  | none => []
  | some doc =>
    ((src.docEntries (some (src.spanOf doc))).filter (·.key == key)).map fun entry =>
      ⟨entry.value, entry.span⟩

/-- The value that counts: the last one in the list, or else the last one in the block. -/
def winning? (src : Source) (head : ComponentHead) (key : List Char) : Option WrittenValue :=
  (head.listedValues src key).getLast?.or (head.docValues src key).getLast?

theorem docAttributes_filter (src : Source) (head : ComponentHead)
    (hkey : ComponentAttributes.names.contains key = true) :
    ((head.docAttributes src).filter (·.1 == key)).map Prod.snd = head.docValues src key := by
  unfold docAttributes docValues
  cases head.doc with
  | none => rfl
  | some doc =>
    simp only [List.filter_map, List.map_map, List.filter_filter]
    -- the key is one of those that are kept
    have hsame : ∀ entry : DocEntry, (entry.key == key &&
        ComponentAttributes.names.contains entry.key) = (entry.key == key) := by
      intro entry
      by_cases h : entry.key = key
      · rw [h, hkey, Bool.and_true]
      · rw [beq_eq_false_iff_ne.mpr h, Bool.false_and]
    simp only [Function.comp_def, hsame]

theorem map_lower_names : ComponentAttributes.names.map lower = ComponentAttributes.names := by
  decide

/-- What is kept of the attributes that were found are all that have a name that counts. -/
theorem filter_kept (src : Source) (hkey : ComponentAttributes.names.contains key = true)
    (found : List (Occurrence (Capture × Option Capture))) :
    ((((found.filterMap (Attribute.kept? src ComponentAttributes.names)).map fun e =>
        (e.1, (⟨e.2.value, e.2.span⟩ : WrittenValue))).filter (·.1 == key)).map Prod.snd) =
      (found.filter fun o => lower o.value.1.text == key).map fun o =>
        let value := o.value.2.getD ⟨o.value.1.stop, []⟩
        ⟨value.text, src.spanOf value.stretch⟩ := by
  induction found with
  | nil => rfl
  | cons first rest ih =>
    rw [List.filterMap_cons, Attribute.kept?]
    simp only
    by_cases hname : lower first.value.1.text = key
    · subst hname
      simp only [hkey, if_true, List.map_cons, beq_self_eq_true, List.filter_cons_of_pos, ih]
    · have hne : ¬ (lower first.value.1.text == key) = true := by simpa using hname
      rw [List.filter_cons_of_neg (by exact hne), ← ih]
      -- under another name it is passed over, whether it is kept or not
      split_ifs with hfirst
      · rw [List.map_cons, List.filter_cons_of_neg (by exact hne)]
      · rfl

/-- The list of attributes keeps the last value of each name. -/
theorem exists_declaredAttributes (src : Source) (head : ComponentHead)
    (hkey : ComponentAttributes.names.contains key = true) :
    ∃ pairs, head.declaredAttributes src = Keyed.insertAll [] pairs ∧
      (pairs.filter (·.1 == key)).map Prod.snd = head.listedValues src key := by
  unfold declaredAttributes listedValues
  split
  · next hlt =>
    simp only
    rw [Source.attributes_eq, map_lower_names]
    refine ⟨_, Keyed.map_insertAll (fun a : Attribute => (⟨a.value, a.span⟩ : WrittenValue)) _, ?_⟩
    exact filter_kept src hkey _
  · exact ⟨[], rfl, rfl⟩

/-- **The value that is kept is the one that counts.** -/
theorem find?_written (src : Source) (head : ComponentHead)
    (hkey : ComponentAttributes.names.contains key = true) :
    (head.written src).find? key = head.winning? src key := by
  obtain ⟨pairs, hpairs, hlisted⟩ := head.exists_declaredAttributes src hkey
  rw [written, hpairs, Keyed.find?_insertAll_append, Keyed.find?_insertAll, Keyed.find?_insertAll,
    hlisted, head.docAttributes_filter src hkey, winning?]

theorem isIn_of_mem_listedValues (h : value ∈ head.listedValues src key) :
    ∃ capture : Capture, value = ⟨capture.text, src.spanOf capture.stretch⟩ ∧
      capture.IsIn src := by
  unfold listedValues at h
  split at h
  · obtain ⟨found, hfound, rfl⟩ := List.mem_map.mp h
    exact ⟨_, rfl, Attribute.isIn_of_mem_occurrencesIn (List.mem_of_mem_filter hfound)⟩
  · exact absurd h List.not_mem_nil

theorem exists_of_mem_docValues (h : value ∈ head.docValues src key) :
    ∃ within, ∃ entry ∈ src.docEntries within, value = ⟨entry.value, entry.span⟩ := by
  unfold docValues at h
  split at h
  · exact absurd h List.not_mem_nil
  · obtain ⟨entry, hentry, rfl⟩ := List.mem_map.mp h
    exact ⟨_, entry, List.mem_of_mem_filter hentry, rfl⟩

end ComponentHead

end Cfml
