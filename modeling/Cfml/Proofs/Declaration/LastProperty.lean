/-
Which property of a name is kept.

Declarations are looked for in script first and then in tag markup, and of all that declare one name
the last one found is kept. In each of the two lists a declaration that is found later starts
further on (`pairwise_propertiesBy`), so what is kept is the last one in tag markup, or the last one
in script if no tag declares the name (`startsLast_of_mem`). It is the one that starts last in the
source unless a declaration in script starts behind all the tags (`properties_startsLast`).

Whatever is kept, its name stands in its span (`textOf_nameSpan`): it is read forward within the
declaration, or it is the value of an attribute.
-/
import Cfml.Declaration.Property
import Cfml.Proofs.Declaration.AttributeList
import Cfml.Proofs.Declaration.Outside

set_option autoImplicit false

namespace Cfml

namespace PropertyDecl

/-! ## The last one of a list -/

/-- The declaration is in the list, and no other one of its name starts behind it. -/
structure StartsLast (declared : List PropertyDecl) (p : PropertyDecl) : Prop where
  mem : p ∈ declared
  last : ∀ q ∈ declared, lower q.name = lower p.name → q.span.start ≤ p.span.start

/-- A name that tags declare and that a declaration in script behind all of them declares, too. -/
structure Overtaken (script tag : List PropertyDecl) (key : List Char) : Prop where
  inTag : ∃ t ∈ tag, lower t.name = key
  behind : ∃ s ∈ script, lower s.name = key ∧
    ∀ t ∈ tag, lower t.name = key → t.span.start < s.span.start

variable {script tag front back : List PropertyDecl} {p : PropertyDecl}
  {e : List Char × PropertyDecl}

/-- In a list in order, the last one of its name starts last. -/
theorem startsLast_of_split (hsorted : script.Pairwise fun p q => p.span.start ≤ q.span.start)
    (hsplit : script = front ++ p :: back) (hback : ∀ q ∈ back, lower q.name ≠ lower p.name) :
    StartsLast script p := by
  subst hsplit
  exact ⟨List.mem_append_right front List.mem_cons_self,
    Keyed.rel_of_split hsorted (Position.le_refl _) hback⟩

/-- **Of two lists in order the last one of the second list is kept**, or of the first one if the
second one does not have the name. -/
theorem startsLast_of_mem (hscript : script.Pairwise fun p q => p.span.start ≤ q.span.start)
    (htag : tag.Pairwise fun p q => p.span.start ≤ q.span.start)
    (he : e ∈ Keyed.insertAll [] ((script ++ tag).map fun p => (lower p.name, p))) :
    e.1 = lower e.2.name ∧
      ((∃ t ∈ tag, lower t.name = e.1) → StartsLast tag e.2) ∧
      ((∀ t ∈ tag, lower t.name ≠ e.1) → StartsLast script e.2) := by
  obtain ⟨before, behind, hpairs, hbehind⟩ := Keyed.mem_insertAll.mp he
  obtain ⟨front, rest, hsplit, -, hrest⟩ := List.map_eq_append_iff.mp hpairs
  obtain ⟨p, back, rfl, rfl, rfl⟩ := List.map_eq_cons_iff.mp hrest
  have hback : ∀ q ∈ back, lower q.name ≠ lower p.name :=
    fun q hq => hbehind _ (List.mem_map_of_mem hq)
  -- where the second list has it
  have hsecond : ∀ {more : List PropertyDecl}, tag = more ++ p :: back →
      ((∃ t ∈ tag, lower t.name = lower p.name) → StartsLast tag p) ∧
        ((∀ t ∈ tag, lower t.name ≠ lower p.name) → StartsLast script p) := by
    intro more hmore
    refine ⟨fun _ => startsLast_of_split htag hmore hback, fun hnone => ?_⟩
    exact absurd rfl (hnone p (by simp [hmore]))
  refine ⟨rfl, ?_⟩
  rcases List.append_eq_append_iff.mp hsplit with ⟨more, -, hmore⟩ | ⟨more, hfirst, hmore⟩
  · exact hsecond hmore
  · cases more with
    | nil => exact @hsecond [] hmore.symm
    | cons first more =>
      obtain ⟨rfl, rfl⟩ := List.cons.inj hmore
      constructor
      · rintro ⟨t, ht, hname⟩
        exact absurd hname (hback t (List.mem_append_right more ht))
      · intro _
        exact startsLast_of_split hscript hfirst
          fun q hq => hback q (List.mem_append_left tag hq)

/-- **What is kept starts last unless it is overtaken.** -/
theorem startsLast_append_iff (hname : e.1 = lower e.2.name)
    (htag : (∃ t ∈ tag, lower t.name = e.1) → StartsLast tag e.2)
    (hscript : (∀ t ∈ tag, lower t.name ≠ e.1) → StartsLast script e.2) :
    StartsLast (script ++ tag) e.2 ↔ ¬ Overtaken script tag e.1 := by
  constructor
  · rintro ⟨-, hlast⟩ ⟨hmem, s, hs, hsname, hbehind⟩
    have hkept := htag hmem
    have hlt := hbehind e.2 hkept.mem hname.symm
    have hle := hlast s (List.mem_append_left tag hs) (hsname.trans hname)
    exact Position.not_lt.mpr hle hlt
  · intro hnot
    by_cases hmem : ∃ t ∈ tag, lower t.name = e.1
    · obtain ⟨hin, hlast⟩ := htag hmem
      refine ⟨List.mem_append_right script hin, ?_⟩
      intro q hq hqname
      rcases List.mem_append.mp hq with hq | hq
      · -- otherwise it would be behind all the tags
        apply Position.not_lt.mp
        intro hlt
        refine hnot ⟨hmem, q, hq, hqname.trans hname.symm, ?_⟩
        intro t ht htname
        have hle := hlast t ht (htname.trans hname)
        rw [Position.le_iff] at hle
        rw [Position.lt_iff] at hlt ⊢
        omega
      · exact hlast q hq hqname
    · have hnone : ∀ t ∈ tag, lower t.name ≠ e.1 := fun t ht htname => hmem ⟨t, ht, htname⟩
      obtain ⟨hin, hlast⟩ := hscript hnone
      refine ⟨List.mem_append_left tag hin, ?_⟩
      intro q hq hqname
      rcases List.mem_append.mp hq with hq | hq
      · exact hlast q hq hqname
      · exact absurd (hqname.trans hname.symm) (hnone q hq)

/-! ## Where a name stands -/

variable {src : Source} {r later : Reader} {stop : Nat} {body name : Capture}

/-- A name that is captured from what is read stands in the source. -/
theorem isIn_of_lastName? (hreads : r.Reads src stop) (h : lastName? r = some name) :
    name.IsIn src := by
  simp only [lastName?, Option.bind_eq_bind, Option.bind_eq_some_iff, Prod.exists] at h
  obtain ⟨found, behind, hname, hlast⟩ := h
  obtain rfl : found = name := by
    split at hlast
    · exact Option.some.inj hlast
    · exact absurd hlast (by simp)
  refine Attribute.isIn_of_name? hreads ?_ hname
  intro d hd
  constructor
  · rintro rfl
    exact absurd hd (by decide)
  · rintro rfl
    exact absurd hd (by decide)

theorem type?_reaches {type : List Char} (h : type? r = some (type, later)) : r.Reaches later := by
  simp only [type?, Option.bind_eq_bind, Option.bind_eq_some_iff, Prod.exists] at h
  obtain ⟨_, behind, hname, _, hblank, heq⟩ := h
  obtain ⟨-, rfl⟩ := by simpa using heq
  exact ((Reader.name?_reaches hname).trans (Reader.getD_literal?_reaches _ _)).trans
    (Reader.some?_reaches hblank)

theorem isIn_of_shorthand? {type : Option (List Char)}
    (hreads : (Reader.ofText body.text body.start).Reads src stop)
    (h : shorthand? body = some (type, name)) : name.IsIn src := by
  let r := (Reader.ofText body.text body.start).blanks
  let trimmed : Reader := { r with ahead := trimRight r.ahead }
  obtain ⟨blanks, hsplit⟩ := (exists_trimRight r.ahead).1
  have htrimmed : trimmed.Reads src (r.offset + (trimRight r.ahead).length) :=
    (hreads.of_reaches (Reader.blanks_reaches _)).front hsplit rfl rfl
  rcases Reader.eq_some_of_orElse h with htyped | huntyped
  · simp only [Option.bind_eq_bind, Option.bind_eq_some_iff, Prod.exists] at htyped
    obtain ⟨_, behind, htype, _, hname, heq⟩ := htyped
    obtain ⟨-, rfl⟩ := by simpa using heq
    exact isIn_of_lastName? (htrimmed.of_reaches (type?_reaches htype)) hname
  · obtain ⟨_, hname, heq⟩ := Option.map_eq_some_iff.mp huntyped
    obtain ⟨-, rfl⟩ := by simpa using heq
    exact isIn_of_lastName? htrimmed hname

/-- What stands in a declaration can be read in the source. -/
theorem exists_reads_of_mem_patterns {pattern : Pattern Capture} (hpattern : pattern ∈ patterns)
    (hreads : r.Reads src stop) (h : pattern.read r = some (body, later)) :
    ∃ stop, (Reader.ofText body.text body.start).Reads src stop := by
  rcases List.mem_cons.mp hpattern with rfl | hpattern
  · simp only [script?] at h
    split at h
    · exact absurd h (by simp)
    · simp only [Option.bind_eq_bind, Option.bind_eq_some_iff, Prod.exists] at h
      obtain ⟨_, inside, hword, _, -, heq⟩ := h
      obtain ⟨rfl, -⟩ := by simpa using heq
      have hinside := hreads.of_reaches (FunctionDecl.modifier?_reaches hword)
      let part (c : Char) : Bool := c != ';' && c != '{' && c != '}'
      obtain ⟨blanks, hblanks⟩ := (exists_trimRight (inside.ahead.takeWhile part)).1
      have hsplit : inside.ahead = trimRight (inside.ahead.takeWhile part)
          ++ (blanks ++ inside.ahead.dropWhile part) := by
        rw [← List.append_assoc, ← hblanks, List.takeWhile_append_dropWhile]
      exact ⟨_, hinside.front hsplit rfl rfl⟩
  · obtain rfl := List.mem_singleton.mp hpattern
    simp only [tag?, Option.bind_eq_bind, Option.bind_eq_some_iff] at h
    obtain ⟨inside, hopening, _, -, heq⟩ := h
    obtain ⟨rfl, -⟩ := by simpa using heq
    have hinside := hreads.of_reaches (Tag.opening?_reaches hopening)
    exact ⟨_, hinside.front List.takeWhile_append_dropWhile.symm rfl rfl⟩

/-- **The name of a property is the text of its span.** -/
theorem textOf_nameSpan {pattern : Pattern Capture} (hpattern : pattern ∈ patterns)
    {found : Occurrence Capture} (hfound : found ∈ src.occurrencesIn none pattern)
    {p : PropertyDecl} (h : ofFound? src found = some p) : src.textOf p.nameSpan = p.name := by
  simp only [ofFound?] at h
  split at h
  · simp only [ofAttributes?, Option.bind_eq_bind, Option.bind_eq_some_iff] at h
    obtain ⟨name, hname, heq⟩ := h
    split at heq
    · exact absurd heq (by simp)
    · obtain rfl := Option.some.inj heq
      exact (Source.textOf_of_mem_attributes (Keyed.mem_of_find? hname)).2
  · obtain ⟨⟨type, name⟩, hshorthand, rfl⟩ := Option.map_eq_some_iff.mp h
    obtain ⟨place, later, hreaches, -, hread⟩ := exists_place_of_mem_occurrences
      (r := src.reader (src.bounds none).1 (src.bounds none).2) hfound
    have hplace := (Reader.Reads.reader src none).of_reaches hreaches
    obtain ⟨stop, hbody⟩ := exists_reads_of_mem_patterns hpattern hplace hread
    exact (isIn_of_shorthand? hbody hshorthand).textOf_spanOf

end PropertyDecl

/-! ## In a source -/

namespace Source

open PropertyDecl

/-- The properties of which the pattern finds a declaration, in the order in which these are
found. -/
def propertiesBy (src : Source) (dialect : Dialect) (pattern : Pattern Capture) :
    List PropertyDecl :=
  let clean := src.withoutComments dialect false
  (clean.occurrencesIn none pattern).filterMap (PropertyDecl.ofFound? clean)

/-- The properties that are declared in script. -/
def propertiesInScript (src : Source) (dialect : Dialect) : List PropertyDecl :=
  src.propertiesBy dialect ⟨script?, script?_reaches⟩

/-- The properties that are declared in tag markup. -/
def propertiesInTags (src : Source) (dialect : Dialect) : List PropertyDecl :=
  src.propertiesBy dialect ⟨tag?, tag?_reaches⟩

variable (src : Source) (dialect : Dialect)

theorem properties_eq : src.properties dialect = Keyed.insertAll []
    ((src.propertiesInScript dialect ++ src.propertiesInTags dialect).map
      fun p => (lower p.name, p)) := by
  rw [properties]
  simp only [patterns, List.flatMap_cons, List.flatMap_nil, List.append_nil, List.filterMap_append]
  rfl

/-- Declarations are found in order. -/
theorem pairwise_propertiesBy (pattern : Pattern Capture) :
    (src.propertiesBy dialect pattern).Pairwise fun p q => p.span.start ≤ q.span.start := by
  have hpairwise : ((src.withoutComments dialect false).occurrencesIn none pattern).Pairwise
      fun o o' => o.stop ≤ o'.start := occurrencesFrom_pairwise pattern 0 _ _ _
  rw [propertiesBy, List.pairwise_filterMap]
  refine hpairwise.imp ?_
  intro o o' hle p hp q hq
  rw [span_of_ofFound? hp, span_of_ofFound? hq]
  exact position_mono _ (Nat.le_trans o.start_le_stop hle)

theorem textOf_nameSpan_of_mem {src : Source} {dialect : Dialect} {p : PropertyDecl}
    (h : p ∈ src.propertiesInScript dialect ++ src.propertiesInTags dialect) :
    (src.withoutComments dialect false).textOf p.nameSpan = p.name := by
  rcases List.mem_append.mp h with h | h
  · obtain ⟨found, hfound, hproperty⟩ := List.mem_filterMap.mp h
    exact textOf_nameSpan List.mem_cons_self hfound hproperty
  · obtain ⟨found, hfound, hproperty⟩ := List.mem_filterMap.mp h
    exact textOf_nameSpan (List.mem_cons_of_mem _ (List.mem_singleton_self _)) hfound hproperty

/-- **Which property of a name is kept.** Each name that is declared has one property, and the name
of that stands in its span. It is the one that starts last of all that declare the name, unless tags
declare it and a declaration in script starts behind all of them; then it is the last one of the
tags. -/
theorem properties_startsLast (src : Source) (dialect : Dialect) :
    let script := src.propertiesInScript dialect
    let tag := src.propertiesInTags dialect
    Keyed.Distinct (src.properties dialect) ∧
      (∀ p ∈ script ++ tag, ∃ e ∈ src.properties dialect, e.1 = lower p.name) ∧
      ∀ e ∈ src.properties dialect, e.1 = lower e.2.name ∧
        (src.withoutComments dialect false).textOf e.2.nameSpan = e.2.name ∧
        (StartsLast (script ++ tag) e.2 ↔ ¬ Overtaken script tag e.1) ∧
        (Overtaken script tag e.1 → StartsLast tag e.2) := by
  intro script tag
  rw [properties_eq]
  refine ⟨Keyed.distinct_insertAll _, ?_, ?_⟩
  · intro p hp
    obtain ⟨q, hq⟩ := Keyed.exists_mem_insertAll
      (List.mem_map_of_mem (f := fun p : PropertyDecl => (lower p.name, p)) hp)
    exact ⟨_, hq, rfl⟩
  · intro e he
    obtain ⟨hname, htag, hscript⟩ := startsLast_of_mem (src.pairwise_propertiesBy dialect _)
      (src.pairwise_propertiesBy dialect _) he
    have hmem : e.2 ∈ script ++ tag := by
      obtain ⟨p, hp, rfl⟩ := List.mem_map.mp (Keyed.mem_of_mem_insertAll he)
      exact hp
    exact ⟨hname, textOf_nameSpan_of_mem hmem, startsLast_append_iff hname htag hscript,
      fun hovertaken => htag hovertaken.inTag⟩

/-- A tag, and behind it a declaration of the same name in script: the tag is kept. -/
theorem properties_startsLast_behind :
    let src := Source.ofText "<cfproperty name=\"a\" type=\"x\">\nproperty string a;".toList none
    ∃ p q, src.properties .script = [(['a'], p)] ∧ p.dataType = ['x'] ∧
      src.propertiesInScript .script = [q] ∧ q.name = ['a'] ∧ p.span.start < q.span.start ∧
      ¬ StartsLast (src.propertiesInScript .script ++ src.propertiesInTags .script) p := by
  intro src
  have hkept : (src.properties .script).map (fun e => (e.1, e.2.dataType, e.2.span.start))
      = [(['a'], ['x'], ⟨0, 0⟩)] := by decide +kernel
  have hscript : (src.propertiesInScript .script).map (fun q => (q.name, q.span.start))
      = [(['a'], ⟨1, 0⟩)] := by decide +kernel
  have htag : (src.propertiesInTags .script).map (fun t => (t.name, t.span.start))
      = [(['a'], ⟨0, 0⟩)] := by decide +kernel
  obtain ⟨⟨key, p⟩, hp, heq⟩ := List.map_eq_singleton_iff.mp hkept
  obtain ⟨rfl, htype, hstart⟩ := by simpa using heq
  obtain ⟨q, hq, heq⟩ := List.map_eq_singleton_iff.mp hscript
  obtain ⟨hqname, hqstart⟩ := Prod.mk.inj heq
  obtain ⟨t, ht, heq⟩ := List.map_eq_singleton_iff.mp htag
  obtain ⟨htname, htstart⟩ := Prod.mk.inj heq
  have hlower : lower ['a'] = ['a'] := by decide
  have hlt : (⟨0, 0⟩ : Position) < ⟨1, 0⟩ := by decide
  have hovertaken : Overtaken (src.propertiesInScript .script) (src.propertiesInTags .script)
      ['a'] := by
    rw [hq, ht]
    refine ⟨⟨t, by simp, by rw [htname, hlower]⟩, q, by simp, by rw [hqname, hlower], ?_⟩
    intro t' ht' _
    obtain rfl := List.mem_singleton.mp ht'
    rw [htstart, hqstart]
    exact hlt
  have hlast := ((properties_startsLast src .script).2.2 (['a'], p) (by simp [hp])).2.2.1
  refine ⟨p, q, hp, htype, hq, hqname, ?_, fun h => hlast.mp h hovertaken⟩
  rw [hstart, hqstart]
  exact hlt

end Source

end Cfml
