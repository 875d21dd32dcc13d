/-
What a component is assembled from.

The functions of a component come from two searches, one for script and one for tag markup, each of
which finds them in order. No two of them start at the same position: where one in script begins
there is no bracket, and where one in tag markup begins there is (`Source.pairwise_functions`). So
they can be sorted in one way only, and which function of a name starts last is determined
(`Source.keepsLast_functionsByName`).

The variables are looked for between the end of the head and the first function, wherever that
stands. The search does not leave this part of the text, and there is nothing to search where a
function stands before the end of the head (`Source.standBetween_assignments`).
-/
import Cfml.Proofs.Component.Commented
import Cfml.Proofs.Component.HeadFound

set_option autoImplicit false

namespace Cfml

/-! ## Where functions begin -/

namespace FunctionDecl

/-- No declaration in script begins with a bracket of markup. -/
theorem header?_eq_none {r : Reader} (h : r.ahead.head? = some '<') : header? r = none := by
  have hone : ∀ {p : Char → Bool}, p '<' = false → r.one? p = none := by
    intro p hp
    apply Reader.one?_eq_none
    rw [h, Option.any_some, hp]
  have hmodifier : ∀ {word : List Char}, word.head?.any (!sameLetter · '<') = true →
      modifier? word r = none := by
    intro word hword
    cases word with
    | nil => exact absurd hword (by simp)
    | cons c word =>
      have hc : sameLetter c '<' = false := by simpa using hword
      rw [modifier?, Reader.caseless?, List.foldlM_cons, hone hc]
      rfl
  have hany : ∀ {words : List (List Char)},
      words.all (fun word => word.head?.any (!sameLetter · '<')) = true →
      anyModifier words r = (none, r) := by
    intro words hwords
    have hnone : words.findSome? (modifier? · r) = none := List.findSome?_eq_none_iff.mpr
      fun word hword => hmodifier (List.all_eq_true.mp hwords word hword)
    rw [anyModifier, hnone]
  have htype : type? r = none := by
    rw [type?, Reader.name?, hone (by decide)]
    rfl
  have hsignature : signature? r = none := by
    rw [signature?, hmodifier (by decide)]
    rfl
  unfold header?
  split
  · rfl
  · rw [hany (by decide)]
    simp only
    rw [hany (by decide), typed?, htype, hsignature]
    rfl

end FunctionDecl

namespace Source

variable {src : Source} {dialect : Dialect} {f g : FunctionDecl} {i j : Nat} {c d : Char}

/-- The declaration starts at a character that stands in the source. -/
structure BeginsAt (src : Source) (f : FunctionDecl) (i : Nat) (c : Char) : Prop where
  start_eq : f.span.start = src.position i
  getElem? : src.text[i]? = some c
  visible : ¬ IsBlanked c

theorem BeginsAt.isPlace (h : src.BeginsAt f i c) : src.IsPlace i := by
  apply (isBoundary_of_getElem? h.getElem? _).isPlace
  rintro rfl
  exact h.visible (Or.inr (by decide))

theorem BeginsAt.offsetAt_eq (h : src.BeginsAt f i c) : src.offsetAt f.span.start = i := by
  rw [h.start_eq]
  exact h.isPlace

/-- Declarations that begin with different characters do not start at one position. -/
theorem BeginsAt.start_ne (hf : src.BeginsAt f i c) (hg : src.BeginsAt g j d) (h : c ≠ d) :
    f.span.start ≠ g.span.start := by
  rw [hf.start_eq, hg.start_eq, Ne, position_inj hf.isPlace hg.isPlace]
  rintro rfl
  exact h (Option.some.inj (hf.getElem?.symm.trans hg.getElem?))

theorem BeginsAt.start_lt (hf : src.BeginsAt f i c) (hg : src.BeginsAt g j d) (h : i < j) :
    f.span.start < g.span.start := by
  rw [hf.start_eq, hg.start_eq]
  exact position_lt hf.isPlace hg.isPlace h

/-- A declaration in script begins with no bracket. -/
theorem exists_beginsAt_ofHeader {found : Occurrence FunctionDecl.Header}
    (h : found ∈ (src.withoutComments dialect false).occurrencesIn none FunctionDecl.header) :
    ∃ c, src.BeginsAt (.ofHeader src (src.withoutComments dialect false).text found) found.start c ∧
      c ≠ '<' := by
  obtain ⟨place, later, hreaches, hoffset, hread⟩ := exists_place_of_mem_occurrences h
  obtain ⟨c, rest, hahead, hc⟩ := FunctionDecl.atVisible_of_header? hread
  refine ⟨c, ⟨rfl, ?_, hc⟩, ?_⟩
  · rw [← hoffset]
    exact (getElem?_of_visible (getElem?_of_reaches hreaches hahead) hc).1
  · rintro rfl
    have hnone := FunctionDecl.header?_eq_none (congrArg List.head? hahead)
    exact absurd (hnone.symm.trans hread) (by simp)

/-- A declaration in tag markup begins with one. -/
theorem beginsAt_ofTag? {found : Occurrence TagParts}
    (h : found ∈ (src.withoutComments .tag false).occurrencesIn none
      (Tag.pair "cffunction".toList)) {attributes body : Span}
    (hf : FunctionDecl.ofTag? (src.withoutComments .tag false)
      ⟨(src.withoutComments .tag false).spanOf found.stretch, attributes, body⟩ = some f) :
    src.BeginsAt f found.start '<' := by
  obtain ⟨place, later, hreaches, hoffset, hread⟩ := exists_place_of_mem_occurrences h
  obtain ⟨_, _, _, ⟨_, _, rfl, -⟩, hahead, -⟩ := Tag.exists_opening hread
  have hvisible : ¬ IsBlanked '<' := by
    rintro (hspace | hbreak)
    · exact absurd hspace (by decide)
    · exact absurd hbreak (by decide)
  refine ⟨?_, ?_, hvisible⟩
  · rw [FunctionDecl.span_of_ofTag? hf, spanOf_withoutComments]
    rfl
  · rw [← hoffset]
    exact (getElem?_of_visible (getElem?_of_reaches hreaches hahead) hvisible).1

/-! ## The order of functions -/

theorem pairwise_scriptFunctions (src : Source) (dialect : Dialect) :
    (src.scriptFunctions dialect).Pairwise fun f g => f.span.start < g.span.start := by
  rw [scriptFunctions, List.pairwise_map]
  apply (occurrences_pairwise_start FunctionDecl.header _).imp_of_mem
  intro o o' ho ho' hlt
  obtain ⟨c, hbegins, -⟩ := exists_beginsAt_ofHeader ho
  obtain ⟨d, hbegins', -⟩ := exists_beginsAt_ofHeader ho'
  exact hbegins.start_lt hbegins' hlt

theorem pairwise_tagFunctions (src : Source) :
    src.tagFunctions.Pairwise fun f g => f.span.start < g.span.start := by
  rw [tagFunctions, tags, List.pairwise_filterMap, List.pairwise_map]
  apply (occurrences_pairwise_start (Tag.pair "cffunction".toList) _).imp_of_mem
  intro o o' ho ho' hlt f hf g hg
  exact (beginsAt_ofTag? ho hf).start_lt (beginsAt_ofTag? ho' hg) hlt

theorem exists_beginsAt_of_mem_scriptFunctions (hf : f ∈ src.scriptFunctions dialect) :
    ∃ i c, src.BeginsAt f i c ∧ c ≠ '<' := by
  obtain ⟨found, hfound, rfl⟩ := List.mem_map.mp hf
  exact ⟨found.start, exists_beginsAt_ofHeader hfound⟩

theorem exists_beginsAt_of_mem_tagFunctions (hf : f ∈ src.tagFunctions) :
    ∃ i, src.BeginsAt f i '<' := by
  obtain ⟨tag, htag, hfunction⟩ := List.mem_filterMap.mp hf
  obtain ⟨found, hfound, rfl⟩ := List.mem_map.mp htag
  exact ⟨found.start, beginsAt_ofTag? hfound hfunction⟩

theorem exists_beginsAt_of_mem (hf : f ∈ src.scriptFunctions dialect ++ src.tagFunctions) :
    ∃ i c, src.BeginsAt f i c := by
  rcases List.mem_append.mp hf with hscript | htag
  · obtain ⟨i, c, hbegins, -⟩ := exists_beginsAt_of_mem_scriptFunctions hscript
    exact ⟨i, c, hbegins⟩
  · obtain ⟨i, hbegins⟩ := exists_beginsAt_of_mem_tagFunctions htag
    exact ⟨i, '<', hbegins⟩

/-- **No two functions start at one position**, whichever syntax they are declared in. -/
theorem pairwise_functions (src : Source) (dialect : Dialect) :
    (src.scriptFunctions dialect ++ src.tagFunctions).Pairwise
      fun f g => f.span.start ≠ g.span.start := by
  have hne : ∀ {p q : Position}, p < q → p ≠ q := by
    rintro p q hlt rfl
    exact Position.not_lt.mpr (Position.le_refl p) hlt
  refine List.pairwise_append.mpr ⟨(src.pairwise_scriptFunctions dialect).imp hne,
    src.pairwise_tagFunctions.imp hne, ?_⟩
  intro f hf g hg
  obtain ⟨i, c, hscript, hc⟩ := exists_beginsAt_of_mem_scriptFunctions hf
  obtain ⟨j, htag⟩ := exists_beginsAt_of_mem_tagFunctions hg
  exact hscript.start_ne htag hc

/-! ## Functions by name -/

/-- Of the functions that have a name, without regard to case, the one that starts last is kept. The
names stand in the order of their first declarations. -/
structure KeepsLast (functions : List FunctionDecl) (byName : Keyed FunctionDecl) : Prop where
  key_iff : ∀ key, key ∈ byName.map Prod.fst ↔ ∃ f ∈ functions, lower f.name = key
  distinct : byName.Distinct
  last : ∀ e ∈ byName, e.2 ∈ functions ∧ lower e.2.name = e.1 ∧
    ∀ g ∈ functions, lower g.name = e.1 → g ≠ e.2 → g.span.start < e.2.span.start
  inOrder : byName.Pairwise fun e e' => ∃ f ∈ functions, lower f.name = e.1 ∧
    ∀ g ∈ functions, lower g.name = e'.1 → f.span.start < g.span.start

variable {functions : List FunctionDecl}

/-- Where no two start at one position, what does not start before another one starts behind it. -/
theorem start_lt_of_ne (hapart : functions.Pairwise fun f g => f.span.start ≠ g.span.start)
    (hf : f ∈ functions) (hg : g ∈ functions) (hne : f ≠ g) (hle : f.span.start ≤ g.span.start) :
    f.span.start < g.span.start := by
  have : Std.Symm fun f g : FunctionDecl => f.span.start ≠ g.span.start :=
    ⟨fun _ _ h => h.symm⟩
  have hstart := hapart.forall hf hg hne
  by_contra hnot
  exact hstart (Position.le_antisymm hle (Position.not_lt.mp hnot))

/-- The name of which a function was put first has its first declaration first. -/
theorem pairwise_functionsByName
    (hapart : functions.Pairwise fun f g => f.span.start ≠ g.span.start) :
    (functionsByName functions).Pairwise fun e e' => ∃ f ∈ functions, lower f.name = e.1 ∧
      ∀ g ∈ functions, lower g.name = e'.1 → f.span.start < g.span.start := by
  have hperm := List.mergeSort_perm functions fun f g => f.span.start ≤ g.span.start
  have hsorted := Position.pairwise_mergeSort (fun f => f.span.start) functions
  have hkeys := List.pairwise_map.mp (Keyed.pairwise_keys_insertAll
    ((functions.mergeSort fun f g => f.span.start ≤ g.span.start).map fun f => (lower f.name, f)))
  have hdistinct : (functionsByName functions).Pairwise fun e e' => e.1 ≠ e'.1 :=
    List.pairwise_map.mp (Keyed.distinct_insertAll _)
  apply (hkeys.and hdistinct).imp
  rintro e e' ⟨⟨front, q, back, hsplit, hkey, hfront⟩, hne⟩
  obtain ⟨earlier, rest, hmerge, rfl, hrest⟩ := List.map_eq_append_iff.mp hsplit
  obtain ⟨f, later, rfl, rfl, rfl⟩ := List.map_eq_cons_iff.mp hrest
  rw [hmerge] at hperm hsorted
  have hf : f ∈ functions := hperm.mem_iff.mp (List.mem_append_right _ List.mem_cons_self)
  refine ⟨f, hf, hkey, ?_⟩
  intro g hg hname
  have hother : g ≠ f := by
    rintro rfl
    exact hne (hkey.symm.trans hname)
  -- a function of the other name stands behind this one
  rcases List.mem_append.mp (hperm.mem_iff.mpr hg) with hearlier | hlater
  · exact absurd hname (hfront _ (List.mem_map_of_mem hearlier))
  · have hlater := (List.mem_cons.mp hlater).resolve_left hother
    have hle := List.rel_of_pairwise_cons (List.pairwise_append.mp hsorted).2.1 hlater
    exact start_lt_of_ne hapart hf hg hother.symm hle

/-- **Of several functions with one name the last one is kept.** -/
theorem keepsLast_functionsByName
    (hapart : functions.Pairwise fun f g => f.span.start ≠ g.span.start) :
    KeepsLast functions (functionsByName functions) where
  key_iff key := by
    constructor
    · intro hkey
      obtain ⟨e, he, rfl⟩ := List.mem_map.mp hkey
      obtain ⟨hmem, hname, -⟩ := of_mem_functionsByName he
      exact ⟨e.2, hmem, hname.symm⟩
    · rintro ⟨f, hf, rfl⟩
      obtain ⟨g, hg⟩ := exists_mem_functionsByName hf
      exact List.mem_map.mpr ⟨_, hg, rfl⟩
  distinct := Keyed.distinct_insertAll _
  last e he := by
    obtain ⟨hmem, hname, hlast⟩ := of_mem_functionsByName he
    refine ⟨hmem, hname.symm, ?_⟩
    intro g hg hsame hne
    exact start_lt_of_ne hapart hg hmem hne (hlast g hg hsame)
  inOrder := pairwise_functionsByName hapart

/-! ## Variables before the functions -/

/-- Each variable stands between the end of the head and the start of the first function, or the end
of the text, and there is none where a function starts before the end of the head. -/
structure StandBetween (src : Source) (head : ComponentHead) (functions : List FunctionDecl)
    (assignments : List Assignment) : Prop where
  behind_head : ∀ a ∈ assignments, src.position head.stop ≤ a.span.start
  before_functions : ∀ a ∈ assignments, ∀ f ∈ functions, a.span.stop ≤ f.span.start
  before_stop : ∀ a ∈ assignments, a.span.stop ≤ src.stop
  eq_nil : (∃ f ∈ functions, f.span.start < src.position head.stop) → assignments = []

/-- What is assigned to within a stretch stands there, and the stretch is not empty. -/
theorem within_of_mem_assignments {s : Stretch} (hstart : src.IsPlace s.start)
    (hstop : src.IsPlace s.stop) {a : Assignment}
    (h : a ∈ src.assignments dialect (some (src.spanOf s))) :
    src.position s.start ≤ a.span.start ∧ a.span.stop ≤ src.position s.stop ∧
      s.start < s.stop := by
  have hbounds : (src.withoutComments dialect false).bounds (some (src.spanOf s))
      = (s.start, s.stop) :=
    (bounds_of_sameBreaks (src.sameBreaks_withoutComments dialect false) _).trans
      (bounds_spanOf hstart hstop)
  obtain ⟨found, hfound, rfl⟩ := List.mem_map.mp h
  rw [occurrencesIn, hbounds] at hfound
  obtain ⟨place, later, hreaches, -, hread⟩ := exists_place_of_mem_occurrences hfound
  obtain ⟨name, hname, ⟨c, rest, hahead, -⟩, hnameStart, hnameStop⟩ :=
    Assignment.nameAhead_of_pattern hread
  have hreaches := hreaches.trans hname
  -- what is ahead of the name ends where the stretch does
  have hle : s.start ≤ name.offset := hreaches.offset_le
  have hlength := hreaches.offset_add_length
  have hslice : ((src.withoutComments dialect false).slice s.start s.stop).length
      ≤ s.stop - s.start := List.length_take_le _ _
  have hpos : 0 < name.ahead.length := by
    rw [hahead]
    exact Nat.zero_lt_succ _
  have hahead : name.offset + name.ahead.length ≤ s.stop := by
    simp only [reader, Reader.ofText] at hlength
    omega
  refine ⟨position_mono _ ?_, position_mono _ ?_, by omega⟩
  · exact hle.trans hnameStart.ge
  · exact hnameStop.trans hahead

/-- The offset of the first function, or that of the end of the text if there is none. -/
def firstStart (src : Source) (functions : List FunctionDecl) : Nat :=
  (functions.map fun f => src.offsetAt f.span.start).foldl min src.length

theorem min?_firstStart (src : Source) (functions : List FunctionDecl) :
    (src.length :: functions.map fun f => src.offsetAt f.span.start).min?
      = some (src.firstStart functions) := List.min?_cons'

theorem firstStart_le_length (src : Source) (functions : List FunctionDecl) :
    src.firstStart functions ≤ src.length :=
  (List.min?_eq_some_iff.mp (src.min?_firstStart functions)).2 _ List.mem_cons_self

/-- No function starts before it. -/
theorem position_firstStart_le (hf : f ∈ functions) (hbegins : src.BeginsAt f i c) :
    src.position (src.firstStart functions) ≤ f.span.start := by
  have hmem : src.offsetAt f.span.start ∈
      src.length :: functions.map fun f => src.offsetAt f.span.start :=
    List.mem_cons_of_mem _ (List.mem_map_of_mem hf)
  have hle := (List.min?_eq_some_iff.mp (src.min?_firstStart functions)).2 _ hmem
  rw [hbegins.offsetAt_eq] at hle
  rw [hbegins.start_eq]
  exact src.position_mono hle

theorem isPlace_firstStart (h : ∀ f ∈ functions, ∃ i c, src.BeginsAt f i c) :
    src.IsPlace (src.firstStart functions) := by
  have hmem := (List.min?_eq_some_iff.mp (src.min?_firstStart functions)).1
  rcases List.mem_cons.mp hmem with hlength | hstart
  · rw [hlength]
    exact src.isBoundary_length.isPlace
  · obtain ⟨f, hf, heq⟩ := List.mem_map.mp hstart
    obtain ⟨i, c, hbegins⟩ := h f hf
    rw [← heq, hbegins.offsetAt_eq]
    exact hbegins.isPlace

/-- **Variables stand between head and functions.** -/
theorem standBetween_assignments {head : ComponentHead}
    (hhead : ComponentHead.find? src.text = some head)
    (h : ∀ f ∈ functions, ∃ i c, src.BeginsAt f i c) :
    let first := src.firstStart functions
    let before := src.spanOf ⟨min head.stop first, first, Nat.min_le_right _ _⟩
    StandBetween src head functions (src.assignments dialect (some before)) := by
  intro first before
  have hstop := isPlace_firstStart h
  have hstart : src.IsPlace (min head.stop first) := by
    rcases Nat.le_total head.stop first with hle | hle
    · rw [Nat.min_eq_left hle]
      exact (ComponentHead.isBoundary_stop hhead).isPlace
    · rw [Nat.min_eq_right hle]
      exact hstop
  -- where there is a variable the head ends before the first function
  have hwithin : ∀ a ∈ src.assignments dialect (some before),
      src.position head.stop ≤ a.span.start ∧ a.span.stop ≤ src.position first ∧
        head.stop < first := by
    intro a ha
    obtain ⟨hbehind, hbefore, hlt⟩ := within_of_mem_assignments hstart hstop ha
    have hmin : min head.stop first = head.stop := by
      simp only at hlt
      omega
    simp only [hmin] at hbehind hlt
    exact ⟨hbehind, hbefore, hlt⟩
  have hfirst : ∀ f ∈ functions, src.position first ≤ f.span.start := by
    intro f hf
    obtain ⟨i, c, hbegins⟩ := h f hf
    exact position_firstStart_le hf hbegins
  exact {
    behind_head a ha := (hwithin a ha).1
    before_functions a ha f hf := Position.le_trans (hwithin a ha).2.1 (hfirst f hf)
    before_stop a ha := Position.le_trans (hwithin a ha).2.1
      (src.position_mono (src.firstStart_le_length functions))
    eq_nil := by
      rintro ⟨f, hf, hlt⟩
      apply List.eq_nil_iff_forall_not_mem.mpr
      intro a ha
      have hle := Position.le_trans (src.position_mono (hwithin a ha).2.2.le) (hfirst f hf)
      exact Position.not_lt.mpr hle hlt }

/-! ## The component -/

/-- The component has the last function of each name, and the variables before the functions. -/
structure IsAssembled (src : Source) (head : ComponentHead) (component : Component) : Prop where
  functions : KeepsLast (src.scriptFunctions head.dialect ++ src.tagFunctions) component.functions
  assignments : StandBetween src head (src.scriptFunctions head.dialect ++ src.tagFunctions)
    component.assignments

/-- **How a component is assembled.** Where there is a head there is a component, unless one of its
dot paths stands for no file. Under the name of each function that is found in script or in tag
markup, in lower case, it has the function of that name that starts last, in the order of the first
declarations. Its variables stand between the end of the head and the first function. -/
theorem component?_assembled (isFile : Path → Bool) (resolver : Resolver) (src : Source)
    (session : Session) {head : ComponentHead}
    (hhead : ComponentHead.find? src.text = some head) :
    let result := ((src.component? isFile resolver).run.run session).1
    (∃ component, result = .ok (some component) ∧ src.IsAssembled head component) ∨
      ∃ e, result = .error e ∧
        ∃ entry ∈ src.componentDotPaths, resolver.Stumbles session.cache src.path entry.1 := by
  intro result
  have hcases := component?_cases isFile resolver src session
  rw [hhead] at hcases
  simp only at hcases
  split at hcases
  · next e hlookups =>
    exact Or.inr ⟨e, hcases, exists_mapM_answered_eq_error_iff.mp ⟨e, hlookups⟩⟩
  · obtain ⟨extending, implementing, -, hresult⟩ := hcases
    refine Or.inl ⟨_, hresult, ?_, ?_⟩
    · exact keepsLast_functionsByName (src.pairwise_functions head.dialect)
    · exact standBetween_assignments hhead fun f hf => exists_beginsAt_of_mem hf

/-- A component with a variable, and with a function that is declared in both syntaxes. -/
def withBothSyntaxes : Source :=
  ofText ("component \x7bx=1; function f()\x7b\x7d ".toList ++
    "<cffunction name=\"F\"></cffunction>\x7d".toList) none

/-- The function in tag markup is the last one, and is kept. -/
theorem component?_assembled_bothSyntaxes :
    ∃ head component, ComponentHead.find? withBothSyntaxes.text = some head ∧
      ((withBothSyntaxes.component? (fun _ => false) ⟨[]⟩).run.run {}).1 = .ok (some component) ∧
      withBothSyntaxes.IsAssembled head component ∧
      component.assignments.map (·.identifier) = [['x']] ∧
      ∃ e ∈ component.functions, e.1 = ['f'] ∧ e.2.dialect = .tag := by
  let result := ((withBothSyntaxes.component? (fun _ => false) ⟨[]⟩).run.run {}).1
  have hscript : (ComponentHead.find? withBothSyntaxes.text).map (·.dialect) = some .script := by
    decide +kernel
  have hresult : result.toOption.join.map
      (fun component => component.assignments.map (·.identifier)) = some [['x']] := by
    decide +kernel
  have hdeclared : (withBothSyntaxes.scriptFunctions .script ++ withBothSyntaxes.tagFunctions).map
      (fun f => (lower f.name, f.dialect, f.span.start))
      = [(['f'], .script, ⟨0, 16⟩), (['f'], .tag, ⟨0, 31⟩)] := by
    decide +kernel
  obtain ⟨head, hhead, hdialect⟩ := Option.map_eq_some_iff.mp hscript
  rcases component?_assembled (fun _ => false) ⟨[]⟩ withBothSyntaxes {} hhead with
    ⟨component, hcomponent, hassembled⟩ | ⟨e, herror, -⟩
  · rw [show result = _ from hcomponent] at hresult
    refine ⟨head, component, hhead, hcomponent, hassembled, Option.some.inj hresult, ?_⟩
    have hfunctions := hassembled.functions
    rw [hdialect] at hfunctions
    generalize withBothSyntaxes.scriptFunctions .script ++ withBothSyntaxes.tagFunctions
      = functions at hdeclared hfunctions
    obtain ⟨f, rest, rfl, hf, hrest⟩ := List.map_eq_cons_iff.mp hdeclared
    obtain ⟨g, rfl, hg⟩ := List.map_eq_singleton_iff.mp hrest
    obtain ⟨hfname, hfdialect, hfstart⟩ := by simpa using hf
    obtain ⟨hgname, hgdialect, hgstart⟩ := by simpa using hg
    obtain ⟨e, he, hkey⟩ := List.mem_map.mp ((hfunctions.key_iff ['f']).mpr ⟨f, by simp, hfname⟩)
    refine ⟨e, he, hkey, ?_⟩
    obtain ⟨hmem, -, hlast⟩ := hfunctions.last e he
    rcases List.mem_pair.mp hmem with heq | heq
    -- the one in script does not start last
    · have hne : g ≠ f := by
        rintro rfl
        exact absurd (hfdialect.symm.trans hgdialect) (by decide)
      have hlt := hlast g (by simp) (hgname.trans hkey.symm) (heq ▸ hne)
      rw [heq, hfstart, hgstart] at hlt
      exact absurd hlt (by decide)
    · rw [heq, hgdialect]
  · rw [show result = _ from herror] at hresult
    exact absurd hresult (by simp [Except.toOption])

end Source

end Cfml
