/-
What a component looks up.

Reading a component never gets stuck over what is written in the source: whatever the text, there
is a component exactly if there is a head, and no span in it ends before it starts, which is part of
the type. The one step that can fail is the lookup of what the component extends and implements. It
fails for a dot path whose last segment consists of slashes, because no file has such a name
(`component?_spec`). Every other dot path becomes a reference, with the file that the resolver
answers, or one of the unresolved ones.
-/
import Cfml.Component.Basic
import Cfml.Proofs.Resolver.Answer

set_option autoImplicit false

namespace Cfml

/-! ## The dot paths that are looked up -/

/-- The dot paths that the declaration of a component names, with their spans: what it extends, and
then what it implements. -/
def ComponentHead.dotPaths (src : Source) (head : ComponentHead) : List (List Char × Span) :=
  (src.extendedDotPath ((head.written src).find? "extends".toList)).toList ++
    src.implementedDotPaths ((head.written src).find? "implements".toList)

namespace Source

/-- The dot paths that the component in a source names; none if there is no component in it. -/
def componentDotPaths (src : Source) : List (List Char × Span) :=
  match ComponentHead.find? src.text with
  | none => []
  | some head => head.dotPaths src

/-! ## The lookups, one by one -/

variable (isFile : Path → Bool) (resolver : Resolver) (cache : PathCache) (src : Source)

/-- The reference that a dot path becomes if the resolver has an answer. -/
def answered (entry : List Char × Span) : Except EmptyName Reference := do
  return ⟨entry.1, entry.2, ← resolver.answer isFile cache entry.1 src.path⟩

theorem gives_reference (dotPath : List Char) (span : Span) :
    Resolution.Gives isFile cache (src.reference isFile resolver dotPath span)
      (answered isFile resolver cache src (dotPath, span)) :=
  (Resolution.gives_resolve resolver dotPath src.path).bind fun _ => Resolution.gives_pure _

/-- What a component extends is the one reference, or none. -/
theorem gives_extendedReference (value : Option WrittenValue) : ∃ result,
    Resolution.Gives isFile cache (src.extendedReference isFile resolver value) result ∧
      result.map Option.toList
        = (src.extendedDotPath value).toList.mapM (answered isFile resolver cache src) := by
  rw [extendedReference]
  cases src.extendedDotPath value with
  | none => exact ⟨_, Resolution.gives_pure none, rfl⟩
  | some entry =>
    obtain ⟨dotPath, span⟩ := entry
    have hreference := gives_reference isFile resolver cache src dotPath span
    refine ⟨_, hreference.bind fun r => Resolution.gives_pure (some r), ?_⟩
    rw [Option.toList_some, List.mapM_cons, List.mapM_nil]
    cases answered isFile resolver cache src (dotPath, span) <;> rfl

theorem gives_implementedReferences (value : Option WrittenValue) :
    Resolution.Gives isFile cache (src.implementedReferences isFile resolver value)
      ((src.implementedDotPaths value).mapM (answered isFile resolver cache src)) := by
  rw [implementedReferences]
  refine Resolution.gives_mapM ?_ _
  rintro ⟨dotPath, span⟩
  exact gives_reference isFile resolver cache src dotPath span

/-- **All lookups of a component.** It is the component with the references that they give, and if
one of them fails there is none. -/
theorem gives_componentOfHead (head : ComponentHead) : ∃ result,
    Resolution.Gives isFile cache (src.componentOfHead isFile resolver head) result ∧
      match (head.dotPaths src).mapM (answered isFile resolver cache src) with
      | .error e => result = .error e
      | .ok references => ∃ extending implementing, references = extending.toList ++ implementing ∧
          result = .ok (src.declaredComponent head extending implementing) := by
  obtain ⟨first, hfirst, hextending⟩ := gives_extendedReference isFile resolver cache src
    ((head.written src).find? "extends".toList)
  have hsecond := gives_implementedReferences isFile resolver cache src
    ((head.written src).find? "implements".toList)
  rw [componentOfHead]
  refine ⟨_, hfirst.bind fun extending => hsecond.bind fun implementing =>
    (Resolution.gives_note _).bind fun _ => Resolution.gives_pure
      (src.declaredComponent head extending implementing), ?_⟩
  rw [ComponentHead.dotPaths, List.mapM_append, ← hextending]
  cases first with
  | error e => rfl
  | ok extending =>
    cases (src.implementedDotPaths ((head.written src).find? "implements".toList)).mapM
        (answered isFile resolver cache src) with
    | error e => rfl
    | ok implementing => exact ⟨extending, implementing, rfl, rfl⟩

variable {isFile resolver cache src}

theorem answered_eq_error_iff {entry : List Char × Span} {e : EmptyName} :
    answered isFile resolver cache src entry = .error e ↔
      resolver.Stumbles cache src.path entry.1 ∧ e = ⟨DotPath.segmentPath (trim entry.1)⟩ := by
  rw [← Resolver.answer_eq_error_iff, answered]
  cases resolver.answer isFile cache entry.1 src.path <;>
    simp [bind, Except.bind, pure, Except.pure]

theorem answered_eq_ok_iff {entry : List Char × Span} {r : Reference} :
    answered isFile resolver cache src entry = .ok r ↔
      (r.dotPath, r.span) = entry ∧
        resolver.answer isFile cache r.dotPath src.path = .ok r.target := by
  obtain ⟨dotPath, span⟩ := entry
  obtain ⟨dotPath', span', target⟩ := r
  rw [answered]
  constructor
  · intro h
    cases hanswer : resolver.answer isFile cache dotPath src.path with
    | error e =>
      rw [hanswer] at h
      exact absurd h (by simp [bind, Except.bind])
    | ok found =>
      rw [hanswer] at h
      cases h
      exact ⟨rfl, hanswer⟩
  · rintro ⟨heq, hanswer⟩
    cases heq
    rw [hanswer]
    rfl

/-- The first dot path without an answer ends the lookups. -/
theorem mapM_answered_eq_error_iff {entries : List (List Char × Span)} {e : EmptyName} :
    entries.mapM (answered isFile resolver cache src) = .error e ↔
      ∃ front entry back, entries = front ++ entry :: back ∧
        (∀ other ∈ front, ¬ resolver.Stumbles cache src.path other.1) ∧
        resolver.Stumbles cache src.path entry.1 ∧
        e = ⟨DotPath.segmentPath (trim entry.1)⟩ := by
  have hnone : ∀ other : List Char × Span,
      (∀ e, answered isFile resolver cache src other ≠ .error e) ↔
        ¬ resolver.Stumbles cache src.path other.1 := by
    intro other
    simp [answered_eq_error_iff]
  rw [mapM_eq_error_iff]
  simp only [hnone, answered_eq_error_iff]

theorem exists_mapM_answered_eq_error_iff {entries : List (List Char × Span)} :
    (∃ e, entries.mapM (answered isFile resolver cache src) = .error e) ↔
      ∃ entry ∈ entries, resolver.Stumbles cache src.path entry.1 := by
  constructor
  · rintro ⟨e, he⟩
    obtain ⟨front, entry, back, rfl, -, hstumbles, -⟩ := mapM_answered_eq_error_iff.mp he
    exact ⟨entry, by simp, hstumbles⟩
  · rintro ⟨entry, hentry, hstumbles⟩
    cases hlookups : entries.mapM (answered isFile resolver cache src) with
    | error e => exact ⟨e, rfl⟩
    | ok references =>
      -- then the entry would have been answered too
      obtain ⟨i, hi, rfl⟩ := List.getElem_of_mem hentry
      have hall := mapM_eq_ok_iff.mp hlookups
      have hanswered := hall.get hi (hall.length_eq ▸ hi)
      rw [List.get_eq_getElem, answered_eq_error_iff.mpr ⟨hstumbles, rfl⟩] at hanswered
      exact absurd hanswered (by simp)

/-- If all have an answer, each becomes its reference. -/
theorem mapM_answered_eq_ok {entries : List (List Char × Span)} {references : List Reference}
    (h : entries.mapM (answered isFile resolver cache src) = .ok references) :
    references.map (fun r => (r.dotPath, r.span)) = entries ∧
      ∀ r ∈ references, resolver.answer isFile cache r.dotPath src.path = .ok r.target := by
  have hall := mapM_eq_ok_iff.mp h
  clear h
  induction hall with
  | nil => exact ⟨rfl, by simp⟩
  | cons hfirst _ ih =>
    obtain ⟨rfl, hanswer⟩ := answered_eq_ok_iff.mp hfirst
    exact ⟨congrArg _ ih.1, List.forall_mem_cons.mpr ⟨hanswer, ih.2⟩⟩

/-- With a head the component is the one of the head, and none if a lookup fails; without a head
there is none and nothing is looked up. -/
theorem component?_cases (isFile : Path → Bool) (resolver : Resolver) (src : Source)
    (session : Session) :
    let result := ((src.component? isFile resolver).run.run session).1
    match ComponentHead.find? src.text with
    | none => src.componentDotPaths = [] ∧ result = .ok none
    | some head =>
      match src.componentDotPaths.mapM (answered isFile resolver session.cache src) with
      | .error e => result = .error e
      | .ok references => ∃ extending implementing, references = extending.toList ++ implementing ∧
          result = .ok (some (src.declaredComponent head extending implementing)) := by
  intro result
  cases hhead : ComponentHead.find? src.text with
  | none =>
    refine ⟨by rw [componentDotPaths, hhead], ?_⟩
    simp only [result, component?, hhead]
    rfl
  | some head =>
    obtain ⟨found, hgives, hfound⟩ :=
      gives_componentOfHead isFile resolver session.cache src head
    -- behind the lookups nothing can fail
    have hresult : result = found.map some := by
      have hbind := (hgives.bind fun c => Resolution.gives_pure (some c)).fst_run
      simp only [result, component?, hhead]
      rw [hbind]
      cases found <;> rfl
    have hentries : src.componentDotPaths = head.dotPaths src := by rw [componentDotPaths, hhead]
    rw [hentries, hresult]
    simp only
    cases hlookups : (head.dotPaths src).mapM (answered isFile resolver session.cache src) with
    | error e =>
      rw [hlookups] at hfound
      rw [hfound]
      rfl
    | ok references =>
      rw [hlookups] at hfound
      obtain ⟨extending, implementing, hsplit, rfl⟩ := hfound
      exact ⟨extending, implementing, hsplit, rfl⟩

end Source

end Cfml
