/-
What a component extends and implements.

The value that counts for `extends` becomes one reference, unless it is blank, and each entry of the
value that counts for `implements` becomes one, in order. A reference for which the resolver has a
target is what the component extends or implements, and any other one is unresolved
(`component?_references`). The span of a reference lies in the span of the value, and where the
value is written on one line the spans of its entries are those of their last segments, one behind
the other (`exists_of_listedSegment`, `pairwise_listedDotPaths`).
-/
import Cfml.Proofs.Component.Lookups
import Cfml.Proofs.Component.WrittenValues

set_option autoImplicit false

namespace Cfml

/-! ## Entries between commas -/

variable {src : Source} {text : List Char} {offset : Nat} {found : Occurrence Capture}

namespace Source

variable {value : WrittenValue} {s : Stretch}

variable {isFile : Path → Bool} {resolver : Resolver} {session : Session} {head : ComponentHead}

/-- Lookups of which none fails have answers. -/
theorem exists_mapM_answered_eq_ok {entries : List (List Char × Span)}
    (h : ∀ entry ∈ entries, ¬ resolver.Stumbles session.cache src.path entry.1) :
    ∃ references, entries.mapM (answered isFile resolver session.cache src) = .ok references := by
  cases hlookups : entries.mapM (answered isFile resolver session.cache src) with
  | ok references => exact ⟨references, rfl⟩
  | error e =>
    obtain ⟨entry, hentry, hstumbles⟩ := exists_mapM_answered_eq_error_iff.mp ⟨e, hlookups⟩
    exact absurd hstumbles (h entry hentry)

/-- Where no lookup fails, there is one reference for what is extended and one for each dot path
that is implemented. -/
theorem exists_component?_answered (hhead : ComponentHead.find? src.text = some head)
    (hanswers : ∀ entry ∈ src.componentDotPaths,
      ¬ resolver.Stumbles session.cache src.path entry.1) :
    ∃ extending implementing,
      ((src.component? isFile resolver).run.run session).1
          = .ok (some (src.declaredComponent head extending implementing)) ∧
        (src.extendedDotPath (head.winning? src "extends".toList)).toList.mapM
            (answered isFile resolver session.cache src) = .ok extending.toList ∧
        (src.implementedDotPaths (head.winning? src "implements".toList)).mapM
            (answered isFile resolver session.cache src) = .ok implementing := by
  have hextends : (head.written src).find? "extends".toList
      = head.winning? src "extends".toList := head.find?_written src (by decide)
  have himplements : (head.written src).find? "implements".toList
      = head.winning? src "implements".toList := head.find?_written src (by decide)
  obtain ⟨first, hfirst, hextending⟩ :=
    gives_extendedReference isFile resolver session.cache src (head.winning? src "extends".toList)
  have hsecond := gives_implementedReferences isFile resolver session.cache src
    (head.winning? src "implements".toList)
  have hentries : src.componentDotPaths
      = (src.extendedDotPath (head.winning? src "extends".toList)).toList ++
        src.implementedDotPaths (head.winning? src "implements".toList) := by
    rw [componentDotPaths, hhead, ← hextends, ← himplements]
    rfl
  rw [hentries] at hanswers
  obtain ⟨references, hreferences⟩ := exists_mapM_answered_eq_ok fun entry hentry =>
    hanswers entry (List.mem_append_left _ hentry)
  obtain ⟨implementing, himplementing⟩ := exists_mapM_answered_eq_ok fun entry hentry =>
    hanswers entry (List.mem_append_right _ hentry)
  rw [hreferences] at hextending
  cases first with
  | error e => exact absurd hextending (by simp [Except.map])
  | ok extending =>
    obtain rfl := Except.ok.inj hextending
    refine ⟨extending, implementing, ?_, hreferences, himplementing⟩
    rw [himplementing] at hsecond
    have hgives : Resolution.Gives isFile session.cache (src.component? isFile resolver)
        (.ok (some (src.declaredComponent head extending implementing))) := by
      simp only [component?, hhead, componentOfHead, hextends, himplements]
      exact (hfirst.bind fun extending => hsecond.bind fun implementing =>
        (Resolution.gives_note _).bind fun _ => Resolution.gives_pure
          (src.declaredComponent head extending implementing)).bind fun component =>
            Resolution.gives_pure (some component)
    exact hgives.fst_run

end Source

namespace Source

variable {head : ComponentHead} {extending : Option Reference} {implementing : List Reference}

/-- The reference for what is extended has the name in the value, and the span of its last
segment. -/
theorem rel_extendedDotPath {found : Option WrittenValue}
    (h : extending.toList.map (fun r => (r.dotPath, r.span))
      = (src.extendedDotPath found).toList) :
    Option.Rel (fun value r => value ∈ found ∧ r.dotPath = trim value.text ∧
        r.span = src.lastSegmentSpan value)
      (found.filter fun value => !(trim value.text).isEmpty) extending := by
  rw [extendedDotPath] at h
  cases hvalue : found.filter fun value => !(trim value.text).isEmpty with
  | none =>
    rw [hvalue] at h
    cases extending with
    | none => exact .none
    | some r => exact absurd h (by simp)
  | some value =>
    rw [hvalue] at h
    cases extending with
    | none => exact absurd h (by simp)
    | some r =>
      obtain ⟨hpath, hspan⟩ := Prod.mk.inj (List.cons.inj h).1
      exact .some ⟨(Option.filter_eq_some_iff.mp hvalue).1, hpath, hspan⟩

end Source

end Cfml
