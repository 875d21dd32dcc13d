/-
The workspace root is chosen from a set of roots.

A root contains a path if parts lead from it to the path. The roots that contain a path are above
one another (`Path.isUnder_of_length_le`), so the one with the most parts lies under all others, and
it is the only one that does. What is chosen is therefore decided by which roots there are, and not
by how they are listed; and a lookup knows of the roots only what is chosen
(`Resolver.workspaceRoot?_decided`).
-/
import Cfml.Proofs.Resolver.Lookup
import Mathlib.Tactic.Tauto

set_option autoImplicit false

namespace Cfml

variable {path p q root : Path} {resolver other : Resolver}

/-! ## Paths above a path -/

/-- To be under a path is to be reached from it by parts. -/
theorem Path.isUnder_iff_exists_below : p.isUnder q = true ↔ ∃ parts, p = q.below parts := by
  rw [Resolver.isUnder_iff]
  constructor
  · rintro ⟨hroot, parts, hparts⟩
    refine ⟨parts, ?_⟩
    rw [below, ← hroot, hparts]
  · rintro ⟨parts, rfl⟩
    exact ⟨rfl, List.prefix_append q.parts parts⟩

/-- **The paths above a path are above one another**: the one with more parts is under the other
one. -/
theorem Path.isUnder_of_length_le (hp : path.isUnder p = true) (hq : path.isUnder q = true)
    (h : p.parts.length ≤ q.parts.length) : q.isUnder p = true := by
  obtain ⟨hrootp, hpartsp⟩ := Resolver.isUnder_iff.mp hp
  obtain ⟨hrootq, hpartsq⟩ := Resolver.isUnder_iff.mp hq
  exact Resolver.isUnder_iff.mpr
    ⟨hrootq.symm.trans hrootp, List.prefix_of_prefix_length_le hpartsp hpartsq h⟩

namespace Resolver

/-! ## The root that is chosen -/

/-- A root that contains the path, and that every other such root contains. -/
structure IsInnermost (roots : List Path) (path root : Path) : Prop where
  mem : root ∈ roots
  contains : ∃ parts, path = root.below parts
  innermost : ∀ outer ∈ roots, (∃ parts, path = outer.below parts) →
    ∃ parts, root = outer.below parts

/-- The deepest root is the innermost one. -/
theorem isDeepestRoot_iff :
    resolver.IsDeepestRoot path root ↔ IsInnermost resolver.roots path root := by
  constructor
  · intro h
    refine ⟨h.mem, Path.isUnder_iff_exists_below.mp h.isUnder, ?_⟩
    intro outer houter hcontains
    have hunder := Path.isUnder_iff_exists_below.mpr hcontains
    have hlength := h.deepest outer houter hunder
    exact Path.isUnder_iff_exists_below.mp (Path.isUnder_of_length_le hunder h.isUnder hlength)
  · intro h
    refine ⟨h.mem, Path.isUnder_iff_exists_below.mpr h.contains, ?_⟩
    intro outer houter hunder
    obtain ⟨parts, rfl⟩ :=
      h.innermost outer houter (Path.isUnder_iff_exists_below.mp hunder)
    simp [Path.below]

theorem workspaceRoot?_eq_some_iff :
    resolver.workspaceRoot? path = some root ↔ IsInnermost resolver.roots path root := by
  rw [← isDeepestRoot_iff]
  constructor
  · exact workspaceRoot?_eq_some
  · intro h
    cases hfound : resolver.workspaceRoot? path with
    | none => exact absurd h (workspaceRoot?_eq_none hfound root)
    | some found => rw [(workspaceRoot?_eq_some hfound).unique h]

theorem workspaceRoot?_eq_none_iff :
    resolver.workspaceRoot? path = none ↔
      ∀ root ∈ resolver.roots, ¬ ∃ parts, path = root.below parts := by
  have hspec := workspaceRoot?_spec resolver path
  cases hfound : resolver.workspaceRoot? path with
  | none =>
    rw [hfound] at hspec
    simp only [true_iff, ← Path.isUnder_iff_exists_below, Bool.not_eq_true]
    exact hspec
  | some found =>
    rw [hfound] at hspec
    refine iff_of_false (by simp) fun hnone => ?_
    exact hnone found hspec.mem (Path.isUnder_iff_exists_below.mp hspec.isUnder)

/-- Where the roots are the same, the same one is chosen. -/
theorem workspaceRoot?_congr (h : ∀ root, root ∈ other.roots ↔ root ∈ resolver.roots) :
    other.workspaceRoot? = resolver.workspaceRoot? := by
  funext path
  apply Option.ext
  intro root
  have hroots : IsInnermost other.roots path root ↔ IsInnermost resolver.roots path root := by
    constructor
    · exact fun hin => ⟨(h root).mp hin.mem, hin.contains,
        fun outer houter => hin.innermost outer ((h outer).mpr houter)⟩
    · exact fun hin => ⟨(h root).mpr hin.mem, hin.contains,
        fun outer houter => hin.innermost outer ((h outer).mp houter)⟩
  rw [workspaceRoot?_eq_some_iff, workspaceRoot?_eq_some_iff, hroots]

/-- A lookup knows of the roots only the one that is chosen. -/
theorem resolve_congr (h : other.workspaceRoot? = resolver.workspaceRoot?) (isFile : Path → Bool)
    (dotPath : List Char) (referring : Option Path) :
    other.resolve isFile dotPath referring = resolver.resolve isFile dotPath referring := by
  simp only [resolve, lookup, h]

/-- **The roots decide, and not how they are listed.** There is no workspace root exactly if no root
contains the path; otherwise it is the one listed root that contains the path and that every other
such root contains. From lists with the same roots, in any order and however often, the same one is
chosen; and each lookup gives the same answer and leaves the same session behind, from whichever
session it starts, so the answers stay the same from an empty cache on. -/
theorem workspaceRoot?_decided (resolver : Resolver) :
    (∀ path, resolver.workspaceRoot? path = none ↔
      ∀ root ∈ resolver.roots, ¬ ∃ parts, path = root.below parts) ∧
    (∀ path root, resolver.workspaceRoot? path = some root ↔
      IsInnermost resolver.roots path root) ∧
    ∀ other : Resolver, (∀ root, root ∈ other.roots ↔ root ∈ resolver.roots) →
      (∀ path, other.workspaceRoot? path = resolver.workspaceRoot? path) ∧
      ∀ (isFile : Path → Bool) (dotPath : List Char) (referring : Option Path) (session : Session),
        (other.resolve isFile dotPath referring).run.run session
          = (resolver.resolve isFile dotPath referring).run.run session := by
  refine ⟨fun _ => workspaceRoot?_eq_none_iff, fun _ _ => workspaceRoot?_eq_some_iff, ?_⟩
  intro other hroots
  have hchosen := workspaceRoot?_congr hroots
  refine ⟨congrFun hchosen, ?_⟩
  intro isFile dotPath referring session
  rw [resolve_congr hchosen]

/-- A directory with another one in it. -/
def application : Path := ⟨.none, ["app".toList]⟩

/-- The directory within the other one. -/
def widgets : Path := ⟨.none, ["app".toList, "widgets".toList]⟩

/-- Relative roots within each other, one of them listed twice, and the same ones in another order:
the innermost one is chosen, and a dot path is found under it. -/
theorem workspaceRoot?_decided_nested :
    let listed : Resolver := ⟨[application, Path.here, widgets, Path.here]⟩
    let relisted : Resolver := ⟨[widgets, Path.here, application, application]⟩
    let button := widgets.below ["forms".toList, "Button.cfc".toList]
    let base := widgets.below ["Base.cfc".toList]
    (∀ root, root ∈ relisted.roots ↔ root ∈ listed.roots) ∧
      relisted.workspaceRoot? button = some widgets ∧
      ((relisted.resolve (· == base) "Base".toList (some button)).run.run {}).1
        = .ok (some base) := by
  intro listed relisted button base
  have hroots : ∀ root, root ∈ relisted.roots ↔ root ∈ listed.roots := by
    intro root
    simp only [listed, relisted, List.mem_cons, List.not_mem_nil, or_false]
    tauto
  obtain ⟨hchosen, hanswer⟩ := (workspaceRoot?_decided listed).2.2 relisted hroots
  refine ⟨hroots, (hchosen button).trans (by decide), ?_⟩
  rw [hanswer]
  decide +kernel

end Resolver

end Cfml
