/-
What one lookup does.

`Resolver.resolve` threads a session through its steps. The two equations of the section "One
lookup" say what it answers and what it leaves behind, and everything else about lookups is derived
from them.

`Finds` says what a dot path is meant to name, in the words of the rule: the file next to the
referring file, else the file under the deepest root that contains it, else nothing. The walk over
the candidates finds just that (`discover_finds`).
-/
import Cfml.Proofs.Resolver.DotPath

set_option autoImplicit false

namespace Cfml

/-! ## Running a computation that looks up dot paths -/

namespace Resolution

variable {α β : Type} (session : Session)

/-- A computation goes on where the one before it stopped, unless that met a fault. -/
theorem run_bind (m : Resolution α) (f : α → Resolution β) :
    (m >>= f).run.run session = match m.run.run session with
      | (.ok a, next) => (f a).run.run next
      | (.error e, next) => (.error e, next) := by
  show (ExceptT.run (m >>= f)).run session = _
  rw [ExceptT.run_bind, StateT.run_bind]
  rcases m.run.run session with ⟨_ | a, next⟩ <;> rfl

theorem run_get : (get : Resolution Session).run.run session = (.ok session, session) := rfl

theorem run_modify (f : Session → Session) :
    (modify f : Resolution Unit).run.run session = (.ok (), f session) := rfl

theorem run_mk_pure (x : Except EmptyName α) :
    (ExceptT.mk (pure x) : Resolution α).run.run session = (x, session) := rfl

end Resolution

namespace Path

/-- An absolute path that no `..` leads out of. -/
structure IsPlain (p : Path) : Prop where
  absolute : p.isAbsolute = true
  no_parent : ['.', '.'] ∉ p.parts

/-- The path that some parts lead to from a directory. -/
def below (p : Path) (parts : List (List Char)) : Path := ⟨p.root, p.parts ++ parts⟩

theorem IsPlain.parent {p : Path} (h : p.IsPlain) : p.parent.IsPlain :=
  ⟨h.absolute, fun hmem => h.no_parent (List.dropLast_subset p.parts hmem)⟩

theorem IsPlain.below {p : Path} (h : p.IsPlain) {parts : List (List Char)}
    (hparts : ['.', '.'] ∉ parts) : (p.below parts).IsPlain := by
  refine ⟨h.absolute, ?_⟩
  intro hmem
  rcases List.mem_append.mp hmem with hmem | hmem
  · exact h.no_parent hmem
  · exact hparts hmem

theorem steps_of_absolute {p : Path} (h : p.isAbsolute = true) :
    p.steps = p.root.text :: p.parts := by
  rw [steps, if_pos h]

end Path

namespace Resolver

/-! ## The deepest root -/

/-- A root that contains the path, and of all that do the one with the most parts. -/
structure IsDeepestRoot (resolver : Resolver) (path root : Path) : Prop where
  mem : root ∈ resolver.roots
  isUnder : path.isUnder root = true
  deepest : ∀ other ∈ resolver.roots, path.isUnder other = true →
    other.parts.length ≤ root.parts.length

/-- The fold keeps a root that none of those it has seen is deeper than. -/
theorem foldl_deeper (best : Option Path) (roots : List Path) :
    match roots.foldl workspaceRoot?.deeper best with
    | none => best = none ∧ roots = []
    | some root => root ∈ best.toList ++ roots ∧
        ∀ other ∈ best.toList ++ roots, other.steps.length ≤ root.steps.length := by
  induction roots generalizing best with
  | nil => cases best <;> simp
  | cons first rest ih =>
    rw [List.foldl_cons]
    have hih := ih (workspaceRoot?.deeper best first)
    cases best with
    | none =>
      simp only [workspaceRoot?.deeper] at hih ⊢
      split at hih
      · simp at hih
      · simpa using hih
    | some best =>
      simp only [workspaceRoot?.deeper] at hih ⊢
      -- either the new root takes over or the old one stays, and it is the deeper one
      by_cases hlt : best.steps.length < first.steps.length
      · rw [if_pos hlt] at hih ⊢
        split at hih
        · simp at hih
        · obtain ⟨hmem, hle⟩ := hih
          refine ⟨List.mem_cons_of_mem best (by simpa using hmem), ?_⟩
          intro other hother
          rcases List.mem_cons.mp hother with rfl | hother
          · exact Nat.le_trans (Nat.le_of_lt hlt) (hle first (by simp))
          · exact hle other (by simpa using hother)
      · rw [if_neg hlt] at hih ⊢
        split at hih
        · simp at hih
        · obtain ⟨hmem, hle⟩ := hih
          refine ⟨?_, ?_⟩
          · rcases List.mem_append.mp hmem with hmem | hmem
            · exact List.mem_append_left _ hmem
            · exact List.mem_append_right _ (List.mem_cons_of_mem first hmem)
          · intro other hother
            rcases List.mem_append.mp hother with hother | hother
            · exact hle other (List.mem_append_left _ hother)
            · rcases List.mem_cons.mp hother with rfl | hother
              · have := hle best (by simp)
                omega
              · exact hle other (List.mem_append_right _ hother)

theorem isUnder_iff {p q : Path} : p.isUnder q = true ↔ p.root = q.root ∧ q.parts <+: p.parts := by
  simp [Path.isUnder]

/-- Among the paths above an absolute path, the one with more steps has more parts. -/
theorem steps_le_iff_of_isUnder {path p q : Path} (hp : path.isUnder p = true)
    (hq : path.isUnder q = true) : p.steps.length ≤ q.steps.length ↔
      p.parts.length ≤ q.parts.length := by
  have hroot : p.root = q.root := by
    rw [← (isUnder_iff.mp hp).1, ← (isUnder_iff.mp hq).1]
  -- the root of both is the one of the path, so both count it or neither does
  by_cases habs : p.isAbsolute = true
  · have habs' : q.isAbsolute = true := by rwa [Path.isAbsolute, ← hroot]
    rw [Path.steps_of_absolute habs, Path.steps_of_absolute habs']
    simp
  · have habs' : ¬ q.isAbsolute = true := by rwa [Path.isAbsolute, ← hroot]
    rw [Path.steps, Path.steps, if_neg habs, if_neg habs']

/-- Two paths above one path with equally many parts are the same. -/
theorem eq_of_isUnder {path p q : Path} (hp : path.isUnder p = true) (hq : path.isUnder q = true)
    (hlength : p.parts.length = q.parts.length) : p = q := by
  obtain ⟨hrootp, hpre⟩ := isUnder_iff.mp hp
  obtain ⟨hrootq, hqre⟩ := isUnder_iff.mp hq
  have hparts : p.parts = q.parts :=
    (List.prefix_of_prefix_length_le hpre hqre (Nat.le_of_eq hlength)).eq_of_length hlength
  cases p
  cases q
  simp_all

theorem IsDeepestRoot.unique {resolver : Resolver} {path root other : Path}
    (h : resolver.IsDeepestRoot path root) (h' : resolver.IsDeepestRoot path other) :
    root = other :=
  eq_of_isUnder h.isUnder h'.isUnder
    (Nat.le_antisymm (h'.deepest root h.mem h.isUnder) (h.deepest other h'.mem h'.isUnder))

/-- The workspace root of a path is the deepest root that contains it, if one does. -/
theorem workspaceRoot?_spec (resolver : Resolver) (path : Path) :
    match resolver.workspaceRoot? path with
    | none => ∀ root ∈ resolver.roots, path.isUnder root = false
    | some root => resolver.IsDeepestRoot path root := by
  have h := foldl_deeper none (resolver.roots.filter path.isUnder)
  rw [workspaceRoot?]
  split
  · rename_i hnone
    rw [hnone] at h
    intro root hroot
    have hfilter := List.filter_eq_nil_iff.mp h.2 root hroot
    simpa using hfilter
  · rename_i root hsome
    rw [hsome] at h
    obtain ⟨hmem, hle⟩ := h
    obtain ⟨hmem, hunder⟩ := List.mem_filter.mp (by simpa using hmem)
    refine ⟨hmem, hunder, ?_⟩
    intro other hother hunder'
    have := hle other (by simpa using ⟨hother, hunder'⟩)
    exact (steps_le_iff_of_isUnder hunder' hunder).mp this

theorem workspaceRoot?_eq_some {resolver : Resolver} {path root : Path}
    (h : resolver.workspaceRoot? path = some root) : resolver.IsDeepestRoot path root := by
  have hspec := workspaceRoot?_spec resolver path
  rwa [h] at hspec

theorem workspaceRoot?_eq_none {resolver : Resolver} {path : Path}
    (h : resolver.workspaceRoot? path = none) (root : Path) :
    ¬ resolver.IsDeepestRoot path root := by
  have hspec := workspaceRoot?_spec resolver path
  rw [h] at hspec
  intro hroot
  have := hspec root hroot.mem
  rw [hroot.isUnder] at this
  exact absurd this (by decide)

/-! ## What a dot path is meant to name -/

/-- **The rule of names.** A dot path names the file next to the referring file if there is one,
else the file under the deepest root that contains the referring file if there is one, else nothing.
In a source without a file it names nothing, and neither does a dot path with an empty segment. -/
inductive Finds (isFile : Path → Bool) (resolver : Resolver) (dotPath : List Char) :
    Option Path → Option Path → Prop where
  | nowhere : Finds isFile resolver dotPath none none
  | malformed {referring : Path}
      (hempty : ∃ segment ∈ DotPath.segments (trim dotPath), segment = []) :
      Finds isFile resolver dotPath (some referring) none
  | beside {referring : Path}
      (hnames : ∀ segment ∈ DotPath.segments (trim dotPath), segment ≠ [])
      (hfile : isFile (referring.parent.below (DotPath.fileParts (trim dotPath))) = true) :
      Finds isFile resolver dotPath (some referring)
        (some (referring.parent.below (DotPath.fileParts (trim dotPath))))
  | rooted {referring root : Path}
      (hnames : ∀ segment ∈ DotPath.segments (trim dotPath), segment ≠ [])
      (hbeside : isFile (referring.parent.below (DotPath.fileParts (trim dotPath))) = false)
      (hroot : resolver.IsDeepestRoot referring root)
      (hfile : isFile (root.below (DotPath.fileParts (trim dotPath))) = true) :
      Finds isFile resolver dotPath (some referring)
        (some (root.below (DotPath.fileParts (trim dotPath))))
  | missing {referring : Path}
      (hnames : ∀ segment ∈ DotPath.segments (trim dotPath), segment ≠ [])
      (hbeside : isFile (referring.parent.below (DotPath.fileParts (trim dotPath))) = false)
      (hroots : ∀ root, resolver.IsDeepestRoot referring root →
        isFile (root.below (DotPath.fileParts (trim dotPath))) = false) :
      Finds isFile resolver dotPath (some referring) none

/-- The rule leaves no choice. -/
theorem Finds.unique {isFile : Path → Bool} {resolver : Resolver} {dotPath : List Char}
    {referring answer other : Option Path} (h : Finds isFile resolver dotPath referring answer)
    (h' : Finds isFile resolver dotPath referring other) : answer = other := by
  cases h <;> cases h' <;> grind [IsDeepestRoot.unique]

/-! ## The walk over the candidates -/

/-- The files that a proper dot path can name, in the order in which they are looked for. -/
def namedFiles (dotPath : List Char) (key : Lookup) : List Path :=
  (key.base :: key.root.toList).map (·.below (DotPath.fileParts dotPath))

theorem discover_of_isProper {dotPath : List Char} (h : DotPath.IsProper dotPath)
    (isFile : Path → Bool) (key : Lookup) :
    discover isFile dotPath key = .ok ((namedFiles dotPath key).find? isFile) := by
  rw [discover, candidates, DotPath.relativeFile_of_isProper h]
  cases hroot : key.root <;> rw [namedFiles, hroot] <;> rfl

/-! ## The key of a lookup -/

/-- What a dot path is looked up under; nothing if it is not looked up at all. -/
def key? (resolver : Resolver) (dotPath : List Char) (referring : Option Path) : Option Lookup :=
  referring.bind fun referring =>
    if (DotPath.segments (trim dotPath)).any List.isEmpty then none
    else some (resolver.lookup (trim dotPath) referring)

section Resolve

variable {isFile : Path → Bool} {resolver : Resolver} {dotPath : List Char}
  {referring : Option Path} {session : Session} {key : Lookup} {target : Option Path}

theorem key?_eq_some_iff :
    resolver.key? dotPath referring = some key ↔ ∃ path, referring = some path ∧
      (∀ segment ∈ DotPath.segments (trim dotPath), segment ≠ []) ∧
      resolver.lookup (trim dotPath) path = key := by
  cases referring with
  | none => simp [key?]
  | some path =>
    by_cases hempty : (DotPath.segments (trim dotPath)).any List.isEmpty = true
    · have : ¬ ∀ segment ∈ DotPath.segments (trim dotPath), segment ≠ [] := by
        simpa using hempty
      simp [key?, hempty, this]
    · have hnames : ∀ segment ∈ DotPath.segments (trim dotPath), segment ≠ [] := by
        intro segment hmem heq
        exact hempty (List.any_eq_true.mpr ⟨segment, hmem, by rw [heq]; rfl⟩)
      rw [key?, Option.bind_some, if_neg hempty, Option.some_inj]
      constructor
      · intro heq
        exact ⟨path, rfl, hnames, heq⟩
      · rintro ⟨other, hother, _, heq⟩
        rwa [Option.some_inj.mp hother]

/-- What is not looked up has no name. -/
theorem finds_of_no_key (h : resolver.key? dotPath referring = none) :
    resolver.Finds isFile dotPath referring none := by
  cases referring with
  | none => exact .nowhere
  | some path =>
    apply Finds.malformed
    by_contra hnames
    have hkey : resolver.key? dotPath (some path) = some (resolver.lookup (trim dotPath) path) :=
      key?_eq_some_iff.mpr ⟨path, rfl, fun segment hmem heq => hnames ⟨segment, hmem, heq⟩, rfl⟩
    rw [h] at hkey
    exact absurd hkey (by simp)

/-- **The walk follows the rule.** -/
theorem discover_finds (h : resolver.key? dotPath referring = some key)
    (hproper : DotPath.IsProper key.dotPath) : ∃ answer,
      discover isFile key.dotPath key = .ok answer ∧
      resolver.Finds isFile dotPath referring answer := by
  obtain ⟨path, rfl, hnames, rfl⟩ := key?_eq_some_iff.mp h
  rw [discover_of_isProper hproper]
  refine ⟨_, rfl, ?_⟩
  rw [lookup, namedFiles, List.map_cons]
  -- the order of the candidates is the order of the rule
  by_cases hbeside : isFile (path.parent.below (DotPath.fileParts (trim dotPath))) = true
  · rw [List.find?_cons_of_pos hbeside]
    exact .beside hnames hbeside
  · rw [List.find?_cons_of_neg hbeside]
    have hbeside := eq_false_of_ne_true hbeside
    cases hroot : resolver.workspaceRoot? path with
    | none =>
      exact .missing hnames hbeside fun root hdeepest =>
        absurd hdeepest (workspaceRoot?_eq_none hroot root)
    | some root =>
      have hdeepest := workspaceRoot?_eq_some hroot
      by_cases hfile : isFile (root.below (DotPath.fileParts (trim dotPath))) = true
      · simp only [Option.toList_some, List.map_cons, List.find?_cons_of_pos hfile]
        exact .rooted hnames hbeside hdeepest hfile
      · simp only [Option.toList_some, List.map_cons, List.map_nil,
          List.find?_cons_of_neg hfile, List.find?_nil]
        apply Finds.missing hnames hbeside
        intro other hother
        rw [hother.unique hdeepest]
        exact eq_false_of_ne_true hfile

/-! ## One lookup -/

/-- A lookup that has a key asks the cache first. -/
theorem run_resolve_of_key (h : resolver.key? dotPath referring = some key) :
    (resolver.resolve isFile dotPath referring).run.run session =
      match session.cache.find? key with
      | some target => (.ok target, { session with
          events := .cacheHit key.dotPath key.base target :: session.events })
      | none =>
        match discover isFile key.dotPath key with
        | .error e => (.error e, session)
        | .ok target => (.ok target, {
            cache := session.cache.store key target
            events := .resolved key.dotPath key.base target :: session.events }) := by
  obtain ⟨path, rfl, hnames, rfl⟩ := key?_eq_some_iff.mp h
  have hempty : (DotPath.segments (trim dotPath)).any List.isEmpty = false := by
    simpa using hnames
  simp only [resolve, hempty, Bool.false_eq_true, if_false, Resolution.run_bind,
    Resolution.run_get]
  cases hcached : session.cache.find? (resolver.lookup (trim dotPath) path) with
  | some target => rfl
  | none =>
    simp only [Resolution.run_bind, Resolution.run_mk_pure, Resolution.run_modify]
    cases hfound : discover isFile (trim dotPath) (resolver.lookup (trim dotPath) path) with
    | error e =>
      rw [show discover isFile (resolver.lookup (trim dotPath) path).dotPath
        (resolver.lookup (trim dotPath) path) = .error e from hfound]
    | ok target =>
      rw [show discover isFile (resolver.lookup (trim dotPath) path).dotPath
        (resolver.lookup (trim dotPath) path) = .ok target from hfound]
      rfl

theorem run_resolve_of_no_key (h : resolver.key? dotPath referring = none) :
    (resolver.resolve isFile dotPath referring).run.run session = (.ok none, session) := by
  cases referring with
  | none => rfl
  | some path =>
    have hempty : (DotPath.segments (trim dotPath)).any List.isEmpty = true := by
      by_contra hne
      simp [key?, hne] at h
    simp only [resolve, hempty]
    rfl

end Resolve

end Resolver

end Cfml
