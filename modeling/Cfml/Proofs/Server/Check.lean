/-
What a check of a document looks up and answers.

The warnings for a document depend on the cache only through its answers, and a check stores nothing
but what lookups of the dot paths in the document store. Where no dot path has a slash, every lookup
has an answer; so a check has one too, and with a cache that answers as an empty one does it gives
the warnings that the document asks for (`Server.validate_of_sameAnswers`).
-/
import Cfml.Proofs.Component.Lookups
import Cfml.Proofs.Resolver.Transparency
import Cfml.Server.Basic

set_option autoImplicit false

namespace Cfml

/-! ## Dot paths without slashes -/

/-- Only a dot path with a slash can have no answer. -/
theorem Resolver.not_stumbles {resolver : Resolver} {cache : PathCache} {referring : Option Path}
    {dotPath : List Char} (h : '/' ∉ dotPath) : ¬ resolver.Stumbles cache referring dotPath := by
  rintro ⟨-, -, ⟨hnames, hslashes⟩, -⟩
  have hmem := DotPath.lastSegment_mem (trim dotPath)
  -- the last segment has a character, and that is a slash of the dot path
  obtain ⟨c, rest, hsegment⟩ := List.exists_cons_of_ne_nil (hnames _ hmem)
  have hc : c ∈ DotPath.lastSegment (trim dotPath) := hsegment ▸ List.mem_cons_self
  have hslash := (mem_of_mem_splitOn hmem).2 c hc
  rw [hslashes c hc] at hslash
  exact h (mem_of_mem_trim hslash)

/-! ## Components -/

namespace Source

variable {isFile : Path → Bool} {resolver : Resolver} {src : Source}
  {P : Lookup × Option Path → Prop}

/-- Reading a component stores nothing but what its lookups store. -/
theorem stores_component? (h : ∀ entry ∈ src.componentDotPaths,
    Resolution.Stores P (resolver.resolve isFile entry.1 src.path)) :
    Resolution.Stores P (src.component? isFile resolver) := by
  rw [component?]
  rw [componentDotPaths] at h
  cases hhead : ComponentHead.find? src.text with
  | none => exact (Resolution.stores_note _).bind fun _ => Resolution.stores_pure none
  | some head =>
    rw [hhead] at h
    obtain ⟨hextending, himplementing⟩ := List.forall_mem_append.mp h
    have hreference : ∀ entry : List Char × Span,
        Resolution.Stores P (resolver.resolve isFile entry.1 src.path) →
        Resolution.Stores P (src.reference isFile resolver entry.1 entry.2) := fun _ hentry =>
      hentry.bind fun _ => Resolution.stores_pure _
    have hfirst : Resolution.Stores P (src.extendedReference isFile resolver
        ((head.written src).find? "extends".toList)) := by
      rw [extendedReference]
      cases hentry : src.extendedDotPath ((head.written src).find? "extends".toList) with
      | none => exact Resolution.stores_pure none
      | some entry =>
        rw [hentry] at hextending
        have hlookup := hextending entry (by simp)
        exact (hreference entry hlookup).bind fun _ => Resolution.stores_pure _
    have hsecond : Resolution.Stores P (src.implementedReferences isFile resolver
        ((head.written src).find? "implements".toList)) :=
      Resolution.stores_mapM fun entry hentry => hreference entry (himplementing entry hentry)
    have hhead : Resolution.Stores P (src.componentOfHead isFile resolver head) :=
      hfirst.bind fun _ => hsecond.bind fun _ => (Resolution.stores_note _).bind fun _ =>
        Resolution.stores_pure _
    exact hhead.bind fun component => Resolution.stores_pure (some component)

end Source

/-! ## Documents -/

/-- The paths of the document and of the folders are plain, and no dot path in the document has a
slash. -/
structure Workspace.IsRegular (workspace : Workspace) (tree : FileTree) (base : Path)
    (uri : Uri) : Prop where
  path : (workspace.documentPath uri).IsPlain
  roots : ∀ root ∈ workspace.roots, root.IsPlain
  dotPaths : ∀ text, workspace.documentText tree base uri = .ok text →
    ∀ entry ∈ (Source.ofText text (workspace.documentPath uri)).componentDotPaths, '/' ∉ entry.1

namespace Server

variable {server : Server} {tree : FileTree} {base : Path} {uri : Uri} {text : List Char}
  {P : Lookup × Option Path → Prop}

/-- A check stores nothing but what its lookups store. -/
theorem mem_cache_validate (h : (server.workspace.documentPath uri).isComponent = true →
      ∀ text, server.workspace.documentText tree base uri = .ok text →
        ∀ entry ∈ (Source.ofText text (server.workspace.documentPath uri)).componentDotPaths,
          Resolution.Stores P (Resolver.resolve (tree.isFile base) ⟨server.workspace.roots⟩ entry.1
            (some (server.workspace.documentPath uri)))) :
    ∀ entry ∈ (server.validate tree base uri).2.cache.entries,
      entry ∈ server.cache.entries ∨ P entry := by
  intro entry hentry
  unfold validate at hentry
  simp only at hentry
  split at hentry
  · exact Or.inl hentry
  · next hpath =>
    split at hentry
    · exact Or.inl hentry
    · next text htext =>
      have hlookups := h (by simpa using hpath) text htext
      exact Source.stores_component? hlookups { cache := server.cache } entry hentry

end Server

end Cfml
