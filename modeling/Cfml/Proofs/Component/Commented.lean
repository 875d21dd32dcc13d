/-
Declarations of a component that are commented out.

One would expect that a component declares nothing that is commented out in its source. Properties
and variables keep to that. Functions in tag markup are looked for with the comments of markup
blanked out, whatever the source is written in, so in script they are found in comments too; they
are kept unless one of the same name starts further on (`component?_commented`).
-/
import Cfml.Proofs.Component.Lookups
import Cfml.Proofs.Declaration.Outside

set_option autoImplicit false

namespace Cfml

namespace Source

/-! ## Functions by name -/

variable {functions : List FunctionDecl} {f : FunctionDecl}

/-- **Of several functions with one name one that starts last is kept.** -/
theorem of_mem_functionsByName {entry : List Char × FunctionDecl}
    (h : entry ∈ functionsByName functions) :
    entry.2 ∈ functions ∧ entry.1 = lower entry.2.name ∧
      ∀ g ∈ functions, lower g.name = entry.1 → g.span.start ≤ entry.2.span.start := by
  have hperm := List.mergeSort_perm functions fun f g => f.span.start ≤ g.span.start
  have hsorted := Position.pairwise_mergeSort (fun f => f.span.start) functions
  obtain ⟨front, back, hsplit, hback⟩ := Keyed.mem_insertAll.mp h
  obtain ⟨earlier, rest, hmerge, hearlier, hrest⟩ := List.map_eq_append_iff.mp hsplit
  obtain ⟨f, later, rfl, rfl, rfl⟩ := List.map_eq_cons_iff.mp hrest
  rw [hmerge] at hperm hsorted
  refine ⟨hperm.mem_iff.mp (List.mem_append_right _ List.mem_cons_self), rfl, ?_⟩
  intro g hg hname
  have hlast : ∀ h ∈ later, lower h.name ≠ lower f.name :=
    fun h hh => hback _ (List.mem_map_of_mem hh)
  exact Keyed.rel_of_split hsorted (Position.le_refl _) hlast g (hperm.mem_iff.mpr hg) hname

theorem exists_mem_functionsByName (h : f ∈ functions) :
    ∃ g, (lower f.name, g) ∈ functionsByName functions := by
  have hperm := List.mergeSort_perm functions fun f g => f.span.start ≤ g.span.start
  have hmem : (lower f.name, f)
      ∈ (functions.mergeSort fun f g => f.span.start ≤ g.span.start).map
        fun f => (lower f.name, f) := List.mem_map_of_mem (hperm.mem_iff.mpr h)
  exact Keyed.exists_mem_insertAll hmem

/-! ## The component -/

variable {src : Source}

/-- A function in tag markup that is commented out, while no function of its name starts behind
it. -/
def LastInComment (src : Source) (f : FunctionDecl) : Prop :=
  f ∈ src.tagFunctions ∧ src.WithinComment .script f.span.start ∧
    ∀ g ∈ src.scriptFunctions .script ++ src.tagFunctions,
      lower g.name = lower f.name → g.span.start ≤ f.span.start

theorem functionsByName_withinComment (src : Source) (dialect : Dialect) :
    (∃ entry ∈ functionsByName (src.scriptFunctions dialect ++ src.tagFunctions),
        src.WithinComment dialect entry.2.span.start) ↔
      dialect = .script ∧ ∃ f, src.LastInComment f := by
  constructor
  · rintro ⟨entry, hentry, hwithin⟩
    obtain ⟨hmem, hname, hlast⟩ := of_mem_functionsByName hentry
    rcases List.mem_append.mp hmem with hscript | htag
    · exact absurd hwithin (not_withinComment_of_mem_scriptFunctions _ hscript)
    · cases dialect with
      | tag => exact absurd hwithin (not_withinComment_of_mem_tagFunctions _ htag)
      | script =>
        refine ⟨rfl, entry.2, htag, hwithin, ?_⟩
        intro g hg hsame
        exact hlast g hg (hsame.trans hname.symm)
  · rintro ⟨rfl, f, htag, hwithin, hlast⟩
    have hmem : f ∈ src.scriptFunctions .script ++ src.tagFunctions := List.mem_append_right _ htag
    obtain ⟨g, hg⟩ := exists_mem_functionsByName hmem
    obtain ⟨hgmem, hname, hglast⟩ := of_mem_functionsByName hg
    -- the one that is kept starts where this one does
    have hstart : g.span.start = f.span.start :=
      Position.le_antisymm (hlast g hgmem hname.symm) (hglast f hmem rfl)
    refine ⟨_, hg, ?_⟩
    rw [hstart]
    exact hwithin

/-- **What a component declares in comments.** No property and no variable of a component starts in
a comment of its dialect. A function does exactly if the component is written in script and a
function in tag markup, the last one of its name, is commented out there. -/
theorem component?_commented (isFile : Path → Bool) (resolver : Resolver) (src : Source)
    (session : Session) (component : Component)
    (h : ((src.component? isFile resolver).run.run session).1 = .ok (some component)) :
    (∀ p ∈ component.properties, ¬ src.WithinComment component.dialect p.2.span.start) ∧
      (∀ a ∈ component.assignments, ¬ src.WithinComment component.dialect a.span.start) ∧
      ((∃ f ∈ component.functions, src.WithinComment component.dialect f.2.span.start) ↔
        component.dialect = .script ∧ ∃ f, src.LastInComment f) := by
  have hcases := component?_cases isFile resolver src session
  rw [h] at hcases
  cases hhead : ComponentHead.find? src.text with
  | none =>
    rw [hhead] at hcases
    exact absurd hcases.2 (by simp)
  | some head =>
    rw [hhead] at hcases
    simp only at hcases
    split at hcases
    · exact absurd hcases (by simp)
    · obtain ⟨extending, implementing, -, heq⟩ := hcases
      obtain rfl := Option.some.inj (Except.ok.inj heq)
      refine ⟨?_, ?_, ?_⟩
      · exact not_withinComment_of_mem_properties
      · exact not_withinComment_of_mem_assignments
      · exact src.functionsByName_withinComment head.dialect

/-- A component in script with a function in tag markup that is commented out. -/
def withOldFunction : Source :=
  Source.ofText "component \x7b /* <cffunction name=\"f\"></cffunction> */ \x7d".toList none

/-- The function is one of the component. -/
theorem component?_withOldFunction : ∃ component,
    ((withOldFunction.component? (fun _ => false) ⟨[]⟩).run.run {}).1 = .ok (some component) ∧
      ∃ f ∈ component.functions,
        withOldFunction.WithinComment component.dialect f.2.span.start := by
  have hcases := component?_cases (fun _ => false) ⟨[]⟩ withOldFunction {}
  obtain ⟨head, hhead, hscript⟩ : ∃ head, ComponentHead.find? withOldFunction.text = some head ∧
      head.dialect = .script := Option.map_eq_some_iff.mp (by decide +kernel)
  have hentries : withOldFunction.componentDotPaths = [] := by decide +kernel
  rw [hhead, hentries] at hcases
  obtain ⟨extending, implementing, -, hresult⟩ := hcases
  refine ⟨_, hresult, ?_⟩
  apply (component?_commented _ _ _ _ _ hresult).2.2.mpr
  refine ⟨hscript, ?_⟩
  -- there is no other function, so this one is the last of its name
  have hnone : withOldFunction.scriptFunctions .script = [] :=
    List.length_eq_zero_iff.mp (by decide +kernel)
  obtain ⟨f, hf⟩ : ∃ f, withOldFunction.tagFunctions = [f] :=
    List.length_eq_one_iff.mp (by decide +kernel)
  have hwithin : ∀ f ∈ withOldFunction.tagFunctions,
      withOldFunction.WithinComment .script f.span.start := by decide +kernel
  rw [hf] at hwithin
  refine ⟨f, ?_, hwithin f List.mem_cons_self, ?_⟩
  · rw [hf]
    exact List.mem_cons_self
  · intro g hg _
    rw [hnone, hf, List.nil_append] at hg
    obtain rfl := List.mem_singleton.mp hg
    exact Position.le_refl _

end Source

end Cfml
