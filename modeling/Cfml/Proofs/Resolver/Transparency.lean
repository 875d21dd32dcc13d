/-
The cache of dot paths is transparent.

Several resolvers share a cache while files come and go. The cache is told of a change some time
after it, if at all: notices may be late, repeated, out of order, or about files that never changed.
What holds all along is `IsCurrent`: an answer in the cache is the one that a lookup would find now,
or one of the files that it could be has changed since the cache was last told of that file. A
lookup keeps it because it stores what it finds, a change because it only touches answers that it
makes excusable, and a notice because it drops every answer that the named file could excuse
(`couldName_of_namedFile`).

So once the cache has been told of each change, every answer in it is the one a lookup would find,
and a resolver answers as it would with an empty cache.
-/
import Cfml.Proofs.Resolver.Lookup
import Mathlib.Data.List.Find

set_option autoImplicit false

namespace Cfml

/-- A key under which a proper dot path is looked up from a plain directory and a plain root. -/
structure Lookup.IsPlain (key : Lookup) : Prop where
  proper : DotPath.IsProper key.dotPath
  base : key.base.IsPlain
  root : ∀ root ∈ key.root, root.IsPlain

namespace Resolver

theorem isPlain_of_mem_namedFiles {key : Lookup} (h : key.IsPlain) {file : Path}
    (hmem : file ∈ namedFiles key.dotPath key) : file.IsPlain := by
  obtain ⟨directory, hdirectory, rfl⟩ := List.mem_map.mp hmem
  have hparts := DotPath.parent_not_mem_fileParts h.proper
  rcases List.mem_cons.mp hdirectory with rfl | hdirectory
  · exact h.base.below hparts
  · exact (h.root directory (Option.mem_toList.mp hdirectory)).below hparts

/-- What is looked up from a plain file under plain roots has a plain key. -/
theorem isPlain_of_key? {resolver : Resolver} {dotPath : List Char} {referring : Option Path}
    {key : Lookup} (hkey : resolver.key? dotPath referring = some key)
    (hroots : ∀ root ∈ resolver.roots, root.IsPlain) (hslash : '/' ∉ dotPath)
    (hreferring : ∀ path ∈ referring, path.IsPlain) : key.IsPlain := by
  obtain ⟨path, rfl, hnames, rfl⟩ := key?_eq_some_iff.mp hkey
  refine ⟨⟨hnames, fun hmem => hslash (mem_of_mem_trim hmem)⟩, (hreferring path rfl).parent, ?_⟩
  intro root hroot
  exact hroots root (workspaceRoot?_eq_some hroot).mem

/-- **A notice of a file reaches every answer that could be that file.** -/
theorem couldName_of_namedFile {key : Lookup} (h : DotPath.IsProper key.dotPath)
    {file changed : Path} (hmem : file ∈ namedFiles key.dotPath key)
    (hparts : file.parts = changed.parts) : DotPath.couldName key.dotPath changed = .ok true := by
  obtain ⟨directory, _, rfl⟩ := List.mem_map.mp hmem
  have hsuffix : DotPath.fileParts key.dotPath <:+ changed.steps := by
    have hbelow : DotPath.fileParts key.dotPath <:+ changed.parts :=
      ⟨directory.parts, hparts⟩
    rw [Path.steps]
    split
    · exact hbelow.trans (List.suffix_cons _ _)
    · exact hbelow
  rw [DotPath.couldName, DotPath.relativeFile_of_isProper h]
  exact congrArg Except.ok (List.isSuffixOf_iff_suffix.mpr hsuffix)

end Resolver

namespace PathCache

/-! ## Entries of the cache -/

theorem mem_of_find? {cache : PathCache} {key : Lookup} {target : Option Path}
    (h : cache.find? key = some target) : (key, target) ∈ cache.entries := by
  obtain ⟨before, after, hentries, _⟩ := List.lookup_eq_some_iff.mp h
  rw [hentries]
  simp

theorem mem_store {cache : PathCache} {key : Lookup} {target : Option Path}
    {entry : Lookup × Option Path} (h : entry ∈ (cache.store key target).entries) :
    entry = (key, target) ∨ entry ∈ cache.entries := by
  obtain ⟨entries⟩ := cache
  simp only [store] at h ⊢
  induction entries with
  | nil => exact Or.inl (List.mem_singleton.mp h)
  | cons first rest ih =>
    rw [store.put] at h
    by_cases hkey : (first.1 == key) = true
    · rw [if_pos hkey] at h
      rcases List.mem_cons.mp h with h | h
      · exact Or.inl h
      · exact Or.inr (List.mem_cons_of_mem first h)
    · rw [if_neg hkey] at h
      rcases List.mem_cons.mp h with rfl | h
      · exact Or.inr (List.mem_cons_self ..)
      · exact (ih h).imp_right (List.mem_cons_of_mem first)

/-- A filter whose test never fails is the filter by its answers. -/
theorem filterM_eq_ok {α ε : Type} {test : α → Except ε Bool} {keeps : α → Bool} {xs : List α}
    (h : ∀ x ∈ xs, test x = .ok (keeps x)) : xs.filterM test = .ok (xs.filter keeps) := by
  have haux : ∀ (kept : List α), List.filterAuxM test xs kept
      = .ok ((xs.filter keeps).reverse ++ kept) := by
    induction xs with
    | nil => intro kept; rfl
    | cons x rest ih =>
      intro kept
      have hrest := ih fun y hy => h y (List.mem_cons_of_mem x hy)
      rw [List.filterAuxM, h x (List.mem_cons_self ..)]
      show List.filterAuxM test rest (cond (keeps x) (x :: kept) kept) = _
      rw [hrest]
      by_cases hx : keeps x = true
      · simp [hx]
      · simp [eq_false_of_ne_true hx]
  rw [List.filterM, haux []]
  show Except.ok (((xs.filter keeps).reverse ++ []).reverse) = _
  simp

/-- A notice meets no fault where all dot paths are proper, and drops at least the answers that the
named file could be. -/
theorem invalidateTarget_ok {cache : PathCache} (path : Path)
    (h : ∀ entry ∈ cache.entries, DotPath.IsProper entry.1.dotPath) :
    ∃ kept, cache.invalidateTarget path = .ok kept ∧ ∀ entry ∈ kept.entries,
      entry ∈ cache.entries ∧ DotPath.couldName entry.1.dotPath path ≠ .ok true := by
  -- an answer that is not there, or is that file, is dropped without a look at the dot path
  have haffected : ∀ entry ∈ cache.entries, ∃ affected, isAffected path entry = .ok affected ∧
      (DotPath.couldName entry.1.dotPath path = .ok true → affected = true) := by
    intro entry hentry
    rw [isAffected, DotPath.couldName, DotPath.relativeFile_of_isProper (h entry hentry)]
    split
    · exact ⟨true, rfl, fun _ => rfl⟩
    · exact ⟨_, rfl, fun heq => Except.ok.inj heq⟩
  choose! affected hok hcould using haffected
  refine ⟨⟨cache.entries.filter fun entry => !affected entry⟩, ?_, ?_⟩
  · have htest : ∀ entry ∈ cache.entries,
        (do return !(← isAffected path entry) : Except EmptyName Bool) = .ok (!affected entry) := by
      intro entry hentry
      rw [hok entry hentry]
      rfl
    rw [invalidateTarget, filterM_eq_ok htest]
    rfl
  · intro entry hentry
    obtain ⟨hmem, hkept⟩ := List.mem_filter.mp hentry
    refine ⟨hmem, fun heq => ?_⟩
    rw [hcould entry hmem heq] at hkept
    exact absurd hkept (by decide)

end PathCache

/-! ## What a computation stores -/

namespace Resolution

variable {α β : Type} {P : Lookup × Option Path → Prop}

/-- Every answer that the computation puts into the cache has the property. -/
def Stores (P : Lookup × Option Path → Prop) (m : Resolution α) : Prop :=
  ∀ session : Session, ∀ entry ∈ (m.run.run session).2.cache.entries,
    entry ∈ session.cache.entries ∨ P entry

theorem stores_pure (a : α) : Stores P (pure a : Resolution α) := fun _ _ h => Or.inl h

theorem stores_note (event : Event) : Stores P (note event) := fun _ _ h => Or.inl h

theorem Stores.bind {m : Resolution α} {f : α → Resolution β} (hm : Stores P m)
    (hf : ∀ a, Stores P (f a)) : Stores P (m >>= f) := by
  intro session entry hentry
  have hfirst := hm session
  rw [run_bind] at hentry
  rcases hrun : m.run.run session with ⟨_ | a, next⟩
  · rw [hrun] at hentry hfirst
    exact hfirst entry hentry
  · rw [hrun] at hentry hfirst
    rcases hf a next entry hentry with hnext | hnew
    · exact hfirst entry hnext
    · exact Or.inr hnew

theorem stores_mapM {f : α → Resolution β} {xs : List α} (h : ∀ x ∈ xs, Stores P (f x)) :
    Stores P (xs.mapM f) := by
  induction xs with
  | nil => exact stores_pure []
  | cons x xs ih =>
    obtain ⟨hx, hxs⟩ := List.forall_mem_cons.mp h
    rw [List.mapM_cons]
    exact hx.bind fun y => (ih hxs).bind fun ys => stores_pure (y :: ys)

/-- A lookup stores nothing but what it has just found. -/
theorem stores_resolve {isFile : Path → Bool} {resolver : Resolver} {dotPath : List Char}
    {referring : Option Path} (h : ∀ key target, resolver.key? dotPath referring = some key →
      Resolver.discover isFile key.dotPath key = .ok target → P (key, target)) :
    Stores P (resolver.resolve isFile dotPath referring) := by
  intro session entry hentry
  cases hkey : resolver.key? dotPath referring with
  | none =>
    rw [Resolver.run_resolve_of_no_key hkey] at hentry
    exact Or.inl hentry
  | some key =>
    rw [Resolver.run_resolve_of_key hkey] at hentry
    split at hentry
    · exact Or.inl hentry
    · split at hentry
      · exact Or.inl hentry
      · next hfound =>
        rcases PathCache.mem_store hentry with rfl | hentry
        · exact Or.inr (h _ _ hkey hfound)
        · exact Or.inl hentry

end Resolution

namespace PathCache

/-! ## A shared cache at work -/

/-- The files as they are, and the session that the resolvers share, with its cache. -/
structure World where
  isFile : Path → Bool
  session : Session

/-- Something that happens to the files or to the cache. -/
inductive Action where
  /-- A resolver is asked what a dot path in a file names. -/
  | resolve (resolver : Resolver) (dotPath : List Char) (referring : Option Path)
  /-- A file is created or deleted. -/
  | change (path : Path)
  /-- The cache is told that a file was created or deleted. -/
  | invalidateTarget (path : Path)
  /-- The cache is told that a file with dot paths in it has changed. -/
  | invalidateReferencing (path : Path)
  | clear

/-- What an action makes of the world. A change of a file shows at the plain paths with the parts of
its path and at no other plain path. A notice that meets a fault drops nothing. -/
inductive Step : World → Action → World → Prop where
  | resolve {world : World} {resolver : Resolver} {dotPath : List Char} {referring : Option Path}
      (hroots : ∀ root ∈ resolver.roots, root.IsPlain) (hslash : '/' ∉ dotPath)
      (hreferring : ∀ path ∈ referring, path.IsPlain) :
      Step world (.resolve resolver dotPath referring) { world with
        session := ((resolver.resolve world.isFile dotPath referring).run.run world.session).2 }
  | change {world : World} {path : Path} {isFile : Path → Bool}
      (helsewhere : ∀ other : Path, other.IsPlain → other.parts ≠ path.parts →
        isFile other = world.isFile other) :
      Step world (.change path) { world with isFile := isFile }
  | invalidateTarget {world : World} {path : Path} :
      Step world (.invalidateTarget path) { world with session.cache :=
        (world.session.cache.invalidateTarget path).toOption.getD world.session.cache }
  | invalidateReferencing {world : World} {path : Path} :
      Step world (.invalidateReferencing path) { world with
        session.cache := world.session.cache.invalidateReferencing path }
  | clear {world : World} : Step world .clear { world with session.cache := .empty }

/-- Actions one after the other. -/
inductive Run (first : World) : List Action → World → Prop where
  | start : Run first [] first
  | step {actions : List Action} {action : Action} {world next : World}
      (run : Run first actions world) (step : Step world action next) :
      Run first (actions ++ [action]) next

/-- The file has changed, and since then the cache has not been told. -/
def Unnoticed (actions : List Action) (path : Path) : Prop :=
  ∃ before after, actions = before ++ .change path :: after ∧ .invalidateTarget path ∉ after

/-- Behind each change of a file the cache has been told of it. -/
def Settled (actions : List Action) : Prop :=
  ∀ before path after, actions = before ++ .change path :: after →
    .invalidateTarget path ∈ after

theorem Unnoticed.snoc {actions : List Action} {path : Path} {action : Action}
    (h : Unnoticed actions path) (hnotice : action ≠ .invalidateTarget path) :
    Unnoticed (actions ++ [action]) path := by
  obtain ⟨before, after, rfl, hafter⟩ := h
  refine ⟨before, after ++ [action], by simp, ?_⟩
  intro hmem
  rcases List.mem_append.mp hmem with hmem | hmem
  · exact hafter hmem
  · exact hnotice (List.mem_singleton.mp hmem).symm

theorem unnoticed_change (actions : List Action) (path : Path) :
    Unnoticed (actions ++ [.change path]) path :=
  ⟨actions, [], rfl, List.not_mem_nil⟩

/-! ## The invariant -/

/-- An answer in the cache is the one that a lookup would find now, unless one of the files that it
could be has changed unnoticed. -/
structure IsCurrent (isFile : Path → Bool) (unnoticed : Path → Prop)
    (entry : Lookup × Option Path) : Prop where
  plain : entry.1.IsPlain
  excuse : Resolver.discover isFile entry.1.dotPath entry.1 = .ok entry.2 ∨
    ∃ path, unnoticed path ∧
      ∃ file ∈ Resolver.namedFiles entry.1.dotPath entry.1, file.parts = path.parts

/-- Every answer in the cache is current. -/
def AllCurrent (world : World) (unnoticed : Path → Prop) : Prop :=
  ∀ entry ∈ world.session.cache.entries, IsCurrent world.isFile unnoticed entry

section IsCurrent

variable {isFile isFile' : Path → Bool} {unnoticed unnoticed' : Path → Prop}
  {entry : Lookup × Option Path} {actions : List Action} {action : Action} {path : Path}

/-- An answer stays current if every file that it could be stays as it is, or is an excuse. -/
theorem IsCurrent.of_files (h : IsCurrent isFile unnoticed entry)
    (himp : ∀ path, unnoticed path → unnoticed' path)
    (hfiles : ∀ file ∈ Resolver.namedFiles entry.1.dotPath entry.1,
      isFile' file = isFile file ∨ ∃ path, unnoticed' path ∧ file.parts = path.parts) :
    IsCurrent isFile' unnoticed' entry := by
  refine ⟨h.plain, ?_⟩
  rcases h.excuse with hfound | ⟨path, hpath, hfile⟩
  -- if no candidate is an excuse, the walk over them comes out as before
  · by_cases hexcuse : ∃ file ∈ Resolver.namedFiles entry.1.dotPath entry.1,
        ∃ path, unnoticed' path ∧ file.parts = path.parts
    · obtain ⟨file, hmem, path, hpath, hparts⟩ := hexcuse
      exact Or.inr ⟨path, hpath, file, hmem, hparts⟩
    · left
      rw [← hfound, Resolver.discover_of_isProper h.plain.proper,
        Resolver.discover_of_isProper h.plain.proper]
      refine congrArg Except.ok (List.find?_congr fun file hfile => ?_)
      exact (hfiles file hfile).resolve_right fun htouched => hexcuse ⟨file, hfile, htouched⟩
  · exact Or.inr ⟨path, himp path hpath, hfile⟩

/-- Only the excuses of an answer have to stay. -/
theorem IsCurrent.imp (h : IsCurrent isFile unnoticed entry)
    (himp : ∀ path, unnoticed path → ∀ file ∈ Resolver.namedFiles entry.1.dotPath entry.1,
      file.parts = path.parts → unnoticed' path) : IsCurrent isFile unnoticed' entry := by
  refine ⟨h.plain, h.excuse.imp_right ?_⟩
  rintro ⟨path, hpath, file, hmem, hparts⟩
  exact ⟨path, himp path hpath file hmem hparts, file, hmem, hparts⟩

/-- Only the answer that is stored is new, and that has just been found. -/
theorem stores_isCurrent {resolver : Resolver} {dotPath : List Char} {referring : Option Path}
    (hroots : ∀ root ∈ resolver.roots, root.IsPlain) (hslash : '/' ∉ dotPath)
    (hreferring : ∀ path ∈ referring, path.IsPlain) :
    Resolution.Stores (IsCurrent isFile unnoticed)
      (resolver.resolve isFile dotPath referring) := by
  apply Resolution.stores_resolve
  intro key target hkey hfound
  exact ⟨Resolver.isPlain_of_key? hkey hroots hslash hreferring, Or.inl hfound⟩

/-- A change keeps an answer current: it is an excuse for the answers that it touches. -/
theorem IsCurrent.change (h : IsCurrent isFile (Unnoticed actions) entry)
    (helsewhere : ∀ other : Path, other.IsPlain → other.parts ≠ path.parts →
      isFile' other = isFile other) :
    IsCurrent isFile' (Unnoticed (actions ++ [.change path])) entry := by
  apply h.of_files fun other hother => hother.snoc (by simp)
  intro file hfile
  by_cases hparts : file.parts = path.parts
  · exact Or.inr ⟨path, unnoticed_change actions path, hparts⟩
  · exact Or.inl (helsewhere file (Resolver.isPlain_of_mem_namedFiles h.plain hfile) hparts)

/-- A notice of another file leaves the excuse of an answer. -/
theorem IsCurrent.snoc (h : IsCurrent isFile (Unnoticed actions) entry)
    (hnotice : ∀ path, action = .invalidateTarget path →
      DotPath.couldName entry.1.dotPath path ≠ .ok true) :
    IsCurrent isFile (Unnoticed (actions ++ [action])) entry := by
  apply h.imp
  intro path hpath file hmem hparts
  apply hpath.snoc
  intro heq
  exact hnotice path heq (Resolver.couldName_of_namedFile h.plain.proper hmem hparts)

end IsCurrent

/-- **Each step keeps the answers current.** -/
theorem AllCurrent.step {world next : World} {actions : List Action} {action : Action}
    (h : AllCurrent world (Unnoticed actions)) (hstep : Step world action next) :
    AllCurrent next (Unnoticed (actions ++ [action])) := by
  intro entry hentry
  cases hstep with
  | resolve hroots hslash hreferring =>
    rcases stores_isCurrent hroots hslash hreferring world.session entry hentry with hold | hnew
    · exact (h entry hold).snoc (by simp)
    · exact hnew
  | change helsewhere => exact (h entry hentry).change helsewhere
  | invalidateTarget =>
    rename_i path
    obtain ⟨kept, hkept, hmem⟩ := invalidateTarget_ok path fun entry hentry =>
      (h entry hentry).plain.proper
    rw [hkept] at hentry
    obtain ⟨hentry, hcould⟩ := hmem entry hentry
    exact (h entry hentry).snoc fun other heq => by rwa [← Action.invalidateTarget.inj heq]
  | invalidateReferencing =>
    exact (h entry (List.mem_of_mem_filter hentry)).snoc (by simp)
  | clear => exact absurd hentry List.not_mem_nil

/-- Every answer is current after any run that began with an empty cache. -/
theorem allCurrent_of_run {first world : World} {actions : List Action}
    (hempty : first.session.cache = .empty) (hrun : Run first actions world) :
    AllCurrent world (Unnoticed actions) := by
  induction hrun with
  | start =>
    intro entry hentry
    rw [hempty] at hentry
    exact absurd hentry List.not_mem_nil
  | step _ hstep ih => exact ih.step hstep

/-- After a run in which every change was noticed, the answers are those that a lookup would
find. -/
theorem discover_eq_of_settled {first world : World} {actions : List Action}
    (hempty : first.session.cache = .empty) (hrun : Run first actions world)
    (hsettled : Settled actions) {key : Lookup} {target : Option Path}
    (hcached : world.session.cache.find? key = some target) :
    Resolver.discover world.isFile key.dotPath key = .ok target := by
  have hcurrent := allCurrent_of_run hempty hrun _ (mem_of_find? hcached)
  rcases hcurrent.excuse with hfound | ⟨path, ⟨before, after, hactions, hafter⟩, _⟩
  · exact hfound
  -- the excuse would be a change that was noticed
  · exact absurd (hsettled before path after hactions) hafter

/-! ## Transparency -/

/-- **The cache is transparent.** After any run of lookups by any resolvers, of changes of files and
of notices, if the cache has been told of each change since it was made, then every resolver gives
the answer that it gives with an empty cache, which is the one that the rule of names asks for. -/
theorem resolve_eq_of_settled {first world : World} {actions : List Action}
    (hempty : first.session.cache = .empty) (hrun : Run first actions world)
    (hsettled : Settled actions) (resolver : Resolver)
    (hroots : ∀ root ∈ resolver.roots, root.IsPlain) (dotPath : List Char)
    (hslash : '/' ∉ dotPath) (referring : Option Path)
    (hreferring : ∀ path ∈ referring, path.IsPlain) :
    ∃ answer,
      ((resolver.resolve world.isFile dotPath referring).run.run world.session).1 = .ok answer ∧
      ((resolver.resolve world.isFile dotPath referring).run.run {}).1 = .ok answer ∧
      resolver.Finds world.isFile dotPath referring answer := by
  cases hkey : resolver.key? dotPath referring with
  | none =>
    refine ⟨none, ?_, ?_, Resolver.finds_of_no_key hkey⟩
    · rw [Resolver.run_resolve_of_no_key hkey]
    · rw [Resolver.run_resolve_of_no_key hkey]
  | some key =>
    have hplain := Resolver.isPlain_of_key? hkey hroots hslash hreferring
    obtain ⟨answer, hfound, hfinds⟩ : ∃ answer,
        Resolver.discover world.isFile key.dotPath key = .ok answer ∧
          resolver.Finds world.isFile dotPath referring answer :=
      Resolver.discover_finds hkey hplain.proper
    refine ⟨answer, ?_, ?_, hfinds⟩
    · rw [Resolver.run_resolve_of_key hkey, hfound]
      cases hcached : world.session.cache.find? key with
      | none => rfl
      | some target =>
        have htarget := discover_eq_of_settled hempty hrun hsettled hcached
        rw [hfound] at htarget
        exact htarget.symm
    · rw [Resolver.run_resolve_of_key hkey, hfound]
      rfl

/-! ### A file that hides another one -/

/-- A workspace with one root. -/
def sharedWorkspace : Resolver := ⟨[⟨.single, ["ws".toList]⟩]⟩

/-- A file in a directory of the workspace. -/
def widgetFile : Path := ⟨.single, ["ws".toList, "app".toList, "Widget.cfc".toList]⟩

/-- The file that `Base` names under the root. -/
def rootedBase : Path := ⟨.single, ["ws".toList, "Base.cfc".toList]⟩

/-- The file that `Base` names next to the widget. -/
def localBase : Path := ⟨.single, ["ws".toList, "app".toList, "Base.cfc".toList]⟩

/-- `Base` is found under the root and cached; then a file next to the widget hides that one. The
answer stays the old one until the cache is told, and is the new one from then on. -/
theorem resolve_hidden_base :
    let ask := Action.resolve sharedWorkspace "Base".toList (some widgetFile)
    let actions := [ask, .change localBase, ask, .invalidateTarget localBase]
    let before (path : Path) : Bool := path == rootedBase
    let after (path : Path) : Bool := path == rootedBase || path == localBase
    Settled actions ∧ ∃ world, Run ⟨before, {}⟩ actions world ∧ world.isFile = after ∧
      ((sharedWorkspace.resolve world.isFile "Base".toList (some widgetFile)).run.run
        world.session).1 = .ok (some localBase) := by
  intro ask actions before after
  have hroots : ∀ root ∈ sharedWorkspace.roots, root.IsPlain := by
    intro root hroot
    rw [List.mem_singleton.mp hroot]
    exact ⟨by decide, by decide⟩
  have hwidget : ∀ path ∈ some widgetFile, path.IsPlain := by
    intro path hpath
    rw [← Option.mem_some.mp hpath]
    exact ⟨by decide, by decide⟩
  have hslash : '/' ∉ "Base".toList := by decide
  -- the one file is all that changes
  have hchange : ∀ other : Path, other.IsPlain → other.parts ≠ localBase.parts →
      after other = before other := by
    intro other _ hparts
    have hne : other ≠ localBase := fun heq => hparts (congrArg Path.parts heq)
    simp [after, before, hne]
  have hsettled : Settled actions := by
    intro earlier path later hactions
    -- the only change is the second action
    rcases earlier with _ | ⟨_, _ | ⟨_, _ | ⟨_, _ | ⟨_, earlier⟩⟩⟩⟩ <;>
      simp [actions, ask] at hactions
    obtain ⟨-, rfl, rfl⟩ := hactions
    simp
  have hstart : Run ⟨before, {}⟩ [] ⟨before, {}⟩ := .start
  have hrun := hstart.step (.resolve hroots hslash hwidget) |>.step (.change hchange)
    |>.step (.resolve hroots hslash hwidget) |>.step (@Step.invalidateTarget _ localBase)
  refine ⟨hsettled, _, hrun, rfl, ?_⟩
  obtain ⟨answer, hcached, -, hfinds⟩ := resolve_eq_of_settled rfl hrun hsettled sharedWorkspace
    hroots "Base".toList hslash (some widgetFile) hwidget
  have hbeside : sharedWorkspace.Finds after "Base".toList (some widgetFile) (some localBase) :=
    .beside (by decide) (by decide)
  rw [hcached, hfinds.unique hbeside]

end PathCache

end Cfml
