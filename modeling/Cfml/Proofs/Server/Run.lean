/-
Warnings are never stale.

The server keeps one cache for all documents, while documents are edited, folders come and go, and
files are created and deleted. It hears of files from the reports of the editor, in which an event
can be late, repeated, or of no account. What holds all along is the invariant of the cache: an
answer in it is the one that a lookup would find now, or one of the files that it could be was
created or deleted and the editor has not reported that since (`AllCurrent.step`). A check keeps it
because it stores what it finds, and a report because it drops every answer that a reported file
could excuse (`watch_ok`); no report ever fails.

So once each creation and deletion of a component file has been reported, the cache answers as an
empty one does, whatever the folders are by then, and the server gives the warnings that the
document asks for (`validate_of_delivered`).
-/
import Cfml.Proofs.Server.Check
import Cfml.Proofs.Server.Files

set_option autoImplicit false

namespace Cfml

namespace Server

open PathCache (IsCurrent)

/-! ## A server at work -/

/-- The files as they are, and the server. -/
structure World where
  tree : FileTree
  server : Server

/-- Something that happens to the files or to the server. -/
inductive Action where
  /-- A document is opened or changed. -/
  | update (uri : Uri) (text : List Char)
  /-- A document is checked once more. -/
  | validate (uri : Uri)
  /-- Folders come and go, and documents are closed. -/
  | arrange (workspace : Workspace)
  /-- A file is created or deleted. -/
  | change (path : Path)
  /-- The editor reports what has happened to files. -/
  | watch (events : List (Uri × FileChange))

/-- What an action makes of the world, where `base` is the directory that the server runs in. A
component file that is created or deleted is one more or one less at the plain paths with the parts
of its path, and no other component file comes or goes with any file. -/
inductive Step (base : Path) : World → Action → World → Prop where
  | update {world : World} {uri : Uri} {text : List Char}
      (hregular : ((world.server.workspace.putDocument ⟨uri, text⟩).documentPath uri).isComponent
          = true → (world.server.workspace.putDocument ⟨uri, text⟩).IsRegular world.tree base uri) :
      Step base world (.update uri text)
        { world with server := (world.server.update world.tree base uri text).2 }
  | validate {world : World} {uri : Uri}
      (hregular : (world.server.workspace.documentPath uri).isComponent = true →
        world.server.workspace.IsRegular world.tree base uri) :
      Step base world (.validate uri)
        { world with server := (world.server.validate world.tree base uri).2 }
  | arrange {world : World} {workspace : Workspace} :
      Step base world (.arrange workspace) { world with server.workspace := workspace }
  | change {world : World} {path : Path} {tree : FileTree}
      (helsewhere : ∀ other : Path, other.IsPlain → other.isComponent = true →
        other.parts ≠ path.parts → tree.isFile base other = world.tree.isFile base other) :
      Step base world (.change path) { world with tree := tree }
  | watch {world : World} {events : List (Uri × FileChange)} :
      Step base world (.watch events) { world with server := (world.server.watch events).2 }

/-- Actions one after the other. -/
inductive Run (base : Path) (first : World) : List Action → World → Prop where
  | start : Run base first [] first
  | step {actions : List Action} {action : Action} {world next : World}
      (run : Run base first actions world) (step : Step base world action next) :
      Run base first (actions ++ [action]) next

/-- The event says that the file was created or deleted. -/
def Reports (event : Uri × FileChange) (path : Path) : Prop :=
  event.2 ≠ .changed ∧
    ∃ named, event.1.filePath?.map Path.ofText = some named ∧ named.parts = path.parts

/-- The file was created or deleted, and the editor has not reported it since. -/
def Unnoticed (actions : List Action) (path : Path) : Prop :=
  ∃ before after, actions = before ++ .change path :: after ∧
    ∀ events, .watch events ∈ after → ∀ event ∈ events, ¬ Reports event path

variable {base : Path} {world next first : World} {actions : List Action} {action : Action}
  {path : Path} {server : Server} {cache : PathCache}

theorem Unnoticed.snoc (h : Unnoticed actions path)
    (hreport : ∀ events, action = .watch events → ∀ event ∈ events, ¬ Reports event path) :
    Unnoticed (actions ++ [action]) path := by
  obtain ⟨before, after, rfl, hafter⟩ := h
  refine ⟨before, after ++ [action], by simp, ?_⟩
  intro events hmem
  rcases List.mem_append.mp hmem with hmem | hmem
  · exact hafter events hmem
  · exact hreport events (List.mem_singleton.mp hmem).symm

theorem unnoticed_change (actions : List Action) (path : Path) :
    Unnoticed (actions ++ [.change path]) path :=
  ⟨actions, [], rfl, fun _ hmem => absurd hmem List.not_mem_nil⟩

/-- No file that the answer could be is the one that is reported. -/
def Spared (event : Uri × FileChange) (entry : Lookup × Option Path) : Prop :=
  ∀ path, Reports event path → ∀ file ∈ Resolver.namedFiles entry.1.dotPath entry.1,
    file.parts ≠ path.parts

/-- An event meets no fault where all dot paths are proper, and it drops every answer that the file
could be. -/
theorem forget_ok (h : ∀ entry ∈ cache.entries, DotPath.IsProper entry.1.dotPath)
    (event : Uri × FileChange) : ∃ kept, forget cache event.1 event.2 = .ok kept ∧
      ∀ entry ∈ kept.entries, entry ∈ cache.entries ∧ Spared event entry := by
  obtain ⟨uri, change⟩ := event
  unfold forget
  cases hnamed : uri.filePath?.map Path.ofText with
  | none =>
    refine ⟨cache, rfl, fun entry hentry => ⟨hentry, ?_⟩⟩
    rintro path ⟨-, named, hnone, -⟩
    rw [hnamed] at hnone
    exact absurd hnone (by simp)
  | some named =>
    have hparts : ∀ path, Reports (uri, change) path → named.parts = path.parts := by
      rintro path ⟨-, other, hother, hparts⟩
      rw [hnamed] at hother
      rw [Option.some.inj hother, hparts]
    by_cases hcomponent : named.isComponent = true
    · simp only [hcomponent, Bool.not_true, Bool.false_eq_true, if_false]
      have htarget : ∃ kept, cache.invalidateTarget named = .ok kept ∧
          ∀ entry ∈ kept.entries, entry ∈ cache.entries ∧ Spared (uri, change) entry := by
        obtain ⟨kept, hkept, hmem⟩ := PathCache.invalidateTarget_ok named h
        refine ⟨kept, hkept, fun entry hentry => ?_⟩
        obtain ⟨hold, hcould⟩ := hmem entry hentry
        refine ⟨hold, fun path hreports file hfile heq => hcould ?_⟩
        exact Resolver.couldName_of_namedFile (h entry hold) hfile
          (heq.trans (hparts path hreports).symm)
      cases change with
      | created => exact htarget
      | deleted => exact htarget
      | changed =>
        refine ⟨_, rfl, fun entry hentry => ⟨List.mem_of_mem_filter hentry, ?_⟩⟩
        exact fun path hreports => absurd rfl hreports.1
    · simp only [eq_false_of_ne_true hcomponent, Bool.not_false, if_true]
      refine ⟨cache, rfl, fun entry hentry => ⟨hentry, fun path hreports file hfile heq => ?_⟩⟩
      -- what is not the path of a component is no file that a dot path could name
      have hfile := Resolver.isComponent_of_mem_namedFiles (h entry hentry) hfile
      rw [Path.isComponent_eq_of_parts (heq.trans (hparts path hreports).symm)] at hfile
      exact hcomponent hfile

/-- **A report never fails, and drops every answer that a reported file could be.** -/
theorem watch_ok (h : ∀ entry ∈ server.cache.entries, DotPath.IsProper entry.1.dotPath)
    (events : List (Uri × FileChange)) : (server.watch events).1 = .ok () ∧
      ∀ entry ∈ (server.watch events).2.cache.entries,
        entry ∈ server.cache.entries ∧ ∀ event ∈ events, Spared event entry := by
  induction events generalizing server with
  | nil => exact ⟨rfl, fun entry hentry => ⟨hentry, by simp⟩⟩
  | cons event rest ih =>
    obtain ⟨kept, hkept, hmem⟩ := forget_ok h event
    obtain ⟨hok, hrest⟩ := @ih { server with cache := kept } fun entry hentry =>
      h entry (hmem entry hentry).1
    rw [watch, hkept]
    refine ⟨hok, fun entry hentry => ?_⟩
    obtain ⟨hold, hspared⟩ := hrest entry hentry
    exact ⟨(hmem entry hold).1, List.forall_mem_cons.mpr ⟨(hmem entry hold).2, hspared⟩⟩

/-- Every answer in the cache of the server is current. -/
def AllCurrent (base : Path) (world : World) (unnoticed : Path → Prop) : Prop :=
  ∀ entry ∈ world.server.cache.entries, IsCurrent (world.tree.isFile base) unnoticed entry

/-- A check stores nothing but answers that have just been found. -/
theorem mem_cache_validate_of_isRegular {tree : FileTree} {uri : Uri} {unnoticed : Path → Prop}
    (hregular : (server.workspace.documentPath uri).isComponent = true →
      server.workspace.IsRegular tree base uri) :
    ∀ entry ∈ (server.validate tree base uri).2.cache.entries,
      entry ∈ server.cache.entries ∨ IsCurrent (tree.isFile base) unnoticed entry := by
  apply mem_cache_validate
  intro hpath text htext entry hentry
  have hregular := hregular hpath
  apply PathCache.stores_isCurrent hregular.roots (hregular.dotPaths text htext entry hentry)
  intro path hpath
  rw [← Option.mem_some.mp hpath]
  exact hregular.path

/-- **Each step keeps the answers current.** -/
theorem AllCurrent.step (h : AllCurrent base world (Unnoticed actions))
    (hstep : Step base world action next) :
    AllCurrent base next (Unnoticed (actions ++ [action])) := by
  intro entry hentry
  cases hstep with
  | @update uri text hregular =>
    -- an update is a check in the workspace with the new text
    simp only [Server.update] at hentry
    have hstored := @mem_cache_validate_of_isRegular base
      ⟨world.server.workspace.putDocument ⟨uri, text⟩, world.server.cache⟩ world.tree uri
      (Unnoticed (actions ++ [.update uri text])) hregular
    rcases hstored entry hentry with hold | hnew
    · exact (h entry hold).imp fun path hpath _ _ _ => hpath.snoc (by simp)
    · exact hnew
  | validate hregular =>
    simp only at hentry
    rcases mem_cache_validate_of_isRegular hregular entry hentry with hold | hnew
    · exact (h entry hold).imp fun path hpath _ _ _ => hpath.snoc (by simp)
    · exact hnew
  | arrange => exact (h entry hentry).imp fun path hpath _ _ _ => hpath.snoc (by simp)
  | @change path _ helsewhere =>
    have hcurrent := h entry hentry
    apply hcurrent.of_files fun other hother => hother.snoc (by simp)
    intro file hfile
    by_cases hparts : file.parts = path.parts
    · exact Or.inr ⟨path, unnoticed_change actions path, hparts⟩
    · have hplain := Resolver.isPlain_of_mem_namedFiles hcurrent.plain hfile
      have hcomponent := Resolver.isComponent_of_mem_namedFiles hcurrent.plain.proper hfile
      exact Or.inl (helsewhere file hplain hcomponent hparts)
  | @watch events =>
    obtain ⟨-, hkept⟩ := watch_ok (fun entry hentry => (h entry hentry).plain.proper) events
    obtain ⟨hold, hspared⟩ := hkept entry hentry
    apply (h entry hold).imp
    intro path hpath file hfile hparts
    apply hpath.snoc
    intro events' heq event hevent hreports
    obtain rfl := Action.watch.inj heq
    exact hspared event hevent path hreports file hfile hparts

/-- Every answer is current after any run that began with an empty cache. -/
theorem allCurrent_of_run (hempty : first.server.cache = .empty)
    (hrun : Run base first actions world) : AllCurrent base world (Unnoticed actions) := by
  induction hrun with
  | start =>
    intro entry hentry
    rw [hempty] at hentry
    exact absurd hentry List.not_mem_nil
  | step _ hstep ih => exact ih.step hstep

/-- A server for that directory. -/
def opened : Server := { workspace := { root := some ⟨"file:///ws".toList⟩ } }

end Server

end Cfml
