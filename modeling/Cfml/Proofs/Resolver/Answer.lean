/-
What a resolver answers.

A lookup reads the cache and writes to it. What it writes is what it has found, and a later lookup
under the same key would have found the same, so as long as no file changes the caches before and
behind a lookup answer alike (`PathCache.SameAnswers`). A computation that is made of lookups has
therefore a result that can be read off the cache it begins with, in whatever order they are made.
`Resolution.Gives` says so, and is carried through a computation with one lemma for each way to put
steps together.

The lookups without an answer are those that `Resolver.Stumbles` describes
(`Resolver.answer_eq_error_iff`).
-/
import Cfml.Proofs.Resolver.Lookup
import Mathlib.Data.List.Forall2

set_option autoImplicit false

namespace Cfml

/-! ## Lists of steps that can fail -/

section Steps

variable {α β ε : Type} {f : α → Except ε β}

/-- All steps succeed, each with its result. -/
theorem mapM_eq_ok_iff {xs : List α} {ys : List β} :
    xs.mapM f = .ok ys ↔ List.Forall₂ (fun x y => f x = .ok y) xs ys := by
  induction xs generalizing ys with
  | nil => cases ys <;> simp [pure, Except.pure]
  | cons x xs ih =>
    rw [List.mapM_cons]
    cases hx : f x with
    | error e => cases ys <;> simp [bind, Except.bind, hx]
    | ok y =>
      cases hrest : xs.mapM f with
      | error e => cases ys <;> simp [bind, Except.bind, hx, ← ih, hrest]
      | ok rest => cases ys <;> simp [bind, Except.bind, pure, Except.pure, hx, ← ih, hrest]

/-- **The first step that fails** decides how all of them fail. -/
theorem mapM_eq_error_iff {xs : List α} {e : ε} :
    xs.mapM f = .error e ↔ ∃ front x back, xs = front ++ x :: back ∧
      (∀ y ∈ front, ∀ e, f y ≠ .error e) ∧ f x = .error e := by
  induction xs with
  | nil => simp [pure, Except.pure]
  | cons x xs ih =>
    rw [List.mapM_cons]
    cases hx : f x with
    | error e' =>
      -- the first step fails already
      show Except.error e' = .error e ↔ _
      constructor
      · intro h
        exact ⟨[], x, xs, rfl, by simp, by rw [hx, Except.error.inj h]⟩
      · rintro ⟨front, y, back, hsplit, hfront, hy⟩
        cases front with
        | nil =>
          obtain ⟨rfl, rfl⟩ := List.cons.inj hsplit
          rw [hx] at hy
          rw [Except.error.inj hy]
        | cons z front =>
          obtain ⟨rfl, rfl⟩ := List.cons.inj hsplit
          exact absurd hx (hfront x List.mem_cons_self e')
    | ok y =>
      -- the first step succeeds, and the others decide
      have hrest : (do let ys ← xs.mapM f; pure (y :: ys)) = .error e ↔ xs.mapM f = .error e := by
        cases xs.mapM f <;> simp [bind, Except.bind, pure, Except.pure]
      show (do let ys ← xs.mapM f; pure (y :: ys)) = .error e ↔ _
      rw [hrest, ih]
      constructor
      · rintro ⟨front, z, back, rfl, hfront, hz⟩
        refine ⟨x :: front, z, back, rfl, ?_, hz⟩
        rw [List.forall_mem_cons]
        exact ⟨fun e => by simp [hx], hfront⟩
      · rintro ⟨front, z, back, hsplit, hfront, hz⟩
        cases front with
        | nil =>
          obtain ⟨rfl, rfl⟩ := List.cons.inj hsplit
          rw [hx] at hz
          exact absurd hz (by simp)
        | cons w front =>
          obtain ⟨rfl, rfl⟩ := List.cons.inj hsplit
          exact ⟨front, z, back, rfl, (List.forall_mem_cons.mp hfront).2, hz⟩

end Steps

namespace PathCache

/-! ## Caches that answer alike -/

variable {isFile : Path → Bool} {cache other : PathCache} {key : Lookup} {target : Option Path}

theorem find?_store_self (cache : PathCache) (key : Lookup) (target : Option Path) :
    (cache.store key target).find? key = some target := by
  obtain ⟨entries⟩ := cache
  simp only [find?, store]
  induction entries with
  | nil => simp [store.put]
  | cons entry rest ih =>
    rw [store.put]
    by_cases hkey : (entry.1 == key) = true
    · rw [if_pos hkey, List.lookup_cons, beq_self_eq_true]
    · rw [if_neg hkey, List.lookup_cons, BEq.comm, eq_false_of_ne_true hkey]
      exact ih

theorem find?_store_of_ne {key' : Lookup} (h : key' ≠ key) :
    (cache.store key target).find? key' = cache.find? key' := by
  obtain ⟨entries⟩ := cache
  simp only [find?, store]
  have hne : (key' == key) = false := beq_eq_false_iff_ne.mpr h
  induction entries with
  | nil => simp [store.put, List.lookup_cons, hne]
  | cons entry rest ih =>
    rw [store.put]
    by_cases hkey : (entry.1 == key) = true
    · obtain rfl := beq_iff_eq.mp hkey
      rw [if_pos hkey, List.lookup_cons, List.lookup_cons, hne]
    · rw [if_neg hkey, List.lookup_cons, List.lookup_cons, ih]

/-- The answer to a lookup: the one in the cache, or else what is found now. -/
def answer (isFile : Path → Bool) (cache : PathCache) (key : Lookup) :
    Except EmptyName (Option Path) :=
  match cache.find? key with
  | some target => .ok target
  | none => Resolver.discover isFile key.dotPath key

/-- The caches answer every lookup alike, if the files are the same. -/
def SameAnswers (isFile : Path → Bool) (cache other : PathCache) : Prop :=
  ∀ key, other.answer isFile key = cache.answer isFile key

/-- **What has been found may be kept.** -/
theorem SameAnswers.store (h : SameAnswers isFile cache other)
    (hanswer : other.answer isFile key = .ok target) :
    SameAnswers isFile cache (other.store key target) := by
  intro key'
  rw [← h key']
  by_cases hkey : key' = key
  · subst hkey
    rw [hanswer, answer, find?_store_self]
  · rw [answer, find?_store_of_ne hkey, ← answer]

end PathCache

namespace Resolver

variable {isFile : Path → Bool} {resolver : Resolver} {cache : PathCache} {dotPath : List Char}
  {referring : Option Path}

/-- What a resolver answers with a cache. -/
def answer (isFile : Path → Bool) (resolver : Resolver) (cache : PathCache) (dotPath : List Char)
    (referring : Option Path) : Except EmptyName (Option Path) :=
  match resolver.key? dotPath referring with
  | none => .ok none
  | some key => cache.answer isFile key

end Resolver

namespace Resolution

/-! ## Computations whose result can be read off the cache -/

/-- **The computation gives the result** with every cache that answers as this one does, and leaves
such a cache behind. -/
def Gives {α : Type} (isFile : Path → Bool) (cache : PathCache) (m : Resolution α)
    (result : Except EmptyName α) : Prop :=
  ∀ session : Session, cache.SameAnswers isFile session.cache →
    (m.run.run session).1 = result ∧ cache.SameAnswers isFile (m.run.run session).2.cache

variable {α β : Type} {isFile : Path → Bool} {cache : PathCache}

theorem gives_pure (a : α) : Gives isFile cache (pure a) (.ok a) := fun _ h => ⟨rfl, h⟩

theorem gives_note (event : Event) : Gives isFile cache (note event) (.ok ()) :=
  fun _ h => ⟨rfl, h⟩

theorem Gives.bind {m : Resolution α} {f : α → Resolution β} {x : Except EmptyName α}
    {g : α → Except EmptyName β} (hm : Gives isFile cache m x)
    (hf : ∀ a, Gives isFile cache (f a) (g a)) : Gives isFile cache (m >>= f) (x >>= g) := by
  intro session h
  obtain ⟨hresult, hsame⟩ := hm session h
  rw [run_bind]
  rcases hrun : m.run.run session with ⟨_ | a, next⟩
  · rw [hrun] at hresult hsame
    subst hresult
    exact ⟨rfl, hsame⟩
  · rw [hrun] at hresult hsame
    subst hresult
    exact hf a next hsame

theorem gives_mapM {f : α → Resolution β} {g : α → Except EmptyName β}
    (h : ∀ a, Gives isFile cache (f a) (g a)) (xs : List α) :
    Gives isFile cache (xs.mapM f) (xs.mapM g) := by
  induction xs with
  | nil => exact gives_pure []
  | cons x xs ih =>
    rw [List.mapM_cons, List.mapM_cons]
    exact (h x).bind fun y => ih.bind fun ys => gives_pure (y :: ys)

/-- A lookup gives the answer of the resolver. -/
theorem gives_resolve (resolver : Resolver) (dotPath : List Char) (referring : Option Path) :
    Gives isFile cache (resolver.resolve isFile dotPath referring)
      (resolver.answer isFile cache dotPath referring) := by
  intro session h
  rw [Resolver.answer]
  cases hkey : resolver.key? dotPath referring with
  | none =>
    rw [Resolver.run_resolve_of_no_key hkey]
    exact ⟨rfl, h⟩
  | some key =>
    rw [Resolver.run_resolve_of_key hkey]
    simp only
    -- the cache of the session has another history, but it answers alike
    have hsame := h key
    cases hcached : session.cache.find? key with
    | some target =>
      rw [PathCache.answer, hcached] at hsame
      exact ⟨hsame, h⟩
    | none =>
      have hfind : session.cache.answer isFile key
          = Resolver.discover isFile key.dotPath key := by rw [PathCache.answer, hcached]
      rw [← hsame, hfind]
      cases hfound : Resolver.discover isFile key.dotPath key with
      | error e => exact ⟨rfl, h⟩
      | ok target => exact ⟨rfl, h.store (hfind.trans hfound)⟩

/-- A result can be read off the cache of the session. -/
theorem Gives.fst_run {m : Resolution α} {session : Session} {result : Except EmptyName α}
    (h : Gives isFile session.cache m result) : (m.run.run session).1 = result :=
  (h session fun _ => rfl).1

end Resolution

/-! ## Lookups without an answer -/

namespace DotPath

/-- The dot path has no empty segment, and its last one consists of slashes. -/
def IsNameless (dotPath : List Char) : Prop :=
  (∀ segment ∈ segments dotPath, segment ≠ []) ∧ ∀ c ∈ lastSegment dotPath, c = '/'

end DotPath

namespace Resolver

variable {isFile : Path → Bool} {resolver : Resolver} {cache : PathCache} {dotPath : List Char}
  {referring : Option Path} {e : EmptyName}

/-- The resolver looks for the file of a dot path that stands for none. -/
def Stumbles (resolver : Resolver) (cache : PathCache) (referring : Option Path)
    (dotPath : List Char) : Prop :=
  ∃ path, referring = some path ∧ DotPath.IsNameless (trim dotPath) ∧
    cache.find? (resolver.lookup (trim dotPath) path) = none

theorem discover_eq_error_iff (dotPath : List Char) (key : Lookup) :
    discover isFile dotPath key = .error e ↔ DotPath.relativeFile dotPath = .error e := by
  rw [discover, candidates]
  cases DotPath.relativeFile dotPath with
  | error e' => simp [bind, Except.bind, Except.map]
  | ok file => simp [bind, Except.bind, pure, Except.pure, Except.map]

theorem eq_of_relativeFile_error (h : DotPath.relativeFile dotPath = .error e) :
    e = ⟨DotPath.segmentPath dotPath⟩ := by
  rw [DotPath.relativeFile] at h
  split at h
  · exact (Except.error.inj h).symm
  · exact absurd h (by simp)

/-- **The only lookups without an answer.** -/
theorem answer_eq_error_iff : resolver.answer isFile cache dotPath referring = .error e ↔
    resolver.Stumbles cache referring dotPath ∧ e = ⟨DotPath.segmentPath (trim dotPath)⟩ := by
  rw [answer]
  cases hkey : resolver.key? dotPath referring with
  | none =>
    apply iff_of_false (by simp)
    rintro ⟨⟨path, rfl, ⟨hnames, -⟩, -⟩, -⟩
    -- a dot path without an empty segment has a key
    have hsome : resolver.key? dotPath (some path) = some (resolver.lookup (trim dotPath) path) :=
      key?_eq_some_iff.mpr ⟨path, rfl, hnames, rfl⟩
    rw [hkey] at hsome
    exact absurd hsome (by simp)
  | some key =>
    obtain ⟨path, rfl, hnames, rfl⟩ := key?_eq_some_iff.mp hkey
    have hpath : ∀ other, some path = some other ↔ other = path := by simp [eq_comm]
    simp only [Stumbles, hpath, exists_eq_left, DotPath.IsNameless]
    rw [PathCache.answer]
    cases hcached : cache.find? (resolver.lookup (trim dotPath) path) with
    | some target => simp
    | none =>
      simp only [and_true]
      rw [discover_eq_error_iff]
      constructor
      · intro h
        exact ⟨⟨hnames, (DotPath.relativeFile_error_iff hnames).mp ⟨e, h⟩⟩,
          eq_of_relativeFile_error h⟩
      · rintro ⟨⟨-, hslash⟩, rfl⟩
        obtain ⟨e, he⟩ := (DotPath.relativeFile_error_iff hnames).mpr hslash
        rwa [eq_of_relativeFile_error he] at he

end Resolver

end Cfml
