/-
The file that a dot path names.

A dot path is *proper* if none of its segments is empty and none holds a slash. Such a dot path is
written out as a relative path: a directory for each segment but the last one, and a component file
for that. So what it names from a directory lies below that directory, and its steps end with the
steps of the relative path: that is all the cache looks at when it drops answers.

Of the other dot paths only the slashes of the last segment matter: where it consists of nothing
else, there is no name left that could get the suffix of a component (`relativeFile_error_iff`).
-/
import Cfml.Resolver.Basic
import Mathlib.Data.List.Basic

set_option autoImplicit false

namespace Cfml

/-! ## Cutting a text -/

theorem splitOn_ne_nil (separator : Char) (text : List Char) : splitOn separator text ≠ [] := by
  fun_cases splitOn separator text <;> simp

/-- A text without the separator is its only piece. -/
theorem splitOn_eq_singleton {separator : Char} {text : List Char} (h : separator ∉ text) :
    splitOn separator text = [text] := by
  induction text with
  | nil => rfl
  | cons c rest ih =>
    rw [List.mem_cons, not_or] at h
    have hc : (c == separator) = false := by simpa using fun heq => h.1 heq.symm
    rw [splitOn, hc, ih h.2]
    rfl

theorem splitOn_append {separator : Char} {piece : List Char} (h : separator ∉ piece)
    (rest : List Char) :
    splitOn separator (piece ++ separator :: rest) = piece :: splitOn separator rest := by
  induction piece with
  | nil => simp [splitOn]
  | cons c piece ih =>
    rw [List.mem_cons, not_or] at h
    have hc : (c == separator) = false := beq_eq_false_iff_ne.mpr (Ne.symm h.1)
    rw [List.cons_append, splitOn, hc, ih h.2]
    rfl

/-- The last piece is the end of the text. -/
theorem getLastD_splitOn_suffix (separator : Char) (text : List Char) :
    (splitOn separator text).getLastD [] <:+ text := by
  induction hlength : text.length using Nat.strongRecOn generalizing text with
  | ind length ih =>
    subst hlength
    by_cases hmem : separator ∈ text
    · obtain ⟨piece, rest, rfl, hpiece⟩ := List.eq_append_cons_of_mem hmem
      have hshorter : rest.length < (piece ++ separator :: rest).length := by
        rw [List.length_append, List.length_cons]
        omega
      have hrest := ih rest.length hshorter rest rfl
      have hlast : (piece :: splitOn separator rest).getLastD []
          = (splitOn separator rest).getLastD [] := by
        rw [List.getLastD_cons, List.getLastD_eq_getLast?, List.getLastD_eq_getLast?,
          List.getLast?_eq_some_getLast (splitOn_ne_nil separator rest)]
        rfl
      rw [splitOn_append hpiece, hlast]
      exact hrest.trans ⟨piece ++ [separator], by simp⟩
    · rw [splitOn_eq_singleton hmem]
      exact List.suffix_refl text

/-- No piece holds the separator, and every character of a piece is one of the text. -/
theorem mem_of_mem_splitOn {separator : Char} {text piece : List Char}
    (h : piece ∈ splitOn separator text) : separator ∉ piece ∧ ∀ c ∈ piece, c ∈ text := by
  induction text generalizing piece with
  | nil =>
    rw [splitOn, List.mem_singleton] at h
    subst h
    simp
  | cons c rest ih =>
    rw [splitOn] at h
    -- a separator begins a new piece, and any other character goes to the first one
    by_cases hc : c = separator
    · rw [if_pos (by simpa using hc), List.mem_cons] at h
      rcases h with rfl | h
      · simp
      · exact ⟨(ih h).1, fun d hd => List.mem_cons_of_mem c ((ih h).2 d hd)⟩
    · rw [if_neg (by simpa using hc)] at h
      cases hrest : splitOn separator rest with
      | nil => exact absurd hrest (splitOn_ne_nil separator rest)
      | cons first others =>
        rw [hrest] at h ih
        rcases List.mem_cons.mp h with rfl | h
        · have hfirst := ih (List.mem_cons_self ..)
          refine ⟨?_, ?_⟩
          · rw [List.mem_cons, not_or]
            exact ⟨fun heq => hc heq.symm, hfirst.1⟩
          · intro d hd
            rcases List.mem_cons.mp hd with rfl | hd
            · exact List.mem_cons_self ..
            · exact List.mem_cons_of_mem c (hfirst.2 d hd)
        · have hpiece := ih (List.mem_cons_of_mem first h)
          exact ⟨hpiece.1, fun d hd => List.mem_cons_of_mem c (hpiece.2 d hd)⟩

theorem mem_of_mem_trim {c : Char} {text : List Char} (h : c ∈ trim text) : c ∈ text := by
  rw [trim, trimRight, List.mem_reverse] at h
  have h := (List.dropWhile_sublist isBlank).mem h
  rw [List.mem_reverse] at h
  exact (List.dropWhile_sublist isBlank).mem h

/-! ## Paths of single names -/

namespace Path

/-- A name without slashes is a relative path of one part. -/
theorem ofText_name {name : List Char} (hne : name ≠ []) (hslash : '/' ∉ name)
    (hdot : '.' ∉ name) : ofText name = ⟨.none, [name]⟩ := by
  -- without a slash there is no root and nothing to cut
  have hroot : rootOf name = .none := by
    cases name with
    | nil => rfl
    | cons c rest =>
      have hc : c ≠ '/' := fun heq => hslash (heq ▸ List.mem_cons_self ..)
      unfold rootOf
      split <;> simp_all
  have hparts : partsOf name = [name] := by
    rw [partsOf, splitOn_eq_singleton hslash]
    have hself : name ≠ ['.'] := fun heq => hdot (heq ▸ List.mem_singleton_self _)
    simp [hne, hself]
  rw [ofText, hroot, hparts]

theorem append_relative (p : Path) (parts : List (List Char)) :
    p ++ (⟨.none, parts⟩ : Path) = ⟨p.root, p.parts ++ parts⟩ := rfl

/-- A name without dots is its own stem. -/
theorem splitName_of_no_dot {name : List Char} (hdot : '.' ∉ name) :
    splitName name = (name, []) := by
  rw [splitName, if_pos (by simp [hdot])]

theorem name_append_singleton (root : PathRoot) (parts : List (List Char)) (name : List Char) :
    (⟨root, parts ++ [name]⟩ : Path).name = name := by
  simp [Path.name]

end Path

namespace DotPath

/-- A dot path of which every segment is a name: none is empty and none holds a slash. -/
structure IsProper (dotPath : List Char) : Prop where
  no_empty : ∀ segment ∈ segments dotPath, segment ≠ []
  no_slash : '/' ∉ dotPath

/-- The parts of the component file that a proper dot path stands for. -/
def fileParts (dotPath : List Char) : List (List Char) :=
  (segments dotPath).dropLast ++ [lastSegment dotPath ++ componentSuffix]

theorem segments_eq (dotPath : List Char) :
    segments dotPath = (segments dotPath).dropLast ++ [lastSegment dotPath] := by
  have hne : segments dotPath ≠ [] := splitOn_ne_nil '.' dotPath
  rw [lastSegment, List.getLastD_eq_getLast?, List.getLast?_eq_some_getLast hne, Option.getD_some,
    List.dropLast_append_getLast hne]

theorem lastSegment_mem (dotPath : List Char) : lastSegment dotPath ∈ segments dotPath := by
  rw [segments_eq]
  simp

theorem lastSegment_suffix (dotPath : List Char) : lastSegment dotPath <:+ dotPath :=
  getLastD_splitOn_suffix '.' dotPath

/-- Segments that are names are the parts of the path that they stand for. -/
theorem foldl_names {names : List (List Char)} (p : Path)
    (h : ∀ name ∈ names, name ≠ [] ∧ '/' ∉ name ∧ '.' ∉ name) :
    names.foldl (fun path name => path ++ Path.ofText name) p = ⟨p.root, p.parts ++ names⟩ := by
  induction names generalizing p with
  | nil => simp
  | cons name rest ih =>
    obtain ⟨hne, hslash, hdot⟩ := h name (List.mem_cons_self ..)
    rw [List.foldl_cons, Path.ofText_name hne hslash hdot, Path.append_relative,
      ih _ fun other hother => h other (List.mem_cons_of_mem name hother)]
    simp

theorem IsProper.segment {dotPath : List Char} (h : IsProper dotPath) {segment : List Char}
    (hmem : segment ∈ segments dotPath) : segment ≠ [] ∧ '/' ∉ segment ∧ '.' ∉ segment := by
  have hchars := mem_of_mem_splitOn hmem
  exact ⟨h.no_empty segment hmem, fun hslash => h.no_slash (hchars.2 '/' hslash), hchars.1⟩

theorem segmentPath_of_isProper {dotPath : List Char} (h : IsProper dotPath) :
    segmentPath dotPath = ⟨.none, segments dotPath⟩ := by
  rw [segmentPath, foldl_names _ fun segment hmem => h.segment hmem]
  rfl

/-- **A proper dot path names a component file below the directory it is looked for in.** -/
theorem relativeFile_of_isProper {dotPath : List Char} (h : IsProper dotPath) :
    relativeFile dotPath = .ok ⟨.none, fileParts dotPath⟩ := by
  obtain ⟨hne, _, hdot⟩ := h.segment (lastSegment_mem dotPath)
  have hpath : segmentPath dotPath
      = ⟨.none, (segments dotPath).dropLast ++ [lastSegment dotPath]⟩ := by
    rw [segmentPath_of_isProper h, ← segments_eq]
  -- the last segment is a name without dots, so the suffix is put behind it
  have hempty : (lastSegment dotPath).isEmpty = false := by simpa using hne
  rw [relativeFile, hpath]
  simp only [Path.withSuffix?, Path.stem, Path.name_append_singleton, hempty,
    Path.splitName_of_no_dot hdot, fileParts, List.dropLast_concat, Bool.false_eq_true, if_false]

/-- The file of a proper dot path is never the one that `..` leads to. -/
theorem parent_not_mem_fileParts {dotPath : List Char} (h : IsProper dotPath) :
    ['.', '.'] ∉ fileParts dotPath := by
  intro hmem
  rcases List.mem_append.mp hmem with hmem | hmem
  · have := h.segment (List.dropLast_subset _ hmem)
    simp at this
  -- the last part is longer: it has the suffix
  · have hlength := congrArg List.length (List.mem_singleton.mp hmem)
    simp [componentSuffix] at hlength

/-! ## Dot paths that name nothing

What stands before the last slash-led segment does not matter, because that segment starts the path
anew. So the path is left without a last part exactly when its last segment is made of slashes. -/

theorem partsOf_ne_nil {text : List Char} (hne : text ≠ []) (hslash : text.head? ≠ some '/')
    (hdot : '.' ∉ text) : Path.partsOf text ≠ [] := by
  cases text with
  | nil => exact absurd rfl hne
  | cons c rest =>
    have hc : (c == '/') = false := by simpa using hslash
    rw [Path.partsOf, splitOn, hc]
    cases hrest : splitOn '/' rest with
    | nil => exact absurd hrest (splitOn_ne_nil '/' rest)
    | cons first others =>
      -- a piece that is not empty is dropped only if it is a single dot
      have hself : c :: first ≠ ['.'] := fun heq =>
        hdot (List.mem_cons.mpr (Or.inl (List.cons.inj heq).1.symm))
      simp [hself]

/-- Only a text of slashes stands for no part at all. -/
theorem partsOf_eq_nil_iff {text : List Char} (hdot : '.' ∉ text) :
    Path.partsOf text = [] ↔ ∀ c ∈ text, c = '/' := by
  induction text with
  | nil => simp [Path.partsOf, splitOn]
  | cons c rest ih =>
    rw [List.mem_cons, not_or] at hdot
    by_cases hc : c = '/'
    · have hparts : Path.partsOf (c :: rest) = Path.partsOf rest := by
        simp [Path.partsOf, splitOn, hc]
      rw [hparts, ih hdot.2]
      simp [hc]
    · have hparts : Path.partsOf (c :: rest) ≠ [] :=
        partsOf_ne_nil (List.cons_ne_nil c rest) (by simpa using hc) (by simp_all)
      simp [hparts, hc]

theorem nil_not_mem_partsOf (text : List Char) : [] ∉ Path.partsOf text := by
  simp [Path.partsOf]

theorem isAbsolute_ofText (text : List Char) :
    (Path.ofText text).isAbsolute = true ↔ text.head? = some '/' := by
  rw [Path.isAbsolute, Path.ofText]
  unfold Path.rootOf
  split <;> simp_all [List.head?_eq_some_iff]

/-- A path that ends with the path of a text has an empty name only if the text is made of
slashes. -/
theorem name_append_ofText (p : Path) {text : List Char} (hne : text ≠ []) (hdot : '.' ∉ text) :
    (p ++ Path.ofText text).name = [] ↔ ∀ c ∈ text, c = '/' := by
  have hlast : ∀ parts : List (List Char), (parts ++ Path.partsOf text).getLastD [] = [] ↔
      parts ++ Path.partsOf text = [] ∨ Path.partsOf text = [] ∧ parts.getLastD [] = [] := by
    intro parts
    rcases List.eq_nil_or_concat' (Path.partsOf text) with hnil | ⟨init, part, hparts⟩
    · rw [hnil]
      cases parts <;> simp
    · have hpart : part ≠ [] := fun heq =>
        nil_not_mem_partsOf text (by rw [hparts, heq]; simp)
      rw [hparts, ← List.append_assoc]
      simp [hpart]
  -- an absolute path takes the place of the one before it
  by_cases habs : (Path.ofText text).isAbsolute = true
  · have hpath : p ++ Path.ofText text = Path.ofText text := if_pos habs
    have := hlast []
    rw [hpath, ← partsOf_eq_nil_iff hdot]
    simpa [Path.name, Path.ofText] using this
  · have hpath : (p ++ Path.ofText text).parts = p.parts ++ Path.partsOf text :=
      congrArg Path.parts (if_neg habs)
    have hhead : text.head? ≠ some '/' := fun h => habs ((isAbsolute_ofText text).mpr h)
    have hparts := partsOf_ne_nil hne hhead hdot
    rw [Path.name, hpath, hlast, ← partsOf_eq_nil_iff hdot]
    simp [hparts]

/-- **The only dot paths without a file.** If no segment is empty, a dot path stands for no file
exactly when its last segment consists of slashes. -/
theorem relativeFile_error_iff {dotPath : List Char}
    (h : ∀ segment ∈ segments dotPath, segment ≠ []) :
    (∃ e, relativeFile dotPath = .error e) ↔ ∀ c ∈ lastSegment dotPath, c = '/' := by
  have hmem := lastSegment_mem dotPath
  have hname : (segmentPath dotPath).name = [] ↔ ∀ c ∈ lastSegment dotPath, c = '/' := by
    rw [segmentPath, segments_eq dotPath, List.foldl_append]
    exact name_append_ofText _ (h _ hmem) (mem_of_mem_splitOn hmem).1
  rw [← hname, relativeFile, Path.withSuffix?]
  by_cases hempty : (segmentPath dotPath).name = []
  · simp [hempty]
  · simp [hempty]

end DotPath

end Cfml
