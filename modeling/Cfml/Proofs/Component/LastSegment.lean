/-
Where the name that a component extends stands.

The span of the reference ends where the value does and is as long as the last segment of the dot
path, which is cut out of the value without the white space around it. On one line its text is that
segment exactly if the segment is empty or nothing was cut off at the end of the value
(`textOf_lastSegmentSpan_eq_iff`). A documentation block leaves no white space there, but quotes
do (`component?_extendedSpan`).
-/
import Cfml.Proofs.Component.Inheritance

set_option autoImplicit false

namespace Cfml

variable {src : Source} {head : ComponentHead} {key : List Char} {value : WrittenValue}

/-! ## Values on one line -/

/-- The value is written on one line. -/
inductive ComponentHead.OnOneLine (src : Source) (head : ComponentHead) (key : List Char) :
    WrittenValue → Prop
  /-- As an attribute, without a line break in it. -/
  | listed {value : WrittenValue} (h : value ∈ head.listedValues src key)
      (hclean : ∀ d ∈ value.text, isLineBreak d = false) : OnOneLine src head key value
  /-- As a single piece of a documentation block, behind its key or on a line below that. -/
  | docBlock {within : Option Span} {draft : DocBlock.Draft} {piece : List Char}
      (h : draft ∈ src.docDrafts within) (hpiece : draft.pieces = [piece])
      (hle : draft.start ≤ draft.stop) :
      OnOneLine src head key ⟨draft.value, src.spanOf ⟨draft.start, draft.stop, hle⟩⟩

/-- The value stands in the source as it is, on one line, where its span ends. The span may begin on
a line above it. -/
structure WrittenValue.Stands (value : WrittenValue) (src : Source) : Prop where
  clean : ∀ d ∈ value.text, isLineBreak d = false
  exists_isIn : ∃ start, Capture.IsIn ⟨start, value.text⟩ src ∧
    (src.stretchOf value.span).start ≤ start ∧
    (src.stretchOf value.span).stop = start + value.text.length

theorem ComponentHead.OnOneLine.stands (h : head.OnOneLine src key value) :
    value.Stands src := by
  cases h with
  | listed h hclean =>
    obtain ⟨capture, rfl, hin⟩ := isIn_of_mem_listedValues h
    refine ⟨hclean, capture.start, hin, ?_, ?_⟩
    · exact Nat.le_of_eq hin.start.isPlace
    · exact hin.stop.isPlace
  | @docBlock within draft piece h hpiece hle =>
    have hspells := (Source.isIn_of_mem_docDrafts h).spells
    obtain ⟨start, hends⟩ := Source.isPlaced_of_mem_docDrafts h piece (by simp [hpiece])
    have hvalue : draft.value = piece := by
      rw [DocBlock.Draft.value, hpiece]
      exact List.intercalate_singleton
    rw [hvalue]
    refine ⟨hends.isLine.clean, start, hends.isLine.isIn, ?_, ?_⟩
    · exact (Nat.le_of_eq hspells.start.isPlace).trans hends.start_le
    · exact Eq.trans hspells.stop.isPlace hends.stop_eq

/-! ## The span -/

/-- On one line the span has as much of the end of the value as its name is long. -/
theorem Source.textOf_lastSegmentSpan (h : value.Stands src) :
    src.textOf (src.lastSegmentSpan value)
      = value.text.drop (value.text.length - (DotPath.lastSegment (trim value.text)).length) := by
  obtain ⟨hclean, start, hin, hstart, hstop⟩ := h
  generalize hname : (DotPath.lastSegment (trim value.text)).length = length
  have hle : length ≤ value.text.length := by
    rw [← hname]
    exact (DotPath.lastSegment_suffix _).length_le.trans (length_trim_le value.text)
  have hsplit : value.text = value.text.take (value.text.length - length) ++
      (value.text.drop (value.text.length - length) ++ []) := by
    rw [List.append_nil, List.take_append_drop]
  refine hin.textOf_part hclean hsplit ?_ ?_
  · simp only [hname, List.length_take]
    omega
  · simp only [hname, List.length_drop]
    omega

/-- **The span has the last segment as its text** exactly if that is empty or no white space ends
the value. -/
theorem Source.textOf_lastSegmentSpan_eq_iff (h : value.Stands src) :
    let name := DotPath.lastSegment (trim value.text)
    src.textOf (src.lastSegmentSpan value) = name ↔
      name = [] ∨ trimRight value.text = value.text := by
  intro name
  rw [textOf_lastSegmentSpan h, ← suffix_iff_of_suffix_trim (DotPath.lastSegment_suffix _),
    List.suffix_iff_eq_drop, eq_comm]

namespace Source

/-! ## In a component -/

section Component

variable {isFile : Path → Bool} {resolver : Resolver} {session : Session} {component : Component}

/-- A component is the one that its head declares, with an answer for each dot path. -/
theorem exists_of_component?
    (h : ((src.component? isFile resolver).run.run session).1 = .ok (some component)) :
    ∃ head extending implementing, ComponentHead.find? src.text = some head ∧
      component = src.declaredComponent head extending implementing ∧
      (src.extendedDotPath (head.winning? src "extends".toList)).toList.mapM
        (answered isFile resolver session.cache src) = .ok extending.toList := by
  have hcases := component?_cases isFile resolver src session
  cases hhead : ComponentHead.find? src.text with
  | none =>
    rw [hhead, h] at hcases
    exact absurd hcases.2 (by simp)
  | some head =>
    have hanswers : ∀ entry ∈ src.componentDotPaths,
        ¬ resolver.Stumbles session.cache src.path entry.1 := by
      intro entry hentry hstumbles
      obtain ⟨e, he⟩ := exists_mapM_answered_eq_error_iff.mpr ⟨entry, hentry, hstumbles⟩
      rw [hhead, h, he] at hcases
      exact absurd hcases (by simp)
    obtain ⟨extending, implementing, hresult, hextending, -⟩ :=
      exists_component?_answered hhead hanswers
    rw [h] at hresult
    obtain rfl := Option.some.inj (Except.ok.inj hresult)
    exact ⟨head, extending, implementing, rfl, rfl, hextending⟩

end Component

/-- **Where the name that a component extends stands.** On one line the span of the reference has
the last segment of the dot path as its text exactly if that is empty or no white space ends the
value. A value that is taken from a documentation block never ends in white space. -/
theorem component?_extendedSpan (isFile : Path → Bool) (resolver : Resolver) (src : Source)
    (session : Session) {component : Component}
    (h : ((src.component? isFile resolver).run.run session).1 = .ok (some component)) :
    ∃ head extending implementing, ComponentHead.find? src.text = some head ∧
      component.extending = extending.filter (·.target.isSome) ∧
      component.unresolved = (extending.toList ++ implementing).filter (!·.target.isSome) ∧
      Option.Rel (fun value r => r.dotPath = trim value.text ∧
          (head.listedValues src "extends".toList = [] → trimRight value.text = value.text) ∧
          (head.OnOneLine src "extends".toList value →
            let name := DotPath.lastSegment r.dotPath
            (src.textOf r.span = name ↔ name = [] ∨ trimRight value.text = value.text)))
        ((head.winning? src "extends".toList).filter fun value => !(trim value.text).isEmpty)
        extending := by
  obtain ⟨head, extending, implementing, hhead, rfl, hextending⟩ := exists_of_component? h
  refine ⟨head, extending, implementing, hhead, rfl, rfl, ?_⟩
  have hrel := rel_extendedDotPath (mapM_answered_eq_ok hextending).1
  generalize (head.winning? src "extends".toList).filter
    (fun value => !(trim value.text).isEmpty) = kept at hrel ⊢
  cases hrel with
  | none => exact .none
  | @some value r hvalue =>
    obtain ⟨hmem, hpath, hspan⟩ := hvalue
    refine .some ⟨hpath, ?_, ?_⟩
    · intro hlisted
      rw [ComponentHead.winning?, hlisted] at hmem
      obtain ⟨within, entry, hentry, rfl⟩ :=
        ComponentHead.exists_of_mem_docValues (List.mem_of_getLast? hmem)
      exact trimRight_of_mem_docEntries hentry
    · intro hline
      rw [hspan, hpath]
      exact textOf_lastSegmentSpan_eq_iff hline.stands

theorem eq_ok_of_join_toOption {α ε : Type} {result : Except ε (Option α)} {a : α}
    (h : result.toOption.join = some a) : result = .ok (some a) := by
  cases result with
  | error e => exact absurd h (by simp [Except.toOption])
  | ok found =>
    obtain rfl : found = some a := by simpa [Except.toOption] using h
    rfl

/-- A component that extends a name with a space behind it in the quotes. -/
def paddedAccount : Source := ofText "component extends=\"Base \" \x7b\x7d".toList none

/-- The value is on one line, and its reference stands one character behind the name. -/
theorem component?_extendedSpan_padded :
    let result := ((paddedAccount.component? (fun _ => false) ⟨[]⟩).run.run {}).1
    ∃ component head value r, result = .ok (some component) ∧
      ComponentHead.find? paddedAccount.text = some head ∧
      head.winning? paddedAccount "extends".toList = some value ∧
      value.text = "Base ".toList ∧ head.OnOneLine paddedAccount "extends".toList value ∧
      component.unresolved = [r] ∧ r.dotPath = "Base".toList ∧
      r.span.start = ⟨0, 20⟩ ∧ r.span.stop = ⟨0, 24⟩ ∧
      paddedAccount.textOf r.span ≠ DotPath.lastSegment r.dotPath := by
  intro result
  have hvalues : (ComponentHead.find? paddedAccount.text).map (fun head =>
      (head.listedValues paddedAccount "extends".toList).map (·.text)) = some ["Base ".toList] := by
    decide +kernel
  have hspans : result.toOption.join.map (fun component => (component.extending.isSome,
      component.unresolved.map fun r => (r.span.start, r.span.stop)))
        = some (false, [(⟨0, 20⟩, ⟨0, 24⟩)]) := by
    decide +kernel
  obtain ⟨component, hresult, hcomponent⟩ := Option.map_eq_some_iff.mp hspans
  replace hresult := eq_ok_of_join_toOption hresult
  obtain ⟨hextending, hunresolved⟩ := Prod.mk.inj hcomponent
  obtain ⟨r, hr, hends⟩ := List.map_eq_singleton_iff.mp hunresolved
  obtain ⟨head, extending, implementing, hhead, hfound, hleft, hrel⟩ :=
    component?_extendedSpan _ _ paddedAccount {} hresult
  obtain ⟨value, hlisted, htext⟩ : ∃ value,
      head.listedValues paddedAccount "extends".toList = [value] ∧ value.text = "Base ".toList := by
    rw [hhead] at hvalues
    exact List.map_eq_singleton_iff.mp (Option.some.inj hvalues)
  have hwinning : head.winning? paddedAccount "extends".toList = some value := by
    rw [ComponentHead.winning?, hlisted]
    rfl
  have hline : head.OnOneLine paddedAccount "extends".toList value :=
    .listed (hlisted ▸ List.mem_singleton_self value) (by rw [htext]; decide)
  have hkept : (some value).filter (fun value => !(trim value.text).isEmpty) = some value := by
    rw [Option.filter_some, htext]
    rfl
  rw [hwinning, hkept] at hrel
  cases hrel with
  | @some _ r' hvalue =>
    obtain ⟨hpath, -, hiff⟩ := hvalue
    -- it is the one that is unresolved
    have htarget : r'.target.isSome = false := by
      rw [hfound, Option.filter_some] at hextending
      cases hsome : r'.target.isSome with
      | false => rfl
      | true => exact absurd hextending (by simp [hsome])
    have hmem : r' ∈ component.unresolved := by
      rw [hleft]
      exact List.mem_filter.mpr ⟨by simp, by simp [htarget]⟩
    obtain rfl : r' = r := by
      rw [hr] at hmem
      exact List.mem_singleton.mp hmem
    obtain ⟨hstart, hstop⟩ := Prod.mk.inj hends
    refine ⟨component, head, value, r', hresult, hhead, hwinning, htext, hline, hr,
      hpath.trans (by rw [htext]; decide), hstart, hstop, fun heq => ?_⟩
    have hor := (hiff hline).mp heq
    rw [hpath, htext] at hor
    exact absurd hor (by decide)

end Source

end Cfml
