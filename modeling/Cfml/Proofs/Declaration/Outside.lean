/-
Declarations stand outside of comments.

All declarations are looked for in a text in which comments have been blanked out. What each of the
patterns reads first is a letter, a bracket or a sign, and blanking puts none of them, so no
declaration starts where a comment was. Which comments these are depends on the dialect in which
they were blanked out: for script declarations, properties and variables it is the dialect of the
source, for functions in tag markup it is always markup.
-/
import Cfml.Proofs.Comment.Blanked
import Cfml.Proofs.Component.Keyed

set_option autoImplicit false

namespace Cfml

/-- No space and no line break is one of the characters. -/
def excludesBlanked (p : Char → Bool) : Bool := !p ' ' && !p '\r' && !p '\n'

theorem eq_false_of_isBlanked {p : Char → Bool} (hp : excludesBlanked p = true) {c : Char}
    (hc : Source.IsBlanked c) : p c = false := by
  simp only [excludesBlanked, Bool.and_eq_true, Bool.not_eq_true'] at hp
  obtain ⟨⟨hspace, hreturn⟩, hfeed⟩ := hp
  have hall : ∀ c ∈ [' ', '\r', '\n'], p c = false := by simp [hspace, hreturn, hfeed]
  exact hall c (Source.isBlanked_iff.mp hc)

/-- A word that cannot begin, in any case, where comments have been blanked out. -/
def beginsVisibly (word : List Char) : Bool :=
  word.head?.any fun c => excludesBlanked (sameLetter c)

namespace Reader

variable {r later : Reader}

/-- A character stands at the place that blanking does not put. -/
def AtVisible (r : Reader) : Prop := ∃ c rest, r.ahead = c :: rest ∧ ¬ Source.IsBlanked c

theorem atVisible_of_one? {p : Char → Bool} (hp : excludesBlanked p = true)
    (h : r.one? p = some later) : r.AtVisible := by
  obtain ⟨c, rest, hahead, hc, -⟩ := one?_eq_some_iff.mp h
  refine ⟨c, rest, hahead, ?_⟩
  intro hblanked
  rw [eq_false_of_isBlanked hp hblanked] at hc
  exact Bool.false_ne_true hc

theorem atVisible_of_caseless? {word : List Char} (hword : beginsVisibly word = true)
    (h : r.caseless? word = some later) : r.AtVisible := by
  cases word with
  | nil => exact absurd hword (by decide)
  | cons c word =>
    rw [caseless?, List.foldlM_cons, Option.bind_eq_bind, Option.bind_eq_some_iff] at h
    obtain ⟨second, hone, -⟩ := h
    exact atVisible_of_one? hword hone

theorem atVisible_of_name? {first part : Char → Bool} (hfirst : excludesBlanked first = true)
    {name : Capture} (h : r.name? first part = some (name, later)) :
    r.AtVisible ∧ name.start = r.offset ∧ name.stop ≤ r.offset + r.ahead.length := by
  obtain ⟨second, hone, heq⟩ := Option.map_eq_some_iff.mp h
  obtain ⟨rfl, -⟩ := Prod.mk.inj heq
  exact ⟨atVisible_of_one? hfirst hone, rfl, Nat.add_le_add_left (List.length_take_le' _ _) _⟩

end Reader

open Reader

/-! ## Where the patterns begin -/

variable {r later : Reader}

namespace FunctionDecl

theorem atVisible_of_modifier? {word : List Char} (hword : beginsVisibly word = true)
    {found : Capture} (h : modifier? word r = some (found, later)) : r.AtVisible := by
  simp only [modifier?, Option.bind_eq_bind, Option.bind_eq_some_iff] at h
  obtain ⟨behind, hread, -⟩ := h
  exact atVisible_of_caseless? hword hread

theorem atVisible_of_signature? {name : Capture} (h : signature? r = some (name, later)) :
    r.AtVisible := by
  simp only [signature?, Option.bind_eq_bind, Option.bind_eq_some_iff, Prod.exists] at h
  obtain ⟨_, _, hword, -⟩ := h
  exact atVisible_of_modifier? (by decide) hword

theorem atVisible_of_typed? {found : Option (List Char) × Capture}
    (h : typed? r = some (found, later)) : r.AtVisible := by
  rcases eq_some_of_orElse h with htyped | huntyped
  · simp only [Option.bind_eq_bind, Option.bind_eq_some_iff, Prod.exists] at htyped
    obtain ⟨_, _, htype, -⟩ := htyped
    simp only [type?, Option.bind_eq_bind, Option.bind_eq_some_iff, Prod.exists] at htype
    obtain ⟨_, _, hname, -⟩ := htype
    exact (atVisible_of_name? (by decide) hname).1
  · simp only [Option.map_eq_some_iff, Prod.exists] at huntyped
    obtain ⟨_, _, hsignature, -⟩ := huntyped
    exact atVisible_of_signature? hsignature

/-- A word stands at the place, or nothing is read. -/
theorem atVisible_or_of_anyModifier (words : List (List Char))
    (hwords : words.all beginsVisibly = true) (r : Reader) :
    r.AtVisible ∨ (anyModifier words r).2 = r := by
  unfold anyModifier
  split
  · next hfound =>
    obtain ⟨word, hword, hmodifier⟩ := List.exists_of_findSome?_eq_some hfound
    exact Or.inl (atVisible_of_modifier? (List.all_eq_true.mp hwords word hword) hmodifier)
  · exact Or.inr rfl

/-- Of the words for access and staticness, the type and the word `function` one stands at the
place. -/
theorem atVisible_of_header? {found : Header} (h : header? r = some (found, later)) :
    r.AtVisible := by
  unfold header? at h
  split at h
  · exact absurd h (by simp)
  · simp only [Option.bind_eq_bind, Option.bind_eq_some_iff, Prod.exists] at h
    obtain ⟨_, _, _, htyped, -⟩ := h
    rcases atVisible_or_of_anyModifier accessWords (by decide) r with hvisible | haccess
    · exact hvisible
    · rw [haccess] at htyped
      rcases atVisible_or_of_anyModifier ["static".toList] (by decide) r with hvisible | hstatic
      · exact hvisible
      · rw [hstatic] at htyped
        exact atVisible_of_typed? htyped

theorem span_of_ofTag? {src : Source} {tag : Tag} {f : FunctionDecl}
    (h : ofTag? src tag = some f) : f.span = tag.whole := by
  simp only [ofTag?, Option.bind_eq_bind, Option.bind_eq_some_iff] at h
  obtain ⟨_, -, heq⟩ := h
  split at heq
  · exact absurd heq (by simp)
  · obtain rfl := Option.some.inj heq
    rfl

end FunctionDecl

namespace PropertyDecl

theorem atVisible_of_mem_patterns {pattern : Pattern Capture} (hpattern : pattern ∈ patterns)
    {body : Capture} (h : pattern.read r = some (body, later)) : r.AtVisible := by
  rcases List.mem_cons.mp hpattern with rfl | hpattern
  · simp only [script?] at h
    split at h
    · exact absurd h (by simp)
    · simp only [Option.bind_eq_bind, Option.bind_eq_some_iff, Prod.exists] at h
      obtain ⟨_, _, hword, -⟩ := h
      exact FunctionDecl.atVisible_of_modifier? (by decide) hword
  · obtain rfl := List.mem_singleton.mp hpattern
    simp only [tag?, Tag.opening?, Option.bind_eq_bind, Option.bind_eq_some_iff] at h
    obtain ⟨_, ⟨_, hopen, -⟩, -⟩ := h
    exact atVisible_of_one? (by decide) hopen

/-- However a declaration is read, it has the span of what was found. -/
theorem span_of_ofFound? {src : Source} {found : Occurrence Capture} {p : PropertyDecl}
    (h : ofFound? src found = some p) : p.span = src.spanOf found.stretch := by
  simp only [ofFound?] at h
  split at h
  · simp only [ofAttributes?, Option.bind_eq_bind, Option.bind_eq_some_iff] at h
    obtain ⟨_, -, heq⟩ := h
    split at heq
    · exact absurd heq (by simp)
    · obtain rfl := Option.some.inj heq
      rfl
  · obtain ⟨_, -, rfl⟩ := Option.map_eq_some_iff.mp h
    rfl

end PropertyDecl

namespace Assignment

/-- The name that is assigned to stands at a place ahead, within what is read. -/
def NameAhead (r : Reader) (target : Target) : Prop :=
  ∃ place, r.Reaches place ∧ place.AtVisible ∧ target.name.start = place.offset ∧
    target.name.stop ≤ place.offset + place.ahead.length

variable {target : Target}

theorem NameAhead.of_reaches (h : r.Reaches later) (hname : NameAhead later target) :
    NameAhead r target := by
  obtain ⟨place, hplace, hname⟩ := hname
  exact ⟨place, h.trans hplace, hname⟩

theorem atVisible_of_assigned? {name : Capture} (h : assigned? r = some (name, later)) :
    r.AtVisible ∧ name.start = r.offset ∧ name.stop ≤ r.offset + r.ahead.length := by
  simp only [assigned?, Option.bind_eq_bind, Option.bind_eq_some_iff, Prod.exists] at h
  obtain ⟨_, _, hname, _, -, heq⟩ := h
  split at heq
  · exact absurd heq (by simp)
  · obtain ⟨rfl, -⟩ := Prod.mk.inj (Option.some.inj heq)
    exact atVisible_of_name? (by decide) hname

theorem nameAhead_of_scoped? {isDeclared : Bool} (h : scoped? isDeclared r = some (target, later)) :
    NameAhead r target := by
  rcases eq_some_of_orElse h with hscoped | hplain
  · simp only [Option.bind_eq_bind, Option.bind_eq_some_iff, Prod.exists] at hscoped
    obtain ⟨_, behind, hscope, _, _, hassigned, heq⟩ := hscoped
    obtain ⟨rfl, -⟩ := Prod.mk.inj (Option.some.inj heq)
    exact ⟨behind, scope?_reaches hscope, atVisible_of_assigned? hassigned⟩
  · simp only [Option.map_eq_some_iff, Prod.exists] at hplain
    obtain ⟨_, _, hassigned, heq⟩ := hplain
    obtain ⟨rfl, -⟩ := Prod.mk.inj heq
    exact ⟨r, .refl r, atVisible_of_assigned? hassigned⟩

theorem nameAhead_of_target? (h : target? r = some (target, later)) : NameAhead r target := by
  rcases eq_some_of_orElse h with hdeclared | hplain
  · simp only [Option.bind_eq_some_iff, Prod.exists] at hdeclared
    obtain ⟨_, _, hword, hscoped⟩ := hdeclared
    exact (nameAhead_of_scoped? hscoped).of_reaches (FunctionDecl.modifier?_reaches hword)
  · exact nameAhead_of_scoped? hplain

theorem nameAhead_of_pattern {dialect : Dialect}
    (h : (pattern dialect).read r = some (target, later)) : NameAhead r target := by
  cases dialect with
  | script =>
    rcases eq_some_of_orElse h with hline | hbehind
    · split at hline
      · exact (nameAhead_of_target? hline).of_reaches (r.skipWhile_reaches _)
      · exact absurd hline (by simp)
    · obtain ⟨start, hstart, htarget⟩ := Option.bind_eq_some_iff.mp hbehind
      have hbehind := (nameAhead_of_target? htarget).of_reaches (start.skipWhile_reaches _)
      exact hbehind.of_reaches (one?_reaches hstart)
  | tag =>
    simp only [pattern, tag?, Option.bind_eq_bind, Option.bind_eq_some_iff] at h
    obtain ⟨_, hopen, _, hname, _, hblank, htarget⟩ := h
    have hskip := (one?_reaches hopen).trans ((caseless?_reaches hname).trans
      (some?_reaches hblank))
    exact (nameAhead_of_target? htarget).of_reaches hskip

end Assignment

/-! ## Declarations -/

namespace Source

variable {src : Source} {dialect : Dialect}

/-- The position is that of a character in a comment of the source. -/
def WithinComment (src : Source) (dialect : Dialect) (p : Position) : Prop :=
  ∃ c ∈ src.comments dialect none false, (src.stretchOf c).holds (src.offsetAt p) = true

instance (src : Source) (dialect : Dialect) (p : Position) :
    Decidable (src.WithinComment dialect p) :=
  inferInstanceAs (Decidable (∃ c ∈ src.comments dialect none false,
    (src.stretchOf c).holds (src.offsetAt p) = true))

/-- What is read from a slice stands in the text. -/
theorem getElem?_of_reaches {start stop : Nat} {place : Reader} {c : Char} {rest : List Char}
    (h : (src.reader start stop).Reaches place) (hahead : place.ahead = c :: rest) :
    src.text[place.offset]? = some c := by
  obtain ⟨passed, hslice, hoffset, -⟩ := h
  have hchar : (src.slice start stop)[passed.length]? = some c := by
    rw [show src.slice start stop = passed ++ place.ahead from hslice, hahead,
      List.getElem?_append_right (Nat.le_refl _), Nat.sub_self]
    rfl
  rw [slice, List.getElem?_take, List.getElem?_drop] at hchar
  split at hchar
  · rw [hoffset]
    exact hchar
  · exact absurd hchar (by simp)

/-- What is visible without the comments is in the source, and in none of them. -/
theorem getElem?_of_visible {i : Nat} {c : Char}
    (h : (src.withoutComments dialect false).text[i]? = some c) (hc : ¬ IsBlanked c) :
    src.text[i]? = some c ∧
      ∀ comment ∈ src.comments dialect none false, (src.stretchOf comment).holds i = false := by
  rw [withoutComments, ofText, getElem?_blankOut, Option.map_eq_some_iff] at h
  obtain ⟨d, hd, hsame⟩ := h
  split at hsame
  -- a space would have been put
  · exact absurd (Or.inl hsame.symm) hc
  · next hkept =>
    subst hsame
    have hbreak : isLineBreak d = false := eq_false_of_ne_true fun hbreak => hc (Or.inr hbreak)
    rw [hbreak, Bool.not_false, Bool.true_and, Nat.zero_add] at hkept
    refine ⟨hd, ?_⟩
    intro comment hcomment
    apply eq_false_of_ne_true
    intro hholds
    exact hkept (List.any_eq_true.mpr ⟨_, List.mem_map_of_mem hcomment, hholds⟩)

/-- **What is visible without the comments is not in one.** -/
theorem not_withinComment {start stop : Nat} {place : Reader}
    (h : ((src.withoutComments dialect false).reader start stop).Reaches place)
    (hvisible : place.AtVisible) : ¬ src.WithinComment dialect (src.position place.offset) := by
  obtain ⟨c, rest, hahead, hc⟩ := hvisible
  obtain ⟨hchar, houtside⟩ := getElem?_of_visible (getElem?_of_reaches h hahead) hc
  have hfeed : c ≠ '\n' := by
    rintro rfl
    exact hc (Or.inr (by decide))
  rintro ⟨comment, hcomment, hholds⟩
  rw [offsetAt_position (isBoundary_of_getElem? hchar hfeed), houtside comment hcomment] at hholds
  exact Bool.false_ne_true hholds

theorem not_withinComment_of_mem_scriptFunctions :
    ∀ f ∈ src.scriptFunctions dialect, ¬ src.WithinComment dialect f.span.start := by
  intro f hf
  obtain ⟨found, hfound, rfl⟩ := List.mem_map.mp hf
  obtain ⟨place, _, hreaches, hoffset, hread⟩ := exists_place_of_mem_occurrences hfound
  have houtside := not_withinComment hreaches (FunctionDecl.atVisible_of_header? hread)
  rwa [hoffset] at houtside

theorem not_withinComment_of_mem_properties :
    ∀ p ∈ src.properties dialect, ¬ src.WithinComment dialect p.2.span.start := by
  intro p hp
  obtain ⟨declared, hdeclared, rfl⟩ := List.mem_map.mp (Keyed.mem_of_mem_insertAll hp)
  obtain ⟨found, hfound, hproperty⟩ := List.mem_filterMap.mp hdeclared
  obtain ⟨pattern, hpattern, hfound⟩ := List.mem_flatMap.mp hfound
  obtain ⟨place, _, hreaches, hoffset, hread⟩ := exists_place_of_mem_occurrences hfound
  have hvisible := PropertyDecl.atVisible_of_mem_patterns hpattern hread
  have houtside := not_withinComment hreaches hvisible
  rw [PropertyDecl.span_of_ofFound? hproperty, spanOf_withoutComments]
  rwa [hoffset] at houtside

theorem not_withinComment_of_mem_assignments {within : Option Span} :
    ∀ a ∈ src.assignments dialect within, ¬ src.WithinComment dialect a.span.start := by
  intro a ha
  obtain ⟨found, hfound, rfl⟩ := List.mem_map.mp ha
  obtain ⟨place, _, hreaches, -, hread⟩ := exists_place_of_mem_occurrences hfound
  obtain ⟨name, hname, hvisible, hstart, -⟩ := Assignment.nameAhead_of_pattern hread
  have houtside := not_withinComment (hreaches.trans hname) hvisible
  rwa [← hstart] at houtside

/-- Functions in tag markup stand outside of the comments of markup. -/
theorem not_withinComment_of_mem_tagFunctions :
    ∀ f ∈ src.tagFunctions, ¬ src.WithinComment .tag f.span.start := by
  intro f hf
  obtain ⟨tag, htag, hfunction⟩ := List.mem_filterMap.mp hf
  obtain ⟨found, hfound, rfl⟩ := List.mem_map.mp htag
  obtain ⟨place, _, hreaches, hoffset, hread⟩ := exists_place_of_mem_occurrences hfound
  have hvisible : place.AtVisible := by
    obtain ⟨_, _, _, ⟨_, _, rfl, -⟩, hahead, -⟩ := Tag.exists_opening hread
    refine ⟨'<', _, hahead, ?_⟩
    rintro (hspace | hbreak)
    · exact absurd hspace (by decide)
    · exact absurd hbreak (by decide)
  have houtside := not_withinComment hreaches hvisible
  rw [FunctionDecl.span_of_ofTag? hfunction, spanOf_withoutComments]
  rwa [hoffset] at houtside

end Source

end Cfml
