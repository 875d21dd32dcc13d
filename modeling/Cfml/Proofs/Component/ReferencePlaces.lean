/-
Where the references to components stand.

Each of the four patterns captures the longest dot path at a place, and what stands before it tells
which of them it was (`ReferencePattern.formBefore`): a blank or `new`, the equals sign of an
attribute, or a comma behind a text in quotes or behind a name. So no place is captured twice, and
what is captured at two places does not overlap (`ReferencePattern.pairwise_apart`).

A comment is blanked out before the patterns are looked for, and a blank is no part of a dot path.
What is captured was therefore in no comment and stands in the source as it was read
(`Source.isReference_of_mem`). No capture stops a lookup, because there is no slash in a dot path,
so all of them are returned (`Source.exists_references`).
-/
import Cfml.Component.Reference
import Cfml.Proofs.Component.Lookups
import Cfml.Proofs.Declaration.Outside
import Cfml.Proofs.Source.Captures
import Cfml.Proofs.Text.Blank
import Cfml.Proofs.Text.Letters

set_option autoImplicit false

namespace Cfml

/-- A way to name a component. -/
inductive ReferenceForm where
  | new
  | createObject
  | componentAttribute
  | isInstanceOf
deriving DecidableEq, Repr

namespace ReferencePattern

variable {r later : Reader} {path : Capture} {form : ReferenceForm}

/-! ## The patterns -/

/-- The word that a reference of the form begins with. -/
def word : ReferenceForm → List Char
  | .new => "new".toList
  | .createObject => "createObject".toList
  | .componentAttribute => "component".toList
  | .isInstanceOf => "isInstanceOf".toList

/-- Reads a sign and a dot path in quotes. -/
def signedPath? (sign : Char) (r : Reader) : Option (Capture × Reader) := do
  let r ← r.blanks.one? (· == sign)
  inQuotes? dotPath? r.blanks

/-- Reads what stands behind the word of a form. -/
def behindWord? : ReferenceForm → Reader → Option (Capture × Reader)
  | .new, r => do
    let r ← r.some? isBlank
    let (path, r) ← anyDotPath? r
    return (path, ← r.blanks.one? (· == '('))
  | .createObject, r => do
    let r ← r.blanks.one? (· == '(')
    let (_, r) ← inQuotes? (fun r => (r.caseless? "component".toList).map ((), ·)) r.blanks
    signedPath? ',' r
  | .componentAttribute, r => signedPath? '=' r
  | .isInstanceOf, r => do
    let r ← r.blanks.one? (· == '(')
    let (_, r) ← dotPath? r.blanks
    signedPath? ',' r

/-- The pattern of a form. -/
def ofForm : ReferenceForm → Pattern Capture
  | .new => ⟨new?, new?_reaches⟩
  | .createObject => ⟨createObject?, createObject?_reaches⟩
  | .componentAttribute => ⟨componentAttribute?, componentAttribute?_reaches⟩
  | .isInstanceOf => ⟨isInstanceOf?, isInstanceOf?_reaches⟩

/-- The forms, in the order in which they are looked for. -/
def forms : List ReferenceForm := [.new, .createObject, .componentAttribute, .isInstanceOf]

theorem all_eq : all = forms.map ofForm := rfl

theorem read_ofForm (form : ReferenceForm) (r : Reader) :
    (ofForm form).read r = (word? (word form) r).bind (behindWord? form) := by
  cases form <;> rfl

/-! ## Characters -/

theorem not_isDotPathPart_of_isBlank {c : Char} (h : isBlank c = true) :
    isDotPathPart c = false := by
  have hall : ∀ c ∈ blankChars, isDotPathPart c = false := by decide +kernel
  exact hall c (mem_blankChars h)

theorem not_of_isDotPathPart {c : Char} (h : isDotPathPart c = true) :
    isBlank c = false ∧ isQuote c = false := by
  constructor
  · by_contra hblank
    rw [not_isDotPathPart_of_isBlank (eq_true_of_ne_false hblank)] at h
    exact Bool.false_ne_true h
  · by_contra hquote
    rcases Bool.or_eq_true_iff.mp (eq_true_of_ne_false hquote) with heq | heq
    · exact absurd h (beq_iff_eq.mp heq ▸ by decide)
    · exact absurd h (beq_iff_eq.mp heq ▸ by decide)

theorem not_of_isQuote {c : Char} (h : isQuote c = true) :
    isBlank c = false ∧ isDotPathPart c = false := by
  rcases Bool.or_eq_true_iff.mp h with heq | heq
  · exact beq_iff_eq.mp heq ▸ ⟨by decide, by decide⟩
  · exact beq_iff_eq.mp heq ▸ ⟨by decide, by decide⟩

/-- The letters of the words. -/
def letters : List Char := "newcratObjompisIf".toList

/-- However the word of a form is written, it is a dot path. -/
theorem isDotPathPart_of_written {written : List Char}
    (h : List.Forall₂ (sameLetter · · = true) (word form) written) :
    ∀ d ∈ written, isDotPathPart d = true := by
  have hclass : ∀ c ∈ letters, ∀ d ∈ lowerClass c, 0 < d.toNat := by
    decide +kernel
  have hall : ∀ c ∈ letters, ∀ d ∈ writings c, isDotPathPart d = true := by
    decide +kernel
  have hletters : ∀ c ∈ word form, c ∈ letters := by
    cases form <;> decide
  intro d hd
  obtain ⟨i, hi, rfl⟩ := List.getElem_of_mem hd
  have hmem := hletters _ (List.getElem_mem (h.length_eq ▸ hi))
  exact hall _ hmem _ (mem_writings (hclass _ hmem) (h.get _ hi))

theorem exists_of_word? (h : word? (word form) r = some later) : ∃ written rest,
    written ≠ [] ∧ (∀ c ∈ written, isDotPathPart c = true) ∧ r.ahead = written ++ rest ∧
      later = r.passing written rest := by
  unfold word? at h
  split at h
  · obtain ⟨written, rest, hwritten, hahead, hlater⟩ := Reader.caseless?_eq_some_iff.mp h
    refine ⟨written, rest, ?_, isDotPathPart_of_written hwritten, hahead, hlater⟩
    rintro rfl
    rw [List.forall₂_nil_right_iff] at hwritten
    cases form <;> exact absurd hwritten (by decide)
  · exact absurd h (by simp)

/-! ## Dot paths -/

/-- A text that can be captured. -/
structure IsDotPath (text : List Char) : Prop where
  ne_nil : text ≠ []
  part : ∀ c ∈ text, isDotPathPart c = true

theorem exists_of_dotPath? (h : dotPath? r = some (path, later)) :
    r.ahead = path.text ++ later.ahead ∧ path.start = r.offset ∧ IsDotPath path.text ∧
      later = r.passing path.text later.ahead ∧
      later.ahead.head?.any isDotPathPart = false := by
  obtain ⟨c, more, rfl, hahead, hc, hmore, hlater, hend⟩ := Reader.name?_eq_some h
  exact ⟨hahead, rfl, ⟨List.cons_ne_nil c more, List.forall_mem_cons.mpr ⟨hc, hmore⟩⟩, hlater, hend⟩

theorem exists_of_inQuotes? {α : Type} {inside : Reader → Option (α × Reader)} {found : α}
    (h : inQuotes? inside r = some (found, later)) : ∃ quote rest behind rest',
      isQuote quote = true ∧ r.ahead = quote :: rest ∧
        inside (r.passing [quote] rest) = some (found, behind) ∧ behind.ahead = quote :: rest' ∧
        later = behind.passing [quote] rest' := by
  simp only [inQuotes?, Option.bind_eq_bind, Option.bind_eq_some_iff, Prod.exists] at h
  obtain ⟨quote, hhead, _, hopen, _, behind, hinside, _, hclose, heq⟩ := h
  obtain ⟨rfl, rfl⟩ := Prod.mk.inj (Option.some.inj heq)
  obtain ⟨c, rest, hahead, hquote, rfl⟩ := Reader.one?_eq_some_iff.mp hopen
  obtain rfl : c = quote := by simpa [hahead] using hhead
  obtain ⟨d, rest', hbehind, hd, rfl⟩ := Reader.one?_eq_some_iff.mp hclose
  obtain rfl : d = c := beq_iff_eq.mp hd
  exact ⟨d, rest, behind, rest', hquote, hahead, hinside, hbehind, rfl⟩

/-- The longest dot path at a place is captured, behind what has been passed over. -/
structure Captures (r : Reader) (path : Capture) (later : Reader) (lead behind : List Char) :
    Prop where
  ahead : r.ahead = lead ++ (path.text ++ behind)
  start : path.start = r.offset + lead.length
  isDotPath : IsDotPath path.text
  ends : behind.head?.any isDotPathPart = false
  stop_le : path.stop ≤ later.offset

theorem Captures.append {passed rest lead behind : List Char}
    (h : Captures (r.passing passed rest) path later lead behind)
    (hahead : r.ahead = passed ++ rest) : Captures r path later (passed ++ lead) behind where
  ahead := by
    rw [hahead, List.append_assoc]
    exact congrArg (passed ++ ·) h.ahead
  start := by
    rw [h.start, Reader.offset_passing, List.length_append, Nat.add_assoc]
  isDotPath := h.isDotPath
  ends := h.ends
  stop_le := h.stop_le

theorem captures_of_dotPath? (h : dotPath? r = some (path, later)) :
    Captures r path later [] later.ahead := by
  obtain ⟨hahead, hstart, hpath, hlater, hend⟩ := exists_of_dotPath? h
  refine ⟨hahead, hstart, hpath, hend, ?_⟩
  rw [hlater, Reader.offset_passing, Capture.stop, hstart]

theorem captures_of_quoted (h : inQuotes? dotPath? r = some (path, later)) :
    ∃ quote behind, isQuote quote = true ∧ Captures r path later [quote] behind := by
  obtain ⟨quote, rest, last, rest', hquote, hahead, hpath, hlast, hlater⟩ := exists_of_inQuotes? h
  refine ⟨quote, last.ahead, hquote, ?_⟩
  have hcaptures := (captures_of_dotPath? hpath).append hahead
  refine { hcaptures with stop_le := Nat.le_trans hcaptures.stop_le ?_ }
  rw [hlater, Reader.offset_passing]
  exact Nat.le_add_right _ _

theorem captures_of_signedPath? {sign : Char} (h : signedPath? sign r = some (path, later)) :
    ∃ blanks blanks' quote behind, (∀ c ∈ blanks, isBlank c = true) ∧
      (∀ c ∈ blanks', isBlank c = true) ∧ isQuote quote = true ∧
        Captures r path later (blanks ++ (sign :: (blanks' ++ [quote]))) behind := by
  obtain ⟨second, hsign, hpath⟩ := Option.bind_eq_some_iff.mp h
  obtain ⟨blanks, hahead, hblanks, hskip⟩ := Reader.exists_of_skipWhile isBlank r
  obtain ⟨c, rest, hrest, hc, rfl⟩ := Reader.one?_eq_some_iff.mp hsign
  obtain rfl : c = sign := beq_iff_eq.mp hc
  obtain ⟨blanks', hahead', hblanks', hskip'⟩ :=
    Reader.exists_of_skipWhile isBlank (r.blanks.passing [c] rest)
  obtain ⟨quote, behind, hquote, hcaptures⟩ := captures_of_quoted hpath
  refine ⟨blanks, blanks', quote, behind, hblanks, hblanks', hquote, ?_⟩
  rw [Reader.blanks, hskip'] at hcaptures
  have hsigned := (hcaptures.append hahead').append hrest
  rw [Reader.blanks, hskip] at hsigned
  exact hsigned.append hahead

/-! ## What stands before -/

/-- Behind which form of reference a dot path stands, read backwards from it. -/
def formBefore (before : List Char) : Option ReferenceForm :=
  match before.reverse with
  | [] => none
  | c :: more =>
    if isQuote c then
      match more.dropWhile isBlank with
      | '=' :: _ => some .componentAttribute
      | ',' :: more =>
        if (more.dropWhile isBlank).head?.any isQuote then some .createObject
        else some .isInstanceOf
      | _ => some .new
    else if isBlank c then some .new
    else none

theorem dropWhile_reverse_append {blanks : List Char} {c : Char} (rest : List Char)
    (hblanks : ∀ d ∈ blanks, isBlank d = true) (hc : isBlank c = false) :
    (blanks.reverse ++ (c :: rest)).dropWhile isBlank = c :: rest := by
  rw [List.dropWhile_append_of_pos (by simpa using hblanks),
    List.dropWhile_cons_of_neg (by simp [hc])]

section FormBefore

variable {front blanks blanks' : List Char} {c quote : Char}

theorem formBefore_blank (hc : isBlank c = true) : formBefore (front ++ [c]) = some .new := by
  have hquote : isQuote c = false := by
    by_contra hquote
    rw [(not_of_isQuote (eq_true_of_ne_false hquote)).1] at hc
    exact Bool.false_ne_true hc
  simp [formBefore, hquote, hc]

theorem formBefore_equals (hblanks' : ∀ d ∈ blanks', isBlank d = true)
    (hquote : isQuote quote = true) :
    formBefore (front ++ ('=' :: (blanks' ++ [quote]))) = some .componentAttribute := by
  have hskip := dropWhile_reverse_append front.reverse hblanks' (show isBlank '=' = false by decide)
  simp [formBefore, hquote, hskip]

theorem formBefore_comma (hc : isBlank c = false) (hblanks : ∀ d ∈ blanks, isBlank d = true)
    (hblanks' : ∀ d ∈ blanks', isBlank d = true) (hquote : isQuote quote = true) :
    formBefore (front ++ (c :: (blanks ++ (',' :: (blanks' ++ [quote]))))) =
      if isQuote c then some .createObject else some .isInstanceOf := by
  have hskip := dropWhile_reverse_append front.reverse hblanks hc
  have hskip' := dropWhile_reverse_append (blanks.reverse ++ (c :: front.reverse)) hblanks'
    (show isBlank ',' = false by decide)
  simp [formBefore, hquote, hskip', hskip]

/-- Behind a word with nothing but a blank and a quote. -/
theorem formBefore_word (hc : isDotPathPart c = true) (hblanks : ∀ d ∈ blanks, isBlank d = true)
    (hquote : isQuote quote = true) :
    formBefore (front ++ (c :: (blanks ++ [quote]))) = some .new := by
  have hskip := dropWhile_reverse_append front.reverse hblanks (not_of_isDotPathPart hc).1
  have hequals : c ≠ '=' := by
    rintro rfl
    exact absurd hc (by decide)
  have hcomma : c ≠ ',' := by
    rintro rfl
    exact absurd hc (by decide)
  simp [formBefore, hquote, hskip, hequals, hcomma]

end FormBefore

theorem Captures.of_reaches {place last : Reader} {lead behind : List Char}
    (h : Captures place path later lead behind) (hreaches : r.Reaches place)
    (hlast : later.Reaches last) : ∃ passed, Captures r path last (passed ++ lead) behind := by
  obtain ⟨passed, hahead, hplace⟩ := hreaches.exists_passing
  rw [hplace] at h
  have hcaptures := h.append hahead
  exact ⟨passed, { hcaptures with stop_le := Nat.le_trans hcaptures.stop_le hlast.offset_le }⟩

/-- The dot path behind `new`, with or without quotes. -/
theorem captures_of_new {c : Char} (h : behindWord? .new r = some (path, later))
    (hc : isDotPathPart c = true) : ∃ lead behind, Captures r path later lead behind ∧
      ∀ front, formBefore (front ++ (c :: lead)) = some .new := by
  simp only [behindWord?, Option.bind_eq_bind, Option.bind_eq_some_iff, Prod.exists] at h
  obtain ⟨second, hblank, found, last, hpath, closed, hclose, heq⟩ := h
  obtain ⟨rfl, rfl⟩ := Prod.mk.inj (Option.some.inj heq)
  obtain ⟨blanks, hahead, hne, hblanks, hsecond⟩ := Reader.exists_of_some? hblank
  have hstop : last.offset ≤ closed.offset :=
    (last.blanks_reaches.trans (Reader.one?_reaches hclose)).offset_le
  rw [hsecond] at hpath
  unfold anyDotPath? at hpath
  split at hpath
  · obtain ⟨quote, behind, hquote, hcaptures⟩ := captures_of_quoted hpath
    have hcaptures := hcaptures.append hahead
    refine ⟨_, behind, { hcaptures with stop_le := Nat.le_trans hcaptures.stop_le hstop }, ?_⟩
    exact fun front => formBefore_word hc hblanks hquote
  · have hcaptures := (captures_of_dotPath? hpath).append hahead
    refine ⟨_, last.ahead, { hcaptures with stop_le := Nat.le_trans hcaptures.stop_le hstop }, ?_⟩
    intro front
    obtain ⟨init, blank, rfl⟩ := (List.eq_nil_or_concat' blanks).resolve_left hne
    have hform := @formBefore_blank (front ++ (c :: init)) blank (hblanks blank (by simp))
    simpa using hform

theorem captures_of_createObject (h : behindWord? .createObject r = some (path, later)) :
    ∃ lead behind, Captures r path later lead behind ∧
      ∀ front, formBefore (front ++ lead) = some .createObject := by
  simp only [behindWord?, Option.bind_eq_bind, Option.bind_eq_some_iff, Prod.exists] at h
  obtain ⟨second, hopen, _, kind, hkind, hpath⟩ := h
  obtain ⟨quote, rest, last, rest', hquote, hahead, hinside, hlast, rfl⟩ :=
    exists_of_inQuotes? hkind
  obtain ⟨named, hword, heq⟩ := Option.map_eq_some_iff.mp hinside
  obtain rfl : named = last := (Prod.mk.inj heq).2
  obtain ⟨blanks, blanks', quote', behind, hblanks, hblanks', hquote', hcaptures⟩ :=
    captures_of_signedPath? hpath
  have hreaches : r.Reaches named := by
    have hquoted : second.blanks.Reaches (second.blanks.passing [quote] rest) :=
      ⟨[quote], hahead, rfl, rfl⟩
    exact (r.blanks_reaches.trans (Reader.one?_reaches hopen)).trans
      (second.blanks_reaches.trans (hquoted.trans (Reader.caseless?_reaches hword)))
  obtain ⟨passed, hcaptures⟩ := (hcaptures.append hlast).of_reaches hreaches (.refl later)
  refine ⟨_, behind, hcaptures, ?_⟩
  intro front
  have hform := @formBefore_comma (front ++ passed) blanks blanks' quote quote'
    (not_of_isQuote hquote).1 hblanks hblanks' hquote'
  rw [if_pos hquote] at hform
  simpa using hform

theorem captures_of_componentAttribute
    (h : behindWord? .componentAttribute r = some (path, later)) :
    ∃ lead behind, Captures r path later lead behind ∧
      ∀ front, formBefore (front ++ lead) = some .componentAttribute := by
  obtain ⟨blanks, blanks', quote, behind, hblanks, hblanks', hquote, hcaptures⟩ :=
    captures_of_signedPath? h
  refine ⟨_, behind, hcaptures, ?_⟩
  intro front
  rw [← List.append_assoc]
  exact formBefore_equals hblanks' hquote

theorem captures_of_isInstanceOf (h : behindWord? .isInstanceOf r = some (path, later)) :
    ∃ lead behind, Captures r path later lead behind ∧
      ∀ front, formBefore (front ++ lead) = some .isInstanceOf := by
  simp only [behindWord?, Option.bind_eq_bind, Option.bind_eq_some_iff, Prod.exists] at h
  obtain ⟨second, hopen, object, last, hobject, hpath⟩ := h
  obtain ⟨hahead, -, hdotPath, hlast, -⟩ := exists_of_dotPath? hobject
  obtain ⟨blanks, blanks', quote, behind, hblanks, hblanks', hquote, hcaptures⟩ :=
    captures_of_signedPath? hpath
  rw [hlast] at hcaptures
  have hreaches : r.Reaches second.blanks :=
    (r.blanks_reaches.trans (Reader.one?_reaches hopen)).trans second.blanks_reaches
  obtain ⟨passed, hcaptures⟩ := (hcaptures.append hahead).of_reaches hreaches (.refl later)
  refine ⟨_, behind, hcaptures, ?_⟩
  intro front
  -- the last character of the object stands before the comma
  obtain ⟨init, d, hsplit⟩ := (List.eq_nil_or_concat' object.text).resolve_left hdotPath.ne_nil
  have hd := not_of_isDotPathPart (hdotPath.part d (by simp [hsplit]))
  have hform := @formBefore_comma (front ++ (passed ++ init)) blanks blanks' d quote hd.1 hblanks
    hblanks' hquote
  rw [if_neg (by simp [hd.2])] at hform
  rw [hsplit]
  simpa using hform

/-- **What a pattern captures has its form before it.** -/
theorem captures_of_read (h : (ofForm form).read r = some (path, later)) :
    ∃ lead behind, Captures r path later lead behind ∧
      ∀ front, formBefore (front ++ lead) = some form := by
  rw [read_ofForm, Option.bind_eq_some_iff] at h
  obtain ⟨second, hread, hbehind⟩ := h
  obtain ⟨written, rest, hne, hwritten, hahead, rfl⟩ := exists_of_word? hread
  -- the last letter of the word is what stands before a blank or a quote
  obtain ⟨init, c, rfl⟩ := (List.eq_nil_or_concat' written).resolve_left hne
  have hbehind : ∃ lead behind, Captures (r.passing (init ++ [c]) rest) path later lead behind ∧
      ∀ front, formBefore (front ++ (c :: lead)) = some form := by
    cases form with
    | new => exact captures_of_new hbehind (hwritten c (by simp))
    | createObject =>
      obtain ⟨lead, behind, hcaptures, hform⟩ := captures_of_createObject hbehind
      exact ⟨lead, behind, hcaptures, fun front => by simpa using hform (front ++ [c])⟩
    | componentAttribute =>
      obtain ⟨lead, behind, hcaptures, hform⟩ := captures_of_componentAttribute hbehind
      exact ⟨lead, behind, hcaptures, fun front => by simpa using hform (front ++ [c])⟩
    | isInstanceOf =>
      obtain ⟨lead, behind, hcaptures, hform⟩ := captures_of_isInstanceOf hbehind
      exact ⟨lead, behind, hcaptures, fun front => by simpa using hform (front ++ [c])⟩
  obtain ⟨lead, behind, hcaptures, hform⟩ := hbehind
  refine ⟨_, behind, hcaptures.append hahead, ?_⟩
  intro front
  simpa using hform (front ++ init)

/-! ## Places of dot paths -/

/-- The dot path stands in the text behind a reference of the form, and it is the longest one
there. -/
structure StandsBehind (text : List Char) (form : ReferenceForm) (path : Capture) : Prop where
  isDotPath : IsDotPath path.text
  form_before : formBefore (text.take path.start) = some form
  prefix_drop : path.text <+: text.drop path.start
  ends : text[path.stop]?.any isDotPathPart = false

/-- What stands before a dot path is not a part of it. -/
theorem not_isDotPathPart_of_formBefore {before : List Char} {c : Char}
    (h : formBefore (before ++ [c]) = some form) : isDotPathPart c = false := by
  rw [formBefore, List.reverse_concat] at h
  simp only at h
  split at h
  · next hquote => exact (not_of_isQuote hquote).2
  · split at h
    · next hblank => exact not_isDotPathPart_of_isBlank hblank
    · exact absurd h (by simp)

variable {text : List Char} {form' : ReferenceForm} {path' : Capture}

theorem StandsBehind.getElem? (h : StandsBehind text form path) {i : Nat}
    (hi : i < path.text.length) : text[path.start + i]? = path.text[i]? := by
  obtain ⟨rest, hrest⟩ := h.prefix_drop
  rw [← List.getElem?_drop, ← hrest, List.getElem?_append_left hi]

/-- **Dot paths follow each other.** One that began within another one would have a part of it
before it. -/
theorem StandsBehind.stop_le (h : StandsBehind text form path) (h' : StandsBehind text form' path')
    (hlt : path.start < path'.start) : path.stop ≤ path'.start := by
  by_contra hwithin
  rw [Capture.stop] at hwithin
  obtain ⟨i, hi⟩ : ∃ i, path'.start = path.start + i + 1 :=
    ⟨path'.start - path.start - 1, by omega⟩
  have hchar := h.getElem? (show i < path.text.length by omega)
  rw [List.getElem?_eq_getElem (show i < path.text.length by omega)] at hchar
  have hform := h'.form_before
  rw [hi, List.take_add_one, hchar, Option.toList_some] at hform
  have hpart := h.isDotPath.part _ (List.getElem_mem (show i < path.text.length by omega))
  rw [not_isDotPathPart_of_formBefore hform] at hpart
  exact Bool.false_ne_true hpart

theorem StandsBehind.form_eq (h : StandsBehind text form path)
    (h' : StandsBehind text form' path') (hstart : path.start = path'.start) : form = form' := by
  have hform := h.form_before
  rw [hstart, h'.form_before] at hform
  exact (Option.some.inj hform).symm

/-- Two of them stand apart. -/
def Apart (path path' : Capture) : Prop := path.stop ≤ path'.start ∨ path'.stop ≤ path.start

theorem StandsBehind.apart (h : StandsBehind text form path)
    (h' : StandsBehind text form' path') (hne : path.start ≠ path'.start) : Apart path path' := by
  rcases Nat.lt_or_gt_of_ne hne with hlt | hlt
  · exact Or.inl (h.stop_le h' hlt)
  · exact Or.inr (h'.stop_le h hlt)

theorem standsBehind_of_mem {o : Occurrence Capture}
    (h : o ∈ occurrences (ofForm form) (Reader.ofText text 0)) :
    StandsBehind text form o.value ∧ o.start ≤ o.value.start ∧ o.value.stop ≤ o.stop := by
  obtain ⟨passed, rest, later, hahead, -, hstart, hread, hstop⟩ := isRead_of_mem_occurrences h
  obtain ⟨lead, behind, hcaptures, hform⟩ := captures_of_read hread
  have hrest : rest = lead ++ (o.value.text ++ behind) := hcaptures.ahead
  have hplace : o.value.start = (passed ++ lead).length := by
    rw [hcaptures.start, Reader.offset_passing, List.length_append, Reader.ofText, Nat.zero_add]
  have htext : text = passed ++ lead ++ (o.value.text ++ behind) := by
    rw [List.append_assoc, ← hrest]
    exact hahead
  refine ⟨⟨hcaptures.isDotPath, ?_, ?_, ?_⟩, ?_, ?_⟩
  · rw [htext, hplace, List.take_left]
    exact hform passed
  · rw [htext, hplace, List.drop_left]
    exact List.prefix_append _ _
  · rw [Capture.stop, htext, hplace, List.getElem?_append_right (Nat.le_add_right _ _),
      Nat.add_sub_cancel_left, List.getElem?_append_right (Nat.le_refl _), Nat.sub_self,
      ← List.head?_eq_getElem?]
    exact hcaptures.ends
  · rw [hstart, hplace, List.length_append, Reader.ofText, Nat.zero_add]
    exact Nat.le_add_right _ _
  · rw [hstop]
    exact hcaptures.stop_le

/-- **What the patterns capture stands apart**, whichever of them it was. -/
theorem pairwise_apart (text : List Char) :
    (forms.flatMap fun form => (occurrences (ofForm form) (Reader.ofText text 0)).map
      Occurrence.value).Pairwise Apart := by
  rw [List.pairwise_flatMap]
  constructor
  -- within what is found for one of them
  · intro form _
    rw [List.pairwise_map]
    have hfollow := occurrencesFrom_pairwise (ofForm form) 0 0 none text
    apply hfollow.imp_of_mem
    intro o o' ho ho' hle
    obtain ⟨-, -, hstop⟩ := standsBehind_of_mem ho
    obtain ⟨-, hstart, -⟩ := standsBehind_of_mem ho'
    exact Or.inl (Nat.le_trans hstop (Nat.le_trans hle hstart))
  · have hforms : forms.Pairwise (· ≠ ·) := by decide
    apply hforms.imp
    intro form form' hne path hpath path' hpath'
    obtain ⟨o, ho, rfl⟩ := List.mem_map.mp hpath
    obtain ⟨o', ho', rfl⟩ := List.mem_map.mp hpath'
    have hstands := (standsBehind_of_mem ho).1
    have hstands' := (standsBehind_of_mem ho').1
    exact hstands.apart hstands' fun hstart => hne (hstands.form_eq hstands' hstart)

end ReferencePattern

/-! ## In a source -/

namespace Source

open ReferencePattern

variable {src : Source} {dialect : Dialect} {form : ReferenceForm} {path : Capture}

theorem referenceCaptures_eq (src : Source) : src.referenceCaptures =
    forms.flatMap fun form => (occurrences (ofForm form)
      (Reader.ofText (src.withoutComments src.dialect false).text 0)).map Occurrence.value := by
  simp only [referenceCaptures, all_eq, List.flatMap_map, occurrencesIn_none]

/-- **What is captured stands in the source as it was read**, and no part of it in a comment. -/
theorem isIn_of_standsBehind
    (h : StandsBehind (src.withoutComments dialect false).text form path) :
    path.IsIn src ∧ ∀ comment ∈ src.comments dialect none false, ∀ i, path.start ≤ i →
      i < path.stop → (src.stretchOf comment).holds i = false := by
  have hvisible : ∀ i (hi : i < path.text.length),
      src.text[path.start + i]? = some path.text[i] ∧ ∀ comment ∈ src.comments dialect none false,
        (src.stretchOf comment).holds (path.start + i) = false := by
    intro i hi
    have hchar := h.getElem? hi
    rw [List.getElem?_eq_getElem hi] at hchar
    apply getElem?_of_visible hchar
    intro hblanked
    have hpart := h.isDotPath.part _ (List.getElem_mem hi)
    rw [eq_false_of_isBlanked (p := isDotPathPart) (by decide) hblanked] at hpart
    exact Bool.false_ne_true hpart
  have hpos := List.length_pos_of_ne_nil h.isDotPath.ne_nil
  have hpart : ∀ {i : Nat} (hi : i < path.text.length), path.text[i] ≠ '\n' ∧
      path.text[i] ≠ '\r' := by
    intro i hi
    have hpart := h.isDotPath.part _ (List.getElem_mem hi)
    constructor
    · intro heq
      rw [heq] at hpart
      exact absurd hpart (by decide)
    · intro heq
      rw [heq] at hpart
      exact absurd hpart (by decide)
  refine ⟨⟨?_, ?_, ?_⟩, ?_⟩
  · apply List.ext_getElem?
    intro i
    rw [slice, Capture.stop, Nat.add_sub_cancel_left]
    by_cases hi : i < path.text.length
    · rw [List.getElem?_take_of_lt hi, List.getElem?_drop, (hvisible i hi).1,
        List.getElem?_eq_getElem hi]
    · have hnone : path.text[i]? = none := List.getElem?_eq_none (Nat.le_of_not_lt hi)
      rw [hnone]
      exact List.getElem?_eq_none (Nat.le_trans (List.length_take_le _ _) (Nat.le_of_not_lt hi))
  · exact isBoundary_of_getElem? (hvisible 0 hpos).1 (hpart hpos).1
  · have hlast : path.text.length - 1 < path.text.length := by omega
    have hstop : path.stop = path.start + (path.text.length - 1) + 1 := by
      rw [Capture.stop]
      omega
    rw [hstop]
    exact isBoundary_succ (hvisible _ hlast).1 (hpart hlast).2
  · intro comment hcomment i hle hlt
    rw [Capture.stop] at hlt
    have hholds := (hvisible (i - path.start) (by omega)).2 comment hcomment
    rwa [Nat.add_sub_cancel' hle] at hholds

/-- No comment overlaps it. -/
theorem beside_comment (h : StandsBehind (src.withoutComments dialect false).text form path)
    {comment : Span} (hcomment : comment ∈ src.comments dialect none false) :
    comment.stop ≤ (src.spanOf path.stretch).start ∨
      (src.spanOf path.stretch).stop ≤ comment.start := by
  obtain ⟨hlt, -, -, hstart, hstop, -⟩ := (src.comments_spec dialect none false).2 comment hcomment
  have hnone := (isIn_of_standsBehind h).2 comment hcomment
  have hpos := List.length_pos_of_ne_nil h.isDotPath.ne_nil
  have hoffsets : src.offsetAt comment.start < src.offsetAt comment.stop := by
    by_contra hle
    have hle := src.position_mono (Nat.le_of_not_lt hle)
    rw [hstart, hstop] at hle
    exact Position.not_lt.mpr hle hlt
  by_cases hbefore : src.offsetAt comment.stop ≤ path.start
  · left
    rw [← hstop]
    exact src.position_mono hbefore
  · right
    rw [← hstart]
    apply src.position_mono
    by_contra hbehind
    -- the first character that both would have
    let i := max (src.offsetAt comment.start) path.start
    have hstop : path.stop = path.start + path.text.length := rfl
    change ¬ path.stop ≤ src.offsetAt comment.start at hbehind
    have hholds := hnone i (Nat.le_max_right _ _) (by omega)
    rw [← Bool.not_eq_true, Stretch.holds_iff] at hholds
    exact hholds ⟨Nat.le_max_left _ _, show i < src.offsetAt comment.stop by omega⟩

/-- The span is not empty, has the dot path as its text, and no comment overlaps it. -/
structure IsReference (src : Source) (dialect : Dialect) (dotPath : List Char) (span : Span) :
    Prop where
  textOf_eq : src.textOf span = dotPath
  start_lt_stop : span.start < span.stop
  beside : ∀ comment ∈ src.comments dialect none false,
    comment.stop ≤ span.start ∨ span.stop ≤ comment.start

/-- What is captured, as it is reported. -/
def captured (src : Source) (path : Capture) : List Char × Span :=
  (path.text, src.spanOf path.stretch)

theorem isReference_of_mem (h : path ∈ src.referenceCaptures) :
    IsDotPath path.text ∧
      src.IsReference src.dialect (src.captured path).1 (src.captured path).2 := by
  rw [referenceCaptures_eq] at h
  obtain ⟨form, -, hpath⟩ := List.mem_flatMap.mp h
  obtain ⟨o, ho, rfl⟩ := List.mem_map.mp hpath
  have hstands := (standsBehind_of_mem ho).1
  have hin := (isIn_of_standsBehind hstands).1
  have hpos := List.length_pos_of_ne_nil hstands.isDotPath.ne_nil
  refine ⟨hstands.isDotPath, hin.textOf_spanOf, ?_, fun _ hc => beside_comment hstands hc⟩
  exact position_lt hin.start.isPlace hin.stop.isPlace (Nat.lt_add_of_pos_right hpos)

/-! ## The references -/

/-- The reference that a captured dot path becomes, if the resolver has an answer. -/
def answeredCapture (isFile : Path → Bool) (resolver : Option Resolver) (cache : PathCache)
    (src : Source) (path : Capture) : Except EmptyName Reference :=
  match resolver with
  | some resolver => answered isFile resolver cache src (src.captured path)
  | none => .ok ⟨path.text, src.spanOf path.stretch, none⟩

variable {isFile : Path → Bool} {resolver : Option Resolver} {cache : PathCache}

theorem gives_references (isFile : Path → Bool) (resolver : Option Resolver) (cache : PathCache)
    (src : Source) : Resolution.Gives isFile cache (src.references isFile resolver)
      ((src.referenceCaptures.mapM (answeredCapture isFile resolver cache src)).map fun found =>
        found.mergeSort fun r s => r.span.start ≤ s.span.start) := by
  have hcapture : ∀ path : Capture, Resolution.Gives isFile cache
      (match resolver with
        | some resolver => src.reference isFile resolver path.text (src.spanOf path.stretch)
        | none => return ⟨path.text, src.spanOf path.stretch, none⟩)
      (answeredCapture isFile resolver cache src path) := by
    intro path
    cases resolver with
    | none => exact Resolution.gives_pure _
    | some resolver => exact gives_reference isFile resolver cache src _ _
  have hall := (Resolution.gives_mapM hcapture src.referenceCaptures).bind fun found =>
    Resolution.gives_pure (found.mergeSort fun r s => r.span.start ≤ s.span.start)
  cases hfound : src.referenceCaptures.mapM (answeredCapture isFile resolver cache src) <;>
    rw [hfound] at hall <;> exact hall

/-- There is no slash in a dot path, so its file has a name. -/
theorem not_stumbles {resolver : Resolver} {referring : Option Path} {dotPath : List Char}
    (h : IsDotPath dotPath) : ¬ resolver.Stumbles cache referring dotPath := by
  rintro ⟨_, -, ⟨hsegments, hslashes⟩, -⟩
  have hne := hsegments _ (DotPath.lastSegment_mem (trim dotPath))
  obtain ⟨c, rest, hlast⟩ := List.exists_cons_of_ne_nil hne
  have hc : c ∈ DotPath.lastSegment (trim dotPath) := hlast ▸ List.mem_cons_self
  have hpart := h.part c (mem_of_mem_trim ((DotPath.lastSegment_suffix _).subset hc))
  rw [hslashes c hc] at hpart
  exact absurd hpart (by decide)

theorem eq_of_answeredCapture {path : Capture} {r : Reference}
    (h : answeredCapture isFile resolver cache src path = .ok r) :
    src.captured path = (r.dotPath, r.span) := by
  cases resolver with
  | none =>
    obtain rfl := Except.ok.inj h
    rfl
  | some resolver => exact (answered_eq_ok_iff.mp h).1.symm

/-- **All of them are found.** What is returned is sorted by where it starts. -/
theorem exists_references (isFile : Path → Bool) (resolver : Option Resolver) (src : Source)
    (session : Session) : ∃ references : List Reference,
      ((src.references isFile resolver).run.run session).1 = .ok references ∧
        (references.map fun r => (r.dotPath, r.span)).Perm
          (src.referenceCaptures.map src.captured) ∧
        references.Pairwise fun r s => r.span.start ≤ s.span.start := by
  have hresult := (gives_references isFile resolver session.cache src).fst_run
  cases hfound : src.referenceCaptures.mapM (answeredCapture isFile resolver session.cache src) with
  | error e =>
    -- then one of the captures would be no dot path
    obtain ⟨front, path, back, hsplit, -, herror⟩ := mapM_eq_error_iff.mp hfound
    have hmem : path ∈ src.referenceCaptures := by
      rw [hsplit]
      exact List.mem_append_right front List.mem_cons_self
    have hpath := (isReference_of_mem hmem).1
    cases resolver with
    | none => exact absurd herror (by simp [answeredCapture])
    | some resolver => exact absurd (answered_eq_error_iff.mp herror).1 (not_stumbles hpath)
  | ok found =>
    rw [hfound] at hresult
    refine ⟨_, hresult, ?_, Position.pairwise_mergeSort (fun r => r.span.start) found⟩
    have hall := mapM_eq_ok_iff.mp hfound
    have heq : src.referenceCaptures.map src.captured =
        found.map fun r => (r.dotPath, r.span) := by
      rw [← List.forall₂_eq_eq_eq, List.forall₂_map_left_iff, List.forall₂_map_right_iff]
      exact hall.imp fun _ _ => eq_of_answeredCapture
    rw [heq]
    exact (List.mergeSort_perm found _).map _

variable {references : List Reference}

theorem isReference_of_perm (hperm : (references.map fun r => (r.dotPath, r.span)).Perm
      (src.referenceCaptures.map src.captured)) {r : Reference} (hr : r ∈ references) :
    src.IsReference src.dialect r.dotPath r.span := by
  have hmem := hperm.mem_iff.mp (List.mem_map_of_mem hr)
  obtain ⟨path, hpath, heq⟩ := List.mem_map.mp hmem
  have hreference := (isReference_of_mem hpath).2
  rwa [heq] at hreference

/-- **References that are sorted follow each other.** -/
theorem pairwise_stop_le_start (hperm : (references.map fun r => (r.dotPath, r.span)).Perm
      (src.referenceCaptures.map src.captured))
    (hsorted : references.Pairwise fun r s => r.span.start ≤ s.span.start) :
    references.Pairwise fun r s => r.span.stop ≤ s.span.start := by
  have hcaptures : (src.referenceCaptures.map src.captured).Pairwise fun x y =>
      x.2.stop ≤ y.2.start ∨ y.2.stop ≤ x.2.start := by
    rw [List.pairwise_map, referenceCaptures_eq]
    apply (pairwise_apart _).imp
    intro path path' hapart
    exact hapart.imp (fun h => src.position_mono h) fun h => src.position_mono h
  have hapart := (hperm.pairwise_iff Or.symm).mpr hcaptures
  rw [List.pairwise_map] at hapart
  apply (hapart.and hsorted).imp_of_mem
  rintro r s - hs ⟨hbefore | hbehind, hle⟩
  · exact hbefore
  -- the other way round the second one would be empty
  · have hlt := (isReference_of_perm hperm hs).start_lt_stop
    exact absurd hlt (Position.not_lt.mpr (Position.le_trans hbehind hle))

end Source

end Cfml
