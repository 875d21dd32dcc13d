/-
Lists of attributes with values in double quotes.

A value that can stand in double quotes (`QuotableText`) has no double quote in it, and it does not
begin a comment either: comments are blanked out before most declarations are looked for. Neither
the delimiter of a comment nor the opening of a tag goes across the quotes, so what no value has is
not in the list as it is written (`AreDelimiters.avoids_writtenAll`, `notMem_of_mem_writtenAll`).
-/
import Cfml.Component.Attributes
import Cfml.Declaration.Property
import Cfml.Proofs.Comment.Around
import Cfml.Proofs.Declaration.QuotedAttributes
import Cfml.Proofs.Text.TagPair

set_option autoImplicit false

namespace Cfml

open Attribute (written writtenAll)

/-! ## Words that are not written in a text -/

/-- None of the words is written in the text. -/
def Avoids (words : List Char → Prop) (text : List Char) : Prop :=
  ∀ word, words word → ¬ word <:+: text

/-- The word begins a comment in one of the dialects. -/
def IsOpener (word : List Char) : Prop :=
  ∃ dialect, ∃ form ∈ Dialect.comments dialect, word = form.opener

/-- The word begins a `<cfproperty>` tag. -/
def IsPropertyTag (word : List Char) : Prop :=
  ∃ tag, List.Forall₂ (sameLetter · · = true) "cfproperty".toList tag ∧ word = '<' :: tag

/-- The words do not reach from one part of a written attribute into the next, and are no part of a
name. -/
structure AreDelimiters (words : List Char → Prop) : Prop where
  apart : ∀ word, words word → ∀ c ∈ [' ', '=', '"'], c ∉ word
  visible : ∀ word, words word → ∃ c ∈ word, Attribute.isNamePart c = false

theorem areDelimiters_isOpener : AreDelimiters IsOpener where
  apart := by
    rintro _ ⟨dialect, form, hform, rfl⟩
    have hall : ∀ dialect, ∀ form ∈ Dialect.comments dialect,
        ∀ c ∈ [' ', '=', '"'], c ∉ form.opener := by
      intro dialect
      cases dialect <;> decide
    exact hall dialect form hform
  visible := by
    rintro _ ⟨dialect, form, hform, rfl⟩
    have hall : ∀ dialect, ∀ form ∈ Dialect.comments dialect,
        ∃ c ∈ form.opener, Attribute.isNamePart c = false := by
      intro dialect
      cases dialect <;> decide
    exact hall dialect form hform

theorem areDelimiters_isPropertyTag : AreDelimiters IsPropertyTag where
  apart := by
    rintro _ ⟨tag, htag, rfl⟩ c hc
    have hall : ∀ c ∈ [' ', '=', '"'], c ≠ '<' ∧
        ∀ d ∈ "cfproperty".toList, sameLetter d c = false := by decide
    obtain ⟨hbracket, hletters⟩ := hall c hc
    rw [List.mem_cons, not_or]
    exact ⟨hbracket, Tag.notMem_of_forall₂ htag hletters⟩
  visible := by
    rintro _ ⟨tag, -, rfl⟩
    exact ⟨'<', List.mem_cons_self, by decide⟩

/-- A text that is written out avoids the delimiters if it does so one by one. -/
theorem avoids_isOpener {text : List Char} (h : ∀ form ∈ Dialect.script.comments ++
    Dialect.tag.comments, ¬ form.opener <:+: text) : Avoids IsOpener text := by
  rintro _ ⟨dialect, form, hform, rfl⟩
  apply h
  cases dialect with
  | script => exact List.mem_append_left _ hform
  | tag => exact List.mem_append_right _ hform

/-- No tag begins without a bracket. -/
theorem avoids_isPropertyTag {text : List Char} (h : '<' ∉ text) : Avoids IsPropertyTag text := by
  rintro _ ⟨tag, -, rfl⟩ hin
  exact h (hin.subset List.mem_cons_self)

variable {words : List Char → Prop} {before behind rest : List Char}
  {entries : List (List Char × List Char)}

theorem Avoids.of_infix {text part : List Char} (h : Avoids words text) (hin : part <:+: text) :
    Avoids words part := fun word hword hpart => h word hword (hpart.trans hin)

theorem Avoids.append_cons {c : Char} (hc : ∀ word, words word → c ∉ word)
    (h : Avoids words before) (h' : Avoids words behind) :
    Avoids words (before ++ c :: behind) := by
  intro word hword hin
  rcases isInfix_or_of_notMem (hc word hword) hin with hbefore | hbehind
  · exact h word hword hbefore
  · exact h' word hword hbehind

theorem AreDelimiters.avoids_name (hwords : AreDelimiters words) {name : List Char}
    (hname : ∀ c ∈ name, Attribute.isNamePart c = true) : Avoids words name := by
  intro word hword hin
  obtain ⟨c, hc, hpart⟩ := hwords.visible word hword
  rw [hname c (hin.subset hc)] at hpart
  exact absurd hpart (by decide)

/-- What the parts of written attributes avoid, the whole avoids. -/
theorem AreDelimiters.avoids_writtenAll (hwords : AreDelimiters words)
    (hnames : ∀ e ∈ entries, Attribute.IsName e.1) (hvalues : ∀ e ∈ entries, Avoids words e.2)
    (hrest : Avoids words rest) : Avoids words (writtenAll entries ++ rest) := by
  have hnil : Avoids words [] := hwords.avoids_name (by simp)
  induction entries with
  | nil => exact hrest
  | cons e entries ih =>
    obtain ⟨hname, hnames⟩ := List.forall_mem_cons.mp hnames
    obtain ⟨hvalue, hvalues⟩ := List.forall_mem_cons.mp hvalues
    have hquote := hvalue.append_cons (fun word hword => hwords.apart word hword '"' (by simp))
      (ih hnames hvalues)
    have hopen := hnil.append_cons (fun word hword => hwords.apart word hword '"' (by simp)) hquote
    have hsign := (hwords.avoids_name hname.part).append_cons
      (fun word hword => hwords.apart word hword '=' (by simp)) hopen
    have hspace := hnil.append_cons (fun word hword => hwords.apart word hword ' ' (by simp)) hsign
    rw [writtenAll, List.flatMap_cons, written]
    simpa [writtenAll] using hspace

namespace Source

/-- Where no delimiter is written there is no comment. -/
theorem comments_of_avoids {src : Source} (h : Avoids IsOpener src.text) (dialect : Dialect) :
    src.comments dialect none false = [] := by
  have hscanned : ∀ dialect within, src.scannedComments dialect within = [] := by
    intro dialect within
    rw [scannedComments_eq, List.map_eq_nil_iff, List.eq_nil_iff_forall_not_mem]
    intro c hc
    obtain ⟨form, hform, passed, rest, hslice, -⟩ := exists_isWritten_of_mem_comments hc
    apply h form.opener ⟨dialect, form, hform, rfl⟩
    have hin : form.opener <:+: src.slice (src.bounds within).1 (src.bounds within).2 := by
      rw [hslice]
      exact List.infix_append' _ _ _
    exact hin.trans ((List.take_prefix _ _).isInfix.trans (List.drop_suffix _ _).isInfix)
  have haccurate : src.commentsAccurate dialect none = [] := by
    simp only [commentsAccurate, hscanned, List.filter_nil, List.nil_append]
    exact List.flatMap_eq_nil_iff.mpr fun _ _ => rfl
  rw [comments, if_neg (by decide), haccurate, Spans.normalize, List.mergeSort_nil]
  rfl

theorem withoutComments_of_avoids {text : List Char} {path : Option Path}
    (h : Avoids IsOpener text) (dialect : Dialect) :
    (ofText text path).withoutComments dialect false = ofText text path := by
  rw [withoutComments, comments_of_avoids h, List.map_nil, blankOut_nil]
  rfl

end Source

/-! ## Lists of attributes -/

/-- A text that can stand in double quotes and begins no comment there. -/
structure QuotableText where
  text : List Char
  noQuote : '"' ∉ text
  noComment : Avoids IsOpener text

/-- No character of the value is one of those. -/
def QuotableText.Spares (value : QuotableText) (stops : List Char) : Prop :=
  ∀ c ∈ value.text, c ∉ stops

/-- Attributes with values in quotes. Each has a name of its own, which is one of the given ones. -/
structure QuotedAttributes (names : List (List Char)) where
  entries : Keyed QuotableText
  known : ∀ e ∈ entries, e.1 ∈ names
  distinct : entries.Distinct

namespace QuotedAttributes

variable {names : List (List Char)}

/-- The names with the texts of the values. -/
def texts (as : QuotedAttributes names) : Keyed (List Char) :=
  as.entries.map fun e => (e.1, e.2.text)

/-- The text of an attribute. -/
def value? (as : QuotedAttributes names) (name : String) : Option (List Char) :=
  as.texts.find? name.toList

/-- One attribute alone. -/
def single (name : List Char) (h : name ∈ names) (value : QuotableText) :
    QuotedAttributes names where
  entries := [(name, value)]
  known e he := by
    rw [List.mem_singleton.mp he]
    exact h
  distinct := List.nodup_singleton name

/-- A value may stand in every list of attributes whose other values are harmless. -/
def IsOpaque (IsRead : QuotedAttributes names → Prop) (IsHarmless : QuotableText → Prop)
    (value : QuotableText) : Prop :=
  ∀ as : QuotedAttributes names, (∀ e ∈ as.entries, e.2 = value ∨ IsHarmless e.2) → IsRead as

/-- If harmless values are read, and a value that is read on its own is harmless, then the harmless
values are those that are opaque. -/
theorem isOpaque_iff {IsRead : QuotedAttributes names → Prop} {IsHarmless : QuotableText → Prop}
    {value : QuotableText} (hread : ∀ as : QuotedAttributes names,
      (∀ e ∈ as.entries, IsHarmless e.2) → IsRead as)
    {name : List Char} (hname : name ∈ names)
    (halone : IsRead (single name hname value) → IsHarmless value) :
    IsOpaque IsRead IsHarmless value ↔ IsHarmless value := by
  constructor
  · intro hopaque
    apply halone
    apply hopaque
    intro e he
    rw [List.mem_singleton.mp he]
    exact Or.inl rfl
  · intro hharmless as hvalues
    apply hread
    intro e he
    rcases hvalues e he with heq | hother
    · rw [heq]
      exact hharmless
    · exact hother

theorem distinct_texts (as : QuotedAttributes names) : as.texts.Distinct := by
  have hkeys : as.texts.map Prod.fst = as.entries.map Prod.fst := List.map_map ..
  rw [Keyed.Distinct, hkeys]
  exact as.distinct

theorem known_texts (as : QuotedAttributes names) : ∀ e ∈ as.texts, e.1 ∈ names := by
  intro e he
  obtain ⟨entry, hentry, rfl⟩ := List.mem_map.mp he
  exact as.known entry hentry

theorem noQuote_texts (as : QuotedAttributes names) : ∀ e ∈ as.texts, '"' ∉ e.2 := by
  intro e he
  obtain ⟨entry, -, rfl⟩ := List.mem_map.mp he
  exact entry.2.noQuote

theorem noComment_texts (as : QuotedAttributes names) : ∀ e ∈ as.texts, Avoids IsOpener e.2 := by
  intro e he
  obtain ⟨entry, -, rfl⟩ := List.mem_map.mp he
  exact entry.2.noComment

theorem spares_texts (as : QuotedAttributes names) {stops : List Char}
    (hspares : ∀ e ∈ as.entries, e.2.Spares stops) : ∀ e ∈ as.texts, ∀ c ∈ e.2, c ∉ stops := by
  intro e he
  obtain ⟨entry, hentry, rfl⟩ := List.mem_map.mp he
  exact hspares entry hentry

end QuotedAttributes

/-- Characters that no value has are not in the list as it is written, if attributes are not written
with them. -/
theorem notMem_of_mem_writtenAll {stops : List Char}
    (hstops : ∀ d ∈ stops, Attribute.isNamePart d = false ∧ d ∉ [' ', '=', '"'])
    (hnames : ∀ e ∈ entries, Attribute.IsName e.1) (hvalues : ∀ e ∈ entries, ∀ c ∈ e.2, c ∉ stops) :
    ∀ c ∈ writtenAll entries, c ∉ stops := by
  intro c hc hstop
  obtain ⟨hpart, hsign⟩ := hstops c hstop
  simp only [List.mem_cons, List.not_mem_nil, or_false, not_or] at hsign
  rw [writtenAll, List.mem_flatMap] at hc
  obtain ⟨e, he, hmem⟩ := hc
  have hname : c ∉ e.1 := by
    intro hin
    rw [(hnames e he).part c hin] at hpart
    exact absurd hpart (by decide)
  have hvalue : c ∉ e.2 := fun hin => hvalues e he c hin hstop
  simp [written, hsign, hname, hvalue] at hmem

/-- The names that attributes of a declaration can have are names. -/
theorem isName_of_mem {name : List Char} (h : name ∈ ComponentAttributes.names ++
    (PropertyDecl.attributeNames ++ FunctionDecl.tagAttributes)) : Attribute.IsName name := by
  have hall : ∀ name ∈ ComponentAttributes.names ++
      (PropertyDecl.attributeNames ++ FunctionDecl.tagAttributes),
      name.head?.any Attribute.isNameStart = true ∧ (∀ c ∈ name, Attribute.isNamePart c = true) ∧
        lower name = name := by decide
  obtain ⟨hbegins, hpart, hlower⟩ := hall name h
  exact ⟨hbegins, hpart, hlower⟩

namespace QuotedAttributes

/-! ### A list with a name in front -/

/-- The names of attributes other than that of the name. -/
def others (names : List (List Char)) : List (List Char) := names.filter (· != "name".toList)

variable {names : List (List Char)}

/-- The attributes with the name that is declared in front of them. -/
def named (as : QuotedAttributes (others names)) (name : List Char) : Keyed (List Char) :=
  ("name".toList, name) :: as.texts

theorem mem_of_mem_others {key : List Char} (h : key ∈ others names) :
    key ∈ names ∧ key ≠ "name".toList := by
  rw [others, List.mem_filter, bne_iff_ne] at h
  exact h

variable (as : QuotedAttributes (others names)) (name : List Char)

theorem known_named (h : "name".toList ∈ names) : ∀ e ∈ as.named name, e.1 ∈ names := by
  intro e he
  rcases List.mem_cons.mp he with rfl | he
  · exact h
  · exact (mem_of_mem_others (as.known_texts e he)).1

theorem distinct_named : (as.named name).Distinct := by
  apply List.nodup_cons.mpr
  refine ⟨?_, as.distinct_texts⟩
  intro hmem
  obtain ⟨e, he, hname⟩ := List.mem_map.mp hmem
  exact (mem_of_mem_others (as.known_texts e he)).2 hname

theorem find?_named {key : String} (hkey : key.toList ≠ "name".toList) :
    (as.named name).find? key.toList = as.value? key := by
  rw [named, Keyed.find?, List.lookup_cons, beq_false_of_ne hkey]
  rfl

variable {attributes : Keyed Attribute} {as name}

/-- Attributes with the values of the list are found by their names: the name in front, and the
others. -/
theorem find?_of_values (hvalues : attributes.map (fun e => (e.1, e.2.value)) = as.named name) :
    (∃ a, attributes.find? "name".toList = some a ∧ a.value = name) ∧
      ∀ key : String, key.toList ≠ "name".toList →
        (attributes.find? key.toList).map Attribute.value = as.value? key := by
  have hfind : ∀ key, (attributes.find? key).map Attribute.value = (as.named name).find? key := by
    intro key
    rw [← hvalues, Keyed.find?_map]
  refine ⟨Option.map_eq_some_iff.mp (hfind "name".toList), ?_⟩
  intro key hkey
  rw [hfind, find?_named as name hkey]

end QuotedAttributes

end Cfml
