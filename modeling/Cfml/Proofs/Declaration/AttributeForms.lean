/-
The ways to write an attribute.

The value of an attribute is written in double quotes, in single quotes or without quotes, behind an
equals sign that may have white space around it; or the name stands alone. Each form is read as what
it says (`Attribute.read_written`): a name goes on as far as it can, so the sign or white space ends
it, a value in quotes goes up to its quote whatever is in it, and one without quotes up to the white
space behind it. A name alone is not given a value by what follows unless that is a sign, so a list
of attributes is read entry by entry (`Attribute.readings_list`), and nothing is read from within a
value.
-/
import Cfml.Attribute
import Cfml.Proofs.Text.Blank
import Cfml.Proofs.Text.Occurrences

set_option autoImplicit false

namespace Cfml

variable {r later : Reader}

namespace Attribute

/-! ## What is written -/

/-- A value as it is written behind the equals sign. -/
inductive Form where
  | double (value : List Char) (h : '"' ∉ value)
  | single (value : List Char) (h : '\'' ∉ value)
  | bare (value : List Char) (hne : value ≠ []) (h : ∀ c ∈ value, isBare c = true)

namespace Form

/-- The value. -/
def value : Form → List Char
  | double value _ => value
  | single value _ => value
  | bare value _ _ => value

/-- The quote on either side, if there is one. -/
def quote : Form → List Char
  | double .. => ['"']
  | single .. => ['\'']
  | bare .. => []

/-- The value as it is written. -/
def text (form : Form) : List Char := form.quote ++ (form.value ++ form.quote)

end Form

/-- An equals sign with white space around it, and a value. -/
structure Assigned where
  before : List Char
  isBlank_before : ∀ c ∈ before, isBlank c = true
  behind : List Char
  isBlank_behind : ∀ c ∈ behind, isBlank c = true
  form : Form

/-- The sign and the value as they are written. -/
def Assigned.text (assigned : Assigned) : List Char :=
  assigned.before ++ '=' :: (assigned.behind ++ assigned.form.text)

/-- An attribute: the white space before it, its name, and its value if it has one. -/
structure Written where
  gap : List Char
  gap_ne_nil : gap ≠ []
  isBlank_gap : ∀ c ∈ gap, isBlank c = true
  first : Char
  isNameStart_first : isNameStart first = true
  more : List Char
  isNamePart_more : ∀ c ∈ more, isNamePart c = true
  assigned : Option Assigned

namespace Written

def name (w : Written) : List Char := w.first :: w.more

/-- The value, which is empty where none is written. -/
def value (w : Written) : List Char := (w.assigned.map fun a => a.form.value).getD []

/-- The attribute without the white space before it. -/
def text (w : Written) : List Char := w.name ++ (w.assigned.map Assigned.text).getD []

/-- A list of attributes. -/
def listText (list : List Written) : List Char := list.flatMap fun w => w.gap ++ w.text

end Written

/-! ## Reading a value -/

variable {value rest : List Char}

theorem quotedValue?_eq_some {quote : Char} (hahead : r.ahead = quote :: (value ++ quote :: rest))
    (hvalue : quote ∉ value) :
    quotedValue? quote r
      = some (⟨r.offset + 1, value⟩, r.passing (quote :: (value ++ [quote])) rest) := by
  have hopen : r.one? (· == quote) = some (r.passing [quote] (value ++ quote :: rest)) :=
    Reader.one?_of_cons hahead (beq_self_eq_true quote)
  have hinside : (r.passing [quote] (value ++ quote :: rest)).takeWhile (· != quote)
      = (⟨r.offset + 1, value⟩, r.passing (quote :: value) (quote :: rest)) := by
    rw [Reader.takeWhile_of_append rfl _ (by simp), Reader.passing_passing]
    · rfl
    · intro c hc
      rw [bne_iff_ne]
      rintro rfl
      exact hvalue hc
  have hclose : (r.passing (quote :: value) (quote :: rest)).one? (· == quote)
      = some (r.passing (quote :: (value ++ [quote])) rest) := by
    have hone : (r.passing (quote :: value) (quote :: rest)).one? (· == quote)
        = some ((r.passing (quote :: value) (quote :: rest)).passing [quote] rest) :=
      Reader.one?_of_cons rfl (beq_self_eq_true quote)
    rw [hone, Reader.passing_passing]
    rfl
  simp only [quotedValue?, Option.bind_eq_bind, Option.pure_def, hopen, Option.bind_some, hinside,
    hclose]

/-- A value in quotes begins with the quote. -/
theorem quotedValue?_eq_none {quote : Char} (h : r.ahead.head?.any (· == quote) = false) :
    quotedValue? quote r = none := by
  rw [quotedValue?, Reader.one?_eq_none h]
  rfl

/-- **Each form of a value is read as it is.** One without quotes has to end where what follows
begins. -/
theorem readValue_form (form : Form) (hahead : r.ahead = form.text ++ rest)
    (hrest : form.quote = [] → rest.head?.any isBare = false) :
    (quotedValue? '"' r <|> quotedValue? '\'' r <|> r.name? isBare isBare)
      = some (⟨r.offset + form.quote.length, form.value⟩, r.passing form.text rest) := by
  cases form with
  | double value hvalue =>
    have hsplit : r.ahead = '"' :: (value ++ '"' :: rest) := by
      rw [hahead]
      simp [Form.text, Form.quote, Form.value]
    rw [quotedValue?_eq_some hsplit hvalue]
    rfl
  | single value hvalue =>
    have hsplit : r.ahead = '\'' :: (value ++ '\'' :: rest) := by
      rw [hahead]
      simp [Form.text, Form.quote, Form.value]
    have hdouble : quotedValue? '"' r = none := quotedValue?_eq_none (by simp [hsplit])
    rw [hdouble, quotedValue?_eq_some hsplit hvalue]
    rfl
  | bare value hne hvalue =>
    obtain ⟨c, more, rfl⟩ := List.exists_cons_of_ne_nil hne
    obtain ⟨hc, hmore⟩ := List.forall_mem_cons.mp hvalue
    have hsplit : r.ahead = c :: more ++ rest := by
      rw [hahead]
      simp [Form.text, Form.quote, Form.value]
    have hquote : ∀ quote, isBare quote = false → quotedValue? quote r = none := by
      intro quote hquote
      apply quotedValue?_eq_none
      rw [hsplit]
      show (c == quote) = false
      rw [beq_eq_false_iff_ne]
      rintro rfl
      exact Bool.false_ne_true (hquote.symm.trans hc)
    rw [hquote '"' (by decide), hquote '\'' (by decide),
      Reader.name?_of_append hsplit hc hmore (hrest rfl)]
    simp [Form.text, Form.quote, Form.value]

/-- A value does not begin with white space. -/
theorem head?_form (form : Form) (rest : List Char) :
    (form.text ++ rest).head?.any isBlank = false := by
  cases form with
  | double => exact (show isBlank '"' = false by decide)
  | single => exact (show isBlank '\'' = false by decide)
  | bare value hne hvalue =>
    obtain ⟨c, more, rfl⟩ := List.exists_cons_of_ne_nil hne
    have hc := hvalue c List.mem_cons_self
    show isBlank c = false
    simp only [isBare, Bool.and_eq_true, Bool.not_eq_true'] at hc
    exact hc.1.1.1.1

theorem value?_assigned (assigned : Assigned) (hahead : r.ahead = assigned.text ++ rest)
    (hrest : assigned.form.quote = [] → rest.head?.any isBare = false) :
    value? r = some (⟨r.offset + (assigned.before ++ ['='] ++ assigned.behind).length
      + assigned.form.quote.length, assigned.form.value⟩, r.passing assigned.text rest) := by
  obtain ⟨before, hbefore, behind, hbehind, form⟩ := assigned
  have hsplit : r.ahead = before ++ '=' :: (behind ++ (form.text ++ rest)) := by
    rw [hahead]
    simp [Assigned.text]
  have hblanks : r.blanks = r.passing before ('=' :: (behind ++ (form.text ++ rest))) :=
    Reader.blanks_of_append hsplit hbefore (show isBlank '=' = false by decide)
  have hsign : (r.passing before ('=' :: (behind ++ (form.text ++ rest)))).one? (· == '=')
      = some (r.passing (before ++ ['=']) (behind ++ (form.text ++ rest))) := by
    rw [Reader.one?_of_cons rfl (by decide), Reader.passing_passing]
  have hblanks' : (r.passing (before ++ ['=']) (behind ++ (form.text ++ rest))).blanks
      = r.passing (before ++ ['='] ++ behind) (form.text ++ rest) := by
    rw [Reader.blanks_of_append rfl hbehind (head?_form form rest), Reader.passing_passing]
  have hvalue := readValue_form (r := r.passing (before ++ ['='] ++ behind) (form.text ++ rest))
    form rfl hrest
  rw [Reader.passing_passing, Reader.offset_passing] at hvalue
  have htext : before ++ ['='] ++ behind ++ form.text
      = Assigned.text ⟨before, hbefore, behind, hbehind, form⟩ := by
    simp [Assigned.text]
  rw [htext] at hvalue
  simp only [value?, Option.bind_eq_bind, hblanks, hsign, Option.bind_some, hblanks', hvalue]

/-- Without a sign there is no value. -/
theorem value?_eq_none {gap : List Char} (hahead : r.ahead = gap ++ rest)
    (hgap : ∀ c ∈ gap, isBlank c = true) (hrest : rest.head?.any isBlank = false)
    (hsign : rest.head?.any (· == '=') = false) : value? r = none := by
  have hone : (r.passing gap rest).one? (· == '=') = none := Reader.one?_eq_none hsign
  rw [value?, Reader.blanks_of_append hahead hgap hrest, hone]
  rfl

/-! ## Reading an attribute -/

/-- No attribute begins at a character that begins no name. -/
theorem read_eq_none (h : r.ahead.head?.any isNameStart = false) : pattern.read r = none := by
  simp only [pattern, pattern?, Reader.name?, Reader.one?_eq_none h, Option.map_none,
    Option.bind_eq_bind, Option.bind_none, ite_self]

/-- White space is no part of a name or of a value without quotes, and it is no equals sign. -/
theorem not_of_isBlank {c : Char} (h : isBlank c = true) : isNameStart c = false ∧
    isNamePart c = false ∧ isBare c = false ∧ (c == '=') = false := by
  have hall : ∀ c ∈ blankChars, isNameStart c = false ∧ isNamePart c = false ∧ isBare c = false ∧
      (c == '=') = false := by
    decide +kernel
  exact hall c (mem_blankChars h)

/-- What can follow an attribute: nothing, or white space with something else than an equals sign
behind it. -/
inductive Follows : List Char → Prop
  | nil : Follows []
  | gap {gap rest : List Char} (hne : gap ≠ []) (hgap : ∀ c ∈ gap, isBlank c = true)
      (hrest : ∀ c ∈ rest.head?, isNameStart c = true) : Follows (gap ++ rest)

/-- Where a name begins is no white space and no equals sign. -/
theorem head?_of_isNameStart (h : ∀ c ∈ rest.head?, isNameStart c = true) :
    rest.head?.any isBlank = false ∧ rest.head?.any (· == '=') = false := by
  cases rest with
  | nil => exact ⟨rfl, rfl⟩
  | cons c rest =>
    have hc : isNameStart c = true := h c rfl
    constructor
    · apply eq_false_of_ne_true
      intro hblank
      exact Bool.false_ne_true ((not_of_isBlank hblank).1.symm.trans hc)
    · apply eq_false_of_ne_true
      intro hsign
      obtain rfl : c = '=' := by simpa using hsign
      exact absurd hc (by decide)

theorem Follows.head? (h : Follows rest) {p : Char → Bool}
    (hp : ∀ c, isBlank c = true → p c = false) : rest.head?.any p = false := by
  cases h with
  | nil => rfl
  | gap hne hgap =>
    obtain ⟨c, gap, rfl⟩ := List.exists_cons_of_ne_nil hne
    exact hp c (hgap c List.mem_cons_self)

/-- What follows a name alone gives it no value. -/
theorem Follows.value?_eq_none (h : Follows rest) (hahead : r.ahead = rest) : value? r = none := by
  cases h with
  | nil => exact @Attribute.value?_eq_none r [] [] hahead (by simp) rfl rfl
  | gap _ hgap hrest =>
    obtain ⟨hblank, hsign⟩ := head?_of_isNameStart hrest
    exact Attribute.value?_eq_none hahead hgap hblank hsign

namespace Written

/-- What is read of the attribute: its name, and its value if it has one. -/
def reading (w : Written) : List Char × Option (List Char) :=
  (w.name, w.assigned.map (·.form.value))

/-- **An attribute is read as what it says**, in each of its forms. -/
theorem read_written (w : Written) (hbefore : r.isAfter isNamePart = false)
    (hahead : r.ahead = w.text ++ rest) (hrest : Follows rest) :
    ∃ found, pattern.read r = some (found, r.passing w.text rest) ∧
      (found.1.text, found.2.map Capture.text) = w.reading := by
  obtain ⟨gap, hne, hgap, c, hc, more, hmore, assigned⟩ := w
  cases assigned with
  | none =>
    have hname : r.name? isNameStart isNamePart
        = some (⟨r.offset, c :: more⟩, r.passing (c :: more) rest) := by
      refine Reader.name?_of_append ?_ hc hmore
        (hrest.head? fun d hd => (not_of_isBlank hd).2.1)
      simpa [text, name] using hahead
    have hvalue : value? (r.passing (c :: more) rest) = none := hrest.value?_eq_none rfl
    refine ⟨(⟨r.offset, c :: more⟩, none), ?_, rfl⟩
    simp only [pattern, pattern?, hbefore, hname, Option.bind_eq_bind, Option.bind_some, hvalue]
    simp [text, name]
  | some a =>
    have hsign : (a.text ++ rest).head?.any isNamePart = false := by
      obtain ⟨before, hblank, behind, -, form⟩ := a
      cases before with
      | nil => exact (show isNamePart '=' = false by decide)
      | cons d before => exact (not_of_isBlank (hblank d List.mem_cons_self)).2.1
    have hname : r.name? isNameStart isNamePart
        = some (⟨r.offset, c :: more⟩, r.passing (c :: more) (a.text ++ rest)) := by
      refine Reader.name?_of_append ?_ hc hmore hsign
      simpa [text, name] using hahead
    obtain ⟨value, hvalue, htext⟩ : ∃ value : Capture,
        value? (r.passing (c :: more) (a.text ++ rest))
            = some (value, r.passing (c :: more ++ a.text) rest) ∧
          value.text = a.form.value := by
      have hread := value?_assigned (r := r.passing (c :: more) (a.text ++ rest)) a rfl
        fun _ => hrest.head? fun d hd => (not_of_isBlank hd).2.2.1
      rw [Reader.passing_passing] at hread
      exact ⟨_, hread, rfl⟩
    refine ⟨(⟨r.offset, c :: more⟩, some value), ?_, by rw [Option.map_some, htext]; rfl⟩
    simp only [pattern, pattern?, hbefore, hname, Option.bind_eq_bind, Option.bind_some, hvalue]
    simp [text, name]

/-! ## Reading a list -/

/-- The text of a list can follow an attribute. -/
theorem follows_listText (list : List Written) : Follows (listText list) := by
  cases list with
  | nil => exact .nil
  | cons w list =>
    rw [listText, List.flatMap_cons, List.append_assoc]
    refine .gap w.gap_ne_nil w.isBlank_gap ?_
    intro c hc
    obtain rfl : w.first = c := Option.some.inj hc
    exact w.isNameStart_first

end Written

/-- The names and values that were read. -/
def readings (found : List (Occurrence (Capture × Option Capture))) :
    List (List Char × Option (List Char)) :=
  found.map fun o => (o.value.1.text, o.value.2.map Capture.text)

/-- Characters that begin no name are passed over. -/
theorem occurrences_gap {gap : List Char} (hahead : r.ahead = gap ++ rest)
    (hgap : ∀ c ∈ gap, isNameStart c = false) :
    occurrences pattern r = occurrences pattern (r.passing gap rest) := by
  apply occurrences_append hahead
  intro front back hne hsplit
  obtain ⟨c, back, rfl⟩ := List.exists_cons_of_ne_nil hne
  have hc : c ∈ gap := hsplit ▸ List.mem_append_right front List.mem_cons_self
  exact read_eq_none (hgap c hc)

/-- **A list of attributes is read entry by entry**, and nothing else is read. The induction is on
the list, from any place on. -/
theorem readings_list (list : List Written) (hahead : r.ahead = Written.listText list) :
    readings (occurrences pattern r) = list.map Written.reading := by
  induction list generalizing r with
  | nil =>
    obtain ⟨offset, before, ahead⟩ := r
    obtain rfl : ahead = [] := hahead
    rfl
  | cons w list ih =>
    let rest := Written.listText list
    have hsplit : r.ahead = w.gap ++ (w.text ++ rest) := by
      rw [hahead, Written.listText, List.flatMap_cons, List.append_assoc]
      rfl
    have hbefore : (r.passing w.gap (w.text ++ rest)).isAfter isNamePart = false := by
      obtain ⟨init, c, hconcat⟩ := (List.eq_nil_or_concat w.gap).resolve_left w.gap_ne_nil
      have hc : isBlank c = true := w.isBlank_gap c (by simp [hconcat])
      rw [Reader.isAfter, Reader.passing, hconcat, List.concat_eq_append, List.getLast?_concat]
      exact (not_of_isBlank hc).2.1
    obtain ⟨found, hread, hreading⟩ :=
      w.read_written hbefore rfl (Written.follows_listText list)
    have hcons : w.text = w.first :: (w.more ++ (w.assigned.map Assigned.text).getD []) := rfl
    rw [hcons] at hread
    have hhere := occurrences_eq_cons (r := r.passing w.gap (w.text ++ rest)) (by rw [hcons]; rfl)
      hread
    have hgap : ∀ c ∈ w.gap, isNameStart c = false :=
      fun c hc => (not_of_isBlank (w.isBlank_gap c hc)).1
    rw [occurrences_gap hsplit hgap, hhere, readings, List.map_cons, ← readings, ih rfl,
      List.map_cons, ← hreading]

end Attribute

end Cfml
