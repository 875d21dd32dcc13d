/-
The references to components.

Every reference that is reported is a dot path in the source, in no comment, and the references
follow each other. None is missed where one is written per line: behind a word that does not begin
a reference of a form, the pattern of the form fails (`opens_of_behindWord?`), and the only such
word in a line is the one that begins it (`WrittenReference.shuts_of_ne`). So in every line one
pattern captures the dot path and the others pass over it, and sorting puts together what the
patterns have found one after the other (`Source.references_spec`).
-/
import Cfml.Proofs.Component.ReferencePlaces
import Cfml.Proofs.Declaration.QuotedList

set_option autoImplicit false

namespace Cfml

/-! ## What is written -/

/-- A text that is a dot path. -/
structure DotPathText where
  text : List Char
  isDotPath : ReferencePattern.IsDotPath text

/-- A reference to a component, in one of the ways to write it. -/
inductive WrittenReference where
  | new (path : DotPathText)
  | createObject (path : DotPathText)
  | componentAttribute (path : DotPathText)
  | isInstanceOf (object path : DotPathText)

namespace WrittenReference

def form : WrittenReference → ReferenceForm
  | new _ => .new
  | createObject _ => .createObject
  | componentAttribute _ => .componentAttribute
  | isInstanceOf _ _ => .isInstanceOf

/-- The dot path of the component. -/
def path : WrittenReference → DotPathText
  | new path | createObject path | componentAttribute path | isInstanceOf _ path => path

/-- What is written before the dot path. -/
def lead : WrittenReference → List Char
  | new _ => "new ".toList
  | createObject _ => "createObject(\"component\", \"".toList
  | componentAttribute _ => "component=\"".toList
  | isInstanceOf object _ => "isInstanceOf(".toList ++ object.text ++ ", \"".toList

/-- What is written behind the dot path. -/
def tail : WrittenReference → List Char
  | new _ => "();".toList
  | componentAttribute _ => "\";".toList
  | createObject _ | isInstanceOf _ _ => "\");".toList

def text (w : WrittenReference) : List Char := w.lead ++ w.path.text ++ w.tail

end WrittenReference

/-- A line with a reference. It ends with a line feed, or with any other white space. -/
structure ReferenceLine where
  reference : WrittenReference
  ending : List Char
  blank : ∀ c ∈ ending, isBlank c = true

def ReferenceLine.text (line : ReferenceLine) : List Char := line.reference.text ++ line.ending

/-- What is to be captured in the lines if the first one starts at the offset. -/
def ReferenceLine.captures (offset : Nat) : List ReferenceLine → List Capture
  | [] => []
  | line :: lines => ⟨offset + line.reference.lead.length, line.reference.path.text⟩ ::
      captures (offset + line.text.length) lines

namespace ReferencePattern

variable {r later : Reader} {form : ReferenceForm} {path : Capture} {rest : List Char}

/-! ## Words that begin no reference -/

/-- Whether the text goes on like a reference of the form does behind its word. -/
def opens : ReferenceForm → List Char → Bool
  | .new, rest => rest.head?.any isBlank
  | .createObject, rest =>
    match rest.dropWhile isBlank with
    | '(' :: rest => (rest.dropWhile isBlank).head?.any isQuote
    | _ => false
  | .componentAttribute, rest => (rest.dropWhile isBlank).head? == some '='
  | .isInstanceOf, rest =>
    match rest.dropWhile isBlank with
    | '(' :: rest => (rest.dropWhile isBlank).head?.any isDotPathPart
    | _ => false

theorem ahead_blanks (r : Reader) : r.blanks.ahead = r.ahead.dropWhile isBlank := by
  rw [Reader.blanks, Reader.skipWhile_eq, Reader.ahead_passing]

theorem exists_of_sign? {sign : Char} (h : r.blanks.one? (· == sign) = some later) :
    r.ahead.dropWhile isBlank = sign :: later.ahead := by
  obtain ⟨c, rest, hahead, hc, rfl⟩ := Reader.one?_eq_some_iff.mp h
  obtain rfl : c = sign := beq_iff_eq.mp hc
  rw [← ahead_blanks, hahead]
  rfl

theorem opens_of_behindWord? (h : behindWord? form r = some (path, later)) :
    opens form r.ahead = true := by
  cases form with
  | new =>
    obtain ⟨second, hblank, -⟩ := Option.bind_eq_some_iff.mp h
    obtain ⟨passed, hahead, hne, hpassed, -⟩ := Reader.exists_of_some? hblank
    obtain ⟨c, passed, rfl⟩ := List.exists_cons_of_ne_nil hne
    rw [hahead]
    exact hpassed c List.mem_cons_self
  | createObject =>
    obtain ⟨second, hopen, h⟩ := Option.bind_eq_some_iff.mp h
    obtain ⟨⟨_, kind⟩, hkind, -⟩ := Option.bind_eq_some_iff.mp h
    obtain ⟨quote, rest, _, _, hquote, hahead, -⟩ := exists_of_inQuotes? hkind
    simp only [opens, exists_of_sign? hopen, ← ahead_blanks, hahead]
    exact hquote
  | componentAttribute =>
    obtain ⟨second, hsign, -⟩ := Option.bind_eq_some_iff.mp h
    simp only [opens, exists_of_sign? hsign, List.head?_cons, beq_self_eq_true]
  | isInstanceOf =>
    obtain ⟨second, hopen, h⟩ := Option.bind_eq_some_iff.mp h
    obtain ⟨⟨object, last⟩, hobject, -⟩ := Option.bind_eq_some_iff.mp h
    obtain ⟨hahead, -, hpath, -⟩ := exists_of_dotPath? hobject
    obtain ⟨c, more, hmore⟩ := List.exists_cons_of_ne_nil hpath.ne_nil
    simp only [opens, exists_of_sign? hopen, ← ahead_blanks, hahead, hmore, List.cons_append,
      List.head?_cons]
    exact hpath.part c (hmore ▸ List.mem_cons_self)

/-- Only a blank, a parenthesis or an equals sign follows the word of a reference. -/
theorem opens_cons_eq_false {c : Char} (hblank : isBlank c = false) (hopen : c ≠ '(')
    (hequals : c ≠ '=') : opens form (c :: rest) = false := by
  have hskip : (c :: rest).dropWhile isBlank = c :: rest :=
    List.dropWhile_cons_of_neg (by simp [hblank])
  cases form <;> simp [opens, hskip, hblank, hopen, hequals]

theorem opens_part_eq_false {c : Char} (hc : isDotPathPart c = true) :
    opens form (c :: rest) = false := by
  apply opens_cons_eq_false (not_of_isDotPathPart hc).1
  · rintro rfl
    exact absurd hc (by decide)
  · rintro rfl
    exact absurd hc (by decide)

/-- A blank and a dot path follow the word of no reference but `new`. -/
theorem opens_space_eq_false {text : List Char} (htext : IsDotPath text) (hne : form ≠ .new) :
    opens form (' ' :: (text ++ rest)) = false := by
  obtain ⟨c, more, rfl⟩ := List.exists_cons_of_ne_nil htext.ne_nil
  have hc := htext.part c List.mem_cons_self
  have hskip : (' ' :: (c :: more ++ rest)).dropWhile isBlank =
      (c :: (more ++ rest)).dropWhile isBlank := List.dropWhile_cons_of_pos (by decide)
  have hopens := @opens_part_eq_false form (more ++ rest) c hc
  cases form with
  | new => exact absurd rfl hne
  | _ => simpa only [opens, hskip] using hopens

/-- What follows a parenthesis tells which of the calls it is. -/
theorem opens_parenthesis_eq_false {c : Char} (hblank : isBlank c = false)
    (hquote : isQuote c = false ∨ form ≠ .createObject)
    (hpart : isDotPathPart c = false ∨ form ≠ .isInstanceOf) :
    opens form ('(' :: c :: rest) = false := by
  have hparenthesis : isBlank '(' = false := by decide
  have hskip : ('(' :: c :: rest).dropWhile isBlank = '(' :: c :: rest :=
    List.dropWhile_cons_of_neg (by simp [hparenthesis])
  have hskip' : (c :: rest).dropWhile isBlank = c :: rest :=
    List.dropWhile_cons_of_neg (by simp [hblank])
  cases form with
  | new => exact hparenthesis
  | createObject =>
    simp only [opens, hskip, hskip']
    exact hquote.resolve_right fun h => h rfl
  | componentAttribute => simp [opens, hskip]
  | isInstanceOf =>
    simp only [opens, hskip, hskip']
    exact hpart.resolve_right fun h => h rfl

theorem opens_equals_eq_false (hne : form ≠ .componentAttribute) :
    opens form ('=' :: rest) = false := by
  have hequals : isBlank '=' = false := by decide
  have hskip : ('=' :: rest).dropWhile isBlank = '=' :: rest :=
    List.dropWhile_cons_of_neg (by simp [hequals])
  cases form with
  | componentAttribute => exact absurd rfl hne
  | _ => simp [opens, hskip, hequals]

theorem exists_of_read (h : (ofForm form).read r = some (path, later)) : ∃ written rest,
    written ≠ [] ∧ (∀ c ∈ written, isDotPathPart c = true) ∧ r.ahead = written ++ rest ∧
      opens form rest = true := by
  rw [read_ofForm, Option.bind_eq_some_iff] at h
  obtain ⟨second, hword, hbehind⟩ := h
  obtain ⟨written, rest, hne, hwritten, hahead, rfl⟩ := exists_of_word? hword
  exact ⟨written, rest, hne, hwritten, hahead, opens_of_behindWord? hbehind⟩

/-- No reference begins with a character that is no part of a word. -/
theorem read_eq_none_of_head (h : r.ahead.head?.any isDotPathPart = false) :
    (ofForm form).read r = none := by
  by_contra hread
  obtain ⟨⟨path, later⟩, hread⟩ := Option.ne_none_iff_exists'.mp hread
  obtain ⟨written, rest, hne, hwritten, hahead, -⟩ := exists_of_read hread
  obtain ⟨c, written, rfl⟩ := List.exists_cons_of_ne_nil hne
  rw [hahead] at h
  exact absurd (hwritten c List.mem_cons_self) (Bool.eq_false_iff.mp h)

/-- None begins in a word that does not go on like it. -/
theorem read_eq_none_of_word {word : List Char} (hahead : r.ahead = word ++ rest)
    (hword : ∀ c ∈ word, isDotPathPart c = true) (hrest : rest.head?.any isDotPathPart = false)
    (hopens : opens form rest = false) : (ofForm form).read r = none := by
  by_contra hread
  obtain ⟨⟨path, later⟩, hread⟩ := Option.ne_none_iff_exists'.mp hread
  obtain ⟨written, rest', -, hwritten, hahead', hopens'⟩ := exists_of_read hread
  rw [hahead] at hahead'
  rcases List.append_eq_append_iff.mp hahead' with ⟨more, rfl, rfl⟩ | ⟨more, rfl, rfl⟩
  -- what is written ends behind the word
  · cases more with
    | nil => exact absurd hopens' (Bool.eq_false_iff.mp hopens)
    | cons c more => exact absurd (hwritten c (by simp)) (Bool.eq_false_iff.mp hrest)
  -- or with it, or before its end
  · cases more with
    | nil => exact absurd hopens' (Bool.eq_false_iff.mp hopens)
    | cons c more =>
      rw [List.cons_append, opens_part_eq_false (hword c (by simp))] at hopens'
      exact Bool.false_ne_true hopens'

/-! ## Words with what separates them -/

/-- A word, and what separates it from the next one. -/
structure SeparatedWord where
  word : List Char
  gap : List Char
  part : ∀ c ∈ word, isDotPathPart c = true
  ne_nil : gap ≠ []
  apart : ∀ c ∈ gap, isDotPathPart c = false

def SeparatedWord.text (s : SeparatedWord) : List Char := s.word ++ s.gap

/-- No reference of the form begins with one of the words. -/
def Shuts (form : ReferenceForm) (rest : List Char) : List SeparatedWord → Prop
  | [] => True
  | s :: words =>
    opens form (s.gap ++ (words.flatMap SeparatedWord.text ++ rest)) = false ∧ Shuts form rest words

theorem occurrences_gap {gap : List Char} (hahead : r.ahead = gap ++ rest)
    (hgap : ∀ c ∈ gap, isDotPathPart c = false) :
    occurrences (ofForm form) r = occurrences (ofForm form) (r.passing gap rest) := by
  apply occurrences_append hahead
  intro front back hne hsplit
  obtain ⟨c, back, rfl⟩ := List.exists_cons_of_ne_nil hne
  exact read_eq_none_of_head (hgap c (by simp [hsplit]))

theorem occurrences_word (s : SeparatedWord) (hahead : r.ahead = s.text ++ rest)
    (hopens : opens form (s.gap ++ rest) = false) :
    occurrences (ofForm form) r = occurrences (ofForm form) (r.passing s.text rest) := by
  rw [SeparatedWord.text, List.append_assoc] at hahead
  have hhead : (s.gap ++ rest).head?.any isDotPathPart = false := by
    obtain ⟨c, gap, hgap⟩ := List.exists_cons_of_ne_nil s.ne_nil
    have hc := s.apart c (hgap ▸ List.mem_cons_self)
    rw [hgap]
    exact hc
  have hmisses : (ofForm form).Misses r s.word (s.gap ++ rest) := by
    intro front back hne hsplit
    exact read_eq_none_of_word rfl (fun c hc => s.part c (by simp [hsplit, hc])) hhead hopens
  rw [occurrences_append hahead hmisses, occurrences_gap rfl s.apart, Reader.passing_passing]
  rfl

/-- The search passes over words with which no reference begins. -/
theorem occurrences_words {words : List SeparatedWord}
    (hahead : r.ahead = words.flatMap SeparatedWord.text ++ rest) (hshuts : Shuts form rest words) :
    occurrences (ofForm form) r =
      occurrences (ofForm form) (r.passing (words.flatMap SeparatedWord.text) rest) := by
  induction words generalizing r with
  | nil => exact congrArg (occurrences _) (Reader.passing_nil hahead).symm
  | cons s words ih =>
    rw [List.flatMap_cons, List.append_assoc] at hahead
    rw [occurrences_word s hahead hshuts.1, ih rfl hshuts.2, Reader.passing_passing,
      List.flatMap_cons]

/-! ## Reading what is written -/

variable {text : List Char}

theorem inQuotes?_of_append {α : Type} {inside : Reader → Option (α × Reader)} {found : α}
    {quote : Char} (hquote : isQuote quote = true)
    (hahead : r.ahead = quote :: (text ++ quote :: rest))
    (hinside : inside (r.passing [quote] (text ++ quote :: rest)) =
      some (found, r.passing (quote :: text) (quote :: rest))) :
    inQuotes? inside r = some (found, r.passing (quote :: (text ++ [quote])) rest) := by
  have hopen := Reader.one?_of_cons (p := isQuote) hahead hquote
  have hclose := @Reader.one?_of_cons (· == quote) (r.passing (quote :: text) (quote :: rest)) quote
    rest rfl (beq_self_eq_true quote)
  rw [Reader.passing_passing, List.cons_append] at hclose
  simp [inQuotes?, hahead, hopen, hinside, hclose]

theorem quotedWord?_of_append {word : List Char} (hahead : r.ahead = '"' :: (word ++ '"' :: rest)) :
    inQuotes? (fun r => (r.caseless? word).map ((), ·)) r =
      some ((), r.passing ('"' :: (word ++ ['"'])) rest) := by
  apply inQuotes?_of_append (by decide) hahead
  rw [Reader.caseless?_of_append (Reader.ahead_passing ..), Reader.passing_passing]
  rfl

theorem dotPath?_of_append (htext : IsDotPath text)
    (hahead : r.ahead = text ++ rest) (hrest : rest.head?.any isDotPathPart = false) :
    dotPath? r = some (⟨r.offset, text⟩, r.passing text rest) := by
  obtain ⟨c, more, rfl⟩ := List.exists_cons_of_ne_nil htext.ne_nil
  obtain ⟨hc, hmore⟩ := List.forall_mem_cons.mp htext.part
  exact Reader.name?_of_append hahead hc hmore hrest

/-- Blanks that are not there are passed over. -/
theorem blanks_eq_self (h : r.ahead.head?.any isBlank = false) : r.blanks = r := by
  rw [Reader.blanks_of_append (List.nil_append _).symm (by simp) h, Reader.passing_nil rfl]

theorem blanks_of_quote (hahead : r.ahead = '"' :: rest) : r.blanks = r :=
  blanks_eq_self (hahead ▸ show isBlank '"' = false by decide)

theorem sign?_of_cons {sign : Char} (hsign : isBlank sign = false)
    (hahead : r.ahead = sign :: rest) :
    r.blanks.one? (· == sign) = some (r.passing [sign] rest) := by
  rw [blanks_eq_self (by rw [hahead]; exact hsign)]
  exact Reader.one?_of_cons hahead (beq_self_eq_true sign)

/-- A dot path in double quotes is captured. -/
theorem quoted?_of_append (htext : IsDotPath text)
    (hahead : r.ahead = '"' :: (text ++ '"' :: rest)) :
    inQuotes? dotPath? r =
      some (⟨r.offset + 1, text⟩, r.passing ('"' :: (text ++ ['"'])) rest) := by
  apply inQuotes?_of_append (by decide) hahead
  have hend : ('"' :: rest).head?.any isDotPathPart = false :=
    show isDotPathPart '"' = false by decide
  rw [dotPath?_of_append htext (Reader.ahead_passing ..) hend, Reader.passing_passing]
  rfl

/-- So is one behind a sign, with blanks between them. -/
theorem signedPath?_of_append {sign : Char} {blanks : List Char}
    (hsign : isBlank sign = false) (hblanks : ∀ c ∈ blanks, isBlank c = true)
    (htext : IsDotPath text) (hahead : r.ahead = sign :: (blanks ++ '"' :: (text ++ '"' :: rest))) :
    signedPath? sign r = some (⟨r.offset + (sign :: (blanks ++ ['"'])).length, text⟩,
      r.passing (sign :: (blanks ++ '"' :: (text ++ ['"']))) rest) := by
  have hskip := @Reader.blanks_of_append (r.passing [sign] (blanks ++ '"' :: (text ++ '"' :: rest)))
    blanks ('"' :: (text ++ '"' :: rest)) rfl hblanks (show isBlank '"' = false by decide)
  rw [Reader.passing_passing] at hskip
  rw [signedPath?, sign?_of_cons hsign hahead]
  simp only [Option.bind_eq_bind, Option.bind_some, hskip]
  rw [quoted?_of_append htext (Reader.ahead_passing ..), Reader.passing_passing]
  simp [Nat.add_assoc, Reader.offset_passing]

theorem word?_of_append (hbefore : r.before.any isWord = false)
    (hahead : r.ahead = word form ++ rest) :
    word? (word form) r = some (r.passing (word form) rest) := by
  have hbegins : (word form).head?.any isWord = true := by cases form <;> decide +kernel
  have hboundary : r.atWordBoundary = true := by
    obtain ⟨c, more, hword⟩ : ∃ c more, word form = c :: more := by cases form <;> exact ⟨_, _, rfl⟩
    rw [hword] at hbegins
    rw [Reader.atWordBoundary, hbefore, hahead, hword, List.cons_append, List.head?_cons]
    simpa using hbegins
  rw [word?, if_pos hboundary]
  exact Reader.caseless?_of_append hahead

theorem IsDotPath.head?_append (h : IsDotPath text) (rest : List Char) :
    (text ++ rest).head?.any isBlank = false ∧ (text ++ rest).head?.any isQuote = false := by
  obtain ⟨c, more, rfl⟩ := List.exists_cons_of_ne_nil h.ne_nil
  exact not_of_isDotPathPart (h.part c List.mem_cons_self)

theorem behindWord?_new (htext : IsDotPath text) (hahead : r.ahead = ' ' :: (text ++ '(' :: rest)) :
    behindWord? .new r = some (⟨r.offset + 1, text⟩, r.passing (' ' :: (text ++ ['('])) rest) := by
  obtain ⟨hblank, hquote⟩ := htext.head?_append ('(' :: rest)
  have hsome := @Reader.some?_of_append isBlank r [' '] (text ++ '(' :: rest) hahead (by simp)
    (by decide) hblank
  have hpath := @dotPath?_of_append (r.passing [' '] (text ++ '(' :: rest)) ('(' :: rest) text htext
    rfl (show isDotPathPart '(' = false by decide)
  rw [Reader.passing_passing] at hpath
  have hopen := @sign?_of_cons (r.passing ([' '] ++ text) ('(' :: rest)) rest '(' (by decide) rfl
  rw [Reader.passing_passing] at hopen
  have hany : anyDotPath? (r.passing [' '] (text ++ '(' :: rest)) =
      some (⟨r.offset + 1, text⟩, r.passing ([' '] ++ text) ('(' :: rest)) := by
    rw [anyDotPath?, Reader.ahead_passing, if_neg (Bool.eq_false_iff.mp hquote)]
    exact hpath
  simp only [behindWord?, hsome, hany, hopen, Option.bind_eq_bind, Option.bind_some]
  rfl

theorem behindWord?_createObject (htext : IsDotPath text)
    (hahead : r.ahead = '(' :: '"' :: ("component".toList ++
      '"' :: ',' :: ' ' :: '"' :: (text ++ '"' :: rest))) :
    behindWord? .createObject r =
      some (⟨r.offset + ('(' :: '"' :: ("component".toList ++ ['"', ',', ' ', '"'])).length, text⟩,
        r.passing ('(' :: '"' :: ("component".toList ++
          '"' :: ',' :: ' ' :: '"' :: (text ++ ['"']))) rest) := by
  have hopen := @sign?_of_cons r _ '(' (by decide) hahead
  have hword := @quotedWord?_of_append (r.passing ['('] _)
    (',' :: ' ' :: '"' :: (text ++ '"' :: rest)) "component".toList rfl
  have hsigned := @signedPath?_of_append (r.passing ('(' :: '"' :: ("component".toList ++ ['"']))
    (',' :: ' ' :: '"' :: (text ++ '"' :: rest))) rest text ',' [' '] (by decide) (by decide) htext
    rfl
  rw [Reader.passing_passing] at hword
  rw [Reader.passing_passing] at hsigned
  simp only [behindWord?, hopen, Option.bind_eq_bind, Option.bind_some]
  rw [blanks_of_quote rfl, hword]
  refine Eq.trans hsigned ?_
  simp [Nat.add_assoc]

theorem behindWord?_isInstanceOf {object : List Char} (hobject : IsDotPath object)
    (htext : IsDotPath text)
    (hahead : r.ahead = '(' :: (object ++ ',' :: ' ' :: '"' :: (text ++ '"' :: rest))) :
    behindWord? .isInstanceOf r =
      some (⟨r.offset + ('(' :: (object ++ [',', ' ', '"'])).length, text⟩,
        r.passing ('(' :: (object ++ ',' :: ' ' :: '"' :: (text ++ ['"']))) rest) := by
  have hopen := @sign?_of_cons r _ '(' (by decide) hahead
  have hpath := @dotPath?_of_append (r.passing ['('] _) (',' :: ' ' :: '"' :: (text ++ '"' :: rest))
    object hobject rfl (show isDotPathPart ',' = false by decide)
  have hsigned := @signedPath?_of_append (r.passing ('(' :: object)
    (',' :: ' ' :: '"' :: (text ++ '"' :: rest))) rest text ',' [' '] (by decide) (by decide) htext
    rfl
  rw [Reader.passing_passing] at hpath
  rw [Reader.passing_passing] at hsigned
  simp only [behindWord?, hopen, Option.bind_eq_bind, Option.bind_some]
  rw [blanks_eq_self (hobject.head?_append _).1, hpath]
  refine Eq.trans hsigned ?_
  simp [Nat.add_assoc]

end ReferencePattern

namespace WrittenReference

open ReferencePattern

variable {r : Reader} {rest : List Char}

/-- What stands between the word of the form and the dot path. -/
def opening : WrittenReference → List Char
  | new _ => [' ']
  | createObject _ => '(' :: '"' :: ("component".toList ++ ['"', ',', ' ', '"'])
  | componentAttribute _ => ['=', '"']
  | isInstanceOf object _ => '(' :: (object.text ++ [',', ' ', '"'])

/-- The character behind the dot path, the last one that is read. -/
def closer : WrittenReference → Char
  | new _ => '('
  | createObject _ | componentAttribute _ | isInstanceOf _ _ => '"'

/-- What is left behind it. -/
def back : WrittenReference → List Char
  | componentAttribute _ => [';']
  | new _ | createObject _ | isInstanceOf _ _ => [')', ';']

theorem lead_eq (w : WrittenReference) : w.lead = word w.form ++ w.opening := by
  cases w with
  | isInstanceOf object path => exact List.append_assoc ..
  | _ => rfl

theorem tail_eq (w : WrittenReference) : w.tail = w.closer :: w.back := by
  cases w <;> rfl

theorem behindWord?_eq (w : WrittenReference)
    (hahead : r.ahead = w.opening ++ (w.path.text ++ w.closer :: rest)) :
    behindWord? w.form r = some (⟨r.offset + w.opening.length, w.path.text⟩,
      r.passing (w.opening ++ (w.path.text ++ [w.closer])) rest) := by
  cases w with
  | new path => exact behindWord?_new path.isDotPath hahead
  | createObject path => exact behindWord?_createObject path.isDotPath hahead
  | componentAttribute path =>
    exact @signedPath?_of_append r rest path.text '=' [] (by decide) (by simp) path.isDotPath hahead
  | isInstanceOf object path =>
    have hread := @behindWord?_isInstanceOf r rest path.text object.text object.isDotPath
      path.isDotPath (by simpa [opening, closer, WrittenReference.path] using hahead)
    simpa [opening, closer, form, WrittenReference.path] using hread

/-- **The dot path is captured.** What the pattern leaves of the reference is no part of a word. -/
theorem read_eq (w : WrittenReference) (hbefore : r.before.any isWord = false)
    (hahead : r.ahead = w.text ++ rest) : (ofForm w.form).read r =
      some (⟨r.offset + w.lead.length, w.path.text⟩,
        r.passing (w.lead ++ (w.path.text ++ [w.closer])) (w.back ++ rest)) := by
  have hsplit : r.ahead = word w.form ++
      (w.opening ++ (w.path.text ++ w.closer :: (w.back ++ rest))) := by
    rw [hahead, text, lead_eq, tail_eq]
    simp only [List.append_assoc, List.cons_append]
  have hbehind := @behindWord?_eq (r.passing (word w.form) _) (w.back ++ rest) w rfl
  rw [Reader.passing_passing, Reader.offset_passing, Nat.add_assoc, ← List.length_append,
    ← lead_eq] at hbehind
  rw [read_ofForm, word?_of_append hbefore hsplit, lead_eq, List.append_assoc, ← lead_eq]
  exact hbehind

/-- The words of the reference, with what separates them. -/
def words : WrittenReference → List SeparatedWord
  | new path =>
    [⟨word .new, [' '], by decide +kernel, by simp, by decide⟩,
      ⟨path.text, ['(', ')', ';'], path.isDotPath.part, by simp, by decide⟩]
  | createObject path =>
    [⟨word .createObject, ['(', '"'], by decide +kernel, by simp, by decide⟩,
      ⟨"component".toList, ['"', ',', ' ', '"'], by decide +kernel, by simp, by decide⟩,
      ⟨path.text, ['"', ')', ';'], path.isDotPath.part, by simp, by decide⟩]
  | componentAttribute path =>
    [⟨word .componentAttribute, ['=', '"'], by decide +kernel, by simp, by decide⟩,
      ⟨path.text, ['"', ';'], path.isDotPath.part, by simp, by decide⟩]
  | isInstanceOf object path =>
    [⟨word .isInstanceOf, ['('], by decide +kernel, by simp, by decide⟩,
      ⟨object.text, [',', ' ', '"'], object.isDotPath.part, by simp, by decide⟩,
      ⟨path.text, ['"', ')', ';'], path.isDotPath.part, by simp, by decide⟩]

theorem text_eq_words (w : WrittenReference) : w.text = w.words.flatMap SeparatedWord.text := by
  rw [text, lead_eq, tail_eq]
  cases w <;> simp [form, opening, closer, back, path, words, SeparatedWord.text]

/-- **Only the word in front begins a reference**, and none of another form. -/
theorem shuts_of_ne {form : ReferenceForm} (w : WrittenReference) (hne : form ≠ w.form)
    (rest : List Char) : Shuts form rest w.words := by
  have hquote : ∀ rest, opens form ('"' :: rest) = false := fun rest =>
    opens_cons_eq_false (by decide) (by decide) (by decide)
  cases w with
  | new path =>
    refine ⟨?_, ?_, trivial⟩
    · simp only [List.flatMap_cons, SeparatedWord.text, List.append_assoc, List.singleton_append]
      exact opens_space_eq_false path.isDotPath hne
    · exact opens_parenthesis_eq_false (by decide) (Or.inl (by decide)) (Or.inl (by decide))
  | createObject path =>
    refine ⟨?_, hquote _, hquote _, trivial⟩
    exact opens_parenthesis_eq_false (by decide) (Or.inr hne) (Or.inl (by decide))
  | componentAttribute path => exact ⟨opens_equals_eq_false hne, hquote _, trivial⟩
  | isInstanceOf object path =>
    refine ⟨?_, opens_cons_eq_false (by decide) (by decide) (by decide), hquote _, trivial⟩
    obtain ⟨c, more, hmore⟩ := List.exists_cons_of_ne_nil object.isDotPath.ne_nil
    obtain ⟨hblank, hquote⟩ := not_of_isDotPathPart (object.isDotPath.part c (by simp [hmore]))
    simp only [List.flatMap_cons, SeparatedWord.text, List.append_assoc, hmore]
    exact opens_parenthesis_eq_false hblank (Or.inl hquote) (Or.inr hne)

theorem lead_ne_nil (w : WrittenReference) : w.lead ≠ [] := by
  rw [lead_eq]
  cases w <;> simp [opening]

theorem apart_back (w : WrittenReference) : ∀ c ∈ w.back, isDotPathPart c = false := by
  cases w <;> simp only [back] <;> decide

theorem gap_spares (w : WrittenReference) : ∀ s ∈ w.words, ∀ c ∈ s.gap, c ∉ ['/', '<'] := by
  cases w <;> simp [words]

/-- In a line of a form, the pattern of the form captures the dot path, and the others pass over the
line. -/
theorem map_occurrences (w : WrittenReference) (form : ReferenceForm)
    (hbefore : r.before.any isWord = false) (hahead : r.ahead = w.text ++ rest) :
    (occurrences (ofForm form) r).map Occurrence.value =
      (if form = w.form then [⟨r.offset + w.lead.length, w.path.text⟩] else []) ++
        (occurrences (ofForm form) (r.passing w.text rest)).map Occurrence.value := by
  by_cases hform : form = w.form
  · rw [if_pos hform, hform]
    have hread := w.read_eq hbefore hahead
    obtain ⟨c, more, hlead⟩ := List.exists_cons_of_ne_nil w.lead_ne_nil
    have htext : w.text = (c :: (more ++ (w.path.text ++ [w.closer]))) ++ w.back := by
      rw [text, tail_eq, hlead]
      simp
    rw [hlead, List.cons_append] at hread
    rw [htext, List.append_assoc] at hahead
    rw [occurrences_eq_cons hahead hread, occurrences_gap rfl w.apart_back, Reader.passing_passing,
      ← htext, hlead]
    rfl
  · rw [text_eq_words] at hahead
    rw [if_neg hform, occurrences_words hahead (w.shuts_of_ne hform rest), ← text_eq_words]
    rfl

end WrittenReference

/-! ## Line by line -/

namespace ReferenceLine

open ReferencePattern

variable {r : Reader} {rest : List Char}

/-- No word reaches from one line into the next. -/
theorem isWord_before (line : ReferenceLine) (rest : List Char) :
    (r.passing line.text rest).before.any isWord = false := by
  have hlast : ∃ c, line.text.getLast? = some c ∧ isDotPathPart c = false := by
    rw [text, List.getLast?_append]
    cases hending : line.ending.getLast? with
    | none =>
      have hreference : line.reference.text.getLast? = some ';' := by
        rw [WrittenReference.text, WrittenReference.tail_eq]
        cases line.reference <;> simp [WrittenReference.back]
      exact ⟨';', hreference, by decide⟩
    | some c =>
      exact ⟨c, rfl, not_isDotPathPart_of_isBlank (line.blank c (List.mem_of_getLast? hending))⟩
  obtain ⟨c, hlast, hc⟩ := hlast
  rw [Reader.passing, hlast]
  simp only [isDotPathPart, isIdentifierPart, Bool.or_eq_false_iff] at hc
  exact hc.1.2

theorem map_occurrences (line : ReferenceLine) (form : ReferenceForm)
    (hbefore : r.before.any isWord = false) (hahead : r.ahead = line.text ++ rest) :
    (occurrences (ofForm form) r).map Occurrence.value =
      (if form = line.reference.form then
        [⟨r.offset + line.reference.lead.length, line.reference.path.text⟩] else []) ++
        (occurrences (ofForm form) (r.passing line.text rest)).map Occurrence.value := by
  rw [text, List.append_assoc] at hahead
  have hending : ∀ c ∈ line.ending, isDotPathPart c = false := fun c hc =>
    not_isDotPathPart_of_isBlank (line.blank c hc)
  rw [line.reference.map_occurrences form hbefore hahead, occurrences_gap rfl hending,
    Reader.passing_passing]
  rfl

/-- **What is written in the lines is captured**, and nothing else. The induction is on the lines: a
line adds one capture to what is found for its form, and none to what is found for the others. -/
theorem perm_captures (lines : List ReferenceLine) (hbefore : r.before.any isWord = false)
    (hahead : r.ahead = lines.flatMap text) :
    (forms.flatMap fun form => (occurrences (ofForm form) r).map Occurrence.value).Perm
      (captures r.offset lines) := by
  induction lines generalizing r with
  | nil =>
    obtain ⟨offset, before, ahead⟩ := r
    obtain rfl : ahead = [] := hahead
    exact List.Perm.nil
  | cons line lines ih =>
    rw [List.flatMap_cons] at hahead
    have hrest := @ih (r.passing line.text (lines.flatMap text)) (line.isWord_before _) rfl
    have hline : (forms.flatMap fun form => if form = line.reference.form then
        [(⟨r.offset + line.reference.lead.length, line.reference.path.text⟩ : Capture)] else []) =
          [⟨r.offset + line.reference.lead.length, line.reference.path.text⟩] := by
      cases line.reference.form <;> rfl
    have hboth := (List.flatMap_append_perm forms _ _).symm.trans
      ((List.Perm.of_eq hline).append hrest)
    simp only [line.map_occurrences _ hbefore hahead]
    exact hboth

theorem le_start_of_mem {offset : Nat} {lines : List ReferenceLine} {path : Capture}
    (h : path ∈ captures offset lines) : offset ≤ path.start := by
  induction lines generalizing offset with
  | nil => exact absurd h List.not_mem_nil
  | cons line lines ih =>
    rcases List.mem_cons.mp h with rfl | h
    · exact Nat.le_add_right _ _
    · exact Nat.le_trans (Nat.le_add_right _ _) (ih h)

/-- They follow each other. -/
theorem pairwise_captures (offset : Nat) (lines : List ReferenceLine) :
    (captures offset lines).Pairwise fun path path' => path.stop ≤ path'.start := by
  induction lines generalizing offset with
  | nil => exact List.Pairwise.nil
  | cons line lines ih =>
    apply List.Pairwise.cons _ (ih _)
    intro path hpath
    have hstart := le_start_of_mem hpath
    simp only [text, WrittenReference.text, List.length_append] at hstart
    simp only [Capture.stop]
    omega

theorem map_captures (offset : Nat) (lines : List ReferenceLine) :
    (captures offset lines).map Capture.text = lines.map fun line => line.reference.path.text := by
  induction lines generalizing offset with
  | nil => rfl
  | cons line lines ih => exact congrArg (line.reference.path.text :: ·) (ih _)

theorem spares (line : ReferenceLine) : ∀ c ∈ line.text, c ∉ ['/', '<'] := by
  intro c hc hstop
  have hkinds : ∀ c ∈ ['/', '<'], isDotPathPart c = false ∧ isBlank c = false := by decide
  obtain ⟨hpart, hblank⟩ := hkinds c hstop
  rw [text, WrittenReference.text_eq_words, List.mem_append, List.mem_flatMap] at hc
  rcases hc with ⟨s, hs, hc⟩ | hc
  · rcases List.mem_append.mp hc with hc | hc
    · exact absurd (s.part c hc) (Bool.eq_false_iff.mp hpart)
    · exact line.reference.gap_spares s hs c hc hstop
  · exact absurd (line.blank c hc) (Bool.eq_false_iff.mp hblank)

/-- No comment begins in the lines. -/
theorem avoids_isOpener (lines : List ReferenceLine) : Avoids IsOpener (lines.flatMap text) := by
  rintro _ ⟨dialect, form, hform, rfl⟩ hin
  have hopeners : ∀ dialect, ∀ form ∈ Dialect.comments dialect,
      ∃ c ∈ form.opener, c ∈ ['/', '<'] := by
    intro dialect
    cases dialect <;> decide
  obtain ⟨c, hc, hstop⟩ := hopeners dialect form hform
  obtain ⟨line, -, hline⟩ := List.mem_flatMap.mp (hin.subset hc)
  exact line.spares c hline hstop

end ReferenceLine

/-! ## What is reported -/

namespace Source

open ReferencePattern

theorem perm_referenceCaptures (lines : List ReferenceLine) (path : Option Path) :
    (ofText (lines.flatMap ReferenceLine.text) path).referenceCaptures.Perm
      (ReferenceLine.captures 0 lines) := by
  rw [referenceCaptures_eq, withoutComments_of_avoids (ReferenceLine.avoids_isOpener lines)]
  exact ReferenceLine.perm_captures lines rfl rfl

/-- References that follow each other are the captures in the order in which these do. -/
theorem map_references_eq {src : Source} {references : List Reference} {expected : List Capture}
    (hperm : (references.map fun r => (r.dotPath, r.span)).Perm
      (src.referenceCaptures.map src.captured))
    (hsorted : references.Pairwise fun r s => r.span.stop ≤ s.span.start)
    (hexpected : src.referenceCaptures.Perm expected)
    (hfollow : expected.Pairwise fun path path' => path.stop ≤ path'.start) :
    references.map (fun r => (r.dotPath, r.span)) = expected.map src.captured := by
  have hreferences : (references.map fun r => (r.dotPath, r.span)).Pairwise fun x y =>
      x.2.stop ≤ y.2.start := by
    rw [List.pairwise_map]
    exact hsorted
  have hcaptures : (expected.map src.captured).Pairwise fun x y => x.2.stop ≤ y.2.start := by
    rw [List.pairwise_map]
    exact hfollow.imp fun h => src.position_mono h
  refine List.Perm.eq_of_pairwise ?_ hreferences hcaptures (hperm.trans (hexpected.map _))
  intro x y hx _ hle hle'
  -- none of them is empty, so two cannot stand before each other
  obtain ⟨r, hr, rfl⟩ := List.mem_map.mp hx
  have hstop := Position.le_trans hle (Position.le_trans y.2.start_le_stop hle')
  exact absurd (isReference_of_perm hperm hr).start_lt_stop (Position.not_lt.mpr hstop)

/-- **Component references are reported faithfully.** In every source each reference is a dot path
that stands where its span says and that no comment overlaps, and the references follow each other.
In a source with a reference in every line, the dot paths are those of the lines. -/
theorem references_spec (isFile : Path → Bool) (resolver : Option Resolver) (session : Session) :
    (∀ src : Source, ∃ references : List Reference,
      ((src.references isFile resolver).run.run session).1 = .ok references ∧
        (∀ r ∈ references, src.IsReference src.dialect r.dotPath r.span) ∧
        references.Pairwise fun r s => r.span.stop ≤ s.span.start) ∧
      ∀ (lines : List ReferenceLine) (path : Option Path), ∃ references : List Reference,
        (((ofText (lines.flatMap ReferenceLine.text) path).references isFile resolver).run.run
          session).1 = .ok references ∧
          references.map Reference.dotPath = lines.map fun line => line.reference.path.text := by
  refine ⟨?_, ?_⟩
  · intro src
    obtain ⟨references, hresult, hperm, hsorted⟩ := exists_references isFile resolver src session
    exact ⟨references, hresult, fun r hr => isReference_of_perm hperm hr,
      pairwise_stop_le_start hperm hsorted⟩
  · intro lines path
    obtain ⟨references, hresult, hperm, hsorted⟩ :=
      exists_references isFile resolver (ofText (lines.flatMap ReferenceLine.text) path) session
    refine ⟨references, hresult, ?_⟩
    have hfollow := pairwise_stop_le_start hperm hsorted
    have heq := map_references_eq hperm hfollow (perm_referenceCaptures lines path)
      (ReferenceLine.pairwise_captures 0 lines)
    have hpaths := congrArg (List.map Prod.fst) heq
    rw [List.map_map, List.map_map] at hpaths
    exact hpaths.trans (ReferenceLine.map_captures 0 lines)

end Source

end Cfml
