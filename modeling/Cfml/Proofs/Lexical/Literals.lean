/-
The literals of a text.

To follow the state of string literals through a text is to take the text apart: into characters
that are no quotes and complete literals, and at its end perhaps a literal that is still open. A
`Decomposition` is a text taken apart in this way. With one more character it goes on in one way
only (`Decomposition.push`), and its state goes on as the state behind the text does. So the one
that is built up from the start of a text (`Decomposition.ofText`) ends in the state behind it, and
since each is built up again from its own text (`Decomposition.ofText_text`), there is no other.

The body of a literal comes apart in one way, too (`literalBody_iff_existsUnique`): a number sign
begins a pair, which ends at the next one, and each other character stands for itself.
-/
import Cfml.Proofs.Declaration.Fragment

set_option autoImplicit false

namespace Cfml

/-! ## The parts of a body -/

/-- A part of the body of a literal: a character, or a pair of number signs with what stands between
them. -/
inductive BodyPart (quote : Char) where
  | char (c : Char) (hquote : c ≠ quote) (hsign : c ≠ '#')
  | embedded (inside : List Char) (hinside : '#' ∉ inside)

section Bodies

variable {quote : Char} {body body' : List Char}

def BodyPart.text : BodyPart quote → List Char
  | char c _ _ => [c]
  | embedded inside _ => '#' :: (inside ++ ['#'])

theorem LiteralBody.append (h : LiteralBody quote body) (h' : LiteralBody quote body') :
    LiteralBody quote (body ++ body') := by
  induction h with
  | nil => exact h'
  | char hquote hsign _ ih => exact .char hquote hsign ih
  | embedded hinside _ ih =>
    rw [List.cons_append, List.append_assoc, List.cons_append]
    exact .embedded hinside ih

theorem BodyPart.literalBody_text (part : BodyPart quote) : LiteralBody quote part.text := by
  cases part with
  | char c hquote hsign => exact .char hquote hsign .nil
  | embedded inside hinside => exact .embedded hinside .nil

theorem literalBody_texts (parts : List (BodyPart quote)) :
    LiteralBody quote (parts.flatMap BodyPart.text) := by
  induction parts with
  | nil => exact .nil
  | cons part parts ih =>
    rw [List.flatMap_cons]
    exact part.literalBody_text.append ih

theorem exists_bodyParts (h : LiteralBody quote body) :
    ∃ parts : List (BodyPart quote), parts.flatMap BodyPart.text = body := by
  induction h with
  | nil => exact ⟨[], rfl⟩
  | @char c rest hquote hsign _ ih =>
    obtain ⟨parts, rfl⟩ := ih
    exact ⟨.char c hquote hsign :: parts, rfl⟩
  | @embedded inside rest hinside _ ih =>
    obtain ⟨parts, rfl⟩ := ih
    exact ⟨.embedded inside hinside :: parts, by simp [BodyPart.text]⟩

theorem takeWhile_inside {inside rest : List Char} (hinside : '#' ∉ inside) :
    (inside ++ ['#'] ++ rest).takeWhile (· != '#') = inside := by
  have hnone : ∀ c ∈ inside, (c != '#') = true := by
    intro c hc
    exact bne_iff_ne.mpr fun heq => hinside (heq ▸ hc)
  rw [List.append_assoc, List.takeWhile_append_of_pos hnone, List.singleton_append,
    List.takeWhile_cons_of_neg (by decide), List.append_nil]

/-- Which part comes first is seen from the text, whatever follows. -/
theorem BodyPart.eq_of_text_append {part part' : BodyPart quote} {rest rest' : List Char}
    (h : part.text ++ rest = part'.text ++ rest') : part = part' ∧ rest = rest' := by
  cases part with
  | char c hquote hsign =>
    cases part' with
    | char c' hquote' hsign' =>
      obtain ⟨rfl, hrest⟩ := List.cons.inj h
      exact ⟨rfl, hrest⟩
    | embedded inside' hinside' => exact absurd (List.cons.inj h).1 hsign
  | embedded inside hinside =>
    cases part' with
    | char c' hquote' hsign' => exact absurd (List.cons.inj h).1.symm hsign'
    | embedded inside' hinside' =>
      -- the second sign of a pair is the first one behind the sign that opens it
      have htail : inside ++ ['#'] ++ rest = inside' ++ ['#'] ++ rest' := (List.cons.inj h).2
      have hsame := congrArg (List.takeWhile (· != '#')) htail
      rw [takeWhile_inside hinside, takeWhile_inside hinside'] at hsame
      subst hsame
      exact ⟨rfl, List.append_cancel_left htail⟩

theorem BodyPart.text_append_ne_nil (part : BodyPart quote) (rest : List Char) :
    part.text ++ rest ≠ [] := by
  cases part <;> exact List.cons_ne_nil _ _

theorem eq_of_texts_eq {parts parts' : List (BodyPart quote)}
    (h : parts.flatMap BodyPart.text = parts'.flatMap BodyPart.text) : parts = parts' := by
  induction parts generalizing parts' with
  | nil =>
    cases parts' with
    | nil => rfl
    | cons part' parts' => exact absurd h.symm (part'.text_append_ne_nil _)
  | cons part parts ih =>
    cases parts' with
    | nil => exact absurd h (part.text_append_ne_nil _)
    | cons part' parts' =>
      rw [List.flatMap_cons, List.flatMap_cons] at h
      obtain ⟨rfl, hrest⟩ := BodyPart.eq_of_text_append h
      rw [ih hrest]

/-- **A body is a sequence of parts, and of one sequence only.** -/
theorem literalBody_iff_existsUnique :
    LiteralBody quote body ↔ ∃! parts : List (BodyPart quote),
      parts.flatMap BodyPart.text = body := by
  constructor
  · intro h
    obtain ⟨parts, rfl⟩ := exists_bodyParts h
    exact ⟨parts, rfl, fun parts' h' => eq_of_texts_eq h'⟩
  · rintro ⟨parts, rfl, -⟩
    exact literalBody_texts parts

end Bodies

/-! ## Texts taken apart -/

/-- A part of a text: a character that is no quote, or a complete literal. -/
inductive TextPart where
  | plain (c : Char) (hplain : isQuote c = false)
  | literal (l : StringLiteral)

def TextPart.text : TextPart → List Char
  | plain c _ => [c]
  | literal l => l.text

/-- How a text ends: outside of literals, in a literal, or in an expression embedded in one. The
literal is given as the one that its quote would complete in front of the expression. -/
inductive TextEnding where
  | outside
  | literal (l : StringLiteral)
  | embedded (l : StringLiteral) (inside : List Char) (hinside : '#' ∉ inside)

namespace TextEnding

/-- What stands behind the parts of the text. -/
def text : TextEnding → List Char
  | outside => []
  | literal l => l.quote :: l.body
  | embedded l inside _ => l.quote :: (l.body ++ '#' :: inside)

def state : TextEnding → StringState
  | outside => .outside
  | literal l => ⟨some l.quote, false⟩
  | embedded l _ _ => ⟨some l.quote, true⟩

end TextEnding

/-- A text taken apart. -/
structure Decomposition where
  parts : List TextPart
  ending : TextEnding

/-- The literal with one more part in its body. -/
def StringLiteral.extend (l : StringLiteral) (part : BodyPart l.quote) : StringLiteral where
  quote := l.quote
  body := l.body ++ part.text
  isDelimiter := l.isDelimiter
  complete := l.complete.append part.literalBody_text

namespace Decomposition

def text (d : Decomposition) : List Char := d.parts.flatMap TextPart.text ++ d.ending.text

def state (d : Decomposition) : StringState := d.ending.state

/-- The text with one more character, taken apart. -/
def push (d : Decomposition) (c : Char) : Decomposition :=
  match d.ending with
  | .outside =>
    if hc : isQuote c = true then ⟨d.parts, .literal ⟨c, [], hc, .nil⟩⟩
    else ⟨d.parts ++ [.plain c (Bool.eq_false_iff.mpr hc)], .outside⟩
  | .literal l =>
    if hsign : c = '#' then ⟨d.parts, .embedded l [] List.not_mem_nil⟩
    else if hquote : c = l.quote then ⟨d.parts ++ [.literal l], .outside⟩
    else ⟨d.parts, .literal (l.extend (.char c hquote hsign))⟩
  | .embedded l inside hinside =>
    if hsign : c = '#' then ⟨d.parts, .literal (l.extend (.embedded inside hinside))⟩
    else ⟨d.parts, .embedded l (inside ++ [c]) (by simp [hinside, Ne.symm hsign])⟩

/-- The text taken apart character by character, from its start. -/
def ofText (text : List Char) : Decomposition := text.foldl push ⟨[], .outside⟩

/-! ## From a text to its parts -/

variable {text : List Char}

theorem text_push (d : Decomposition) (c : Char) : (d.push c).text = d.text ++ [c] := by
  obtain ⟨parts, ending⟩ := d
  cases ending with
  | outside =>
    simp only [push]
    split <;> simp [Decomposition.text, TextEnding.text, TextPart.text]
  | literal l =>
    simp only [push]
    split
    · next hsign => simp [Decomposition.text, TextEnding.text, hsign]
    · split
      · next hquote =>
        simp [Decomposition.text, TextEnding.text, TextPart.text, StringLiteral.text, hquote]
      · simp [Decomposition.text, TextEnding.text, StringLiteral.extend, BodyPart.text]
  | embedded l inside hinside =>
    simp only [push]
    split
    · next hsign =>
      simp [Decomposition.text, TextEnding.text, StringLiteral.extend, BodyPart.text, hsign]
    · simp [Decomposition.text, TextEnding.text]

/-- **The state goes on as that behind the text.** -/
theorem state_push (d : Decomposition) (c : Char) : (d.push c).state = d.state.advance c := by
  obtain ⟨parts, ending⟩ := d
  cases ending with
  | outside =>
    simp only [push]
    split
    · next hc => simp [state, TextEnding.state, StringState.advance, StringState.outside, hc]
    · next hc => simp [state, TextEnding.state, StringState.advance, StringState.outside, hc]
  | literal l =>
    simp only [push]
    split
    · next hsign => simp [state, TextEnding.state, StringState.advance, hsign]
    · next hsign =>
      split
      · next hquote =>
        subst hquote
        simp [state, TextEnding.state, StringState.advance, hsign]
      · next hquote =>
        simp [state, TextEnding.state, StringState.advance, StringLiteral.extend, hsign, hquote]
  | embedded l inside hinside =>
    simp only [push]
    split
    · next hsign =>
      simp [state, TextEnding.state, StringState.advance, StringLiteral.extend, hsign]
    · next hsign => simp [state, TextEnding.state, StringState.advance, hsign]

theorem ofText_concat (text : List Char) (c : Char) :
    ofText (text ++ [c]) = (ofText text).push c := by
  rw [ofText, List.foldl_append, List.foldl_cons, List.foldl_nil, ofText]

theorem text_ofText (text : List Char) : (ofText text).text = text := by
  induction text using List.reverseRecOn with
  | nil => rfl
  | append_singleton text c ih => rw [ofText_concat, text_push, ih]

theorem state_ofText (text : List Char) : (ofText text).state = StringState.outside.after text := by
  induction text using List.reverseRecOn with
  | nil => rfl
  | append_singleton text c ih =>
    rw [ofText_concat, state_push, ih, StringState.after, StringState.after, List.foldl_append,
      List.foldl_cons, List.foldl_nil]

/-! ## From the parts to the text and back -/

variable {parts : List TextPart} {l : StringLiteral}

/-- In an embedded expression nothing ends before the next number sign. -/
theorem foldl_push_inside {inside more : List Char} (hinside : '#' ∉ inside)
    (hboth : '#' ∉ inside ++ more) :
    more.foldl push ⟨parts, .embedded l inside hinside⟩
      = ⟨parts, .embedded l (inside ++ more) hboth⟩ := by
  induction more generalizing inside with
  | nil => simp
  | cons c more ih =>
    have hnext : '#' ∉ (inside ++ [c]) ++ more := by simpa using hboth
    have hinside' : '#' ∉ inside ++ [c] := fun h => hnext (List.mem_append_left more h)
    have hc : c ≠ '#' := by
      rintro rfl
      exact hinside' List.mem_concat_self
    have hpush : push ⟨parts, .embedded l inside hinside⟩ c
        = ⟨parts, .embedded l (inside ++ [c]) hinside'⟩ := dif_neg hc
    rw [List.foldl_cons, hpush, ih hinside' hnext]
    simp

/-- Behind a number sign an embedded expression is open. -/
theorem foldl_push_sign {inside : List Char} (hinside : '#' ∉ inside) :
    ('#' :: inside).foldl push ⟨parts, .literal l⟩ = ⟨parts, .embedded l inside hinside⟩ :=
  foldl_push_inside List.not_mem_nil hinside

theorem foldl_push_bodyPart (part : BodyPart l.quote) :
    part.text.foldl push ⟨parts, .literal l⟩ = ⟨parts, .literal (l.extend part)⟩ := by
  cases part with
  | char c hquote hsign => exact (dif_neg hsign).trans (dif_neg hquote)
  | embedded inside hinside =>
    rw [BodyPart.text, ← List.cons_append, List.foldl_append, foldl_push_sign hinside]
    rfl

/-- The body of a literal is read part by part. -/
theorem foldl_push_body {quote : Char} {body : List Char} {l l' : StringLiteral}
    (hbody : LiteralBody quote body) (hquote : l.quote = quote) (hquote' : l'.quote = quote)
    (hadded : l'.body = l.body ++ body) :
    body.foldl push ⟨parts, .literal l⟩ = ⟨parts, .literal l'⟩ := by
  induction hbody generalizing l with
  | nil =>
    obtain ⟨quote', body', _, _⟩ := l'
    obtain rfl : quote' = l.quote := hquote'.trans hquote.symm
    obtain rfl : body' = l.body := hadded.trans (List.append_nil l.body)
    rfl
  | @char c rest hc hsign _ ih =>
    subst hquote
    let part : BodyPart l.quote := .char c hc hsign
    have hstep : push ⟨parts, .literal l⟩ c = ⟨parts, .literal (l.extend part)⟩ :=
      foldl_push_bodyPart part
    have hnext : l'.body = (l.extend part).body ++ rest := by
      rw [hadded]
      simp [part, StringLiteral.extend, BodyPart.text]
    rw [List.foldl_cons, hstep]
    exact ih rfl hnext
  | @embedded inside rest hinside _ ih =>
    subst hquote
    let part : BodyPart l.quote := .embedded inside hinside
    have hsplit : '#' :: (inside ++ '#' :: rest) = part.text ++ rest := by
      simp [part, BodyPart.text]
    have hnext : l'.body = (l.extend part).body ++ rest := by
      rw [hadded, hsplit, StringLiteral.extend, List.append_assoc]
    rw [hsplit, List.foldl_append, foldl_push_bodyPart part]
    exact ih rfl hnext

/-- In front of its closing quote a literal is open. -/
theorem foldl_push_open (l : StringLiteral) :
    (l.quote :: l.body).foldl push ⟨parts, .outside⟩ = ⟨parts, .literal l⟩ := by
  have hpush : push ⟨parts, .outside⟩ l.quote
      = ⟨parts, .literal ⟨l.quote, [], l.isDelimiter, .nil⟩⟩ := dif_pos l.isDelimiter
  rw [List.foldl_cons, hpush]
  exact foldl_push_body l.complete rfl rfl rfl

theorem foldl_push_part (part : TextPart) :
    part.text.foldl push ⟨parts, .outside⟩ = ⟨parts ++ [part], .outside⟩ := by
  cases part with
  | plain c hplain => exact dif_neg (Bool.eq_false_iff.mp hplain)
  | literal l =>
    have hsign : l.quote ≠ '#' := by
      intro heq
      exact absurd (heq ▸ l.isDelimiter) (by decide)
    have hclose : push ⟨parts, .literal l⟩ l.quote = ⟨parts ++ [.literal l], .outside⟩ :=
      (dif_neg hsign).trans (dif_pos rfl)
    rw [TextPart.text, StringLiteral.text, ← List.cons_append, List.foldl_append, foldl_push_open,
      List.foldl_cons, List.foldl_nil, hclose]

theorem foldl_push_parts (more : List TextPart) :
    (more.flatMap TextPart.text).foldl push ⟨parts, .outside⟩ = ⟨parts ++ more, .outside⟩ := by
  induction more generalizing parts with
  | nil => simp
  | cons part more ih =>
    rw [List.flatMap_cons, List.foldl_append, foldl_push_part, ih, List.append_assoc,
      List.singleton_append]

/-- **What a text was put together from is found again.** -/
theorem ofText_text (d : Decomposition) : ofText d.text = d := by
  obtain ⟨parts, ending⟩ := d
  rw [ofText, Decomposition.text, List.foldl_append, foldl_push_parts, List.nil_append]
  cases ending with
  | outside => rfl
  | literal l => exact foldl_push_open l
  | embedded l inside hinside =>
    rw [TextEnding.text, ← List.cons_append, List.foldl_append, foldl_push_open,
      foldl_push_sign hinside]

theorem existsUnique_text_eq (text : List Char) : ∃! d : Decomposition, d.text = text := by
  refine ⟨ofText text, text_ofText text, ?_⟩
  rintro d rfl
  exact (ofText_text d).symm

/-- The state behind a text tells how it ends once it is taken apart. -/
theorem after_eq_iff {s : StringState} :
    StringState.outside.after text = s ↔ ∃ d : Decomposition, d.text = text ∧ d.state = s := by
  constructor
  · rintro rfl
    exact ⟨ofText text, text_ofText text, state_ofText text⟩
  · rintro ⟨d, rfl, rfl⟩
    rw [← state_ofText, ofText_text]

end Decomposition

/-! ## What the state behind a text says -/

namespace StringState

variable {text : List Char} {quote : Char}

theorem inString_after_eq_false_iff : (outside.after text).inString = false ↔
    ∃ parts : List TextPart, text = parts.flatMap TextPart.text := by
  constructor
  · intro h
    obtain ⟨⟨parts, ending⟩, rfl, hstate⟩ :=
      Decomposition.after_eq_iff.mp (Eq.refl (outside.after text))
    rw [← hstate] at h
    cases ending with
    | outside => exact ⟨parts, List.append_nil _⟩
    | literal l => cases h
    | embedded l inside hinside => cases h
  · rintro ⟨parts, rfl⟩
    have hafter : outside.after (parts.flatMap TextPart.text) = outside :=
      Decomposition.after_eq_iff.mpr ⟨⟨parts, .outside⟩, List.append_nil _, rfl⟩
    rw [hafter]
    rfl

theorem after_eq_literal_iff : outside.after text = ⟨some quote, false⟩ ↔
    ∃ (parts : List TextPart) (body : List Char), isQuote quote = true ∧
      LiteralBody quote body ∧ text = parts.flatMap TextPart.text ++ quote :: body := by
  constructor
  · intro h
    obtain ⟨⟨parts, ending⟩, rfl, hstate⟩ := Decomposition.after_eq_iff.mp h
    cases ending with
    | outside => cases hstate
    | literal l =>
      cases hstate
      exact ⟨parts, l.body, l.isDelimiter, l.complete, rfl⟩
    | embedded l inside hinside => cases hstate
  · rintro ⟨parts, body, hquote, hbody, rfl⟩
    exact Decomposition.after_eq_iff.mpr ⟨⟨parts, .literal ⟨quote, body, hquote, hbody⟩⟩, rfl, rfl⟩

theorem after_eq_embedded_iff : outside.after text = ⟨some quote, true⟩ ↔
    ∃ (parts : List TextPart) (body inside : List Char), isQuote quote = true ∧
      LiteralBody quote body ∧ '#' ∉ inside ∧
      text = parts.flatMap TextPart.text ++ quote :: (body ++ '#' :: inside) := by
  constructor
  · intro h
    obtain ⟨⟨parts, ending⟩, rfl, hstate⟩ := Decomposition.after_eq_iff.mp h
    cases ending with
    | outside => cases hstate
    | literal l => cases hstate
    | embedded l inside hinside =>
      cases hstate
      exact ⟨parts, l.body, inside, l.isDelimiter, l.complete, hinside, rfl⟩
  · rintro ⟨parts, body, inside, hquote, hbody, hinside, rfl⟩
    exact Decomposition.after_eq_iff.mpr
      ⟨⟨parts, .embedded ⟨quote, body, hquote, hbody⟩ inside hinside⟩, rfl, rfl⟩

/-- Without a literal there is no embedded expression. -/
theorem after_ne_embedded_only (text : List Char) : outside.after text ≠ ⟨none, true⟩ := by
  intro h
  obtain ⟨⟨parts, ending⟩, -, hstate⟩ := Decomposition.after_eq_iff.mp h
  cases ending <;> cases hstate

/-- **Following the state recognises the literals of a text.** It ends outside of literals exactly
behind characters that are no quotes and complete literals, in a literal exactly behind those with
a quote and a body, and in an embedded expression if a number sign without a partner follows these.
A text comes apart in one way only, and so does a body. -/
theorem after_recognizes (text : List Char) :
    ((outside.after text).inString = false ↔
      ∃ parts : List TextPart, text = parts.flatMap TextPart.text) ∧
    (∀ quote, outside.after text = ⟨some quote, false⟩ ↔
      ∃ (parts : List TextPart) (body : List Char), isQuote quote = true ∧
        LiteralBody quote body ∧ text = parts.flatMap TextPart.text ++ quote :: body) ∧
    (∀ quote, outside.after text = ⟨some quote, true⟩ ↔
      ∃ (parts : List TextPart) (body inside : List Char), isQuote quote = true ∧
        LiteralBody quote body ∧ '#' ∉ inside ∧
        text = parts.flatMap TextPart.text ++ quote :: (body ++ '#' :: inside)) ∧
    (∃! d : Decomposition, d.text = text) ∧
    (∀ quote body, LiteralBody quote body ↔
      ∃! parts : List (BodyPart quote), parts.flatMap BodyPart.text = body) ∧
    outside.after text ≠ ⟨none, true⟩ := by
  exact ⟨inString_after_eq_false_iff, fun quote => after_eq_literal_iff,
    fun quote => after_eq_embedded_iff, Decomposition.existsUnique_text_eq text,
    fun quote body => literalBody_iff_existsUnique, after_ne_embedded_only text⟩

/-- A doubled quote ends one literal and begins the next; the quotes in a pair of number signs
end none. -/
example : outside.after "'it''s' & \"#f(\"x\")#\"".toList = outside := by decide

end StringState

end Cfml
