/-
Options and operands.

A word that begins with a dash is an option if the grammar knows it: in full, as the beginning of
exactly one long name, or, behind one dash, as several short options written together. An argument
of an option follows in the next word, behind an equals sign, or right behind a short name. What
stands behind a short option without an argument, with or without an equals sign, are more short
options. A word with a space in it that is no option, and a negative number, are operands. Behind a
lone double dash every word is an operand, and as an argument a double dash stands for nothing. All
words are recognised before any of them takes effect.
-/
import Cfml.CommandLine.Usage
import Cfml.Comment.Form
import Cfml.Text.Digit
import Cfml.Text.Quoted

set_option autoImplicit false

namespace Cfml

/-- Which dialect the input is read in. -/
inductive Mode where
  /-- The one that the input shows. -/
  | found
  | given (dialect : Dialect)
  /-- The argument stands for nothing. -/
  | unnamed
deriving DecidableEq, Repr

/-- What the options say. -/
structure Settings where
  config : Option (List Char) := none
  verbose : Bool := false
  mode : Mode := .found
  fast : Bool := false
  /-- The roots in order. The argument of one can stand for nothing. -/
  roots : List (Option (List Char)) := []
  json : Bool := false
  debug : Bool := false

/-- What is wrong with the words of a command line. -/
inductive UsageError where
  | ambiguous (word : List Char) (names : List String)
  | missingArgument (option : String)
  | unwantedArgument (option : String) (argument : List Char)
  | invalidChoice (argument : String) (word : List Char) (choices : List String)
  | missingOperand (operand : String)
  | unrecognized (words : List (List Char))
deriving DecidableEq, Repr

/-- The error in words. -/
def UsageError.message : UsageError → String
  | .ambiguous word names =>
    "ambiguous option: " ++ String.ofList word ++ " could match " ++ ", ".intercalate names
  | .missingArgument option => "argument " ++ option ++ ": expected one argument"
  | .unwantedArgument option argument =>
    "argument " ++ option ++ ": ignored explicit argument " ++ String.ofList (quoted argument)
  | .invalidChoice argument word choices =>
    "argument " ++ argument ++ ": invalid choice: " ++ String.ofList (quoted word) ++
      " (choose from " ++
      ", ".intercalate (choices.map fun c => String.ofList (quoted c.toList)) ++ ")"
  | .missingOperand operand => "the following arguments are required: " ++ operand
  | .unrecognized words =>
    "unrecognized arguments: " ++ String.ofList ([' '].intercalate words)

/-- Why words do not lead to a run of the program: help is wanted, or they are wrong. Both concern
the program or one of its commands. -/
inductive Dismissal where
  | help (concerns : Option Command)
  | misuse (concerns : Option Command) (error : UsageError)
deriving DecidableEq, Repr

/-- What an option does. -/
inductive OptionEffect where
  /-- Shows the help. -/
  | help
  /-- Changes a setting. -/
  | set (change : Settings → Settings)
  /-- Takes an argument, which is one of the choices if there are any. There is none to store if it
  stands for nothing. -/
  | take (choices : List String) (store : Option (List Char) → Settings → Settings)

/-- An option with its names. -/
structure OptionRule where
  names : List String
  effect : OptionEffect

namespace OptionRule

/-- The option in messages. -/
def label (rule : OptionRule) : String := "/".intercalate rule.names

/-- Whether the option takes an argument. -/
def takesArgument (rule : OptionRule) : Bool :=
  match rule.effect with
  | .take _ _ => true
  | _ => false

end OptionRule

/-- How the operands of a grammar are read. -/
inductive OperandRule where
  /-- There is one operand, with options before and behind it. -/
  | single
  /-- The first operand begins words that another grammar reads. -/
  | rest
deriving DecidableEq

/-- The options of the program or of one of its commands, and its operand. -/
structure Grammar where
  concerns : Option Command
  options : List OptionRule
  operand : String
  operandRule : OperandRule

/-! ## Recognising words -/

/-- An option as it is written in a word, with an argument if the word holds one. -/
structure OptionUse where
  rule : OptionRule
  argument : Option (List Char) := none

/-- What a word is. -/
inductive WordKind where
  | operand
  /-- The lone double dash. -/
  | separator
  | options (uses : Except UsageError (List OptionUse))
  /-- Like an option, but the grammar does not know it. -/
  | unknown

/-- A word and what it is. -/
structure Word where
  text : List Char
  kind : WordKind

/-- A number below zero. -/
def isNegativeNumber (word : List Char) : Bool :=
  match word with
  | '-' :: number =>
    let number := if number.getLast? == some '\n' then number.dropLast else number
    let whole := number.takeWhile isDecimalDigit
    match number.drop whole.length with
    | [] => !whole.isEmpty
    | '.' :: fraction => !fraction.isEmpty && fraction.all isDecimalDigit
    | _ => false
  | _ => false

namespace Grammar

/-- The options by name, in order. -/
def named (g : Grammar) : List (List Char × OptionRule) :=
  g.options.flatMap fun rule => rule.names.map fun name => (name.toList, rule)

/-- The option with a name. -/
def find? (g : Grammar) (name : List Char) : Option OptionRule := g.named.lookup name

/-- A short option with the text right behind it: its argument if it takes one, and else more short
options. -/
def together (g : Grammar) (rule : OptionRule) : List Char → Except UsageError (List OptionUse)
  | [] => .ok [{ rule }]
  | letter :: rest =>
    if rule.takesArgument then .ok [⟨rule, some (letter :: rest)⟩]
    else
      match g.find? ['-', letter] with
      | none => .error (.unwantedArgument rule.label (letter :: rest))
      | some next => (g.together next rest).map ({ rule } :: ·)

/-- An option with what stands behind an equals sign. -/
def withText (g : Grammar) (name : List Char) (rule : OptionRule) (text : List Char) :
    Except UsageError (List OptionUse) :=
  if rule.takesArgument then .ok [⟨rule, some text⟩]
  else if text.isEmpty || ['-', '-'].isPrefixOf name then
    .error (.unwantedArgument rule.label text)
  else g.together rule text

/-- A word cut at its first equals sign. -/
def splitAtEquals (word : List Char) : List Char × Option (List Char) :=
  let name := word.takeWhile (· != '=')
  match word.drop name.length with
  | [] => (name, none)
  | _ :: argument => (name, some argument)

/-- The readings of a word that is no option in full, each with the name that it stands for: a long
name that begins so, or a short name with more behind it. -/
def readings (g : Grammar) (word : List Char) :
    List (List Char × Except UsageError (List OptionUse)) :=
  let (start, argument) := splitAtEquals word
  match word with
  | '-' :: '-' :: _ =>
    (g.named.filter fun option => start.isPrefixOf option.1).map fun (name, rule) =>
      (name, (argument.map (g.withText name rule)).getD (.ok [{ rule }]))
  | '-' :: letter :: rest =>
    g.named.filterMap fun (name, rule) =>
      if name == ['-', letter] then some (name, g.together rule rest)
      else if word.isPrefixOf name then some (name, .ok [{ rule }])
      else none
  | _ => []

/-- What a word is, other than the double dash. -/
def kindOf (g : Grammar) (word : List Char) : Except UsageError WordKind :=
  let (start, argument) := splitAtEquals word
  match word, g.find? word, g.find? start, argument with
  | '-' :: _, some rule, _, _ => .ok (.options (.ok [{ rule }]))
  | ['-'], _, _, _ => .ok .operand
  | '-' :: _, none, some rule, some text => .ok (.options (g.withText start rule text))
  | '-' :: _, none, _, _ =>
    match g.readings word with
    | [] =>
      if isNegativeNumber word || word.contains ' ' then .ok .operand
      else .ok .unknown
    | [(_, uses)] => .ok (.options uses)
    | several => .error (.ambiguous word (several.map fun reading => String.ofList reading.1))
  | _, _, _, _ => .ok .operand

/-- Recognises words. -/
def recognize (g : Grammar) : List (List Char) → Except UsageError (List Word)
  | [] => .ok []
  | word :: rest =>
    if word == ['-', '-'] then .ok (⟨word, .separator⟩ :: rest.map fun text => ⟨text, .operand⟩)
    else do
      let kind ← g.kindOf word
      return ⟨word, kind⟩ :: (← g.recognize rest)

/-! ## Taking effect -/

end Grammar

/-- What has been read of the words. -/
structure Progress where
  settings : Settings
  /-- The operand with what it begins, if it has been read. -/
  operand : Option (List (List Char)) := none
  /-- Words that the grammar has no use for. -/
  unused : List (List Char) := []

namespace Grammar

/-- The options in a word with the word behind it as argument of the last one, if that one takes an
argument and has none. -/
def complete (following : Option (List Char)) : List OptionUse → Except UsageError (List OptionUse)
  | [] => .ok []
  | [⟨rule, none⟩] =>
    if rule.takesArgument then
      match following with
      | some argument => .ok [⟨rule, some argument⟩]
      | none => .error (.missingArgument rule.label)
    else .ok [{ rule }]
  | use :: rest => (complete following rest).map (use :: ·)

/-- Whether the last of the options takes its argument from the word behind. -/
def needsFollowing (uses : List OptionUse) : Bool :=
  uses.getLast?.any fun use => use.rule.takesArgument && use.argument.isNone

/-- Lets one option take effect. -/
def applyUse (g : Grammar) (progress : Progress) (use : OptionUse) : Except Dismissal Progress :=
  match use.rule.effect with
  | .help => .error (.help g.concerns)
  | .set change => .ok { progress with settings := change progress.settings }
  | .take choices store =>
    match use.argument.filter (· != ['-', '-']) with
    | none => .ok { progress with settings := store none progress.settings }
    | some word =>
      if choices.isEmpty || choices.any fun c => c.toList == word then
        .ok { progress with settings := store (some word) progress.settings }
      else .error (.misuse g.concerns (.invalidChoice use.rule.label word choices))

/-- Lets the options in a word take effect. -/
def applyAll (g : Grammar) (following : Option (List Char))
    (uses : Except UsageError (List OptionUse)) (progress : Progress) :
    Except Dismissal Progress := do
  let uses ← (uses >>= complete following).mapError (.misuse g.concerns)
  uses.foldlM g.applyUse progress

/-- The words without a double dash at their start. -/
def dropSeparator : List Word → List Word
  | ⟨_, .separator⟩ :: rest => rest
  | words => words

theorem dropSeparator_length_le (words : List Word) :
    (dropSeparator words).length ≤ words.length := by
  unfold dropSeparator
  split <;> simp

/-- An operand at the start of the words, if one is needed, and the other words. -/
def takeArgument (needed : Bool) : List Word → Option (List Char) × List Word
  | ⟨text, .operand⟩ :: rest =>
    if needed then (some text, rest) else (none, ⟨text, .operand⟩ :: rest)
  | words => (none, words)

theorem takeArgument_length_le (needed : Bool) (words : List Word) :
    (takeArgument needed words).2.length ≤ words.length := by
  unfold takeArgument
  split
  · split <;> simp
  · simp

/-- Reads words one after the other. A double dash is not an operand itself: it is dropped in front
of a single operand and behind it. -/
def walk (g : Grammar) : List Word → Progress → Except Dismissal Progress
  | [], progress => .ok progress
  | ⟨text, .operand⟩ :: rest, progress =>
    if progress.operand.isSome then
      g.walk rest { progress with unused := progress.unused ++ [text] }
    else
      match g.operandRule with
      | .rest => .ok { progress with operand := some (text :: rest.map Word.text) }
      | .single => g.walk (dropSeparator rest) { progress with operand := some [text] }
  | ⟨text, .separator⟩ :: rest, progress =>
    if progress.operand.isSome || rest.isEmpty then
      g.walk rest { progress with unused := progress.unused ++ [text] }
    else
      match g.operandRule with
      | .rest => .ok { progress with operand := some (text :: rest.map Word.text) }
      | .single => g.walk rest progress
  | ⟨text, .unknown⟩ :: rest, progress =>
    g.walk rest { progress with unused := progress.unused ++ [text] }
  | ⟨_, .options uses⟩ :: rest, progress => do
    let argument := takeArgument (needsFollowing (uses.toOption.getD [])) rest
    g.walk argument.2 (← g.applyAll argument.1 uses progress)
termination_by words => words.length
decreasing_by
  · simp
  · have := dropSeparator_length_le rest
    simp
    omega
  · simp
  · simp
  · simp
  · have := takeArgument_length_le (needsFollowing (uses.toOption.getD [])) rest
    simp
    omega

/-- Reads the words of a command line. The operand must be among them. -/
def read (g : Grammar) (words : List (List Char)) : Except Dismissal Progress := do
  let words ← (g.recognize words).mapError (.misuse g.concerns)
  let progress ← g.walk words { settings := {} }
  if progress.operand.isNone then .error (.misuse g.concerns (.missingOperand g.operand))
  else return progress

end Grammar

end Cfml
