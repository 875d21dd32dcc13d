/-
The arguments of the program.

The options of the program come first, then a command, then the options of the command and the input
file among them. What neither grammar knows is reported together, and only when nothing else is
wrong.
-/
import Cfml.CommandLine.Grammar

set_option autoImplicit false

namespace Cfml

/-- A command, its input file as written, and what the options say. -/
structure Arguments where
  command : Command
  input : List Char
  settings : Settings

namespace Arguments

/-! ## Options -/

def helpOption : OptionRule := ⟨["-h", "--help"], .help⟩

def configOption : OptionRule :=
  ⟨["--config"], .take [] fun file settings => { settings with config := file }⟩

def verboseOption : OptionRule :=
  ⟨["-v", "--verbose"], .set fun settings => { settings with verbose := true }⟩

/-- The mode with a name: that of a dialect, or `auto`. -/
def modeNamed (name : List Char) : Mode :=
  (([Dialect.script, .tag].find? fun d => d.name.toList == name).map Mode.given).getD .found

def modeOption : OptionRule :=
  ⟨["--mode"], .take ["auto", "script", "tag"] fun name settings =>
    { settings with mode := (name.map modeNamed).getD .unnamed }⟩

def fastOption : OptionRule :=
  ⟨["--fast"], .set fun settings => { settings with fast := true }⟩

def jsonOption : OptionRule :=
  ⟨["--json"], .set fun settings => { settings with json := true }⟩

/-- Adds a root to those that were given before. -/
def rootOption : OptionRule :=
  ⟨["--root"], .take [] fun root settings => { settings with roots := settings.roots ++ [root] }⟩

def debugOption : OptionRule :=
  ⟨["--debug"], .set fun settings => { settings with debug := true }⟩

/-! ## Grammars -/

/-- What stands in front of the command, and the command. -/
def programGrammar : Grammar :=
  { concerns := none
    options := [helpOption, configOption, verboseOption]
    operand := "command"
    operandRule := .rest }

/-- What stands behind the command. -/
def commandGrammar (command : Command) : Grammar :=
  { concerns := some command
    options :=
      match command with
      | .comments => [helpOption, modeOption, fastOption, jsonOption]
      | .component => [helpOption, rootOption, jsonOption, debugOption]
    operand := "input"
    operandRule := .single }

/-! ## Reading -/

/-- The settings of a command together with those of the program. -/
def combine (program command : Settings) : Settings :=
  { command with config := program.config, verbose := program.verbose }

/-- The command that a word names. -/
def command? (word : List Char) : Except Dismissal Command :=
  match Command.ofName? word with
  | some command => .ok command
  | none =>
    .error (.misuse none
      (.invalidChoice programGrammar.operand word (Command.all.map Command.name)))

/-- Reads the arguments of the program. -/
def read (words : List (List Char)) : Except Dismissal Arguments := do
  let program ← programGrammar.read words
  let rest := program.operand.getD []
  let command ← command? (rest.headD [])
  let details ← (commandGrammar command).read rest.tail
  let unused := program.unused ++ details.unused
  if !unused.isEmpty then .error (.misuse none (.unrecognized unused))
  else
    return ⟨command, (details.operand.getD []).headD [], combine program.settings details.settings⟩

end Arguments

end Cfml
