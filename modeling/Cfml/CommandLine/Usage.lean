/-
What the command line can do, in words.

There are two commands, each with options of its own behind it; the options of the program stand
before the command. The texts here fit a terminal of eighty columns.
-/

set_option autoImplicit false

namespace Cfml

/-- What the program is asked to do. -/
inductive Command where
  /-- List the comments of a file. -/
  | comments
  /-- Describe the component in a file. -/
  | component
deriving DecidableEq, Repr

namespace Command

/-- The command as it is typed. -/
def name : Command → String
  | .comments => "comments"
  | .component => "component"

/-- The commands, in the order in which they are listed. -/
def all : List Command := [.comments, .component]

/-- The command that is typed so. -/
def ofName? (text : List Char) : Option Command := all.find? fun c => c.name.toList == text

end Command

namespace Usage

/-- The program with a command, or alone. -/
def program : Option Command → String
  | none => "cfmlscan"
  | some command => "cfmlscan " ++ command.name

/-- How the program or a command is called. -/
def line : Option Command → String
  | none => "usage: cfmlscan [-h] [--config FILE] [-v] \x7bcomments,component\x7d ...\n"
  | some .comments =>
    "usage: cfmlscan comments [-h] [--mode \x7bauto,script,tag\x7d] [--fast] [--json]\n" ++
    "                         input\n"
  | some .component =>
    "usage: cfmlscan component [-h] [--root DIR] [--json] [--debug] input\n"

/-- What the arguments of the program or of a command are for. -/
def details : Option Command → List String
  | none => [
    "Lexical context and component structure for CFML sources",
    "",
    "positional arguments:",
    "  \x7bcomments,component\x7d",
    "    comments            List comment ranges",
    "    component           Describe a component file",
    "",
    "options:",
    "  -h, --help            show this help message and exit",
    "  --config FILE         Config file (default: auto-discover cfmlscan.toml)",
    "  -v, --verbose         Log debug output to stderr"]
  | some .comments => [
    "positional arguments:",
    "  input                 Input .cfm/.cfc file",
    "",
    "options:",
    "  -h, --help            show this help message and exit",
    "  --mode \x7bauto,script,tag\x7d",
    "                        Syntax of the file (default: script for script",
    "                        components, else tag)",
    "  --fast                Use the regex scan (ignores strings)",
    "  --json                Emit JSON"]
  | some .component => [
    "positional arguments:",
    "  input       Input .cfc file",
    "",
    "options:",
    "  -h, --help  show this help message and exit",
    "  --root DIR  Workspace root for resolving dot paths (repeatable)",
    "  --json      Emit JSON",
    "  --debug     Dump the component to stderr"]

/-- The help for the program or for a command. -/
def help (command : Option Command) : String :=
  line command ++ "\n" ++ String.join ((details command).map (· ++ "\n"))

end Usage

end Cfml
