/-
What a run of the program is to do: the arguments put together with the configuration file. What the
arguments say comes behind what the file says, and roots in the file are seen from its directory.
Roots are resolved before the file's section on comments is looked at.
-/
import Cfml.CommandLine.Arguments
import Cfml.Config

set_option autoImplicit false

namespace Cfml

/-- What a run of the program is to do. -/
structure Options where
  command : Command
  input : Path
  mode : Mode
  fast : Bool
  /-- Workspace roots, absolute. -/
  roots : List Path
  json : Bool
  debug : Bool
  verbose : Bool

/-- Why there is nothing to do. -/
inductive OptionsFailure where
  | config (failure : ConfigFailure)
  /-- The argument of a root stands for nothing. -/
  | unnamedRoot
  /-- No system takes the name of a root. -/
  | nullCharacter
deriving DecidableEq, Repr

namespace Options

/-- The configuration file that is given, if any. An empty name gives none. -/
def givenConfig (settings : Settings) : Option Path :=
  (settings.config.filter (!·.isEmpty)).map Path.ofText

/-- The configuration file of a run. -/
def configFile (arguments : Arguments) : Path :=
  Config.file (givenConfig arguments.settings) (Path.ofText arguments.input).parent

/-- The place of a root. -/
def root (base p : Path) : Except OptionsFailure Path :=
  if p.hasNull then .error .nullCharacter else .ok (Path.resolveFrom base p)

/-- The place of a root that is given as an argument. -/
def givenRoot (base : Path) : Option (List Char) → Except OptionsFailure Path
  | none => .error .unnamedRoot
  | some text => root base (Path.ofText text)

/-- The places of the roots that are written in a configuration file, and then of those given. -/
def allRoots (base file : Path) (written : List (List Char)) (given : List (Option (List Char))) :
    Except OptionsFailure (List Path) := do
  let configured ← written.mapM fun text => root base (file.parent ++ Path.ofText text)
  let given ← given.mapM (givenRoot base)
  return configured ++ given

/-- The value, or the fault of a configuration file. -/
def orConfigError {α : Type} (file : Path) (value : Except ConfigFault α) :
    Except OptionsFailure α :=
  value.mapError fun fault => .config (.config ⟨fault, file⟩)

/-- Puts arguments and configuration together. -/
def resolve (tree : FileTree) (base : Path) (arguments : Arguments) :
    Except OptionsFailure Options := do
  let settings := arguments.settings
  let file := configFile arguments
  let table ← (Config.table tree base file).mapError .config
  let written ← orConfigError file (Config.workspaceRoots table)
  let roots ← allRoots base file written settings.roots
  let fast ← orConfigError file (Config.fastComments table)
  return {
    command := arguments.command
    input := Path.ofText arguments.input
    mode := settings.mode
    fast := settings.fast || fast.getD false
    roots := roots
    json := settings.json
    debug := settings.debug
    verbose := settings.verbose }

end Options

end Cfml
