/-
The configuration file.

A TOML document names workspace roots and says whether comments are found the fast way. It lies next
to the input file unless another file is given; without a file nothing is configured. The first
value of a wrong shape is an error.
-/
import Cfml.TextFile
import Cfml.Toml.Document

set_option autoImplicit false

namespace Cfml

/-- What is wrong with a configuration. -/
inductive ConfigFault where
  | invalidToml
  | workspaceNotTable
  | rootsNotStrings
  | commentsNotTable
  | fastNotBoolean
deriving DecidableEq, Repr

/-- The fault in words. -/
def ConfigFault.message : ConfigFault → String
  | .invalidToml => "invalid TOML: not a document"
  | .workspaceNotTable => "[workspace] must be a table"
  | .rootsNotStrings => "workspace.roots must be a list of strings"
  | .commentsNotTable => "[comments] must be a table"
  | .fastNotBoolean => "comments.fast must be true or false"

/-- A fault, and the configuration file. -/
structure ConfigError where
  fault : ConfigFault
  path : Path
deriving DecidableEq, Repr

/-- The error in words. -/
def ConfigError.message (e : ConfigError) : String :=
  "error: " ++ e.fault.message ++ "\n  --> " ++ String.ofList e.path.text

/-- Why there is no configuration. -/
inductive ConfigFailure where
  | config (error : ConfigError)
  | encoding (error : Utf8.DecodeError)
  /-- A number in the file has this many digits, which are too many. -/
  | overlong (digits : Nat)
deriving DecidableEq, Repr

namespace Config

/-- The name of the file next to the input. -/
def fileName : Path := Path.ofText "cfmlscan.toml".toList

/-- The configuration file that is used for an input in a directory. -/
def file (given : Option Path) (directory : Path) : Path := given.getD (directory ++ fileName)

/-- The table in a configuration file, which is empty if there is no such file. -/
def table (tree : FileTree) (base file : Path) : Except ConfigFailure Toml.Table :=
  match tree.decode base file with
  | .error (.file _) => .ok []
  | .error (.encoding e) => .error (.encoding e)
  | .ok text =>
    match Toml.document text with
    | .error .malformed => .error (.config ⟨.invalidToml, file⟩)
    | .error (.overlong digits) => .error (.overlong digits)
    | .ok table => .ok table

/-- The text of a value that is a string. -/
def text? : Toml.Value → Option (List Char)
  | .string text => some text
  | _ => none

/-- The table under a key, which is empty if the key is missing. -/
def section? (key : String) (table : Toml.Table) : Option Toml.Table :=
  match table.lookup key.toList with
  | none => some []
  | some (.table inner) => some inner
  | some _ => none

/-- The workspace roots that a table names. -/
def roots? (workspace : Toml.Table) : Option (List (List Char)) :=
  match workspace.lookup "roots".toList with
  | none => some []
  | some (.array items) => items.mapM text?
  | some _ => none

/-- Whether a table asks for the fast way. There is no answer for a value of a wrong shape. -/
def fast? (comments : Toml.Table) : Option (Option Bool) :=
  match comments.lookup "fast".toList with
  | none => some none
  | some (.boolean value) => some (some value)
  | some _ => none

/-- The value, or a fault where there is none. -/
def orFault {α : Type} (fault : ConfigFault) (value : Option α) : Except ConfigFault α :=
  match value with
  | some found => .ok found
  | none => .error fault

/-- The workspace roots that a configuration names, as written. -/
def workspaceRoots (table : Toml.Table) : Except ConfigFault (List (List Char)) := do
  let workspace ← orFault .workspaceNotTable (section? "workspace" table)
  orFault .rootsNotStrings (roots? workspace)

/-- Whether a configuration asks for the fast way to find comments, if it says. -/
def fastComments (table : Toml.Table) : Except ConfigFault (Option Bool) := do
  let comments ← orFault .commentsNotTable (section? "comments" table)
  orFault .fastNotBoolean (fast? comments)

end Config

end Cfml
