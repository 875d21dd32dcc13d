/-
A run of the program.

Reports go to the output, everything else to the errors: usage, the configuration's faults, the
notes that a verbose run asks for, and the dump that a debugging run asks for. The exit code is two
for what the caller has written wrong, one for an input without a report, and zero otherwise. A run
is interrupted by a name that no file can have, by a file that is no text, by a number in the
configuration that is too long, and by a dot path that stands for no file name.
-/
import Cfml.CommandLine.Options
import Cfml.Comment.Spans
import Cfml.Component.Dump
import Cfml.Report

set_option autoImplicit false

namespace Cfml

/-- What a run leaves behind. -/
structure Outcome where
  exitCode : Nat
  output : String := ""
  errors : String := ""
deriving DecidableEq, Repr

/-- Why a run ends without an outcome. -/
inductive Interruption where
  | unnamedRoot
  | nullCharacter
  | overlong (digits : Nat)
  | encoding (error : Utf8.DecodeError)
  | emptyName (error : EmptyName)
deriving DecidableEq, Repr

/-- The interruption in words. -/
def Interruption.message : Interruption → String
  | .unnamedRoot => "a root has no name"
  | .nullCharacter => "embedded null byte"
  | .overlong digits =>
    "Exceeds the limit (" ++ toString Toml.maxDigits ++
      " digits) for integer string conversion: value has " ++ toString digits ++
      " digits; use sys.set_int_max_str_digits() to increase the limit"
  | .encoding e => e.message
  | .emptyName e => e.message

/-- The outcome when the arguments do not lead to a run. -/
def Dismissal.outcome : Dismissal → Outcome
  | .help concerns => { exitCode := 0, output := Usage.help concerns }
  | .misuse concerns e =>
    { exitCode := 2
      errors := Usage.line concerns ++ Usage.program concerns ++ ": error: " ++ e.message ++ "\n" }

namespace Options

/-- The outcome when the input has no report. -/
def failure (what : String) (options : Options) (why : String) (logged : String) : Outcome :=
  { exitCode := 1
    errors := logged ++ "error: " ++ what ++ " " ++ Report.str options.input.text ++ why ++ "\n" }

/-- The dialect that the input is read in. An unnamed one is read as tags. -/
def dialectFor (options : Options) (src : Source) : Dialect :=
  match options.mode with
  | .found => src.dialect
  | .given dialect => dialect
  | .unnamed => .tag

/-- Reports the comments of the input. -/
def runComments (options : Options) (src : Source) : Outcome :=
  let spans := src.comments (options.dialectFor src) none options.fast
  { exitCode := 0
    output :=
      if options.json then Report.ofValue (Report.commentsValue spans)
      else Report.comments src spans }

/-- Reports the component in the input. -/
def runComponent (options : Options) (tree : FileTree) (base : Path) (src : Source) :
    Except Interruption Outcome := do
  let resolution := src.component? (tree.isFile base) ⟨options.roots⟩
  let (answer, session) := resolution.run.run {}
  let logged :=
    if options.verbose then Report.ofLines (session.events.reverse.map Event.line) else ""
  match ← answer.mapError .emptyName with
  | none => return options.failure "no component declaration in" "" logged
  | some component =>
    return {
      exitCode := 0
      output :=
        if options.json then Report.ofValue (Report.componentValue component)
        else Report.component component
      errors := logged ++ (if options.debug then component.dump else "") }

/-- Carries out the command. -/
def run (options : Options) (tree : FileTree) (base : Path) : Except Interruption Outcome :=
  if options.input.hasNull then .error .nullCharacter
  else
    match tree.readText base options.input with
    | .error (.encoding e) => .error (.encoding e)
    | .error (.file e) => .ok (options.failure "cannot read" (": " ++ e.fault.message) "")
    | .ok text =>
      let src := Source.ofText text options.input
      match options.command with
      | .comments => .ok (options.runComments src)
      | .component => options.runComponent tree base src

end Options

/-! ## The files of a run -/

namespace Options

/-- The component files that a run looks for. They are the same whichever of them there are. -/
def componentFiles (options : Options) (src : Source) : List Path :=
  let resolver : Resolver := ⟨options.roots⟩
  match (src.component? (fun _ => false) resolver).run.run {} with
  | (.ok (some component), _) =>
    component.unresolved.flatMap fun r =>
      ((Resolver.candidates r.dotPath (resolver.lookup r.dotPath options.input)).toOption).getD []
  | _ => []

/-- The files that a run asks for, as far as the tree tells: the input, and what is named in it. -/
def files (options : Options) (tree : FileTree) (base : Path) : List Path :=
  match tree.readText base options.input with
  | .ok text => options.input :: options.componentFiles (Source.ofText text options.input)
  | .error _ => [options.input]

end Options

/-- The files that the program asks for, as far as the tree tells. -/
def programFiles (tree : FileTree) (base : Path) (words : List (List Char)) : List Path :=
  match Arguments.read words with
  | .error _ => []
  | .ok arguments =>
    Options.configFile arguments ::
      match Options.resolve tree base arguments with
      | .ok options => options.files tree base
      | .error _ => []

/-! ## The program -/

/-- The end of a run for which there is nothing to do. -/
def OptionsFailure.outcome : OptionsFailure → Except Interruption Outcome
  | .config (.config e) => .ok { exitCode := 2, errors := e.message ++ "\n" }
  | .config (.encoding e) => .error (.encoding e)
  | .config (.overlong digits) => .error (.overlong digits)
  | .unnamedRoot => .error .unnamedRoot
  | .nullCharacter => .error .nullCharacter

/-- Runs the program with its arguments in the directory `base`. -/
def runProgram (tree : FileTree) (base : Path) (words : List (List Char)) :
    Except Interruption Outcome :=
  match Arguments.read words with
  | .error dismissal => .ok dismissal.outcome
  | .ok arguments =>
    match Options.resolve tree base arguments with
    | .error failure => failure.outcome
    | .ok options => options.run tree base

end Cfml
