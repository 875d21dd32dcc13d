/-
A component as text, one line for each of its parts.
-/
import Cfml.Component.Basic
import Cfml.Text.Quoted

set_option autoImplicit false

namespace Cfml

namespace Dump

/-- A span, with lines and characters counted from zero. -/
def span (s : Span) : String :=
  "[" ++ toString s.start.line ++ ":" ++ toString s.start.character ++ "-" ++
    toString s.stop.line ++ ":" ++ toString s.stop.character ++ "]"

/-- A text as a string. -/
def str (text : List Char) : String := String.ofList text

/-- The value of an attribute: a truth value, or a text in quotes. -/
def value : AttributeValue → String
  | .flag true => "True"
  | .flag false => "False"
  | .text t => str (quoted t)

/-- A reference under a label, with a question mark for a file that was not found. -/
def reference (label : String) (r : Reference) : String :=
  "  " ++ label ++ " " ++ str r.dotPath ++ " -> " ++
    ((r.target.map fun p => str p.text).getD "?") ++ " " ++ span r.span

def property (p : PropertyDecl) : String :=
  "  Property " ++ str p.dataType ++ " " ++ str p.name ++ " " ++ span p.nameSpan

def function (f : FunctionDecl) : String :=
  "  Function " ++ str f.access ++ " " ++ (if f.isStatic then "static " else "") ++
    str f.returnType ++ " " ++ str f.name ++ " " ++ span f.span

def assignment (a : Assignment) : String :=
  "  Variable " ++ str a.scope ++ "." ++ str a.identifier ++ " " ++ span a.span

/-- Whether a key comes at or before another in the order of code points. -/
def keyNotAfter : List Char → List Char → Bool
  | [], _ => true
  | _ :: _, [] => false
  | c :: cs, d :: ds => c < d || (c == d && keyNotAfter cs ds)

end Dump

/-- The lines that show the component. -/
def Component.dumpLines (component : Component) : List String :=
  let kind := if component.isInterface then "Interface" else "Component"
  let name := if component.name.isEmpty then "<memory>" else Dump.str component.name
  let attributes := component.attributes.mergeSort fun a b => Dump.keyNotAfter a.1 b.1
  [kind ++ " " ++ name ++ " (" ++ component.dialect.name ++ ") " ++
      Dump.span component.declarationSpan] ++
    attributes.map (fun (key, v) => "  Attr " ++ Dump.str key ++ "=" ++ Dump.value v) ++
    component.extending.toList.map (Dump.reference "Extends") ++
    component.implementing.map (Dump.reference "Implements") ++
    component.unresolved.map (Dump.reference "Unresolved") ++
    component.properties.map (fun (_, p) => Dump.property p) ++
    component.functions.map (fun (_, f) => Dump.function f) ++
    component.assignments.map Dump.assignment

/-- The component as text. -/
def Component.dump (component : Component) : String :=
  String.join (component.dumpLines.map (· ++ "\n"))

end Cfml
