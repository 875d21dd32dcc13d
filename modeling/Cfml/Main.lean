/-
The program on a real file system. The files that a run asks for are put into a tree; the run itself
sees only the tree.
-/
import Cfml.CommandLine.Run

set_option autoImplicit false

namespace Cfml.Program

/-- The path and everything above it, from the top down. -/
def stages (p : Path) : List Path :=
  (List.range (p.parts.length + 1)).map fun count => ⟨p.root, p.parts.take count⟩

/-- The tree with what there is at a path. -/
def look (base : Path) (tree : FileTree) (p : Path) : IO FileTree := do
  let place := (← IO.currentDir) / String.ofList p.text
  if ← place.isDir then return tree.addDirectory base p
  else if ← place.pathExists then
    let bytes ← IO.FS.readBinFile place
    return (tree.write base p bytes.toList).toOption.getD tree
  else return tree

/-- The tree with what there is at some paths and above them. -/
def lookAll (base : Path) (tree : FileTree) (paths : List Path) : IO FileTree :=
  (paths.flatMap stages).foldlM (look base) tree

end Cfml.Program

open Cfml in
/-- Runs the program: first the configuration and the input are looked for, then what they name. -/
def main (arguments : List String) : IO UInt32 := do
  let words := arguments.map String.toList
  let base := Path.ofText (← IO.currentDir).toString.toList
  let tree ← Program.lookAll base (FileTree.empty.addDirectory base base)
    (programFiles .empty base words)
  let tree ← Program.lookAll base tree (programFiles tree base words)
  match runProgram tree base words with
  | .ok outcome =>
    IO.eprint outcome.errors
    IO.print outcome.output
    return outcome.exitCode.toUInt32
  | .error interruption =>
    IO.eprintln interruption.message
    return 1
