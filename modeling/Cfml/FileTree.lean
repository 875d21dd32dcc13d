/-
A tree of files in memory.

The tree maps the parts of absolute paths to directories and files. A path is walked part by part,
so `..` leads to the directory above the one that has been reached, and every part but the last has
to be a directory.
-/
import Cfml.Path
import Cfml.Text.Quoted

set_option autoImplicit false

namespace Cfml

/-- What a path can name. -/
inductive FileNode where
  | directory
  | file (bytes : List UInt8)
deriving DecidableEq, Repr

/-- Why a file cannot be used. -/
inductive FileFault where
  /-- Nothing is there. -/
  | missing
  /-- A directory is there. -/
  | isDirectory
  /-- The path leads through a file. -/
  | notDirectory
deriving DecidableEq, Repr

namespace FileFault

/-- The number that systems give to the fault. -/
def code : FileFault → Nat
  | .missing => 2
  | .isDirectory => 21
  | .notDirectory => 20

/-- The fault in words. -/
def message : FileFault → String
  | .missing => "No such file or directory"
  | .isDirectory => "Is a directory"
  | .notDirectory => "Not a directory"

end FileFault

/-- A fault, and the path as it was written. -/
structure FileError where
  fault : FileFault
  path : List Char
deriving DecidableEq, Repr

/-- The error in words. -/
def FileError.message (e : FileError) : String :=
  "[Errno " ++ toString e.fault.code ++ "] " ++ e.fault.message ++ ": " ++
    String.ofList (quoted e.path)

/-- Directories and files by the parts of their absolute paths. The root directory is always
there. -/
structure FileTree where
  nodes : List (List (List Char) × FileNode)

namespace FileTree

/-- The tree that holds only the root directory. -/
def empty : FileTree := ⟨[]⟩

/-- What the path with these parts names, if there is anything. -/
def node? (tree : FileTree) (parts : List (List Char)) : Option FileNode :=
  if parts.isEmpty then some .directory else tree.nodes.lookup parts

/-- Walks from a place in the tree along some parts. The answer is the place that is reached, at
which there may be nothing. -/
def walk (tree : FileTree) (place : List (List Char)) :
    List (List Char) → Except FileFault (List (List Char))
  | [] => .ok place
  | part :: rest =>
    match tree.node? place with
    | none => .error .missing
    | some (.file _) => .error .notDirectory
    | some .directory =>
      tree.walk (if part == ['.', '.'] then place.dropLast else place ++ [part]) rest

/-- What the path names from the directory `base`. -/
def find (tree : FileTree) (base p : Path) : Except FileFault FileNode := do
  let place ← tree.walk [] (base ++ p).parts
  match tree.node? place with
  | none => .error .missing
  | some node => .ok node

/-- Whether the path names a file. -/
def isFile (tree : FileTree) (base p : Path) : Bool :=
  match tree.find base p with
  | .ok (.file _) => true
  | _ => false

/-- The bytes of a file. -/
def read (tree : FileTree) (base p : Path) : Except FileError (List UInt8) :=
  match tree.find base p with
  | .ok (.file bytes) => .ok bytes
  | .ok .directory => .error ⟨.isDirectory, p.text⟩
  | .error fault => .error ⟨fault, p.text⟩

/-- Puts a node at a place. -/
def put (tree : FileTree) (place : List (List Char)) (node : FileNode) : FileTree :=
  ⟨(place, node) :: tree.nodes.filter fun entry => entry.1 != place⟩

/-- Makes a directory at a place below the first `above` parts, and those above it, where nothing is
there. -/
def makeDirectories (tree : FileTree) (above : List (List Char)) : List (List Char) → FileTree
  | [] => tree
  | part :: rest =>
    let place := above ++ [part]
    let tree := if (tree.node? place).isNone then tree.put place .directory else tree
    tree.makeDirectories place rest

/-- The tree with a directory at the path. -/
def addDirectory (tree : FileTree) (base p : Path) : FileTree :=
  tree.makeDirectories [] (Path.resolveFrom base p).parts

/-- Writes a file, and makes the directories above it. -/
def write (tree : FileTree) (base p : Path) (bytes : List UInt8) : Except FileError FileTree :=
  let tree := tree.addDirectory base p.parent
  let place := (Path.resolveFrom base p).parts
  match tree.find base p with
  | .ok .directory => .error ⟨.isDirectory, p.text⟩
  | .error .notDirectory => .error ⟨.notDirectory, p.text⟩
  | _ => .ok (tree.put place (.file bytes))

/-- Removes a file. -/
def delete (tree : FileTree) (base p : Path) : Except FileError FileTree :=
  match tree.find base p with
  | .ok (.file _) =>
    let place := (Path.resolveFrom base p).parts
    .ok ⟨tree.nodes.filter fun entry => entry.1 != place⟩
  | .ok .directory => .error ⟨.isDirectory, p.text⟩
  | .error fault => .error ⟨fault, p.text⟩

end FileTree

end Cfml
