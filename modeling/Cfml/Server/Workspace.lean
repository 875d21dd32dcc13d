/-
The workspace of a language server.

An editor opens a workspace with a root, with folders, or with both, and sends the text of the
documents that it shows. Folders and documents go by the keys of their URIs, so that it does not
matter how a URI is written. A document that was never sent is what its file holds.
-/
import Cfml.Keyed
import Cfml.Source.Basic
import Cfml.TextFile
import Cfml.Uri

set_option autoImplicit false

namespace Cfml

/-- A document that an editor has sent. -/
structure Document where
  uri : Uri
  text : List Char
deriving DecidableEq, Repr

/-- What an editor has opened. -/
structure Workspace where
  root : Option Uri := none
  /-- The folders by key, in the order in which they were added. -/
  folders : Keyed Uri := []
  /-- The documents that the editor has sent, by key. -/
  documents : Keyed Document := []

namespace Workspace

/-- Adds a folder. One that is there keeps its place. -/
def addFolder (workspace : Workspace) (folder : Uri) : Workspace :=
  { workspace with folders := Keyed.insert folder.key folder workspace.folders }

/-- Removes a folder, if it is there. -/
def removeFolder (workspace : Workspace) (folder : Uri) : Workspace :=
  { workspace with folders := Keyed.erase folder.key workspace.folders }

/-- Keeps a document, in place of an earlier one. -/
def putDocument (workspace : Workspace) (document : Document) : Workspace :=
  { workspace with documents := Keyed.insert document.uri.key document workspace.documents }

/-- The document that the editor has sent for a URI. -/
def document? (workspace : Workspace) (uri : Uri) : Option Document :=
  Keyed.find? uri.key workspace.documents

/-- The path of the directory that a URI names, if it names any. -/
def directory? (uri : Uri) : Option Path :=
  match uri.filePath? with
  | some path => if path.isEmpty then none else some (Path.ofText path)
  | none => none

/-- The directories that dot paths are looked for under: the folders, and then the root unless it is
one of them. -/
def roots (workspace : Workspace) : List Path :=
  let folders := workspace.folders.filterMap fun folder => directory? folder.2
  folders ++ ((workspace.root.bind directory?).filter (!folders.contains ·)).toList

/-- The path of a document. One that the editor has sent keeps the path that it was sent with. -/
def documentPath (workspace : Workspace) (uri : Uri) : Path :=
  Path.ofText (((workspace.document? uri).map Document.uri).getD uri).documentPath

/-- The text of a document: what the editor has sent, or else what its file holds. -/
def documentText (workspace : Workspace) (tree : FileTree) (base : Path) (uri : Uri) :
    Except ReadError (List Char) :=
  match workspace.document? uri with
  | some document => .ok document.text
  | none =>
    let written := uri.documentPath
    (tree.readText base (Path.ofText written)).mapError fun
      | .file e => .file { e with path := written }
      | e => e

end Workspace

end Cfml
