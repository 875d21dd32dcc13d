/-
A language server that warns of components that cannot be found.

The server checks a document whenever the editor opens or changes it. Dot paths are answered from
one cache for all documents; when the editor reports that component files have come, gone or
changed, the answers that may depend on them are dropped. An error leaves the cache as it was when
the error arose.
-/
import Cfml.Component.Basic
import Cfml.Server.Workspace

set_option autoImplicit false

namespace Cfml

/-- A warning of a component that cannot be found. -/
structure Diagnostic where
  span : Span
  dotPath : List Char

/-- The warning in words. -/
def Diagnostic.message (d : Diagnostic) : String :=
  "cannot resolve component '" ++ String.ofList d.dotPath ++ "'"

/-- What has happened to a file. -/
inductive FileChange where
  | created
  | changed
  | deleted
deriving DecidableEq, Repr

/-- Why a request cannot be answered. -/
inductive ServerError where
  | read (error : ReadError)
  | emptyName (error : EmptyName)
deriving DecidableEq, Repr

/-- A language server: what the editor has opened, and the answers found so far. -/
structure Server where
  workspace : Workspace := {}
  cache : PathCache := .empty

namespace Server

/-- The component that a document declares, with the cache after the lookups. -/
def component? (server : Server) (tree : FileTree) (base : Path) (src : Source) :
    Except EmptyName (Option Component) × PathCache :=
  let resolution := src.component? (tree.isFile base) ⟨server.workspace.roots⟩
  let (answer, session) := resolution.run.run { cache := server.cache }
  (answer, session.cache)

/-- Checks a document. One that is no component file is in order. -/
def validate (server : Server) (tree : FileTree) (base : Path) (uri : Uri) :
    Except ServerError (List Diagnostic) × Server :=
  let path := server.workspace.documentPath uri
  if !path.isComponent then (.ok [], server)
  else
    match server.workspace.documentText tree base uri with
    | .error e => (.error (.read e), server)
    | .ok text =>
      let (answer, cache) := server.component? tree base (Source.ofText text path)
      let found (component : Option Component) : List Diagnostic :=
        (component.map Component.unresolved).getD [] |>.map fun r => ⟨r.span, r.dotPath⟩
      ((answer.map found).mapError .emptyName, { server with cache := cache })

/-- Takes the text of a document from the editor and checks it. -/
def update (server : Server) (tree : FileTree) (base : Path) (uri : Uri) (text : List Char) :
    Except ServerError (List Diagnostic) × Server :=
  let workspace := server.workspace.putDocument ⟨uri, text⟩
  { server with workspace := workspace }.validate tree base uri

/-- The cache after something has happened to a file. Only component files matter. -/
def forget (cache : PathCache) (uri : Uri) (change : FileChange) : Except EmptyName PathCache :=
  match uri.filePath?.map Path.ofText with
  | none => .ok cache
  | some path =>
    if !path.isComponent then .ok cache
    else
      match change with
      | .created | .deleted => cache.invalidateTarget path
      | .changed => .ok (cache.invalidateReferencing path)

/-- Takes a report of what has happened to files. After an error the rest of the report is left. -/
def watch (server : Server) : List (Uri × FileChange) → Except ServerError Unit × Server
  | [] => (.ok (), server)
  | (uri, change) :: rest =>
    match forget server.cache uri change with
    | .error e => (.error (.emptyName e), server)
    | .ok cache => { server with cache := cache }.watch rest

end Server

end Cfml
