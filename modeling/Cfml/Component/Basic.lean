/-
Components.

A component is read from its head, from the attributes of head and documentation block, and from the
declarations in the source. What it extends and implements is looked up; a name that is not found
becomes an unresolved reference and is no error.
-/
import Cfml.Component.Attributes
import Cfml.Component.Head
import Cfml.Declaration.Assignment
import Cfml.Declaration.Function
import Cfml.Declaration.Property
import Cfml.DocBlock
import Cfml.Resolver.Basic

set_option autoImplicit false

namespace Cfml

/-- A dot path written in a source, where it stands, and the file it was found to name. -/
structure Reference where
  dotPath : List Char
  span : Span
  target : Option Path

/-- What a component file declares. -/
structure Component where
  path : Option Path
  name : List Char
  dialect : Dialect
  isInterface : Bool
  declarationSpan : Span
  displayName : List Char
  hint : List Char
  hasAccessors : Bool
  initMethod : Option (List Char)
  extending : Option Reference
  implementing : List Reference
  /-- What it extends and implements that was not found. -/
  unresolved : List Reference
  attributes : ComponentAttributes
  functions : Keyed FunctionDecl
  properties : Keyed PropertyDecl
  assignments : List Assignment

/-- An attribute value as written, and where it stands. -/
structure WrittenValue where
  text : List Char
  span : Span

namespace ComponentHead

/-! ## Attributes of the head -/

/-- The attributes in the documentation block of the head. -/
def docAttributes (src : Source) (head : ComponentHead) : List (List Char × WrittenValue) :=
  match head.doc with
  | none => []
  | some doc =>
    let entries := (src.docEntries (some (src.spanOf doc))).filter fun entry =>
      ComponentAttributes.names.contains entry.key
    entries.map fun entry => (entry.key, ⟨entry.value, entry.span⟩)

/-- The attributes in the declaration. -/
def declaredAttributes (src : Source) (head : ComponentHead) : List (List Char × WrittenValue) :=
  if h : head.attributesStart < head.stop then
    let within := src.spanOf ⟨head.attributesStart, head.stop, Nat.le_of_lt h⟩
    (src.attributes (some within) (some ComponentAttributes.names)).map fun (key, a) =>
      (key, ⟨a.value, a.span⟩)
  else []

/-- The attributes of both by name; what the declaration says wins. -/
def written (src : Source) (head : ComponentHead) : Keyed WrittenValue :=
  Keyed.insertAll [] (head.docAttributes src ++ head.declaredAttributes src)

/-- Their values. -/
def attributes (src : Source) (head : ComponentHead) : ComponentAttributes :=
  let texts (values : List (List Char × WrittenValue)) := values.map fun (key, v) => (key, v.text)
  ComponentAttributes.merge (texts (head.docAttributes src)) (texts (head.declaredAttributes src))
    ComponentAttributes.booleanNames

end ComponentHead

namespace Source

/-! ## References in attribute values -/

/-- The span of the last segment of a dot path that is written as an attribute value. -/
def lastSegmentSpan (src : Source) (value : WrittenValue) : Span :=
  let whole := src.stretchOf value.span
  let name := DotPath.lastSegment (trim value.text)
  let start := max whole.start (whole.stop - name.length)
  src.spanOf ⟨start, whole.stop, Nat.max_le.mpr ⟨whole.start_le_stop, Nat.sub_le _ _⟩⟩

/-- The entries of a list of dot paths between commas, each with the span of its last segment. Where
the value is not written on one line, each entry has the span of the whole value. -/
def listedDotPaths (src : Source) (value : WrittenValue) : List (List Char × Span) :=
  let whole := src.stretchOf value.span
  let isEntry : Pattern Capture := ⟨(·.name? (· != ',') (· != ',')), Reader.name?_reaches⟩
  (occurrences isEntry (Reader.ofText value.text whole.start)).filterMap fun found =>
    let dotPath := trim found.value.text
    if dotPath.isEmpty then none
    else if whole.stop - whole.start == value.text.length then
      let stop := found.start + (trimRight found.value.text).length
      let length := (DotPath.lastSegment dotPath).length
      some (dotPath, src.spanOf ⟨stop - length, stop, Nat.sub_le stop length⟩)
    else some (dotPath, value.span)

/-- The dot path of what a component extends, if it extends anything, and its span. -/
def extendedDotPath (src : Source) (value : Option WrittenValue) : Option (List Char × Span) :=
  (value.filter fun v => !(trim v.text).isEmpty).map fun v => (trim v.text, src.lastSegmentSpan v)

/-- The dot paths of what a component implements, and their spans. -/
def implementedDotPaths (src : Source) (value : Option WrittenValue) : List (List Char × Span) :=
  (value.map src.listedDotPaths).getD []

/-- The reference that a dot path at a span is. -/
def reference (isFile : Path → Bool) (resolver : Resolver) (src : Source) (dotPath : List Char)
    (span : Span) : Resolution Reference := do
  return ⟨dotPath, span, ← resolver.resolve isFile dotPath src.path⟩

/-- What a component extends. -/
def extendedReference (isFile : Path → Bool) (resolver : Resolver) (src : Source)
    (value : Option WrittenValue) : Resolution (Option Reference) := do
  let some (dotPath, span) := src.extendedDotPath value | return none
  return some (← src.reference isFile resolver dotPath span)

/-- What a component implements. -/
def implementedReferences (isFile : Path → Bool) (resolver : Resolver) (src : Source)
    (value : Option WrittenValue) : Resolution (List Reference) :=
  (src.implementedDotPaths value).mapM fun (dotPath, span) =>
    src.reference isFile resolver dotPath span

/-! ## The component -/

/-- The functions in order of their start, by name in lower case. -/
def functionsByName (functions : List FunctionDecl) : Keyed FunctionDecl :=
  let sorted := functions.mergeSort fun f g => f.span.start ≤ g.span.start
  Keyed.insertAll [] (sorted.map fun f => (lower f.name, f))

/-- The component of a source with the given head, and with what it extends and implements looked
up. -/
def declaredComponent (src : Source) (head : ComponentHead) (extending : Option Reference)
    (implementing : List Reference) : Component :=
  let attributes := head.attributes src
  let isFound (r : Reference) : Bool := r.target.isSome
  let functions := src.scriptFunctions head.dialect ++ src.tagFunctions
  let starts := functions.map fun f => src.offsetAt f.span.start
  let firstFunction := starts.foldl min src.length
  let beforeFunctions :=
    src.spanOf ⟨min head.stop firstFunction, firstFunction, Nat.min_le_right _ _⟩
  { path := src.path
    name := (src.path.map Path.stem).getD []
    dialect := head.dialect
    isInterface := head.isInterface
    declarationSpan := src.spanOf head.keyword.stretch
    displayName := (attributes.text? "displayname").getD []
    hint := (attributes.text? "hint").getD []
    hasAccessors := attributes.isSet "accessors" || attributes.isSet "persistent"
    initMethod := attributes.text? "initmethod"
    extending := extending.filter isFound
    implementing := implementing.filter isFound
    unresolved := (extending.toList ++ implementing).filter (!isFound ·)
    attributes := attributes
    functions := functionsByName functions
    properties := src.properties head.dialect
    assignments := src.assignments head.dialect (some beforeFunctions) }

/-- The component of a source with the given head. -/
def componentOfHead (isFile : Path → Bool) (resolver : Resolver) (src : Source)
    (head : ComponentHead) : Resolution Component := do
  let written := head.written src
  let extending ← src.extendedReference isFile resolver (written.find? "extends".toList)
  let implementing ← src.implementedReferences isFile resolver (written.find? "implements".toList)
  let component := src.declaredComponent head extending implementing
  note (.parsed (lower head.keyword.text) component.name component.functions.length
    component.unresolved.length)
  return component

/-- The component that the source declares, if it declares one. -/
def component? (isFile : Path → Bool) (resolver : Resolver) (src : Source) :
    Resolution (Option Component) := do
  match ComponentHead.find? src.text with
  | none =>
    note (.noDeclaration src.path)
    return none
  | some head => return some (← src.componentOfHead isFile resolver head)

end Source

end Cfml
