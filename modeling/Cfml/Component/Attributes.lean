/-
The attributes of a component declaration.

They are written in the documentation block and in the declaration itself; what the declaration says
wins. Some attributes are boolean and hold a truth value, all others hold their text.
-/
import Cfml.Attribute
import Cfml.Truth

set_option autoImplicit false

namespace Cfml

/-- The value of an attribute of a component. -/
inductive AttributeValue where
  | text (text : List Char)
  | flag (flag : Bool)
deriving DecidableEq, Repr

namespace AttributeValue

/-- The text of a value that is one. -/
def text? : AttributeValue → Option (List Char)
  | .text t => some t
  | .flag _ => none

end AttributeValue

/-- The attributes of a component by name. -/
abbrev ComponentAttributes := Keyed AttributeValue

namespace ComponentAttributes

/-- The attributes that a component declaration can have. Others are passed over. -/
def names : List (List Char) :=
  ["accessors".toList, "alias".toList, "autoindex".toList, "bindingname".toList,
    "consumes".toList, "displayname".toList, "extends".toList, "hint".toList,
    "httpmethod".toList, "implements".toList, "indexable".toList, "indexlanguage".toList,
    "initmethod".toList, "mappedsuperclass".toList, "namespace".toList, "output".toList,
    "persistent".toList, "porttypename".toList, "produces".toList, "rest".toList,
    "restpath".toList, "serializable".toList, "serviceaddress".toList,
    "serviceportname".toList, "style".toList, "wsdlfile".toList, "wsversion".toList]

/-- The attributes that are boolean. -/
def booleanNames : List (List Char) :=
  ["accessors".toList, "autoindex".toList, "indexable".toList, "mappedsuperclass".toList,
    "output".toList, "persistent".toList, "rest".toList, "serializable".toList]

/-- The value that a text stands for under a name. -/
def valueOf (booleans : List (List Char)) (name text : List Char) : AttributeValue :=
  if booleans.contains name then .flag (isTruthy text) else .text text

/-- The attributes of the documentation block and of the declaration together. -/
def merge (doc declared : List (List Char × List Char)) (booleans : List (List Char)) :
    ComponentAttributes :=
  Keyed.insertAll [] ((doc ++ declared).map fun (name, text) => (name, valueOf booleans name text))

/-- The text of an attribute, if it is there, is not boolean and is not empty. -/
def text? (attributes : ComponentAttributes) (name : String) : Option (List Char) :=
  ((attributes.find? name.toList).bind AttributeValue.text?).filter (!·.isEmpty)

/-- Whether an attribute is there and is true. -/
def isSet (attributes : ComponentAttributes) (name : String) : Bool :=
  attributes.find? name.toList == some (.flag true)

end ComponentAttributes

end Cfml
