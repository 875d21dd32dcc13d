/-
Values of TOML documents, and tables that grow statement by statement.

A table keeps its keys in the order in which they were first written. Statements write into tables
that lie below the root: the way there is a list of keys, the tables on it are made where they are
missing, and an array of tables on it stands for its last table. Which tables may still be written
to is kept apart from them, as marks on keys.
-/

set_option autoImplicit false

namespace Cfml.Toml

/-- A value of a TOML document. -/
inductive Value where
  | string (text : List Char)
  | integer (value : Int)
  /-- A number with a fraction or an exponent, an infinity or no number, as written. -/
  | float (text : List Char)
  /-- A date, a time or both, as written. -/
  | moment (text : List Char)
  | boolean (value : Bool)
  | array (items : List Value)
  | table (entries : List (List Char × Value))

/-- The entries of a table, in order. -/
abbrev Table := List (List Char × Value)

/-- The keys that lead to a value. -/
abbrev KeyPath := List (List Char)

namespace Table

/-- Puts a value under a key, in the place of the one that is there. -/
def put (key : List Char) (value : Value) : Table → Table
  | [] => [(key, value)]
  | (k, v) :: rest => if k == key then (key, value) :: rest else (k, v) :: put key value rest

/-- Changes the table that the keys lead to. Where `throughArrays` holds, an array on the way stands
for its last item. There is no answer if something other than a table is in the way. -/
def changeAt (throughArrays : Bool) (change : Table → Option Table) : KeyPath → Table → Option Table
  | [], table => change table
  | key :: rest, table =>
    match table.lookup key with
    | none => (changeAt throughArrays change rest []).map fun inner => table.put key (.table inner)
    | some (.table inner) =>
      (changeAt throughArrays change rest inner).map fun inner => table.put key (.table inner)
    | some (.array items) =>
      match throughArrays, items.getLast? with
      | true, some (.table inner) =>
        (changeAt throughArrays change rest inner).map fun inner =>
          table.put key (.array (items.dropLast ++ [.table inner]))
      | _, _ => none
    | some _ => none

/-- Puts a value under a key that is not taken. -/
def putNew (key : List Char) (value : Value) (table : Table) : Option Table :=
  if (table.lookup key).isSome then none else some (table.put key value)

/-- Adds an empty table to the array under a key, and makes the array if it is missing. -/
def pushTable (key : List Char) (table : Table) : Option Table :=
  match table.lookup key with
  | none => some (table.put key (.array [.table []]))
  | some (.array items) => some (table.put key (.array (items ++ [.table []])))
  | some _ => none

end Table

/-! ## Marks on keys -/

/-- What is no longer allowed at a key. -/
inductive Mark where
  /-- Nothing at or below the key may change. -/
  | frozen
  /-- The key may not head a table. -/
  | headed
deriving DecidableEq, Repr

/-- The marks, each with the key that it is on. -/
abbrev Marks := List (KeyPath × Mark)

namespace Marks

/-- Whether the key has the mark. A frozen key freezes all keys below it. -/
def has (marks : Marks) (key : KeyPath) (mark : Mark) : Bool :=
  marks.any fun (k, m) => m == mark && (k == key || (mark == .frozen && k.isPrefixOf key))

/-- Takes the marks off a key and all keys below it. -/
def clear (marks : Marks) (key : KeyPath) : Marks := marks.filter fun (k, _) => !key.isPrefixOf k

end Marks

end Cfml.Toml
