/-
Values by key, in order of the keys' first insertion.

Declarations and attributes are reported in the order in which their names first occur, while of
several with one name the last one counts.
-/

set_option autoImplicit false

namespace Cfml

/-- Values by key, in order. -/
abbrev Keyed (α : Type) := List (List Char × α)

namespace Keyed

variable {α : Type}

/-- Puts a value under a key. A key that is there keeps its place. -/
def insert (key : List Char) (value : α) : Keyed α → Keyed α
  | [] => [(key, value)]
  | (k, v) :: rest => if k == key then (key, value) :: rest else (k, v) :: insert key value rest

/-- Puts each pair in turn. -/
def insertAll (entries : Keyed α) (pairs : List (List Char × α)) : Keyed α :=
  pairs.foldl (fun entries (key, value) => insert key value entries) entries

/-- Takes a key out with its value. -/
def erase (key : List Char) (entries : Keyed α) : Keyed α := entries.filter (·.1 != key)

/-- The value under a key. -/
def find? (key : List Char) (entries : Keyed α) : Option α := entries.lookup key

end Keyed

end Cfml
