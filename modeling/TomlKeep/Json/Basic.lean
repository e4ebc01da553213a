/-
# JSON

The shape in which trees are exchanged with other programs.  JSON has no date-times and no numbers
that are not finite, so a date-time becomes a string and such a number `null`; `Value.ofJsonLike`
brings date-times back with the help of a tree that has them.
-/
import TomlKeep.Value
import TomlKeep.Datetime

namespace TomlKeep

/-- A JSON value; the members of an object stand in the order in which their names came. -/
inductive Json where
  | null
  | bool (value : Bool)
  | integer (value : Int64)
  | float (value : Binary64)
  | string (value : String)
  | array (items : List Json)
  | object (members : List (String × Json))
  deriving Repr

namespace Value

/-! ## 1. From JSON -/

mutual

/-- The tree that JSON stands for. -/
def ofJson : Json → Value
  | .null => .null
  | .bool b => .bool b
  | .integer n => .integer n
  | .float x => .float x
  | .string s => .string s
  | .array items => .array (itemsOfJson items)
  | .object members => .table (entriesOfJson members)

/-- The items of an array. -/
def itemsOfJson : List Json → List Value
  | [] => []
  | json :: rest => ofJson json :: itemsOfJson rest

/-- The entries of a table. -/
def entriesOfJson : List (String × Json) → List (String × Value)
  | [] => []
  | (key, json) :: rest => (key, ofJson json) :: entriesOfJson rest

end

mutual

/-- The tree that JSON stands for, where a string is a date-time if it spells one and `base` has a
date-time in the same place. -/
def ofJsonLike : Json → Value → Value
  | .string s, .datetime _ =>
    if (Datetime.canonical? s.toList).isSome then .datetime s else .string s
  | .array items, .array base => .array (itemsOfJsonLike items base)
  | .object members, .table base => .table (entriesOfJsonLike members base)
  | json, _ => ofJson json

/-- The items of an array, compared one by one with those of the base. -/
def itemsOfJsonLike : List Json → List Value → List Value
  | [], _ => []
  | json :: rest, [] => ofJson json :: itemsOfJsonLike rest []
  | json :: rest, value :: base => ofJsonLike json value :: itemsOfJsonLike rest base

/-- The entries of a table, compared by key with those of the base. -/
def entriesOfJsonLike : List (String × Json) → Table → List (String × Value)
  | [], _ => []
  | (key, json) :: rest, base =>
    (key, match Keyed.find? key base with
      | some value => ofJsonLike json value
      | none => ofJson json) :: entriesOfJsonLike rest base

end

/-! ## 2. To JSON -/

mutual

/-- The JSON that stands for a tree. -/
def toJson : Value → Json
  | .null => .null
  | .bool b => .bool b
  | .integer n => .integer n
  | .float x => if x.isFinite then .float x else .null
  | .string s => .string s
  | .datetime text => .string text
  | .array items => .array (itemsToJson items)
  | .table entries => .object (entriesToJson entries)

/-- The items of an array. -/
def itemsToJson : List Value → List Json
  | [] => []
  | value :: rest => toJson value :: itemsToJson rest

/-- The members of an object. -/
def entriesToJson : List (String × Value) → List (String × Json)
  | [] => []
  | (key, value) :: rest => (key, toJson value) :: entriesToJson rest

end

end Value

end TomlKeep
