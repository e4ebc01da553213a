/-
# Values

The content of a document, without its layout: scalars, arrays and tables.  A table lists its
entries in the order in which their keys came (see `Keyed`).

`Value.same` is equality up to the order of keys, with numbers compared numerically: a NaN is not
the same as itself, and the two zeros are the same.
-/
import TomlKeep.Keyed
import TomlKeep.Binary64.Basic

namespace TomlKeep

/-- The content of a document or of a part of it.  `null` has no place in a document and comes
from edited trees only; the text of a date-time is kept as it is written. -/
inductive Value where
  | null
  | bool (value : Bool)
  | integer (value : Int64)
  | float (value : Binary64)
  | string (value : String)
  | datetime (text : String)
  | array (items : List Value)
  | table (entries : List (String × Value))
  deriving Repr

/-- The entries of a table. -/
abbrev Table := List (String × Value)

/-- The coarse shape of a value; only scalars can be changed in place. -/
inductive Shape where
  | scalar
  | array
  | table
  deriving DecidableEq, Repr

/-- The name of a shape. -/
def Shape.name : Shape → String
  | .scalar => "scalar"
  | .array => "array"
  | .table => "table"

namespace Value

/-- The shape of a value. -/
def shape : Value → Shape
  | .array _ => .array
  | .table _ => .table
  | _ => .scalar

/-- Whether the value is neither an array nor a table. -/
def isScalar (value : Value) : Bool :=
  value.shape == .scalar

/-- The word for the type of a value in messages. -/
def typeName : Value → String
  | .null => "null"
  | .bool _ => "bool"
  | .integer _ => "integer"
  | .float _ => "float"
  | .string _ => "string"
  | .datetime _ => "datetime"
  | .array _ => "array"
  | .table _ => "table"

/-- The entries, if the value is a table. -/
def entries? : Value → Option Table
  | .table entries => some entries
  | _ => none

/-- What stands under a key; only a table has keys. -/
def get? (value : Value) (key : String) : Option Value :=
  value.entries?.bind (Keyed.find? key)

/-- The value at a path of keys. -/
def at? (value : Value) : List String → Option Value
  | [] => some value
  | key :: path => (value.get? key).bind fun inner => inner.at? path

mutual

/-- Equality up to the order of keys. -/
def same : Value → Value → Bool
  | .null, .null => true
  | .bool a, .bool b => a == b
  | .integer a, .integer b => a == b
  | .float a, .float b => a.same b
  | .string a, .string b => a == b
  | .datetime a, .datetime b => a == b
  | .array a, .array b => sameItems a b
  | .table a, .table b => a.length == b.length && sameEntries a b
  | _, _ => false

/-- Whether two lists hold the same values one by one. -/
def sameItems : List Value → List Value → Bool
  | [], [] => true
  | a :: as, b :: bs => same a b && sameItems as bs
  | _, _ => false

/-- Whether each entry of the first table has a counterpart in the second. -/
def sameEntries : List (String × Value) → Table → Bool
  | [], _ => true
  | (key, a) :: rest, other =>
    (match Keyed.find? key other with
      | some b => same a b
      | none => false) && sameEntries rest other

end

end Value

end TomlKeep
