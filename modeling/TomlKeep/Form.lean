/-
# Forms

A form gives fields `dotted.path = text`.  They are set in a tree one after the other, each text
read as the kind that a rule asks for, or else as the kind of the value that it replaces, or else
as any literal of TOML or a plain string.
-/
import TomlKeep.Rules.Basic
import TomlKeep.Text.Quoted
import TomlKeep.Document

namespace TomlKeep

open Text

/-- A field of a form. -/
structure Field where
  name : String
  text : String
  deriving DecidableEq, Repr

/-- Why a field cannot be set. -/
inductive FormError where
  | invalidField (field : String) (cause : PathError)
  | unknownField (field : String)
  | notATable (field segment : String)
  | coercion (field input expected : String)
  deriving DecidableEq, Repr

/-- The wording of a form error. -/
def FormError.message : FormError → String
  | .invalidField field cause => "invalid field name '" ++ field ++ "': " ++ cause.message
  | .unknownField field => "field '" ++ field ++ "' is not a key of the document"
  | .notATable field segment =>
    "field '" ++ field ++ "' passes through '" ++ segment ++ "', which is not a table"
  | .coercion field input expected =>
    "field '" ++ field ++ "': cannot read " ++ String.ofList (visiblyQuoted input.toList)
      ++ " as " ++ expected

/-- Splits `path=text` at the first `=`; the path is trimmed and must not be empty. -/
def Field.ofAssignment? (input : List Char) : Option Field :=
  match splitAtChar? '=' input with
  | none => none
  | some (name, text) =>
    let name := trim name
    if name.isEmpty then none else some ⟨String.ofList name, String.ofList text⟩

/-! ## 1. Reading one text -/

/-- Reads a text on one line as a literal of TOML. -/
def readLiteral? (input : List Char) : Option Value :=
  let text := trim input
  if text.isEmpty || text.contains '\n' then none
  else
    match readStrict (['v', ' ', '=', ' '] ++ text) with
    | .ok tree => tree.at? ["v"]
    | .error _ => none

/-- Reads a word for a truth value. -/
def readBool? (input : List Char) : Option Bool :=
  let word := String.ofList ((trim input).map Char.toLower)
  if ["true", "on", "yes", "1"].contains word then some true
  else if ["false", "off", "no", "0", ""].contains word then some false
  else none

/-- What a text was expected to be, in words. -/
def Kind.expectation : Kind → String
  | .string => "a string"
  | .integer => "an integer"
  | .float => "a float"
  | .bool => "a boolean"
  | .datetime => "a date-time"
  | .array => "an array"
  | .table => "an inline table"

/-- Reads a text as a value of a kind. -/
def readAs? (kind : Kind) (input : String) : Option Value :=
  match kind with
  | .string => some (.string input)
  | .bool => (readBool? input.toList).map .bool
  | .float =>
    match readLiteral? input.toList with
    | some (.float x) => some (.float x)
    | some (.integer n) => some (.float (.ofInt n.toInt))
    | _ => none
  | kind => (readLiteral? input.toList).filter kind.admits

/-- Reads the text of a field as a kind; without a kind, as a literal or else as a string. -/
def coerce (field input : String) : Option Kind → Except FormError Value
  | none => .ok ((readLiteral? input.toList).getD (.string input))
  | some kind =>
    match readAs? kind input with
    | some value => .ok value
    | none => .error (.coercion field input kind.expectation)

/-! ## 2. Setting fields -/

/-- Changes the table at a path of segments; missing tables are made if `allowNew` holds. -/
def changeAt (field : String) (allowNew : Bool) (change : Table → Except FormError Table) :
    List String → Table → Except FormError Table
  | [], table => change table
  | segment :: path, table =>
    match Keyed.find? segment table with
    | none =>
      if allowNew then
        (changeAt field allowNew change path []).map
          fun inner => Keyed.insert segment (.table inner) table
      else .error (.unknownField field)
    | some (.table inner) =>
      (changeAt field allowNew change path inner).map
        fun inner => Keyed.insert segment (.table inner) table
    | some _ => .error (.notATable field segment)

/-- The value of a field: `null` for an empty text under a nullable rule, and otherwise the text
read as the kind of the rule or of what stands there already. -/
def fieldValue (field : Field) (rule : Option Rule) (allowNew : Bool) (existing : Option Value) :
    Except FormError Value :=
  if rule.any (·.nullable) && field.text.isEmpty then .ok .null
  else
    match rule.bind (·.kind), existing with
    | some kind, _ => coerce field.name field.text (some kind)
    | none, some value => coerce field.name field.text (Kind.ofValue? value)
    | none, none =>
      if allowNew then coerce field.name field.text none else .error (.unknownField field.name)

/-- Sets a key of a table to the value of a field. -/
def setKey (field : Field) (rule : Option Rule) (allowNew : Bool) (key : String) (table : Table) :
    Except FormError Table :=
  (fieldValue field rule allowNew (Keyed.find? key table)).map
    fun value => Keyed.insert key value table

/-- Sets one field in a tree. -/
def setField (rules : RuleSet) (allowNew : Bool) (field : Field) (tree : Value) :
    Except FormError Value :=
  match KeyPath.parse field.name.toList with
  | .error cause => .error (.invalidField field.name cause)
  | .ok key =>
    match key.parts.getLast?, tree with
    | none, _ => .error (.unknownField field.name)
    | some last, .table entries =>
      (changeAt field.name allowNew
        (setKey field (Keyed.find? key.dotted rules) allowNew last) key.parts.dropLast
        entries).map .table
    | some _, _ => .error (.notATable field.name "")

/-- Sets the fields of a form in a tree, in their order. -/
def collect (rules : RuleSet) (allowNew : Bool) : List Field → Value → Except FormError Value
  | [], tree => .ok tree
  | field :: rest, tree =>
    match setField rules allowNew field tree with
    | .ok tree => collect rules allowNew rest tree
    | .error e => .error e

end TomlKeep
