/-
# Rules

A rule says what may stand under a key: its kind, whether it must be there, whether it may be
`null`, bounds and choices.  Rules belong to dotted paths, and a rule set keeps them in order.

`RuleSet.issues` looks at the rules alone and `RuleSet.check` at a tree; both list everything they
find.
-/
import TomlKeep.Path
import TomlKeep.Value
import TomlKeep.Binary64.Text

namespace TomlKeep

/-- The kinds of value that a rule can ask for. -/
inductive Kind where
  | string
  | integer
  | float
  | bool
  | datetime
  | array
  | table
  deriving DecidableEq, Repr

namespace Kind

/-- The name of a kind. -/
def name : Kind → String
  | .string => "string"
  | .integer => "integer"
  | .float => "float"
  | .bool => "bool"
  | .datetime => "datetime"
  | .array => "array"
  | .table => "table"

/-- The kind of a name. -/
def ofName? (name : String) : Option Kind :=
  [string, integer, float, bool, datetime, array, table].find? (·.name == name)

/-- Whether values of the kind are scalars. -/
def isScalar : Kind → Bool
  | .array | .table => false
  | _ => true

/-- Whether a value is of the kind; an integer also passes for a float. -/
def admits : Kind → Value → Bool
  | .string, .string _ => true
  | .integer, .integer _ => true
  | .float, .float _ => true
  | .float, .integer _ => true
  | .bool, .bool _ => true
  | .datetime, .datetime _ => true
  | .array, .array _ => true
  | .table, .table _ => true
  | _, _ => false

/-- The kind of a value; `null` is of no kind. -/
def ofValue? : Value → Option Kind
  | .null => none
  | .bool _ => some .bool
  | .integer _ => some .integer
  | .float _ => some .float
  | .string _ => some .string
  | .datetime _ => some .datetime
  | .array _ => some .array
  | .table _ => some .table

end Kind

/-- What may stand under a key.  The bounds apply to numbers, and to the length of strings and
arrays; `label` and `help` are shown with a violation. -/
structure Rule where
  kind : Option Kind := none
  required : Bool := false
  nullable : Bool := false
  min : Option Binary64 := none
  max : Option Binary64 := none
  choices : List String := []
  label : Option String := none
  help : Option String := none
  deriving DecidableEq, Repr

/-- Rules under dotted paths. -/
abbrev RuleSet := List (String × Rule)

/-! ## 1. The rules themselves -/

/-- Something wrong with the definition of a rule. -/
inductive Issue where
  | invalidPath (path : String)
  | minAboveMax (path : String) (min max : Binary64)
  | choicesOnCompound (path : String) (kind : Kind)
  | requiredNullable (path : String)
  deriving DecidableEq, Repr

/-- The text of a number in messages. -/
def plainNumber (x : Binary64) : String :=
  String.ofList (FloatStyle.plain.write x)

/-- The wording of an issue. -/
def Issue.message : Issue → String
  | .invalidPath path => "invalid rule path '" ++ path ++ "'"
  | .minAboveMax path min max =>
    path ++ ": min " ++ plainNumber min ++ " is greater than max " ++ plainNumber max
  | .choicesOnCompound path kind =>
    path ++ ": choices are not allowed on " ++ kind.name ++ " rules"
  | .requiredNullable path => path ++ ": required and nullable cannot both be true"

/-- What is wrong with one rule. -/
def ruleIssues (path : String) (rule : Rule) : List Issue :=
  (match KeyPath.parse path.toList with
    | .ok _ => []
    | .error _ => [.invalidPath path])
  ++ (match rule.min, rule.max with
    | some min, some max => if max.lt min then [.minAboveMax path min max] else []
    | _, _ => [])
  ++ (match rule.kind with
    | some kind =>
      if !rule.choices.isEmpty && !kind.isScalar then [.choicesOnCompound path kind] else []
    | none => [])
  ++ (if rule.required && rule.nullable then [.requiredNullable path] else [])

/-- What is wrong with the rules of a set. -/
def RuleSet.issues (rules : RuleSet) : List Issue :=
  rules.flatMap fun (path, rule) => ruleIssues path rule

/-- The wording of a list of issues, one on each line. -/
def issuesMessage (issues : List Issue) : String :=
  "rule set validation failed:\n" ++ String.join (issues.map fun i => "- " ++ i.message ++ "\n")

/-! ## 2. Checking a tree -/

/-- What a tree has against a rule. -/
inductive Complaint where
  | missing
  | null
  | wrongKind (expected : Kind) (found : String)
  | below (measure min : Binary64)
  | above (measure max : Binary64)
  | noChoice (text : String) (choices : List String)
  deriving DecidableEq, Repr

/-- The wording of a complaint. -/
def Complaint.message : Complaint → String
  | .missing => "required key is missing"
  | .null => "value may not be null"
  | .wrongKind expected found => "expected " ++ expected.name ++ ", found " ++ found
  | .below measure min => plainNumber measure ++ " is below the minimum " ++ plainNumber min
  | .above measure max => plainNumber measure ++ " is above the maximum " ++ plainNumber max
  | .noChoice text choices => text ++ " is not one of: " ++ ", ".intercalate choices

/-- A complaint and the path of its rule. -/
structure Violation where
  path : String
  complaint : Complaint
  deriving DecidableEq, Repr

/-- A violation as it is shown to a reader. -/
def Violation.display (v : Violation) : String :=
  v.path ++ ": " ++ v.complaint.message

/-- What bounds apply to: a number itself, or the length of a string or an array. -/
def Value.measure? : Value → Option Binary64
  | .integer n => some (.ofInt n.toInt)
  | .float x => some x
  | .string s => some (.ofNat s.length)
  | .array items => some (.ofNat items.length)
  | _ => none

/-- The text that choices are compared with. -/
def Value.choiceText? : Value → Option String
  | .string s => some s
  | .datetime text => some text
  | .bool b => some (if b then "true" else "false")
  | .integer n => some (toString n.toInt)
  | .float x => some (plainNumber x)
  | _ => none

/-- Complaints about the bounds. -/
def Rule.boundComplaints (rule : Rule) (value : Value) : List Complaint :=
  match value.measure? with
  | none => []
  | some measure =>
    (match rule.min with
      | some min => if measure.lt min then [.below measure min] else []
      | none => [])
    ++ (match rule.max with
      | some max => if max.lt measure then [.above measure max] else []
      | none => [])

/-- Complaints about the choices. -/
def Rule.choiceComplaints (rule : Rule) (value : Value) : List Complaint :=
  if rule.choices.isEmpty || rule.choices.any (some · == value.choiceText?) then []
  else [.noChoice (value.choiceText?.getD "") rule.choices]

/-- What a value under its key has against the rule; none stands for no value. -/
def Rule.complaints (rule : Rule) : Option Value → List Complaint
  | none => if rule.required then [.missing] else []
  | some .null => if rule.nullable then [] else [.null]
  | some value =>
    match rule.kind with
    | some kind =>
      if kind.admits value then rule.boundComplaints value ++ rule.choiceComplaints value
      else [.wrongKind kind value.typeName]
    | none => rule.boundComplaints value ++ rule.choiceComplaints value

/-- What a tree has against one rule; a rule whose path is no key path applies to nothing. -/
def checkRule (tree : Value) (path : String) (rule : Rule) : List Violation :=
  match KeyPath.parse path.toList with
  | .error _ => []
  | .ok key => (rule.complaints (tree.at? key.parts)).map fun c => ⟨path, c⟩

/-- What a tree has against the rules of a set. -/
def RuleSet.check (rules : RuleSet) (tree : Value) : List Violation :=
  rules.flatMap fun (path, rule) => checkRule tree path rule

end TomlKeep
