/-
# Rules from a document

A rules document has a table `rules` with a table for each path.  A rule has only the fields that
rules have, each of its type; a rule may also be written as an array of its fields in their
order.  Rules that read well are validated before they are used.
-/
import TomlKeep.Rules.Basic
import TomlKeep.Document

namespace TomlKeep

/-- Why a text gives no rules. -/
inductive RulesError where
  | notRules
  | invalid (issues : List Issue)
  deriving DecidableEq, Repr

namespace Rule

/-- A truth value. -/
def boolField? : Value → Option Bool
  | .bool b => some b
  | _ => none

/-- A string. -/
def stringField? : Value → Option String
  | .string s => some s
  | _ => none

/-- A number; an integer counts as the float nearest to it. -/
def numberField? : Value → Option Binary64
  | .float x => some x
  | .integer n => some (.ofInt n.toInt)
  | _ => none

/-- An array of strings. -/
def stringsField? : Value → Option (List String)
  | .array items => items.mapM stringField?
  | _ => none

/-- Whether the value is an empty table or an empty array. -/
def isEmptyCompound : Value → Bool
  | .array items => items.isEmpty
  | .table entries => entries.isEmpty
  | _ => false

/-- A kind by its name, or as the only key of a table with nothing under it. -/
def kindField? : Value → Option Kind
  | .string name => Kind.ofName? name
  | .table [(name, content)] => if isEmptyCompound content then Kind.ofName? name else none
  | _ => none

/-- Sets a field of a rule. -/
def setField? (rule : Rule) (field : String) (value : Value) : Option Rule :=
  match field with
  | "kind" => (kindField? value).map fun kind => { rule with kind := some kind }
  | "required" => (boolField? value).map fun b => { rule with required := b }
  | "nullable" => (boolField? value).map fun b => { rule with nullable := b }
  | "min" => (numberField? value).map fun x => { rule with min := some x }
  | "max" => (numberField? value).map fun x => { rule with max := some x }
  | "choices" => (stringsField? value).map fun choices => { rule with choices }
  | "label" => (stringField? value).map fun s => { rule with label := some s }
  | "help" => (stringField? value).map fun s => { rule with help := some s }
  | _ => none

/-- The fields in the order in which an array gives them. -/
def fieldNames : List String :=
  ["kind", "required", "nullable", "min", "max", "choices", "label", "help"]

/-- The rule with the given fields. -/
def ofFields? : List (String × Value) → Rule → Option Rule
  | [], rule => some rule
  | (field, value) :: rest, rule =>
    match rule.setField? field value with
    | none => none
    | some rule => ofFields? rest rule

/-- The rule that a value stands for. -/
def ofValue? : Value → Option Rule
  | .table entries => ofFields? entries {}
  | .array items => ofFields? (fieldNames.zip items) {}
  | _ => none

end Rule

namespace RuleSet

/-- The rules that entries stand for. -/
def ofEntries? : Table → Option RuleSet
  | [] => some []
  | (path, value) :: rest =>
    match Rule.ofValue? value, ofEntries? rest with
    | some rule, some rules => some ((path, rule) :: rules)
    | _, _ => none

/-- The rules of a tree; without a key `rules` there are none. -/
def ofTree? : Value → Option RuleSet
  | .table entries =>
    match Keyed.find? "rules" entries with
    | none => some []
    | some (.table rules) => ofEntries? rules
    | some _ => none
  | _ => none

/-- Loads rules from a text. -/
def load (text : List Char) : Except RulesError RuleSet :=
  match readStrict text with
  | .error _ => .error .notRules
  | .ok tree =>
    match ofTree? tree with
    | none => .error .notRules
    | some rules =>
      if rules.issues.isEmpty then .ok rules else .error (.invalid rules.issues)

end RuleSet

end TomlKeep
