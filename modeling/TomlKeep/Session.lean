/-
# Editing sessions

A session works on one document.  Each step that succeeds gives the text of the next document,
which is read anew; a step that fails changes nothing.
-/
import TomlKeep.Form
import TomlKeep.Json.Basic
import TomlKeep.Save

namespace TomlKeep

/-- A step of a session. -/
inductive Step where
  /-- Set the fields of a form and save. -/
  | fields (fields : List Field) (allowNew preserve : Bool)
  /-- Save the tree that JSON stands for. -/
  | json (json : Json) (preserve : Bool)
  /-- Save a tree. -/
  | tree (tree : Value) (preserve : Bool)
  /-- Save the tree of the document itself. -/
  | again
  /-- Carry out one instruction on the text. -/
  | instruction (instruction : Instruction)
  /-- Apply one edit to the text. -/
  | edit (edit : Edit)
  /-- Put the bare words of the text in quotes. -/
  | quoteWords

/-- Why a step fails. -/
inductive StepError where
  /-- The step needs a tree and the document does not parse. -/
  | noTree
  | form (cause : FormError)
  | edit (cause : EditError)
  deriving Repr

/-- What a step did. -/
inductive StepResult where
  /-- A save, and what the saved tree has against the rules, if it came from a form. -/
  | saved (outcome : Outcome) (violations : Option (List Violation))
  /-- A change of the text alone; `hit` is false for an instruction that found no line. -/
  | changed (text : List Char) (hit : Option Bool)

/-- The text behind a step. -/
def StepResult.text : StepResult → List Char
  | .saved outcome _ => outcome.text
  | .changed text _ => text

/-- The tree that JSON stands for beside the tree of a document. -/
def Document.treeOfJson (document : Document) (json : Json) : Value :=
  match document.tree with
  | .ok base => .ofJsonLike json base
  | .error _ => .ofJson json

/-- Takes a step. -/
def Document.step (rules : RuleSet) (document : Document) : Step → Except StepError StepResult
  | .fields fields allowNew preserve =>
    match document.tree with
    | .error _ => .error .noTree
    | .ok base =>
      match collect rules allowNew fields base with
      | .error e => .error (.form e)
      | .ok new => .ok (.saved (document.save new preserve) (some (rules.check new)))
  | .json json preserve => .ok (.saved (document.save (document.treeOfJson json) preserve) none)
  | .tree new preserve => .ok (.saved (document.save new preserve) none)
  | .again =>
    match document.tree with
    | .error _ => .error .noTree
    | .ok base => .ok (.saved (document.save base true) none)
  | .instruction i =>
    match patch? document.text i with
    | some text => .ok (.changed text (some true))
    | none => .ok (.changed document.text (some false))
  | .edit edit =>
    match edit.apply document.text with
    | .ok text => .ok (.changed text none)
    | .error e => .error (.edit e)
  | .quoteWords => .ok (.changed (quoteBareWords document.text) none)

/-- The document behind a step. -/
def Document.after (document : Document) : Except StepError StepResult → Document
  | .ok result => .ofText result.text
  | .error _ => document

end TomlKeep
