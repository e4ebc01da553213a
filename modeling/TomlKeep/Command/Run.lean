/-
# Running a command

A run reads files, says what it did, and at most writes the one file that was to be saved.  It is
a function of the arguments and of what reading gives, so that all that it does shows in its
result: the texts for the two output streams, the exit code, and the write.

Nothing is written unless every step before succeeded, the save changed something, and the run
was no dry run.
-/
import TomlKeep.Command.Files
import TomlKeep.Command.Invocation
import TomlKeep.Json.Read
import TomlKeep.Json.Write
import TomlKeep.LineDiff
import TomlKeep.Rules.Load
import TomlKeep.Session

namespace TomlKeep

open Text

/-! ## 1. Reports -/

/-- An instruction as JSON. -/
def Instruction.toJson (i : Instruction) : Json :=
  .object [("section", .array (i.target.parts.map .string)), ("key", .string i.key),
    ("literal", .string (String.ofList i.literal))]

/-- The mode of a save as JSON. -/
def SaveMode.toJson : SaveMode → Json
  | .unchanged => .object [("mode", .string "unchanged")]
  | .patched => .object [("mode", .string "patched")]
  | .fallback reason => .object [("mode", .string "fallback"), ("reason", .string reason.name)]

/-- A report as JSON. -/
def Report.toJson (r : Report) : Json :=
  .object [("mode", r.mode.toJson), ("applied", .array (r.applied.map Instruction.toJson)),
    ("missed", .array (r.missed.map Instruction.toJson)),
    ("structural", .array (r.structural.map .string))]

namespace Command

/-- The line that sums a save up. -/
def headline (file : String) (report : Report) : String :=
  match report.mode with
  | .unchanged => "= " ++ file ++ ": unchanged\n"
  | .patched =>
    "✓ " ++ file ++ ": patched " ++ toString report.applied.length ++ " value(s) in place\n"
  | .fallback reason => "↻ " ++ file ++ ": regenerated (" ++ reason.message ++ ")\n"

/-- A report in words. -/
def reportText (file : String) (report : Report) : String :=
  headline file report
    ++ String.join (report.applied.map fun i => "  ~ " ++ i.display ++ "\n")
    ++ String.join (report.missed.map fun i => "  ✗ " ++ i.display ++ " (line not found)\n")
    ++ String.join (report.structural.map fun path => "  ! " ++ path ++ "\n")

/-- The change of a file, every line marked. -/
def diffText (file : String) (old new : List Char) : String :=
  "\n--- " ++ file ++ " (original)\n+++ " ++ file ++ " (saved)\n"
    ++ String.ofList (LineDiff.render old new)

/-! ## 2. Failures -/

/-- Why a run fails. -/
inductive Failure where
  | read (file : String) (cause : ReadError)
  | noParse (file : String) (cause : SyntaxError)
  | readRules (file : String) (cause : ReadError)
  | parseRules (file : String)
  | invalidRules (file : String) (issues : List Issue)
  | noAssignment (argument : String)
  | form (cause : FormError)
  | noJson (file : String)
  | noObject (file : String) (found : String)
  deriving DecidableEq, Repr

/-- The wording of a failure. -/
def Failure.message : Failure → String
  | .read file cause => "failed to read " ++ file ++ "\n\nCaused by:\n    " ++ cause
  | .noParse file cause => file ++ " does not parse: " ++ cause.message
  | .readRules file cause => "failed to read rules from " ++ file ++ ": " ++ cause
  | .parseRules file => "failed to parse rules TOML (" ++ file ++ "): TOML parse error"
  | .invalidRules file issues => "invalid rules (" ++ file ++ "): " ++ issuesMessage issues
  | .noAssignment argument => "expected PATH=VALUE, got '" ++ argument ++ "'"
  | .form cause => cause.message
  | .noJson file => file ++ " is not valid JSON"
  | .noObject file found => file ++ " must hold a JSON object, found " ++ found

/-! ## 3. Runs -/

/-- All that a run does. -/
structure RunResult where
  code : Nat
  stdout : String
  stderr : String
  write : Option (String × List Char)
  deriving DecidableEq, Repr

/-- A run that ends well and writes nothing. -/
def RunResult.done (stdout : String) : RunResult :=
  ⟨0, stdout, "", none⟩

/-- How files are read. -/
abbrev Reader := String → Except ReadError (List Char)

/-- Reads a file as a document. -/
def loadDocument (read : Reader) (file : String) : Except Failure Document :=
  match read file with
  | .ok text => .ok (.ofText text)
  | .error cause => .error (.read file cause)

/-- The tree of a document that has to parse. -/
def requireTree (file : String) (document : Document) : Except Failure Value :=
  match document.tree with
  | .ok tree => .ok tree
  | .error cause => .error (.noParse file cause)

/-- Reads a file of rules. -/
def loadRules (read : Reader) (file : String) : Except Failure RuleSet :=
  match read file with
  | .error cause => .error (.readRules file cause)
  | .ok text =>
    match RuleSet.load text with
    | .ok rules => .ok rules
    | .error .notRules => .error (.parseRules file)
    | .error (.invalid issues) => .error (.invalidRules file issues)

/-- Reads the rules of a file, or no rules without one. -/
def loadRules? (read : Reader) : Option String → Except Failure RuleSet
  | some file => loadRules read file
  | none => .ok []

/-- Reads arguments as fields. -/
def readFields : List String → Except Failure (List Field)
  | [] => .ok []
  | argument :: rest =>
    match Field.ofAssignment? argument.toList with
    | none => .error (.noAssignment argument)
    | some field => (readFields rest).map (field :: ·)

/-- Reads a file of JSON as a tree for a document. -/
def loadTree (read : Reader) (file : String) (document : Document) : Except Failure Value :=
  match read file with
  | .error cause => .error (.read file cause)
  | .ok text =>
    match Json.read? text with
    | none => .error (.noJson file)
    | some json =>
      match document.treeOfJson json with
      | .table entries => .ok (.table entries)
      | tree => .error (.noObject file tree.typeName)

/-- Saves a tree over a document and says so. -/
def finish (file : String) (document : Document) (new : Value) (flags : SaveFlags)
    (warnings : String) : RunResult :=
  let outcome := document.save new (!flags.noPreserve)
  let diff := if flags.diff then diffText file document.text outcome.text else ""
  let report :=
    if flags.json then String.ofList outcome.report.toJson.pretty ++ "\n"
    else reportText file outcome.report
  if outcome.report.mode = .unchanged then ⟨0, diff ++ report, warnings, none⟩
  else if flags.dryRun then
    ⟨0, diff ++ report ++ (if flags.json then "" else "  [DRY RUN - file not written]\n"),
      warnings, none⟩
  else ⟨0, diff ++ report, warnings, some (file, outcome.text)⟩

/-- Shows the tree of a file. -/
def runTree (read : Reader) (file : String) : Except Failure RunResult := do
  let document ← loadDocument read file
  let tree ← requireTree file document
  pure (.done (String.ofList tree.toJson.pretty ++ "\n"))

/-- Sets fields in a file. -/
def runSet (read : Reader) (file : String) (fields : List String) (rules : Option String)
    (allowNew : Bool) (flags : SaveFlags) : Except Failure RunResult := do
  let document ← loadDocument read file
  let base ← requireTree file document
  let rules ← loadRules? read rules
  let fields ← readFields fields
  let new ← (collect rules allowNew fields base).mapError .form
  let warnings := String.join ((rules.check new).map fun v => "warning: " ++ v.display ++ "\n")
  pure (finish file document new flags warnings)

/-- Saves a tree given as JSON over a file. -/
def runApply (read : Reader) (file tree : String) (flags : SaveFlags) :
    Except Failure RunResult := do
  let document ← loadDocument read file
  let new ← loadTree read tree document
  pure (finish file document new flags "")

/-- A violation with the label and the help of its rule. -/
def violationText (rules : RuleSet) (v : Violation) : String :=
  let rule := Keyed.find? v.path rules
  (match rule.bind (·.label) with
    | some label => "✗ " ++ label ++ " (" ++ v.display ++ ")\n"
    | none => "✗ " ++ v.display ++ "\n")
  ++ (match rule.bind (·.help) with
    | some help => "    " ++ help ++ "\n"
    | none => "")

/-- Checks a file against rules. -/
def runCheck (read : Reader) (file rules : String) : Except Failure RunResult := do
  let document ← loadDocument read file
  let tree ← requireTree file document
  let rules ← loadRules read rules
  let violations := rules.check tree
  pure (if violations.isEmpty then .done ("✓ " ++ file ++ ": no rule violations\n")
    else ⟨1, String.join (violations.map (violationText rules)),
      toString violations.length ++ " rule violation(s) in " ++ file ++ "\n", none⟩)

/-- Carries out an invocation. -/
def runInvocation (read : Reader) : Invocation → Except Failure RunResult
  | .version => .ok (.done "tomlform 0.1.0\n")
  | .help topic => .ok (.done topic.help)
  | .tree file => runTree read file
  | .set file fields rules allowNew flags => runSet read file fields rules allowNew flags
  | .apply file tree flags => runApply read file tree flags
  | .check file rules => runCheck read file rules

/-- Runs the command line. -/
def run (read : Reader) (arguments : List String) : RunResult :=
  match Invocation.parse? arguments with
  | none => ⟨2, "", programHelp, none⟩
  | some invocation =>
    match runInvocation read invocation with
    | .ok result => result
    | .error failure => ⟨1, "", "Error: " ++ failure.message ++ "\n", none⟩

/-- Runs the command line on files; the files behind the run. -/
def runOn (files : Files) (arguments : List String) : RunResult × Files :=
  let result := run files.read arguments
  match result.write with
  | some (path, text) => (result, files.write path text)
  | none => (result, files)

end Command

end TomlKeep
