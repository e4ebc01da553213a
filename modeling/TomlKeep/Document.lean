/-
# Reading documents

A document is read strictly, as TOML, or relaxed, with its bare words put in quotes first.  The
tree of a document is always a table.
-/
import TomlKeep.Relaxed
import TomlKeep.Toml.Node
import TomlKeep.Toml.Render

namespace TomlKeep

/-- The text is no TOML. -/
inductive SyntaxError where
  | notToml
  deriving DecidableEq, Repr

/-- The wording of a failure to read. -/
def SyntaxError.message : SyntaxError → String
  | .notToml => "invalid TOML syntax: TOML parse error"

/-- Reads a text as TOML. -/
def readStrict (text : List Char) : Except SyntaxError Value :=
  match Toml.read? text with
  | some entries => .ok (.table entries)
  | none => .error .notToml

/-- Reads a text as TOML in which bare words may stand for strings. -/
def readRelaxed (text : List Char) : Except SyntaxError Value :=
  readStrict (quoteBareWords text)

/-- A text and the tree that it stands for, if it can be read. -/
structure Document where
  text : List Char
  tree : Except SyntaxError Value

/-- Reads a document; one that cannot be read keeps its text. -/
def Document.ofText (text : List Char) : Document :=
  ⟨text, readRelaxed text⟩

end TomlKeep
