/-
# Saving

A save takes the text of a document, the tree that was read from it, and the edited tree.  The
text is kept where nothing changed; it is patched where only scalars changed and every one of
them has a line of its own; otherwise the whole document is written anew.  There is nothing in
between: a text with only some of the changes is never returned.
-/
import TomlKeep.Document
import TomlKeep.Patch

namespace TomlKeep

/-- Why a document was written anew. -/
inductive Fallback where
  | disabled
  | parseFailure
  | structuralChange
  | noInstructionsApplied
  | patchMiss
  deriving DecidableEq, Repr

/-- The wording of a reason. -/
def Fallback.message : Fallback → String
  | .disabled => "format preservation disabled"
  | .parseFailure => "original text does not parse"
  | .structuralChange => "structural change"
  | .noInstructionsApplied => "no instruction could be applied"
  | .patchMiss => "an instruction missed its line"

/-- The short name of a reason. -/
def Fallback.name : Fallback → String
  | .disabled => "disabled"
  | .parseFailure => "parse-failure"
  | .structuralChange => "structural-change"
  | .noInstructionsApplied => "no-instructions-applied"
  | .patchMiss => "patch-miss"

/-- How a document was saved. -/
inductive SaveMode where
  | unchanged
  | patched
  | fallback (reason : Fallback)
  deriving DecidableEq, Repr

/-- What a save did. -/
structure Report where
  mode : SaveMode
  applied : List Instruction
  missed : List Instruction
  structural : List String
  deriving DecidableEq, Repr

/-- The result of a save. -/
structure Outcome where
  text : List Char
  report : Report
  deriving DecidableEq, Repr

/-- Whether the layout of the document was kept. -/
def Outcome.preserved (o : Outcome) : Bool :=
  match o.report.mode with
  | .fallback _ => false
  | _ => true

/-- The reason for writing the document anew, in words. -/
def Outcome.reason? (o : Outcome) : Option String :=
  match o.report.mode with
  | .fallback reason => some reason.message
  | _ => none

/-- The outcome of writing the document anew. -/
def regenerate (new : Value) (reason : Fallback) (applied missed : List Instruction)
    (structural : List String) : Outcome :=
  ⟨Toml.render new, ⟨.fallback reason, applied, missed, structural⟩⟩

/-- Saves `new` over a text; `old` is the tree that was read from the text, none if it does not
parse. -/
def reconcile (text : List Char) (old : Option Value) (new : Value) (preserve : Bool) : Outcome :=
  if !preserve then regenerate new .disabled [] [] []
  else
    match old with
    | none => regenerate new .parseFailure [] [] []
    | some old =>
      let d := difference old new
      if d.isStructural then regenerate new .structuralChange [] [] d.structural
      else if d.instructions.isEmpty then ⟨text, ⟨.unchanged, [], [], []⟩⟩
      else
        let p := patchAll text d.instructions
        if p.applied.isEmpty then regenerate new .noInstructionsApplied p.applied p.missed []
        else if !p.missed.isEmpty then regenerate new .patchMiss p.applied p.missed []
        else ⟨p.text, ⟨.patched, p.applied, [], []⟩⟩

/-- Saves a tree over a document. -/
def Document.save (document : Document) (new : Value) (preserve : Bool) : Outcome :=
  reconcile document.text document.tree.toOption new preserve

end TomlKeep
