/-
# Changing values in place

An instruction names a section and a key.  Its target is the first assignment of that plain key
between the header of the section and the next header (for the root: before the first header);
headers of arrays of tables are no targets.  `planEdit?` turns the instruction into an edit of
exactly the value, a multi-line string taken whole.
-/
import TomlKeep.Difference
import TomlKeep.Edit
import TomlKeep.Scan

namespace TomlKeep

open Text

/-! ## 1. Finding the assignment -/

/-- The first assignment of `key` before the next header, and where its line begins. -/
def findKey? (key : String) : List ScannedLine → Option (Nat × Assignment)
  | [] => none
  | s :: rest =>
    match s.kind with
    | .header _ => none
    | .assignment a => if a.key.isSingle key then some (s.offset, a) else findKey? key rest
    | .other => findKey? key rest

/-- The lines behind the header of a section. -/
def behindHeader (target : SectionPath) : List ScannedLine → List ScannedLine
  | [] => []
  | s :: rest =>
    match s.kind with
    | .header h => if !h.array && h.path == target then rest else behindHeader target rest
    | _ => behindHeader target rest

/-- The assignment that an instruction means. -/
def findTarget? (target : SectionPath) (key : String) (scanned : List ScannedLine) :
    Option (Nat × Assignment) :=
  findKey? key (if target.isRoot then scanned else behindHeader target scanned)

/-! ## 2. Planning and applying -/

/-- The whole value of an assignment, which may end on a later line. -/
def wholeValue? (text : List Char) (start : Nat) (a : Assignment) : Option (List Char) :=
  match tripleQuote? a.value with
  | none => some a.value
  | some _ =>
    match splitAt? start text with
    | none => none
    | some (_, suffix) => (splitMultiline? suffix).map (·.1)

/-- The edit that carries out an instruction; none if the section has no such assignment or the
value is never closed. -/
def planEdit? (text : List Char) (i : Instruction) : Option Edit :=
  match findTarget? i.target i.key (scan text) with
  | none => none
  | some (offset, a) =>
    let start := offset + a.valueStart
    (wholeValue? text start a).map fun value =>
      { start, stop := start + byteLength value, replacement := i.literal, expected := value }

/-- The text with an instruction carried out. -/
def patch? (text : List Char) (i : Instruction) : Option (List Char) :=
  match planEdit? text i with
  | none => none
  | some edit =>
    match edit.apply text with
    | .ok patched => some patched
    | .error _ => none

/-- A text behind some instructions, and which of them found their line. -/
structure Patched where
  text : List Char
  applied : List Instruction
  missed : List Instruction
  deriving DecidableEq, Repr

/-- Carries out instructions one after the other; one that finds no line is left out. -/
def patchAll (text : List Char) : List Instruction → Patched
  | [] => ⟨text, [], []⟩
  | i :: rest =>
    match patch? text i with
    | some patched =>
      let after := patchAll patched rest
      { after with applied := i :: after.applied }
    | none =>
      let after := patchAll text rest
      { after with missed := i :: after.missed }

end TomlKeep
