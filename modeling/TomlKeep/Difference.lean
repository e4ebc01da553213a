/-
# The difference of two trees

A scalar that stands where another scalar stood is an instruction to change one line; it is
found by comparing literals.  Everything else (a key that came or went, a value that became a
table or an array or stopped being one, an array that is not the same) is a structural change, of
which only the path is kept.
-/
import TomlKeep.Literal
import TomlKeep.Path

namespace TomlKeep

/-- The order to replace the value of a key inside a section. -/
structure Instruction where
  target : SectionPath
  key : String
  literal : List Char
  deriving DecidableEq, Repr

/-- An instruction as it is shown to a reader. -/
def Instruction.display (i : Instruction) : String :=
  i.target.qualify i.key ++ " = " ++ String.ofList i.literal

/-- What sets two trees apart. -/
structure Difference where
  instructions : List Instruction
  structural : List String
  deriving DecidableEq, Repr

namespace Difference

/-- No difference. -/
def empty : Difference := ⟨[], []⟩

/-- One difference after another. -/
def append (a b : Difference) : Difference :=
  ⟨a.instructions ++ b.instructions, a.structural ++ b.structural⟩

/-- Whether there is none. -/
def isEmpty (d : Difference) : Bool :=
  d.instructions.isEmpty && d.structural.isEmpty

/-- Whether something is not a change of scalars. -/
def isStructural (d : Difference) : Bool :=
  !d.structural.isEmpty

/-- A structural change of one key. -/
def ofKey (target : SectionPath) (key : String) : Difference :=
  ⟨[], [target.qualify key]⟩

/-- The change of a scalar: none if the literals agree. -/
def ofLiterals (target : SectionPath) (key : String) (old new : List Char) : Difference :=
  if old = new then empty else ⟨[⟨target, key, new⟩], []⟩

end Difference

/-- The keys that only the new table has. -/
def addedKeys (target : SectionPath) (old : Table) : List (String × Value) → Difference
  | [] => .empty
  | (key, _) :: rest =>
    let added := addedKeys target old rest
    if Keyed.contains key old then added else (Difference.ofKey target key).append added

mutual

/-- The difference of what stands under one key. -/
def differValue (target : SectionPath) (key : String) : Value → Value → Difference
  | .table old, .table new =>
    (differEntries (target.child key) new old).append
      (addedKeys (target.child key) old new)
  | old, new =>
    match old.literal?, new.literal? with
    | some before, some after => .ofLiterals target key before after
    | _, _ => if old.same new then .empty else .ofKey target key

/-- The difference of what stands under the keys of the old table. -/
def differEntries (target : SectionPath) (new : Table) : List (String × Value) → Difference
  | [] => .empty
  | (key, old) :: rest =>
    let found : Difference :=
      match Keyed.find? key new with
      | some value => differValue target key old value
      | none => .ofKey target key
    found.append (differEntries target new rest)

end

/-- The difference of two trees. -/
def difference : Value → Value → Difference
  | .table old, .table new => (differEntries .root new old).append (addedKeys .root old new)
  | old, new => if old.same new then .empty else ⟨[], [""]⟩

end TomlKeep
