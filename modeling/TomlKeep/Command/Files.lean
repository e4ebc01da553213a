/-
# Files

The files of a directory by their names.  Empty and `.` steps of a relative path do not count,
except that a path which ends in one names a directory.
-/
import TomlKeep.Keyed

namespace TomlKeep.Command

/-- Files and their texts. -/
abbrev Files := List (String × List Char)

/-- Why a file cannot be read, as the system words it. -/
abbrev ReadError := String

/-- Splits a path at its slashes. -/
def pathSteps : List Char → List (List Char)
  | [] => [[]]
  | '/' :: rest => [] :: pathSteps rest
  | c :: rest =>
    match pathSteps rest with
    | [] => [[c]]
    | step :: steps => (c :: step) :: steps

/-- Whether a step of a path stays where it is. -/
def isIdleStep (step : List Char) : Bool :=
  step.isEmpty || step == ['.']

/-- The path without the steps that do not count. -/
def plainPath (path : String) : String :=
  let steps := (pathSteps path.toList).filter fun step => !isIdleStep step
  String.ofList (['/'].intercalate steps)

/-- Whether the path begins at the root of all directories. -/
def isAbsolute (path : String) : Bool :=
  path.toList.head? == some '/'

/-- Whether the path can only name a directory. -/
def namesDirectory (path : String) : Bool :=
  (pathSteps path.toList).getLast?.all isIdleStep

namespace Files

/-- Reads a file. -/
def read (files : Files) (path : String) : Except ReadError (List Char) :=
  if isAbsolute path then .error "No such file or directory (os error 2)"
  else if plainPath path = "" then .error "Is a directory (os error 21)"
  else
    match Keyed.find? (plainPath path) files with
    | none => .error "No such file or directory (os error 2)"
    | some text =>
      if namesDirectory path then .error "Not a directory (os error 20)" else .ok text

/-- Writes a file that is there. -/
def write (files : Files) (path : String) (text : List Char) : Files :=
  Keyed.insert (plainPath path) text files

end Files

end TomlKeep.Command
