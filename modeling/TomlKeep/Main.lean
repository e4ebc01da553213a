/-
# The program

Reads the files that the arguments may name, runs the command line on them, and carries out what
the run asks for.
-/
import TomlKeep.Command.Run

open TomlKeep

/-- Reads the files that arguments may name. -/
def readNamed : List String → IO (List (String × Except Command.ReadError (List Char)))
  | [] => pure []
  | path :: rest => do
    let read : Except Command.ReadError (List Char) ←
      try
        let text ← IO.FS.readFile path
        pure (.ok text.toList)
      catch e => pure (.error (toString e))
    pure ((path, read) :: (← readNamed rest))

/-- The files that an invocation reads. -/
def namedFiles : Command.Invocation → List String
  | .version | .help _ => []
  | .tree file => [file]
  | .set file _ rules _ _ => file :: rules.toList
  | .apply file tree _ => [file, tree]
  | .check file rules => [file, rules]

/-- Runs the program. -/
def main (arguments : List String) : IO UInt32 := do
  let named ← readNamed ((Command.Invocation.parse? arguments).elim [] namedFiles)
  let read := fun path => (Keyed.find? path named).getD (.error "not read")
  let result := Command.run read arguments
  (← IO.getStdout).putStr result.stdout
  (← IO.getStderr).putStr result.stderr
  match result.write with
  | some (path, text) => IO.FS.writeFile path (String.ofList text)
  | none => pure ()
  pure result.code.toUInt32
