/-
# Arguments of the command line

An invocation is a command with its files, fields and options.  Options may stand anywhere behind
the command, short ones may be joined, and a value follows its option as the next argument, behind
`=`, or (for a short option) at once.  Nothing but what a command takes may be given, and nothing
twice; behind `--` every argument is a file or a field.  Who asks for help gets it, whatever else
follows.

`words?` sorts the arguments into flags, options and operands, and `Invocation.parse?` makes a
command of them.
-/
import TomlKeep.Command.Help
import TomlKeep.Text.Blank

namespace TomlKeep.Command

open Text

/-- How to save, and what to show. -/
structure SaveFlags where
  noPreserve : Bool
  dryRun : Bool
  diff : Bool
  json : Bool
  deriving DecidableEq, Repr

/-- What the command line is asked to do. -/
inductive Invocation where
  /-- Show the version. -/
  | version
  /-- Show a page of help. -/
  | help (topic : Topic)
  /-- Show the tree of a file as JSON. -/
  | tree (file : String)
  /-- Set fields in a file. -/
  | set (file : String) (fields : List String) (rules : Option String) (allowNew : Bool)
    (flags : SaveFlags)
  /-- Save a tree given as JSON over a file. -/
  | apply (file : String) (tree : String) (flags : SaveFlags)
  /-- Check a file against rules. -/
  | check (file : String) (rules : String)
  deriving DecidableEq, Repr

/-! ## 1. Sorting arguments -/

/-- An argument once it is sorted. -/
inductive Word where
  | flag (name : String)
  | option (name value : String)
  | operand (text : String)
  deriving DecidableEq, Repr

/-- A flag or an option that a command takes. -/
structure Switch where
  name : String
  short : Option Char
  takesValue : Bool
  deriving DecidableEq, Repr

/-- Whether an argument looks like an option; a lone hyphen does not. -/
def isOptionLike (argument : String) : Bool :=
  beginsWith ['-'] argument.toList && argument != "-"

/-- Takes the value of an option off the arguments; it is not empty and not like an option. -/
def nextValue? : List String → Option (String × List String)
  | [] => none
  | value :: rest => if value.isEmpty || isOptionLike value then none else some (value, rest)

/-- Sorts a group of short options, given without its hyphen, and the arguments behind it. -/
def shortWords? (switches : List Switch) :
    List Char → List String → Option (List Word × List String)
  | [], rest => some ([], rest)
  | c :: chars, rest =>
    match switches.find? (·.short == some c) with
    | none => none
    | some switch =>
      if switch.takesValue then
        match chars with
        | [] => (nextValue? rest).map fun (value, rest) => ([.option switch.name value], rest)
        | '=' :: value =>
          if value.isEmpty then none
          else some ([.option switch.name (String.ofList value)], rest)
        | value => some ([.option switch.name (String.ofList value)], rest)
      else
        (shortWords? switches chars rest).map
          fun (words, rest) => (.flag switch.name :: words, rest)

/-- Sorts a long option, given without its hyphens, and the arguments behind it. -/
def longWord? (switches : List Switch) (text : List Char) (rest : List String) :
    Option (List Word × List String) :=
  let (name, value) :=
    match splitAtChar? '=' text with
    | some (name, value) => (name, some value)
    | none => (text, none)
  match switches.find? (·.name == String.ofList name), value with
  | none, _ => none
  | some switch, none =>
    if switch.takesValue then
      (nextValue? rest).map fun (value, rest) => ([.option switch.name value], rest)
    else some ([.flag switch.name], rest)
  | some switch, some value =>
    if switch.takesValue && !value.isEmpty then
      some ([.option switch.name (String.ofList value)], rest)
    else none

/-- Whether the words ask for help. -/
def askHelp (words : List Word) : Bool :=
  words.contains (.flag "help")

/-- Sorts arguments up to the first that asks for help; each takes at least itself off the list,
so that `bound` may be its length. -/
def words? (switches : List Switch) : (bound : Nat) → List String → Option (List Word)
  | _, [] => some []
  | 0, _ :: _ => none
  | bound + 1, argument :: rest =>
    match argument.toList with
    | ['-', '-'] => some (rest.map .operand)
    | '-' :: '-' :: text =>
      match longWord? switches text rest with
      | none => none
      | some (words, rest) =>
        if askHelp words then some [.flag "help"]
        else (words? switches bound rest).map (words ++ ·)
    | '-' :: c :: text =>
      match shortWords? switches (c :: text) rest with
      | none => none
      | some (words, rest) =>
        if askHelp words then some [.flag "help"]
        else (words? switches bound rest).map (words ++ ·)
    | _ => (words? switches bound rest).map (.operand argument :: ·)

/-- The name of a flag or an option. -/
def Word.name? : Word → Option String
  | .flag name => some name
  | .option name _ => some name
  | .operand _ => none

/-- Whether no flag or option is given twice. -/
def noneTwice : List Word → Bool
  | [] => true
  | word :: rest =>
    (match word.name? with
      | some name => !rest.any (·.name? == some name)
      | none => true) && noneTwice rest

/-- The operands in their order. -/
def operands (words : List Word) : List String :=
  words.filterMap fun
    | .operand text => some text
    | _ => none

/-- The value of an option. -/
def optionValue? (name : String) (words : List Word) : Option String :=
  words.findSome? fun
    | .option n value => if n = name then some value else none
    | _ => none

/-- Whether a flag is given. -/
def hasFlag (name : String) (words : List Word) : Bool :=
  words.contains (.flag name)

/-! ## 2. Commands -/

/-- The flags of the commands that save. -/
def saveSwitches : List Switch :=
  [⟨"no-preserve", none, false⟩, ⟨"dry-run", some 'n', false⟩, ⟨"diff", some 'd', false⟩,
    ⟨"json", none, false⟩]

/-- The option that names a rules file. -/
def rulesSwitch : Switch := ⟨"rules", some 'r', true⟩

/-- How to save, by the flags that are given. -/
def saveFlags (words : List Word) : SaveFlags where
  noPreserve := hasFlag "no-preserve" words
  dryRun := hasFlag "dry-run" words
  diff := hasFlag "diff" words
  json := hasFlag "json" words

/-- The flag that asks for help. -/
def helpSwitch : Switch := ⟨"help", some 'h', false⟩

/-- The command of the name `show`. -/
def treeOf? (words : List Word) : Option Invocation :=
  match operands words with
  | [file] => if file.isEmpty then none else some (.tree file)
  | _ => none

/-- The command of the name `set`. -/
def setOf? (words : List Word) : Option Invocation :=
  match operands words with
  | file :: field :: fields =>
    if file.isEmpty then none
    else some (.set file (field :: fields) (optionValue? "rules" words) (hasFlag "new" words)
      (saveFlags words))
  | _ => none

/-- The command of the name `apply`. -/
def applyOf? (words : List Word) : Option Invocation :=
  match operands words, optionValue? "tree" words with
  | [file], some tree => if file.isEmpty then none else some (.apply file tree (saveFlags words))
  | _, _ => none

/-- The command of the name `check`. -/
def checkOf? (words : List Word) : Option Invocation :=
  match operands words, optionValue? "rules" words with
  | [file], some rules => if file.isEmpty then none else some (.check file rules)
  | _, _ => none

/-- What a command takes besides files and fields. -/
def switches : Topic → List Switch
  | .program => []
  | .tree => []
  | .set => rulesSwitch :: ⟨"new", none, false⟩ :: saveSwitches
  | .apply => ⟨"tree", some 't', true⟩ :: saveSwitches
  | .check => [rulesSwitch]

/-- The command that sorted arguments make up. -/
def ofWords? : Topic → List Word → Option Invocation
  | .program, _ => none
  | .tree, words => treeOf? words
  | .set, words => setOf? words
  | .apply, words => applyOf? words
  | .check, words => checkOf? words

/-- Reads the arguments of a command. -/
def parseCommand? (topic : Topic) (arguments : List String) : Option Invocation :=
  match words? (helpSwitch :: switches topic) arguments.length arguments with
  | none => none
  | some words =>
    if askHelp words then some (.help topic)
    else if noneTwice words then ofWords? topic words
    else none

/-- Whether the argument asks for the version. -/
def asksVersion (argument : String) : Bool :=
  argument == "--version" || beginsWith ['-', 'V'] argument.toList

/-- Whether the argument asks for help. -/
def asksHelp (argument : String) : Bool :=
  argument == "--help" || beginsWith ['-', 'h'] argument.toList

/-- What the arguments ask for; none for a wrong usage. -/
def Invocation.parse? : List String → Option Invocation
  | [] => none
  | command :: arguments =>
    if asksVersion command then some .version
    else if asksHelp command then some (.help .program)
    else if command == "help" then
      match arguments with
      | [] => some (.help .program)
      | [name] => (Topic.ofName? name).map .help
      | _ => none
    else (Topic.ofName? command).bind fun topic => parseCommand? topic arguments

end TomlKeep.Command
