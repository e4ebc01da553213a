/-
# Help

What the command line says about itself: a page for the program and one for each command.
-/

namespace TomlKeep.Command

/-- What a page of help is about. -/
inductive Topic where
  | program
  | tree
  | set
  | apply
  | check
  deriving DecidableEq, Repr

/-- The topic of the name of a command. -/
def Topic.ofName? : String → Option Topic
  | "show" => some .tree
  | "set" => some .set
  | "apply" => some .apply
  | "check" => some .check
  | _ => none

/-- The page about the program. -/
def programHelp : String :=
  "Edit TOML config files without losing comments or layout\n"
    ++ "\n"
    ++ "Usage: tomlform <COMMAND>\n"
    ++ "\n"
    ++ "Commands:\n"
    ++ "  show   Print the parsed value tree as JSON\n"
    ++ "  set    Change individual keys, given as dotted.path=value fields\n"
    ++ "  apply  Replace the whole value tree with one read from a JSON file\n"
    ++ "  check  Check a config file against a rules file\n"
    ++ "  help   Print this message or the help of the given subcommand(s)\n"
    ++ "\n"
    ++ "Options:\n"
    ++ "  -h, --help     Print help\n"
    ++ "  -V, --version  Print version\n"

/-- The page about `show`. -/
def treeHelp : String :=
  "Print the parsed value tree as JSON\n"
    ++ "\n"
    ++ "Usage: tomlform show <FILE>\n"
    ++ "\n"
    ++ "Arguments:\n"
    ++ "  <FILE>  Config file to read\n"
    ++ "\n"
    ++ "Options:\n"
    ++ "  -h, --help  Print help\n"

/-- The page about `set`. -/
def setHelp : String :=
  "Change individual keys, given as dotted.path=value fields\n"
    ++ "\n"
    ++ "Usage: tomlform set [OPTIONS] <FILE> <PATH=VALUE>...\n"
    ++ "\n"
    ++ "Arguments:\n"
    ++ "  <FILE>           Config file to edit\n"
    ++ "  <PATH=VALUE>...  Fields to change, e.g. server.port=9090\n"
    ++ "\n"
    ++ "Options:\n"
    ++ "  -r, --rules <RULES>  Rules file with kind hints and constraints\n"
    ++ "      --new            Allow fields that create keys the file does not have yet\n"
    ++ "      --no-preserve    Always regenerate the document instead of patching in place\n"
    ++ "  -n, --dry-run        Dry run - show what would be written without modifying the file\n"
    ++ "  -d, --diff           Show unified diff of changes\n"
    ++ "      --json           Print the save report as JSON\n"
    ++ "  -h, --help           Print help\n"

/-- The page about `apply`. -/
def applyHelp : String :=
  "Replace the whole value tree with one read from a JSON file\n"
    ++ "\n"
    ++ "Usage: tomlform apply [OPTIONS] --tree <FILE.json> <FILE>\n"
    ++ "\n"
    ++ "Arguments:\n"
    ++ "  <FILE>  Config file to edit\n"
    ++ "\n"
    ++ "Options:\n"
    ++ "  -t, --tree <FILE.json>  JSON file holding the complete new tree\n"
    ++ "      --no-preserve       Always regenerate the document instead of patching in place\n"
    ++ "  -n, --dry-run           Dry run - show what would be written without modifying the file\n"
    ++ "  -d, --diff              Show unified diff of changes\n"
    ++ "      --json              Print the save report as JSON\n"
    ++ "  -h, --help              Print help\n"

/-- The page about `check`. -/
def checkHelp : String :=
  "Check a config file against a rules file\n"
    ++ "\n"
    ++ "Usage: tomlform check --rules <RULES> <FILE>\n"
    ++ "\n"
    ++ "Arguments:\n"
    ++ "  <FILE>  Config file to check\n"
    ++ "\n"
    ++ "Options:\n"
    ++ "  -r, --rules <RULES>  Rules file to check against\n"
    ++ "  -h, --help           Print help\n"

/-- The page about a topic. -/
def Topic.help : Topic → String
  | .program => programHelp
  | .tree => treeHelp
  | .set => setHelp
  | .apply => applyHelp
  | .check => checkHelp

end TomlKeep.Command
