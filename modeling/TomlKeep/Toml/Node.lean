/-
# The meaning of statements

The second stage of reading: statements are entered one by one into a tree of nodes.  A table of
that tree remembers how it came into being, which decides what may still be added to it.

* A header `[x]` makes a new table, or takes over one that is only implied so far; that one then
  moves behind all its siblings.
* A header `[[x]]` makes an array of tables or adds a table to one.
* The parents in a header are found or made, an array of tables standing for its last table.
* A dotted key passes through implied and dotted tables and arrays of tables; the table that gets
  the entry is the section itself or a dotted one.
* No key is entered twice, and nothing is added to a value.
-/
import TomlKeep.Toml.Term

namespace TomlKeep.Toml

/-- How a table came into being. -/
inductive Origin where
  /-- By a header of its own. -/
  | headed
  /-- As a parent in the header of another table. -/
  | implied
  /-- As a parent in a dotted key. -/
  | dotted
  deriving DecidableEq, Repr

/-- A node of a document under construction. -/
inductive Node where
  | value (value : Value)
  | table (origin : Origin) (entries : List (String × Node))
  | tables (elements : List (List (String × Node)))
  deriving Repr

/-- The entries of a table under construction. -/
abbrev Nodes := List (String × Node)

/-! ## 1. Adding -/

/-- Changes the last element of a list that has one. -/
def updateLast? {α : Type} (f : α → Option α) : List α → Option (List α)
  | [] => none
  | [a] => (f a).map ([·])
  | a :: rest => (updateLast? f rest).map (a :: ·)

/-- Changes the table at a path of headers, making implied tables where there are none. -/
def within? (f : Nodes → Option Nodes) : List String → Nodes → Option Nodes
  | [], nodes => f nodes
  | key :: path, nodes =>
    match Keyed.find? key nodes with
    | none => (within? f path []).map fun inner => nodes ++ [(key, .table .implied inner)]
    | some (.table origin inner) =>
      (within? f path inner).map fun inner => Keyed.insert key (.table origin inner) nodes
    | some (.tables elements) =>
      (updateLast? (within? f path) elements).map
        fun elements => Keyed.insert key (.tables elements) nodes
    | some (.value _) => none

/-- Makes the table of a header. -/
def openTable? (key : String) (nodes : Nodes) : Option Nodes :=
  match Keyed.find? key nodes with
  | none => some (nodes ++ [(key, .table .headed [])])
  | some (.table .implied inner) => some (Keyed.erase key nodes ++ [(key, .table .headed inner)])
  | some _ => none

/-- Makes the next table of an array of tables. -/
def openElement? (key : String) (nodes : Nodes) : Option Nodes :=
  match Keyed.find? key nodes with
  | none => some (nodes ++ [(key, .tables [[]])])
  | some (.tables elements) => some (Keyed.insert key (.tables (elements ++ [[]])) nodes)
  | some _ => none

/-- Adds an entry under a dotted key; `receives` tells whether an entry may be added to this very
table. -/
def addAt? (value : Value) : (receives : Bool) → List String → Nodes → Option Nodes
  | _, [], _ => none
  | receives, [key], nodes =>
    if receives && !Keyed.contains key nodes then some (nodes ++ [(key, .value value)]) else none
  | _, key :: path, nodes =>
    match Keyed.find? key nodes with
    | none => (addAt? value true path []).map fun inner => nodes ++ [(key, .table .dotted inner)]
    | some (.table .headed _) => none
    | some (.table origin inner) =>
      (addAt? value (origin == .dotted) path inner).map
        fun inner => Keyed.insert key (.table origin inner) nodes
    | some (.tables elements) =>
      (updateLast? (addAt? value false path) elements).map
        fun elements => Keyed.insert key (.tables elements) nodes
    | some (.value _) => none

/-! ## 2. Values -/

mutual

/-- The value of a node. -/
def Node.toValue : Node → Value
  | .value value => value
  | .table _ entries => .table (nodeEntries entries)
  | .tables elements => .array (nodeElements elements)

/-- The entries of a table of nodes. -/
def nodeEntries : List (String × Node) → List (String × Value)
  | [] => []
  | (key, node) :: rest => (key, node.toValue) :: nodeEntries rest

/-- The tables of an array of tables. -/
def nodeElements : List (List (String × Node)) → List Value
  | [] => []
  | entries :: rest => .table (nodeEntries entries) :: nodeElements rest

end

mutual

/-- The value of a term. -/
def Term.value? : Term → Option Value
  | .leaf value => some value
  | .array items => (termItems? items).map .array
  | .inline entries => (termEntries? entries []).map fun nodes => .table (nodeEntries nodes)

/-- The values of the items of an array. -/
def termItems? : List Term → Option (List Value)
  | [] => some []
  | term :: rest =>
    match term.value?, termItems? rest with
    | some value, some values => some (value :: values)
    | _, _ => none

/-- Adds the entries of an inline table to nodes. -/
def termEntries? : List (List String × Term) → Nodes → Option Nodes
  | [], nodes => some nodes
  | (path, term) :: rest, nodes =>
    match term.value? with
    | none => none
    | some value =>
      match addAt? value true path nodes with
      | none => none
      | some nodes => termEntries? rest nodes

end

/-! ## 3. Documents -/

/-- Enters statements; entries go to the table of the last header, at `current`. -/
def enter? : (current : List String) → List Statement → Nodes → Option Nodes
  | _, [], nodes => some nodes
  | current, .entry path term :: rest, nodes =>
    match term.value? with
    | none => none
    | some value =>
      match within? (addAt? value true path) current nodes with
      | none => none
      | some nodes => enter? current rest nodes
  | _, .header path array :: rest, nodes =>
    match path.getLast? with
    | none => none
    | some key =>
      match within? (if array then openElement? key else openTable? key) path.dropLast nodes with
      | none => none
      | some nodes => enter? path rest nodes

/-- The root table of a document. -/
def read? (text : List Char) : Option Table :=
  match readStatements? text with
  | none => none
  | some statements => (enter? [] statements []).map nodeEntries

end TomlKeep.Toml
