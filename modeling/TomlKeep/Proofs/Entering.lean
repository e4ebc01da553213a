/-
# What the tables under construction keep

Statements are entered one by one into a tree of nodes, and each of them changes the table at one
path.  Two properties of the finished tree hold at every moment: the keys of every table are
distinct, and every scalar is one that some statement brought.  Both are stated on the value of a
node, so that nothing has to be said about nodes that is not said about values (`Value.Holds`).

* Looking up, inserting and erasing commute with taking the value of nodes (`find?_nodeEntries`,
  `nodeEntries_insert`, `nodeEntries_erase`).
* Each way of adding to a table keeps the property (`Sound.addAt?`, `Sound.openTable?`,
  `Sound.openElement?`), at any path (`Sound.within?`), and so does a run (`Sound.enter?`).
-/
import Mathlib
import TomlKeep.Proofs.Trees
import TomlKeep.Toml.Node

namespace TomlKeep

/-! ## 1. Scalars of a value

That keys are distinct is about tables, and the other property is about scalars; a value that has
both is called sound.  The lemmas on tables are those for the ways in which an entry can come into a
table or leave it, so the later sections never open a list of entries.
-/

mutual

/-- **Every scalar of a value has a property,** at every depth. -/
def Value.Scalars (p : Value → Prop) : Value → Prop
  | .array items => ScalarsItems p items
  | .table entries => ScalarsEntries p entries
  | value => p value

/-- The scalars in the items of an array have a property. -/
def ScalarsItems (p : Value → Prop) : List Value → Prop
  | [] => True
  | value :: rest => value.Scalars p ∧ ScalarsItems p rest

/-- The scalars in the values of a table have a property. -/
def ScalarsEntries (p : Value → Prop) : List (String × Value) → Prop
  | [] => True
  | (_, value) :: rest => value.Scalars p ∧ ScalarsEntries p rest

end

variable {p : Value → Prop}

/-- The items of an array, one by one. -/
theorem scalarsItems_cons {value : Value} {rest : List Value} :
    ScalarsItems p (value :: rest) ↔ value.Scalars p ∧ ScalarsItems p rest :=
  Iff.rfl

/-- The entries of a table, one by one. -/
theorem scalarsEntries_cons {key : String} {value : Value} {rest : List (String × Value)} :
    ScalarsEntries p ((key, value) :: rest) ↔ value.Scalars p ∧ ScalarsEntries p rest :=
  Iff.rfl

/-- The scalars of an array are those of its items. -/
theorem scalarsItems_iff {items : List Value} :
    ScalarsItems p items ↔ ∀ value ∈ items, value.Scalars p := by
  induction items with
  | nil => exact iff_of_true trivial (List.forall_mem_nil _)
  | cons value rest ih => rw [scalarsItems_cons, ih, List.forall_mem_cons]

/-- The scalars of a table are those of its values. -/
theorem scalarsEntries_iff {entries : List (String × Value)} :
    ScalarsEntries p entries ↔ ∀ key value, (key, value) ∈ entries → value.Scalars p := by
  induction entries with
  | nil => exact iff_of_true trivial fun key value hm => absurd hm List.not_mem_nil
  | cons e rest ih =>
    obtain ⟨k, v⟩ := e
    rw [scalarsEntries_cons, ih, forall_entry_cons]

/-- An array is well keyed if its items are. -/
theorem wellKeyedItems_iff {items : List Value} :
    WellKeyedItems items ↔ ∀ value ∈ items, value.WellKeyed := by
  induction items with
  | nil => simp [WellKeyedItems]
  | cons value rest ih => simp [WellKeyedItems, ih]

/-- **A sound value:** the keys of its tables are distinct, and its scalars have a property. -/
def Value.Holds (p : Value → Prop) (value : Value) : Prop :=
  value.WellKeyed ∧ value.Scalars p

/-- The definition at an array. -/
theorem scalars_array {items : List Value} : (Value.array items).Scalars p ↔ ScalarsItems p items :=
  Iff.rfl

/-- The definition at a table. -/
theorem scalars_table {entries : Table} :
    (Value.table entries).Scalars p ↔ ScalarsEntries p entries :=
  Iff.rfl

/-- An array is sound if its items are. -/
theorem holds_array_iff {items : List Value} :
    (Value.array items).Holds p ↔ ∀ value ∈ items, value.Holds p := by
  simp only [Value.Holds, Value.WellKeyed, scalars_array, wellKeyedItems_iff, scalarsItems_iff]
  exact ⟨fun h value hv => ⟨h.1 value hv, h.2 value hv⟩,
    fun h => ⟨fun value hv => (h value hv).1, fun value hv => (h value hv).2⟩⟩

/-- A table is sound if its keys are distinct and its values sound. -/
theorem holds_table_iff {entries : Table} :
    (Value.table entries).Holds p ↔ (Keyed.keys entries).Nodup
      ∧ ∀ key value, (key, value) ∈ entries → value.Holds p := by
  simp only [Value.Holds, Value.WellKeyed, scalars_table, wellKeyedEntries_iff, scalarsEntries_iff]
  constructor
  · rintro ⟨⟨hn, hw⟩, hs⟩
    exact ⟨hn, fun key value hm => ⟨hw key value hm, hs key value hm⟩⟩
  · rintro ⟨hn, h⟩
    exact ⟨⟨hn, fun key value hm => (h key value hm).1⟩, fun key value hm => (h key value hm).2⟩

/-- The empty table is sound. -/
theorem holds_empty : (Value.table []).Holds p :=
  holds_table_iff.mpr ⟨List.nodup_nil, by simp⟩

/-- What is found in a sound table is sound. -/
theorem Value.Holds.of_find? {entries : Table} {key : String} {value : Value}
    (h : (Value.table entries).Holds p) (hf : Keyed.find? key entries = some value) :
    value.Holds p :=
  (holds_table_iff.mp h).2 key value (Keyed.find?_mem hf)

/-- A new entry keeps a table sound. -/
theorem Value.Holds.append_new {entries : Table} {key : String} {value : Value}
    (h : (Value.table entries).Holds p) (hf : Keyed.find? key entries = none)
    (hv : value.Holds p) : (Value.table (entries ++ [(key, value)])).Holds p := by
  obtain ⟨hn, he⟩ := holds_table_iff.mp h
  refine holds_table_iff.mpr ⟨?_, fun k v hm => ?_⟩
  · simp only [Keyed.keys, List.map_append, List.map_cons, List.map_nil]
    refine List.nodup_append.mpr ⟨hn, by simp, fun a ha b hb => ?_⟩
    obtain rfl : b = key := by simpa using hb
    -- a key that is not found is none of the keys
    rintro rfl
    exact Keyed.find?_eq_none.mp hf ha
  · rcases List.mem_append.mp hm with hm | hm
    · exact he k v hm
    · obtain ⟨rfl, rfl⟩ : k = key ∧ v = value := by simpa using hm
      exact hv

/-- An entry of the new table is the new one, or it was there before. -/
theorem Keyed.mem_insert {α : Type} {key k : String} {value v : α} {entries : List (String × α)}
    (h : (k, v) ∈ Keyed.insert key value entries) : v = value ∨ (k, v) ∈ entries := by
  induction entries with
  | nil =>
    rw [Keyed.insert, List.mem_singleton, Prod.mk.injEq] at h
    exact .inl h.2
  | cons e rest ih =>
    obtain ⟨k', v'⟩ := e
    rw [Keyed.insert] at h
    split at h
    · rcases List.mem_cons.mp h with h | h
      · exact .inl (Prod.mk.inj h).2
      · exact .inr (List.mem_cons_of_mem _ h)
    · rcases List.mem_cons.mp h with h | h
      · exact .inr (h ▸ List.mem_cons_self)
      · exact (ih h).imp_right (List.mem_cons_of_mem _)

/-- Putting a sound value in keeps a table sound. -/
theorem Value.Holds.insert {entries : Table} {key : String} {value : Value}
    (h : (Value.table entries).Holds p) (hv : value.Holds p) :
    (Value.table (Keyed.insert key value entries)).Holds p := by
  refine ⟨wellKeyed_insert hv.1 h.1, scalarsEntries_iff.mpr fun k v hm => ?_⟩
  rcases Keyed.mem_insert hm with rfl | hm
  · exact hv.2
  · exact ((holds_table_iff.mp h).2 k v hm).2

/-- Erasing only leaves entries out. -/
theorem Keyed.erase_sublist {α : Type} (key : String) (entries : List (String × α)) :
    (Keyed.erase key entries).Sublist entries := by
  induction entries with
  | nil => exact List.Sublist.slnil
  | cons e rest ih =>
    obtain ⟨k, v⟩ := e
    rw [Keyed.erase]
    split
    · exact List.sublist_cons_self _ _
    · exact ih.cons_cons _

/-- A key that is erased is not found again, since it was there once. -/
theorem Keyed.find?_erase_self {α : Type} {key : String} {entries : List (String × α)}
    (hn : (Keyed.keys entries).Nodup) : Keyed.find? key (Keyed.erase key entries) = none := by
  induction entries with
  | nil => rfl
  | cons e rest ih =>
    obtain ⟨k, v⟩ := e
    obtain ⟨hk, hrest⟩ := List.nodup_cons.mp hn
    rw [Keyed.erase]
    split
    · next he => exact Keyed.find?_eq_none.mpr (he ▸ hk)
    · next hne => rw [Keyed.find?, if_neg hne, ih hrest]

/-- Erasing keeps a table sound. -/
theorem Value.Holds.erase {entries : Table} (h : (Value.table entries).Holds p) (key : String) :
    (Value.table (Keyed.erase key entries)).Holds p := by
  obtain ⟨hn, he⟩ := holds_table_iff.mp h
  have hsub := Keyed.erase_sublist key entries
  exact holds_table_iff.mpr ⟨hn.sublist (hsub.map _), fun k v hm => he k v (hsub.mem hm)⟩

namespace Toml

/-! ## 2. Nodes and their values

The value of a node forgets where a table came from.  Each operation on nodes is one on values by
that, so the lemmas of the first section carry over.
-/

/-- The definition at one entry more. -/
theorem nodeEntries_cons (key : String) (node : Node) (rest : Nodes) :
    nodeEntries ((key, node) :: rest) = (key, node.toValue) :: nodeEntries rest :=
  rfl

/-- The definition at one element more. -/
theorem nodeElements_cons (nodes : Nodes) (rest : List Nodes) :
    nodeElements (nodes :: rest) = .table (nodeEntries nodes) :: nodeElements rest :=
  rfl

/-- The entries of nodes are taken one by one. -/
theorem nodeEntries_eq_map : ∀ nodes : Nodes,
    nodeEntries nodes = nodes.map fun e => (e.1, e.2.toValue)
  | [] => rfl
  | (key, node) :: rest => by rw [nodeEntries_cons, nodeEntries_eq_map rest, List.map_cons]

/-- So are the elements of an array of tables. -/
theorem nodeElements_eq_map : ∀ elements : List Nodes,
    nodeElements elements = elements.map fun nodes => .table (nodeEntries nodes)
  | [] => rfl
  | nodes :: rest => by rw [nodeElements_cons, nodeElements_eq_map rest, List.map_cons]

/-- A key is looked up among the nodes or among their values. -/
theorem find?_nodeEntries (key : String) (nodes : Nodes) :
    Keyed.find? key (nodeEntries nodes) = (Keyed.find? key nodes).map Node.toValue := by
  induction nodes with
  | nil => rfl
  | cons e rest ih =>
    obtain ⟨k, n⟩ := e
    simp only [nodeEntries_cons, Keyed.find?]
    split
    · rfl
    · exact ih

/-- The values of nodes behind others stand behind theirs. -/
theorem nodeEntries_append (nodes more : Nodes) :
    nodeEntries (nodes ++ more) = nodeEntries nodes ++ nodeEntries more := by
  simp [nodeEntries_eq_map]

/-- A node is put in as its value is. -/
theorem nodeEntries_insert (key : String) (node : Node) (nodes : Nodes) :
    nodeEntries (Keyed.insert key node nodes)
      = Keyed.insert key node.toValue (nodeEntries nodes) := by
  induction nodes with
  | nil => rfl
  | cons e rest ih =>
    obtain ⟨k, n⟩ := e
    simp only [nodeEntries_cons, Keyed.insert]
    split
    · rfl
    · rw [nodeEntries_cons, ih]

/-- A key is erased from the nodes as from their values. -/
theorem nodeEntries_erase (key : String) (nodes : Nodes) :
    nodeEntries (Keyed.erase key nodes) = Keyed.erase key (nodeEntries nodes) := by
  induction nodes with
  | nil => rfl
  | cons e rest ih =>
    obtain ⟨k, n⟩ := e
    simp only [nodeEntries_cons, Keyed.erase]
    split
    · rfl
    · rw [nodeEntries_cons, ih]

/-! ## 3. Each statement keeps the tables sound

A statement walks down a path and changes one table at its end.  Walking down makes new tables, goes
into those that are there, or into the last element of an array; what is changed at the end is a
parameter, so the walk is dealt with once.
-/

/-- The table of some nodes is sound. -/
def Sound (p : Value → Prop) (nodes : Nodes) : Prop :=
  (Value.table (nodeEntries nodes)).Holds p

variable {nodes result : Nodes}

/-- No nodes are sound. -/
theorem sound_empty : Sound p [] := holds_empty

/-- A node under a new key keeps the table sound. -/
theorem Sound.append_new {key : String} {node : Node} (h : Sound p nodes)
    (hf : Keyed.find? key nodes = none) (hv : node.toValue.Holds p) :
    Sound p (nodes ++ [(key, node)]) := by
  rw [Sound, nodeEntries_append]
  exact Value.Holds.append_new h (by rw [find?_nodeEntries, hf]; rfl) hv

/-- So does a node in the place of another one. -/
theorem Sound.insert {key : String} {node : Node} (h : Sound p nodes)
    (hv : node.toValue.Holds p) : Sound p (Keyed.insert key node nodes) := by
  rw [Sound, nodeEntries_insert]
  exact Value.Holds.insert h hv

/-- The nodes of a sound table are sound. -/
theorem Sound.of_find? {key : String} {node : Node} (h : Sound p nodes)
    (hf : Keyed.find? key nodes = some node) : node.toValue.Holds p :=
  Value.Holds.of_find? h (by rw [find?_nodeEntries, hf]; rfl)

/-- An array of tables is sound if its tables are. -/
theorem holds_tables_iff {elements : List Nodes} :
    (Node.tables elements).toValue.Holds p ↔ ∀ nodes ∈ elements, Sound p nodes := by
  have hvalue : (Node.tables elements).toValue = .array (nodeElements elements) := rfl
  rw [hvalue, nodeElements_eq_map, holds_array_iff]
  simp [Sound]

/-- A change that keeps the last element sound keeps all of them sound. -/
theorem forall_of_updateLast? {α : Type} {q : α → Prop} {f : α → Option α}
    (hf : ∀ a b, q a → f a = some b → q b) : ∀ {as bs : List α}, (∀ a ∈ as, q a) →
      updateLast? f as = some bs → ∀ b ∈ bs, q b
  | [], _, _, h => by simp [updateLast?] at h
  | [a], _, ha, h => by
    rw [updateLast?, Option.map_eq_some_iff] at h
    obtain ⟨b, hb, rfl⟩ := h
    simpa using hf a b (ha a (by simp)) hb
  | a :: a' :: rest, _, ha, h => by
    rw [updateLast?, Option.map_eq_some_iff] at h
    · obtain ⟨bs, hbs, rfl⟩ := h
      obtain ⟨hhead, htail⟩ := List.forall_mem_cons.mp ha
      exact List.forall_mem_cons.mpr ⟨hhead, forall_of_updateLast? hf htail hbs⟩
    · simp

/-- **A change that keeps tables sound does so at any path.**  By induction on the path: whatever
node stands under the key, the changed one takes its place. -/
theorem Sound.within? {f : Nodes → Option Nodes}
    (hf : ∀ nodes result, Sound p nodes → f nodes = some result → Sound p result) :
    ∀ {path : List String} {nodes result : Nodes}, Sound p nodes →
      Toml.within? f path nodes = some result → Sound p result
  | [], _, _, hs, h => hf _ _ hs h
  | key :: path, nodes, result, hs, h => by
    rw [Toml.within?] at h
    split at h
    -- a table that is made for the path
    · next hnone =>
      rw [Option.map_eq_some_iff] at h
      obtain ⟨inner, hi, rfl⟩ := h
      exact hs.append_new hnone (Sound.within? hf sound_empty hi)
    -- a table that is there
    · next origin inner hsome =>
      rw [Option.map_eq_some_iff] at h
      obtain ⟨inner', hi, rfl⟩ := h
      exact hs.insert (Sound.within? hf (hs.of_find? hsome) hi)
    -- the last element of an array of tables
    · next elements hsome =>
      rw [Option.map_eq_some_iff] at h
      obtain ⟨elements', he, rfl⟩ := h
      have hall := holds_tables_iff.mp (hs.of_find? hsome)
      refine hs.insert (holds_tables_iff.mpr (forall_of_updateLast? (fun a b ha hb => ?_) hall he))
      exact Sound.within? hf ha hb
    · simp at h

/-- Opening a table keeps the tables sound: it is new, or it was made on the way and is moved to
the end. -/
theorem Sound.openTable? {key : String} (hs : Sound p nodes)
    (h : Toml.openTable? key nodes = some result) : Sound p result := by
  unfold Toml.openTable? at h
  split at h
  · next hnone =>
    obtain rfl := Option.some.inj h
    exact hs.append_new hnone sound_empty
  · next inner hsome =>
    obtain rfl := Option.some.inj h
    have hi : Sound p inner := hs.of_find? hsome
    have hn : (Keyed.keys (nodeEntries nodes)).Nodup := (holds_table_iff.mp hs).1
    rw [Sound, nodeEntries_append, nodeEntries_erase]
    exact (Value.Holds.erase hs key).append_new (Keyed.find?_erase_self hn) hi
  · simp at h

/-- Opening an element of an array of tables keeps them sound. -/
theorem Sound.openElement? {key : String} (hs : Sound p nodes)
    (h : Toml.openElement? key nodes = some result) : Sound p result := by
  unfold Toml.openElement? at h
  split at h
  · next hnone =>
    obtain rfl := Option.some.inj h
    exact hs.append_new hnone (holds_tables_iff.mpr (by simpa using sound_empty))
  · next elements hsome =>
    obtain rfl := Option.some.inj h
    have hall := holds_tables_iff.mp (hs.of_find? hsome)
    refine hs.insert (holds_tables_iff.mpr fun e he => ?_)
    rcases List.mem_append.mp he with he | he
    · exact hall e he
    · obtain rfl : e = [] := by simpa using he
      exact sound_empty
  · simp at h

/-- Adding a sound value under a dotted key keeps the tables sound.  A key is given a value only
where it has none. -/
theorem Sound.addAt? {value : Value} (hv : value.Holds p) :
    ∀ {receives : Bool} {path : List String} {nodes result : Nodes}, Sound p nodes →
      Toml.addAt? value receives path nodes = some result → Sound p result
  | _, [], _, _, _, h => by simp [Toml.addAt?] at h
  | receives, [key], nodes, result, hs, h => by
    rw [Toml.addAt?] at h
    split at h
    · next hc =>
      obtain rfl := Option.some.inj h
      have hnone : Keyed.find? key nodes = none := by
        simp only [Keyed.contains, Bool.and_eq_true, Bool.not_eq_true', Option.isSome_eq_false_iff,
          Option.isNone_iff_eq_none] at hc
        exact hc.2
      exact hs.append_new hnone hv
    · simp at h
  | receives, key :: key' :: path, nodes, result, hs, h => by
    rw [Toml.addAt?] at h
    · split at h
      · next hnone =>
        rw [Option.map_eq_some_iff] at h
        obtain ⟨inner, hi, rfl⟩ := h
        exact hs.append_new hnone (Sound.addAt? hv sound_empty hi)
      · simp at h
      · next origin inner _ hsome =>
        rw [Option.map_eq_some_iff] at h
        obtain ⟨inner', hi, rfl⟩ := h
        exact hs.insert (Sound.addAt? hv (hs.of_find? hsome) hi)
      · next elements hsome =>
        rw [Option.map_eq_some_iff] at h
        obtain ⟨elements', he, rfl⟩ := h
        have hall := holds_tables_iff.mp (hs.of_find? hsome)
        refine hs.insert (holds_tables_iff.mpr
          (forall_of_updateLast? (fun a b ha hb => ?_) hall he))
        exact Sound.addAt? hv ha hb
      · simp at h
    · simp

/-! ## 4. Terms and runs

The value of a term is built from its leaves by the same additions, an inline table being a run of
its own.  So soundness goes from leaves to terms, and from terms to the whole run.
-/

mutual

/-- **Every leaf of a term has a property.** -/
def Term.Leaves (p : Value → Prop) : Term → Prop
  | .leaf value => value.Holds p
  | .array items => LeavesItems p items
  | .inline entries => LeavesEntries p entries

/-- The leaves in the items of an array have a property. -/
def LeavesItems (p : Value → Prop) : List Term → Prop
  | [] => True
  | term :: rest => term.Leaves p ∧ LeavesItems p rest

/-- The leaves in the entries of an inline table have a property. -/
def LeavesEntries (p : Value → Prop) : List (List String × Term) → Prop
  | [] => True
  | (_, term) :: rest => term.Leaves p ∧ LeavesEntries p rest

end

mutual

/-- The value of a term is sound if its leaves are. -/
theorem Term.Leaves.value? : ∀ {term : Term} {value : Value}, term.Leaves p →
    term.value? = some value → value.Holds p
  | .leaf value, _, hl, h => by
    obtain rfl := Option.some.inj h
    exact hl
  | .array items, _, hl, h => by
    rw [Term.value?, Option.map_eq_some_iff] at h
    obtain ⟨values, hv, rfl⟩ := h
    exact holds_array_iff.mpr (leavesItems_value? hl hv)
  | .inline entries, _, hl, h => by
    rw [Term.value?, Option.map_eq_some_iff] at h
    obtain ⟨nodes, hn, rfl⟩ := h
    exact leavesEntries_value? hl sound_empty hn

/-- The values of the items are sound. -/
theorem leavesItems_value? : ∀ {items : List Term} {values : List Value}, LeavesItems p items →
    termItems? items = some values → ∀ value ∈ values, value.Holds p
  | [], _, _, h => by
    obtain rfl := Option.some.inj h
    simp
  | term :: rest, _, hl, h => by
    rw [termItems?] at h
    split at h
    · next hv hr =>
      obtain rfl := Option.some.inj h
      exact List.forall_mem_cons.mpr ⟨Term.Leaves.value? hl.1 hv, leavesItems_value? hl.2 hr⟩
    · simp at h

/-- The entries of an inline table are added to what was added before. -/
theorem leavesEntries_value? : ∀ {entries : List (List String × Term)} {nodes result : Nodes},
    LeavesEntries p entries → Sound p nodes → termEntries? entries nodes = some result →
      Sound p result
  | [], _, _, _, hs, h => by
    obtain rfl := Option.some.inj h
    exact hs
  | (path, term) :: rest, nodes, _, hl, hs, h => by
    rw [termEntries?] at h
    split at h
    · simp at h
    · next hv =>
      split at h
      · simp at h
      · next hadd =>
        have hstep := hs.addAt? (Term.Leaves.value? hl.1 hv) hadd
        exact leavesEntries_value? hl.2 hstep h

end

/-- The leaves of a statement have a property. -/
def Statement.Leaves (p : Value → Prop) : Statement → Prop
  | .header _ _ => True
  | .entry _ term => term.Leaves p

/-- **A run keeps the tables sound,** by induction on its statements.  Only entries bring scalars
in, and those are the leaves of their terms. -/
theorem Sound.enter? : ∀ {statements : List Statement} {current : List String}
    {nodes result : Nodes}, (∀ s ∈ statements, s.Leaves p) → Sound p nodes →
      Toml.enter? current statements nodes = some result → Sound p result
  | [], _, _, _, _, hs, h => by
    obtain rfl := Option.some.inj h
    exact hs
  | .entry path term :: rest, current, nodes, _, hl, hs, h => by
    obtain ⟨hterm, hrest⟩ := List.forall_mem_cons.mp hl
    rw [Toml.enter?] at h
    split at h
    · simp at h
    · next value hv =>
      split at h
      · simp at h
      · next hw =>
        have hvalue : value.Holds p := Term.Leaves.value? hterm hv
        exact Sound.enter? hrest (hs.within? (fun _ _ => Sound.addAt? hvalue) hw) h
  | .header path array :: rest, current, nodes, _, hl, hs, h => by
    obtain ⟨-, hrest⟩ := List.forall_mem_cons.mp hl
    rw [Toml.enter?] at h
    split at h
    · simp at h
    · split at h
      · simp at h
      · next hw =>
        refine Sound.enter? hrest (hs.within? (fun _ _ hs' h' => ?_) hw) h
        split at h'
        · exact hs'.openElement? h'
        · exact hs'.openTable? h'

end Toml

end TomlKeep
