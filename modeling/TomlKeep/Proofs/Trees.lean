/-
# Trees and their differences

A change of scalars is an instruction for a path at which both trees hold a scalar, and the
literals of the two differ (`Changes`).  A tree that holds other plain scalars in the same places
is a revision (`Revised`).  A tree is changed at one path by `updateAt`, and everything beside
that path stays (`at?_updateAt_of_apart`).
-/
import TomlKeep.Proofs.Literals
import TomlKeep.Difference

namespace TomlKeep

/-! ## 1. Distinct keys

A table is a list of entries, and looking a key up finds the first.  Where keys are distinct the
order of the entries does not matter for that, so membership and lookup say the same.  An induction
over values needs the entries of tables and the items of arrays at once; it is taken from the
recursor here, one time for all later proofs.
-/

mutual

/-- **The keys of every table are distinct,** at every depth. -/
def Value.WellKeyed : Value → Prop
  | .array items => WellKeyedItems items
  | .table entries => (Keyed.keys entries).Nodup ∧ WellKeyedEntries entries
  | _ => True

/-- The keys in the items of an array are distinct. -/
def WellKeyedItems : List Value → Prop
  | [] => True
  | value :: rest => value.WellKeyed ∧ WellKeyedItems rest

/-- The keys in the values of a table are distinct. -/
def WellKeyedEntries : List (String × Value) → Prop
  | [] => True
  | (_, value) :: rest => value.WellKeyed ∧ WellKeyedEntries rest

end

/-- A key is not found if it is none of the keys. -/
theorem Keyed.find?_eq_none {α : Type} {key : String} {entries : List (String × α)} :
    Keyed.find? key entries = none ↔ key ∉ Keyed.keys entries := by
  induction entries with
  | nil => simp [Keyed.find?, Keyed.keys]
  | cons e rest ih =>
    obtain ⟨k, v⟩ := e
    simp only [Keyed.keys] at ih
    by_cases h : k = key
    · simp [Keyed.find?, Keyed.keys, h]
    · simp [Keyed.find?, Keyed.keys, h, Ne.symm h, ih]

/-- Which keys there are is told by the list of keys. -/
theorem Keyed.contains_eq_of_keys_eq {α β : Type} {x : List (String × α)} {y : List (String × β)}
    (h : Keyed.keys x = Keyed.keys y) (key : String) :
    Keyed.contains key x = Keyed.contains key y := by
  rw [Bool.eq_iff_iff, Keyed.contains, Keyed.contains, Option.isSome_iff_ne_none,
    Option.isSome_iff_ne_none, ne_eq, ne_eq, Keyed.find?_eq_none, Keyed.find?_eq_none, h]

/-- What is found is an entry. -/
theorem Keyed.find?_mem {α : Type} {key : String} {value : α} {entries : List (String × α)}
    (h : Keyed.find? key entries = some value) : (key, value) ∈ entries := by
  induction entries with
  | nil => simp [Keyed.find?] at h
  | cons e rest ih =>
    obtain ⟨k, v⟩ := e
    by_cases hk : k = key
    · simp_all [Keyed.find?]
    · exact List.mem_cons_of_mem _ (ih (by simpa [Keyed.find?, hk] using h))

/-- Where keys are distinct, every entry is found. -/
theorem Keyed.find?_of_mem {α : Type} {key : String} {value : α} {entries : List (String × α)}
    (hn : (Keyed.keys entries).Nodup) (h : (key, value) ∈ entries) :
    Keyed.find? key entries = some value := by
  induction entries with
  | nil => simp at h
  | cons e rest ih =>
    obtain ⟨k, v⟩ := e
    obtain ⟨hk, hrest⟩ := List.nodup_cons.mp hn
    rcases List.mem_cons.mp h with h | h
    · obtain ⟨rfl, rfl⟩ := Prod.mk.inj h
      simp [Keyed.find?]
    · have hne : k ≠ key := by
        rintro rfl
        exact hk (List.mem_map.mpr ⟨_, h, rfl⟩)
      simp [Keyed.find?, hne, ih hrest h]

/-- The keys of a table are those that it contains. -/
theorem mem_keys_iff {key : String} {entries : Table} :
    key ∈ Keyed.keys entries ↔ Keyed.contains key entries = true := by
  rw [Keyed.contains, Option.isSome_iff_ne_none, ne_eq, Keyed.find?_eq_none, Classical.not_not]

/-- A new entry is found. -/
theorem Keyed.find?_concat {α : Type} {key : String} {entries : List (String × α)}
    (h : Keyed.find? key entries = none) (value : α) :
    Keyed.find? key (entries ++ [(key, value)]) = some value := by
  induction entries with
  | nil => rw [List.nil_append, Keyed.find?, if_pos rfl]
  | cons e rest ih =>
    obtain ⟨k, v⟩ := e
    rw [Keyed.find?] at h
    split at h
    · cases h
    · next hk =>
      rw [List.cons_append, Keyed.find?, if_neg hk]
      exact ih h

/-- A property of the entries of a table is one of the first and of the others. -/
theorem forall_entry_cons {α β : Type} {P : α → β → Prop} {k : α} {v : β} {rest : List (α × β)} :
    (∀ key value, (key, value) ∈ (k, v) :: rest → P key value)
      ↔ P k v ∧ ∀ key value, (key, value) ∈ rest → P key value := by
  constructor
  · intro h
    exact ⟨h k v List.mem_cons_self, fun key value hm => h key value (List.mem_cons_of_mem _ hm)⟩
  · rintro ⟨hv, hrest⟩ key value hm
    rcases List.mem_cons.mp hm with he | hm
    · obtain ⟨rfl, rfl⟩ := Prod.mk.inj he
      exact hv
    · exact hrest key value hm

/-- That keys are distinct below every entry, said by membership. -/
theorem wellKeyedEntries_iff {entries : List (String × Value)} :
    WellKeyedEntries entries ↔ ∀ key value, (key, value) ∈ entries → value.WellKeyed := by
  induction entries with
  | nil => simp [WellKeyedEntries]
  | cons e rest ih =>
    obtain ⟨k, v⟩ := e
    rw [WellKeyedEntries, ih, forall_entry_cons]

/-- **Induction on a value,** from its items or the values under its keys. -/
@[elab_as_elim] theorem Value.treeInduction {motive : Value → Prop}
    (scalar : ∀ value, value.isScalar = true → motive value)
    (array : ∀ items, (∀ value ∈ items, motive value) → motive (.array items))
    (table : ∀ entries, (∀ key value, (key, value) ∈ entries → motive value) →
      motive (.table entries)) (value : Value) : motive value := by
  refine Value.rec (motive_1 := motive) (motive_2 := fun items => ∀ v ∈ items, motive v)
    (motive_3 := fun entries => ∀ key v, (key, v) ∈ entries → motive v)
    (motive_4 := fun e => motive e.2) (scalar _ rfl) (fun _ => scalar _ rfl) (fun _ => scalar _ rfl)
    (fun _ => scalar _ rfl) (fun _ => scalar _ rfl) (fun _ => scalar _ rfl) array table
    ?_ ?_ ?_ ?_ ?_ value
  · simp
  · exact fun _ _ hv hrest => List.forall_mem_cons.mpr ⟨hv, hrest⟩
  · simp
  · intro e rest he hrest key v hm
    rcases List.mem_cons.mp hm with rfl | hm
    · exact he
    · exact hrest key v hm
  · exact fun _ _ hv => hv

/-! ## 2. Paths

A path of keys leads through tables only.  What stands at a longer path is found from what stands at
its beginning, so a tree is known path by path; most statements about trees are made so, without a
word about how tables are nested in lists.
-/

/-- The first key of a path is looked up, and the others below it. -/
theorem at?_table (entries : Table) (key : String) (path : List String) :
    (Value.table entries).at? (key :: path)
      = (Keyed.find? key entries).bind fun value => value.at? path := rfl

/-- The value at a path that goes on behind another one. -/
theorem at?_append : ∀ (path more : List String) (value : Value),
    value.at? (path ++ more) = (value.at? path).bind fun inner => inner.at? more
  | [], _, _ => rfl
  | key :: path, more, value => by
    have ih (inner : Value) := at?_append path more inner
    simp only [List.cons_append, Value.at?, ih, Option.bind_assoc]

/-- What stands under a key of the table at a path. -/
theorem at?_concat {tree : Value} {path : List String} {last : String} {inner : Table}
    (h : tree.at? path = some (.table inner)) :
    tree.at? (path ++ [last]) = Keyed.find? last inner := by
  rw [at?_append, h, Option.bind_some, at?_table]
  cases Keyed.find? last inner <;> rfl

/-- The scalars are the values that have a literal. -/
theorem isScalar_iff_literal? {value : Value} :
    value.isScalar = true ↔ ∃ literal, value.literal? = some literal := by
  cases value <;> simp [Value.isScalar, Value.shape, Value.literal?]

/-- Only a table has anything under a key. -/
theorem at?_cons_of_not_table {value : Value} (h : value.entries? = none) (key : String)
    (path : List String) : value.at? (key :: path) = none := by
  rw [Value.at?, Value.get?, h]
  rfl

/-- A scalar is no table. -/
theorem entries?_of_isScalar {value : Value} (h : value.isScalar = true) :
    value.entries? = none := by
  cases value <;> first | rfl | cases h

/-- A scalar has no path but the empty one. -/
theorem at?_of_isScalar {value : Value} (h : value.isScalar = true) {path : List String}
    (hne : path ≠ []) : value.at? path = none := by
  obtain ⟨key, rest, rfl⟩ := List.exists_cons_of_ne_nil hne
  exact at?_cons_of_not_table (entries?_of_isScalar h) key rest

/-- Where a path leads to a table, it begins at a table. -/
theorem exists_table_of_at? {value : Value} {path : List String} {entries : Table}
    (h : value.at? path = some (.table entries)) : ∃ outer, value = .table outer := by
  cases path with
  | nil => exact ⟨entries, Option.some.inj h⟩
  | cons key path =>
    by_cases hv : value.entries? = none
    · rw [at?_cons_of_not_table hv] at h
      cases h
    · cases value <;> first | exact ⟨_, rfl⟩ | exact absurd rfl hv

/-- What stands under the last key of a path stands in the table before it. -/
theorem exists_table_of_at?_concat {tree value : Value} {path : List String} {key : String}
    (h : tree.at? (path ++ [key]) = some value) :
    ∃ entries, tree.at? path = some (.table entries) ∧ Keyed.find? key entries = some value := by
  rw [at?_append] at h
  obtain ⟨inner, hi, h⟩ := Option.bind_eq_some_iff.mp h
  -- what has something under a key is a table
  cases inner with
  | table entries =>
    rw [at?_table] at h
    obtain ⟨found, hf, h⟩ := Option.bind_eq_some_iff.mp h
    obtain rfl : found = value := Option.some.inj h
    exact ⟨entries, hi, hf⟩
  | _ => cases h

/-- What stands at a path of a tree has distinct keys as well. -/
theorem Value.WellKeyed.at? : ∀ {path : List String} {value inner : Value}, value.WellKeyed →
    value.at? path = some inner → inner.WellKeyed
  | [], value, inner, h, hi => by
    obtain rfl := Option.some.inj hi
    exact h
  | key :: path, value, inner, h, hi => by
    cases value with
    | table entries =>
      rw [at?_table] at hi
      obtain ⟨next, hn, hi⟩ := Option.bind_eq_some_iff.mp hi
      exact (wellKeyedEntries_iff.mp h.2 key next (Keyed.find?_mem hn)).at? hi
    | _ => cases hi

/-- The path that an instruction is for: that of its section, and its key. -/
def Instruction.path (i : Instruction) : List String := i.target.parts ++ [i.key]

/-- A scalar that is written otherwise than before. -/
def Rewritten (old new : Value) (literal : List Char) : Prop :=
  ∃ before, old.literal? = some before ∧ new.literal? = some literal ∧ before ≠ literal

/-- **An instruction for a path below `target`** at which both trees hold a scalar, and not the
same. -/
def Changes (target : List String) (old new : Value) (i : Instruction) : Prop :=
  ∃ path v w, i.path = target ++ path ∧ old.at? path = some v ∧ new.at? path = some w
    ∧ Rewritten v w i.literal

/-! ## 3. Differences of values that are not both tables

Two tables are compared key by key.  Any other two values are compared as they stand, scalars by
their literals.
-/

/-- The difference of two values of which one is no table: an instruction, nothing, or a
structural change. -/
theorem differValue_of_not_tables {target : SectionPath} {key : String} {old new : Value}
    (h : old.entries? = none ∨ new.entries? = none) :
    differValue target key old new = match old.literal?, new.literal? with
      | some before, some after => .ofLiterals target key before after
      | _, _ => if old.same new then .empty else .ofKey target key := by
  cases old <;> cases new <;> first | rfl | simp [Value.entries?] at h

/-! ## 4. Trees that differ in scalars only

A revision is what can be saved by patching: the same tables with the same keys, and plain scalars
in the same places.  It is closed under putting one more revised value into both tables, which is
how trees are built up below.
-/

/-- **The same tree with other plain scalars.**  The order of keys does not matter. -/
inductive Revised : Value → Value → Prop where
  | scalar {old new : Value} : old.isPlain = true → new.isPlain = true → Revised old new
  | table {old new : Table} : (∀ key, Keyed.contains key old = Keyed.contains key new) →
      (∀ key v w, Keyed.find? key old = some v → Keyed.find? key new = some w → Revised v w) →
        Revised (.table old) (.table new)

/-- A plain scalar has a literal. -/
theorem literal?_of_isPlain {value : Value} (h : value.isPlain = true) :
    ∃ literal, value.literal? = some literal := by
  cases value <;> first | exact ⟨_, rfl⟩ | simp [Value.isPlain] at h

/-- An empty table is its own revision. -/
theorem Revised.empty : Revised (.table []) (.table []) :=
  .table (fun _ => rfl) fun _ _ _ hv _ => by simp [Keyed.find?] at hv

/-- A revision of one more value. -/
theorem Revised.insert {old new : Table} {v w : Value} (h : Revised (.table old) (.table new))
    (hv : Revised v w) (key : String) :
    Revised (.table (Keyed.insert key v old)) (.table (Keyed.insert key w new)) := by
  cases h with
  | scalar ho _ => simp [Value.isPlain] at ho
  | table hk hrev =>
    -- the key that was put in holds the new values, any other what it held before
    refine .table (fun k => ?_) fun k v' w' hv' hw' => ?_
    · by_cases hne : k = key
      · simp [Keyed.contains, hne, Keyed.find?_insert_self]
      · simpa [Keyed.contains, Keyed.find?_insert_of_ne hne] using hk k
    · by_cases hne : k = key
      · rw [hne, Keyed.find?_insert_self] at hv' hw'
        exact Option.some.inj hv' ▸ Option.some.inj hw' ▸ hv
      · rw [Keyed.find?_insert_of_ne hne] at hv' hw'
        exact hrev k v' w' hv' hw'

/-! ## 5. Changing a table at a path

A change at a path is seen at three kinds of paths: at and below the changed table, above it, and
beside it.  Each has its lemma, and together they say all that can be observed of the changed tree;
tables that are missing on the way are made, and are empty but for the next key.
-/

/-- The table at a path; where there is none, an empty one. -/
def subtable : List String → Table → Table
  | [], entries => entries
  | key :: path, entries =>
    match Keyed.find? key entries with
    | some (.table inner) => subtable path inner
    | _ => subtable path []

/-- Changes the table at a path, making tables on the way. -/
def updateAt (change : Table → Table) : List String → Table → Table
  | [], entries => change entries
  | key :: path, entries =>
    match Keyed.find? key entries with
    | some (.table inner) => Keyed.insert key (.table (updateAt change path inner)) entries
    | _ => Keyed.insert key (.table (updateAt change path [])) entries

/-- The table below a key. -/
def inner (key : String) (entries : Table) : Table :=
  match Keyed.find? key entries with
  | some (.table inner) => inner
  | _ => []

/-- The table at a path is found from the table below its first key. -/
theorem subtable_cons (key : String) (path : List String) (entries : Table) :
    subtable (key :: path) entries = subtable path (inner key entries) := by
  rw [subtable, inner]
  split <;> rfl

/-- So is the change at a path. -/
theorem updateAt_cons (change : Table → Table) (key : String) (path : List String)
    (entries : Table) : updateAt change (key :: path) entries
      = Keyed.insert key (.table (updateAt change path (inner key entries))) entries := by
  rw [updateAt, inner]
  split <;> rfl

/-- What is found below a path is found in the table at that path. -/
theorem at?_subtable {rest : List String} (hr : rest ≠ []) : ∀ (path : List String)
    (entries : Table),
    (Value.table (subtable path entries)).at? rest = (Value.table entries).at? (path ++ rest)
  | [], _ => rfl
  | key :: path, entries => by
    rw [subtable_cons, at?_subtable hr path, List.cons_append, at?_table, inner]
    obtain ⟨k, ks, hks⟩ := List.exists_cons_of_ne_nil (List.append_ne_nil_of_right_ne_nil path hr)
    -- where there is no table, nothing is found below, in the empty table as little as in the tree
    cases hf : Keyed.find? key entries with
    | none => simp [hks, at?_table, Keyed.find?]
    | some value =>
      cases value <;> simp [hks, Value.at?, Value.get?, Value.entries?, Keyed.find?]

/-- What is found below the path of a change is found in the changed table. -/
theorem at?_updateAt (change : Table → Table) (rest : List String) : ∀ (path : List String)
    (entries : Table), (Value.table (updateAt change path entries)).at? (path ++ rest)
      = (Value.table (change (subtable path entries))).at? rest
  | [], _ => rfl
  | key :: path, entries => by
    rw [updateAt_cons, List.cons_append, at?_table, Keyed.find?_insert_self, Option.bind_some,
      at?_updateAt change rest path, subtable_cons]

/-- What is found beside the path of a change is what was found before.  The two paths have a
beginning in common and part at a key; the tables up to there are rebuilt, with all other keys as
they were. -/
theorem at?_updateAt_of_apart (change : Table → Table) : ∀ {path other : List String}
    {entries : Table}, ¬ path <+: other → ¬ other <+: path →
      (Value.table (updateAt change path entries)).at? other = (Value.table entries).at? other
  | [], _, _, h, _ => absurd (List.nil_prefix) h
  | _ :: _, [], _, _, h => absurd (List.nil_prefix) h
  | key :: path, k :: other, entries, h1, h2 => by
    rw [updateAt_cons, at?_table, at?_table]
    by_cases hk : k = key
    -- the same key on both paths: they part further down
    · subst hk
      have h1' : ¬ path <+: other := fun h => h1 (List.cons_prefix_cons.mpr ⟨rfl, h⟩)
      have h2' : ¬ other <+: path := fun h => h2 (List.cons_prefix_cons.mpr ⟨rfl, h⟩)
      have hne : other ≠ [] := fun h => h2' (h ▸ List.nil_prefix)
      rw [Keyed.find?_insert_self, Option.bind_some, at?_updateAt_of_apart change h1' h2']
      have := at?_subtable hne [k] entries
      rw [subtable_cons, subtable, List.singleton_append, at?_table] at this
      exact this
    · rw [Keyed.find?_insert_of_ne hk]

/-- A value that is put below a section leaves everything beside it as it is. -/
theorem at?_insertAt_of_apart {place path : List String} {key : String} {value : Value}
    {table : Table} (h1 : ¬ (place ++ [key]) <+: path) (h2 : ¬ path <+: place) :
    (Value.table (updateAt (Keyed.insert key value) place table)).at? path
      = (Value.table table).at? path := by
  -- inside the table that is changed, the key is another one; outside, the path is beside
  by_cases h : place <+: path
  · obtain ⟨rest, rfl⟩ := h
    cases rest with
    | nil => exact absurd (by simp) h2
    | cons k rest =>
      have hk : k ≠ key := by
        rintro rfl
        exact h1 ⟨rest, by simp⟩
      rw [at?_updateAt, at?_table, Keyed.find?_insert_of_ne hk, ← at?_table,
        at?_subtable (List.cons_ne_nil k rest)]
  · exact at?_updateAt_of_apart _ h h2

/-- What is found at a value that is put below a section, and inside it. -/
theorem at?_insertAt_self (place rest : List String) (key : String) (value : Value)
    (table : Table) :
    (Value.table (updateAt (Keyed.insert key value) place table)).at? (place ++ key :: rest)
      = value.at? rest := by
  rw [at?_updateAt, at?_table, Keyed.find?_insert_self, Option.bind_some]

/-- On the path of a change are tables. -/
theorem at?_updateAt_above (change : Table → Table) : ∀ {path other : List String}
    {entries : Table}, other <+: path →
      ∃ inner, (Value.table (updateAt change path entries)).at? other = some (.table inner)
  | _, [], _, _ => ⟨_, rfl⟩
  | [], _ :: _, _, h => absurd h (by simp)
  | key :: path, k :: other, entries, h => by
    obtain ⟨rfl, hrest⟩ := List.cons_prefix_cons.mp h
    obtain ⟨table, ht⟩ : ∃ table, (Value.table (updateAt change path (inner k entries))).at? other
        = some (.table table) := at?_updateAt_above change hrest
    exact ⟨table, by rw [updateAt_cons, at?_table, Keyed.find?_insert_self, Option.bind_some, ht]⟩

/-- Keys stay distinct when an entry is put in: its key is new, or it takes the place of the old
entry. -/
theorem wellKeyed_insert {key : String} {value : Value} {entries : Table} (hv : value.WellKeyed)
    (he : (Value.table entries).WellKeyed) :
    (Value.table (Keyed.insert key value entries)).WellKeyed := by
  constructor
  · rw [Keyed.keys_insert]
    split
    · exact he.1
    · next hc =>
      refine List.nodup_append.mpr ⟨he.1, by simp, fun a ha b hb => ?_⟩
      obtain rfl : b = key := by simpa using hb
      rintro rfl
      exact hc (mem_keys_iff.mp ha)
  · have hentries := he.2
    clear he
    induction entries with
    | nil => exact ⟨hv, trivial⟩
    | cons e rest ih =>
      obtain ⟨k, v⟩ := e
      rw [Keyed.insert]
      split
      · exact ⟨hv, hentries.2⟩
      · exact ⟨hentries.1, ih hentries.2⟩

/-- A change that keeps keys distinct does so at any path. -/
theorem wellKeyed_updateAt {change : Table → Table}
    (hc : ∀ entries : Table, (Value.table entries).WellKeyed →
      (Value.table (change entries)).WellKeyed) :
    ∀ {path : List String} {entries : Table}, (Value.table entries).WellKeyed →
      (Value.table (updateAt change path entries)).WellKeyed
  | [], _, h => hc _ h
  | key :: path, entries, h => by
    have hi : (Value.table (inner key entries)).WellKeyed := by
      rw [inner]
      split
      · next table hf => exact wellKeyedEntries_iff.mp h.2 key _ (Keyed.find?_mem hf)
      · exact ⟨List.nodup_nil, trivial⟩
    rw [updateAt_cons]
    exact wellKeyed_insert (wellKeyed_updateAt hc hi) h

end TomlKeep
