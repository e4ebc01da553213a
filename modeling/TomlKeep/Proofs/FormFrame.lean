/-
# What a form leaves alone

Setting a field changes the tree at one path: the value of the field is put in the table of its
key, and tables that are missing on the way are made (`setField_eq_ok`).  So what stands beside
that path stays as it is, and a table above it gets at most one new key, behind those that it has
(`keys_prefix_updateAt`).

A form sets its fields one after the other, and a later field may change what an earlier one has
set.  What no field comes near is never changed (`at?_collect_of_apart`), the value of a field
stays if no later field comes near it, and the keys of a table stay in their order if no field
replaces the table (`keys_prefix_collect`).  `collect_frame` says all of this of any form.
-/
import TomlKeep.Proofs.KnownKeys
import TomlKeep.Proofs.PlainPaths

namespace TomlKeep

/-! ## 1. The paths and the values of fields

Two paths are apart if they part somewhere, so neither is on the way of the other.  What a field
gets depends on the rule of its path and on what stands there when it is its turn, and on nothing
else in the tree.
-/

/-- Neither path leads through the other. -/
def PathsApart (p q : List String) : Prop := ¬ p <+: q ∧ ¬ q <+: p

instance (p q : List String) : Decidable (PathsApart p q) := inferInstanceAs (Decidable (_ ∧ _))

/-- The name of the field is read as this path. -/
def Field.Names (field : Field) (path : List String) : Prop :=
  KeyPath.parse field.name.toList = .ok ⟨path⟩

/-- A name is read as one path at most. -/
theorem Field.Names.unique {field : Field} {p q : List String} (hp : field.Names p)
    (hq : field.Names q) : p = q :=
  congrArg KeyPath.parts (Except.ok.inj (hp.symm.trans hq))

/-- **The value that a field gets** at a path: `null` for an empty text under a nullable rule,
and otherwise the text read as the kind of the rule or, where that has none, of the value that
stands there. -/
def Field.Gets (field : Field) (rules : RuleSet) (path : List String) (existing : Option Value)
    (value : Value) : Prop :=
  let rule := Keyed.find? (KeyPath.mk path).dotted rules
  if rule.any (·.nullable) && field.text.isEmpty then value = .null
  else coerce field.name field.text ((rule.bind (·.kind)).or (existing.bind Kind.ofValue?))
    = .ok value

variable {rules : RuleSet} {allowNew : Bool} {tree new : Value}

/-- The value that was given to a field is the one it gets.  Leave to make keys comes in only
where neither the rule nor the tree says what the text should be. -/
theorem Field.gets_of_fieldValue {field : Field} {path : List String} {existing : Option Value}
    {value : Value}
    (h : fieldValue field (Keyed.find? (KeyPath.mk path).dotted rules) allowNew existing
      = .ok value) :
    field.Gets rules path existing value := by
  unfold fieldValue at h
  unfold Field.Gets
  simp only
  split at h
  -- a nullable rule and an empty text; any other text is read as some kind
  · next hnull =>
    rw [if_pos hnull]
    exact (Except.ok.inj h).symm
  · next hnull =>
    rw [if_neg hnull]
    split at h
    · next kind hkind =>
      rw [hkind]
      exact h
    · next old hkind =>
      rw [hkind]
      exact h
    · next hkind =>
      -- nothing says what the text should be
      rw [hkind]
      split at h
      · exact h
      · cases h

/-! ## 2. Changing a tree at one path

The change that goes well is one of the updates of which it is known already what they leave alone
(`updateAt`).  So all that is said of a form is said of such updates.
-/

/-- A table that stands at a path. -/
theorem subtable_of_at? : ∀ {path : List String} {entries table : Table},
    (Value.table entries).at? path = some (.table table) → subtable path entries = table
  | [], entries, table, h => by
    obtain rfl : entries = table := by simpa [Value.at?] using h
    rfl
  | key :: path, entries, table, h => by
    rw [at?_table] at h
    obtain ⟨value, hf, h⟩ := Option.bind_eq_some_iff.mp h
    obtain ⟨below, rfl⟩ := exists_table_of_at? h
    rw [subtable_cons, inner, hf]
    exact subtable_of_at? h

/-- A change at a path that goes on behind another one. -/
theorem updateAt_append (change : Table → Table) : ∀ (path more : List String) (entries : Table),
    updateAt change (path ++ more) entries = updateAt (updateAt change more) path entries
  | [], _, _ => rfl
  | key :: path, more, entries => by
    rw [List.cons_append, updateAt_cons, updateAt_cons, updateAt_append change path more]

/-- What a change makes of the table at its path is all that matters. -/
theorem updateAt_const (change : Table → Table) : ∀ (path : List String) (entries : Table),
    updateAt (fun _ => change (subtable path entries)) path entries = updateAt change path entries
  | [], _ => rfl
  | key :: path, entries => by
    rw [updateAt_cons, updateAt_cons, subtable_cons, updateAt_const change path]

/-- A value under an old key takes the place of the old value, and a new key comes last. -/
theorem Keyed.keys_prefix_insert {α : Type} (key : String) (value : α)
    (entries : List (String × α)) :
    Keyed.keys entries <+: Keyed.keys (Keyed.insert key value entries) := by
  rw [Keyed.keys_insert]
  split
  · exact List.prefix_rfl
  · exact List.prefix_append _ _

/-- **A value that is put into a table or below it** leaves the keys of the table in their order,
and a new key comes last.  On the way down a table is put back under the key it was taken from,
so this is one insertion at each level. -/
theorem keys_prefix_updateAt (key : String) (value : Value) :
    ∀ (path : List String) (entries : Table),
    Keyed.keys entries <+: Keyed.keys (updateAt (Keyed.insert key value) path entries)
  | [], entries => Keyed.keys_prefix_insert key value entries
  | segment :: path, entries => by
    rw [updateAt_cons]
    exact Keyed.keys_prefix_insert segment _ entries

/-- **A change at a path,** if it goes well, is the change of the table there, found or made. -/
theorem changeAt_eq_ok {field : String} {change : Table → Except FormError Table} :
    ∀ {path : List String} {table new : Table}, changeAt field allowNew change path table
      = .ok new →
      ∃ made, change (subtable path table) = .ok made ∧ new = updateAt (fun _ => made) path table
  | [], table, new, h => ⟨new, h, rfl⟩
  | segment :: path, table, new, h => by
    -- the same for a table that was found and for one that is made
    have below (h : (changeAt field allowNew change path (inner segment table)).map
        (fun t => Keyed.insert segment (.table t) table) = .ok new) :
        ∃ made, change (subtable (segment :: path) table) = .ok made
          ∧ new = updateAt (fun _ => made) (segment :: path) table := by
      obtain ⟨t, ht, rfl⟩ := map_eq_ok.mp h
      obtain ⟨made, hmade, rfl⟩ := changeAt_eq_ok ht
      exact ⟨made, by rwa [subtable_cons], by rw [updateAt_cons]⟩
    rw [changeAt] at h
    split at h
    · next hf =>
      split at h
      · exact below (by rwa [inner, hf])
      · cases h
    · next t hf => exact below (by rwa [inner, hf])
    · cases h

/-! ## 3. Setting one field

The walk that changes a tree and the walk that looks at it meet the same tables, so the value that
was there is the one that stands at the path.
-/

/-- **What setting a field does:** its value is put under its key, in the table at the path in
front of it, and nothing else.  The path is given as a place and a last key, since the place is
where the tree is changed. -/
theorem setField_eq_ok {field : Field} (h : setField rules allowNew field tree = .ok new) :
    ∃ place key value entries, field.Names (place ++ [key]) ∧ tree = .table entries
      ∧ field.Gets rules (place ++ [key]) (tree.at? (place ++ [key])) value
      ∧ new = .table (updateAt (Keyed.insert key value) place entries) := by
  unfold setField at h
  split at h
  · cases h
  · next path hname =>
    obtain ⟨parts⟩ := path
    split at h
    · cases h
    · next last entries hlast =>
      obtain ⟨table, htable, rfl⟩ := map_eq_ok.mp h
      obtain ⟨made, hmade, rfl⟩ := changeAt_eq_ok htable
      obtain ⟨value, hvalue, rfl⟩ := map_eq_ok.mp hmade
      have hparts : parts.dropLast ++ [last] = parts := List.dropLast_append_getLast? last hlast
      refine ⟨parts.dropLast, last, value, entries, ?_, rfl, ?_, ?_⟩
      · rw [hparts]
        exact hname
      -- the old value is looked up in the table of the key, found or made
      · have hat := at?_subtable (List.cons_ne_nil last []) parts.dropLast entries
        rw [← hat, at?_table, hparts]
        cases hf : Keyed.find? last (subtable parts.dropLast entries) with
        | none =>
          rw [hf] at hvalue
          exact Field.gets_of_fieldValue hvalue
        | some old =>
          rw [hf] at hvalue
          exact Field.gets_of_fieldValue hvalue
      · rw [updateAt_const (Keyed.insert last value)]
    · cases h

/-- Right behind the field its value stands at its path. -/
theorem at?_setField_self {field : Field} {path : List String} (hname : field.Names path)
    (h : setField rules allowNew field tree = .ok new) :
    ∃ value, field.Gets rules path (tree.at? path) value ∧ new.at? path = some value := by
  obtain ⟨place, key, value, entries, hname', rfl, hgets, rfl⟩ := setField_eq_ok h
  obtain rfl := hname.unique hname'
  refine ⟨value, hgets, ?_⟩
  rw [at?_insertAt_self place [] key value entries]
  rfl

/-- What stands beside the path of the field stays; this is the frame of one step, and what
follows it for a whole form is by induction on the fields. -/
theorem at?_setField_of_apart {field : Field} {q : List String}
    (h : setField rules allowNew field tree = .ok new)
    (hq : ∀ path, field.Names path → PathsApart path q) : new.at? q = tree.at? q := by
  obtain ⟨place, key, value, entries, hname, rfl, -, rfl⟩ := setField_eq_ok h
  obtain ⟨hbelow, habove⟩ := hq _ hname
  refine at?_insertAt_of_apart hbelow ?_
  intro hplace
  exact habove (hplace.trans (List.prefix_append place [key]))

/-- **A table that the field does not replace** keeps its keys in their order.  It may be a table
on the way, where one key may be new, or it stands beside the path and is not touched. -/
theorem keys_prefix_setField {field : Field} {q : List String} {table : Table}
    (h : setField rules allowNew field tree = .ok new)
    (hq : ∀ path, field.Names path → ¬ path <+: q) (ht : tree.at? q = some (.table table)) :
    ∃ table', new.at? q = some (.table table') ∧ Keyed.keys table <+: Keyed.keys table' := by
  obtain ⟨place, key, value, entries, hname, rfl, -, rfl⟩ := setField_eq_ok h
  by_cases hplace : q <+: place
  · -- the table is on the way to the key
    obtain ⟨more, rfl⟩ := hplace
    have hat := at?_updateAt (updateAt (Keyed.insert key value) more) [] q entries
    rw [List.append_nil, subtable_of_at? ht] at hat
    exact ⟨_, by rw [updateAt_append, hat]; rfl, keys_prefix_updateAt key value more table⟩
  · exact ⟨table, by rw [at?_insertAt_of_apart (hq _ hname) hplace, ht], List.prefix_rfl⟩

/-! ## 4. Collecting a form

The fields are taken in turn, each in the tree that the last one left.  What every step leaves alone
the form leaves alone, and the value of one step is looked for behind the steps that follow it.
-/

/-- **What no field comes near stays.** -/
theorem at?_collect_of_apart {q : List String} : ∀ {fields : List Field} {base new : Value},
    collect rules allowNew fields base = .ok new →
      (∀ field ∈ fields, ∀ path, field.Names path → PathsApart path q) → new.at? q = base.at? q
  | [], base, new, h, _ => by rw [Except.ok.inj h]
  | field :: rest, base, new, h, hq => by
    obtain ⟨next, hset, hrest⟩ := collect_cons_eq_ok.mp h
    obtain ⟨hfield, hfields⟩ := List.forall_mem_cons.mp hq
    rw [at?_collect_of_apart hrest hfields, at?_setField_of_apart hset hfield]

/-- **A table that no field replaces** keeps its keys in their order, and new ones come behind
them. -/
theorem keys_prefix_collect {q : List String} : ∀ {fields : List Field} {base new : Value}
    {table : Table}, collect rules allowNew fields base = .ok new →
      (∀ field ∈ fields, ∀ path, field.Names path → ¬ path <+: q) →
      base.at? q = some (.table table) →
      ∃ table', new.at? q = some (.table table') ∧ Keyed.keys table <+: Keyed.keys table'
  | [], base, new, table, h, _, ht => ⟨table, by rw [← Except.ok.inj h, ht], List.prefix_rfl⟩
  | field :: rest, base, new, table, h, hq, ht => by
    obtain ⟨next, hset, hrest⟩ := collect_cons_eq_ok.mp h
    obtain ⟨hfield, hfields⟩ := List.forall_mem_cons.mp hq
    obtain ⟨table', ht', hkeys⟩ := keys_prefix_setField hset hfield ht
    obtain ⟨table'', ht'', hkeys'⟩ := keys_prefix_collect hrest hfields ht'
    exact ⟨table'', ht'', hkeys.trans hkeys'⟩

/-- **A form changes what its fields name,** and nothing else.  What stands at a path that no
field comes near is as it was.  Every field had a name and got a value when it was its turn, and
if no later field comes near its path, that value stands there.  A table that no field replaces
has its keys in their order, and new ones behind them. -/
theorem collect_frame {fields : List Field} {base new : Value}
    (h : collect rules allowNew fields base = .ok new) :
    (∀ q, (∀ field ∈ fields, ∀ path, field.Names path → PathsApart path q) →
      new.at? q = base.at? q)
    ∧ (∀ before field after, fields = before ++ field :: after → ∃ tree path value,
      collect rules allowNew before base = .ok tree ∧ field.Names path
        ∧ field.Gets rules path (tree.at? path) value
        ∧ ((∀ later ∈ after, ∀ other, later.Names other → PathsApart other path) →
          new.at? path = some value))
    ∧ ∀ q table, base.at? q = some (.table table) →
      (∀ field ∈ fields, ∀ path, field.Names path → ¬ path <+: q) →
      ∃ table', new.at? q = some (.table table') ∧ Keyed.keys table <+: Keyed.keys table' := by
  refine ⟨fun q hq => at?_collect_of_apart h hq, ?_,
    fun q table ht hq => keys_prefix_collect h hq ht⟩
  -- the form up to the field, the field, and the fields that come later
  rintro before field after rfl
  obtain ⟨tree, hbefore, hrest⟩ := collect_append_eq_ok.mp h
  obtain ⟨next, hset, hafter⟩ := collect_cons_eq_ok.mp hrest
  obtain ⟨place, key, -, -, hname, -⟩ := setField_eq_ok hset
  obtain ⟨value, hgets, hat⟩ := at?_setField_self hname hset
  refine ⟨tree, place ++ [key], value, hbefore, hname, hgets, ?_⟩
  intro hlater
  rw [at?_collect_of_apart hafter hlater, hat]

/-- A form that makes a section behind an old one and sets a number in the old one, which then
gives way to an empty text. -/
theorem collect_frame_sections :
    let base :=
      Value.table [("s", .table [("p", .integer 1), ("q", .bool true)]), ("o", .string "x")]
    let rules : RuleSet := [("s.p", { nullable := true })]
    let fields : List Field := [⟨"n.r", "7"⟩, ⟨"s.p", "3"⟩, ⟨"s.p", ""⟩]
    ∃ new, collect rules true fields base = .ok new ∧ new.at? ["s", "q"] = some (.bool true)
      ∧ new.at? ["s", "p"] = some .null
      ∧ ∃ table, new.at? [] = some (.table table) ∧ ["s", "o"] <+: Keyed.keys table := by
  intro base rules fields
  let new := Value.table [("s", .table [("p", .null), ("q", .bool true)]), ("o", .string "x"),
    ("n", .table [("r", .integer 7)])]
  have h : collect rules true fields base = .ok new := by rfl
  have hnames : ∀ field ∈ fields, ∀ path, field.Names path →
      path = ["n", "r"] ∨ path = ["s", "p"] := by
    have hmade : Field.Names ⟨"n.r", "7"⟩ ["n", "r"] := by rfl
    have hset : Field.Names ⟨"s.p", "3"⟩ ["s", "p"] := by rfl
    have hemptied : Field.Names ⟨"s.p", ""⟩ ["s", "p"] := by rfl
    simp only [fields, List.forall_mem_cons, List.not_mem_nil, false_implies, implies_true,
      and_true]
    exact ⟨fun _ hp => .inl (hp.unique hmade), fun _ hp => .inr (hp.unique hset),
      fun _ hp => .inr (hp.unique hemptied)⟩
  obtain ⟨hbeside, hfields, htables⟩ := collect_frame h
  refine ⟨new, h, ?_, ?_, ?_⟩
  · refine hbeside ["s", "q"] ?_
    intro field hf path hp
    rcases hnames field hf path hp with rfl | rfl <;> decide
  · obtain ⟨tree, path, value, -, hname, hgets, hstays⟩ :=
      hfields [⟨"n.r", "7"⟩, ⟨"s.p", "3"⟩] ⟨"s.p", ""⟩ [] rfl
    obtain rfl : path = ["s", "p"] := hname.unique (by rfl)
    have hnull : value = .null := hgets
    rw [hstays (by simp), hnull]
  · refine htables [] _ rfl ?_
    intro field hf path hp
    rcases hnames field hf path hp with rfl | rfl <;> decide

end TomlKeep
