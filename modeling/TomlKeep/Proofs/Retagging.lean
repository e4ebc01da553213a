/-
# Date-times that come back from JSON

JSON has no date-times, so a tree that was written as JSON has strings in their place.  A tree is
read from JSON beside the old one, its base, and a string becomes a date-time where the base has
one and the text is a date-time (`Value.ofJsonLike_eq_datetime_iff`).  Nothing else is touched:
with the date-times taken for strings again, the tree is the one that is read without a base
(`untagged_ofJsonLike`).

Both trees are walked at once, and where the base has nothing in the place of a JSON value, the
walk goes on as beside a `null`.  So what stands in any place comes from what stands there in the
JSON value and in the base (`spot?_ofJsonLike`).
-/
import TomlKeep.Json.Basic
import TomlKeep.Proofs.Entering

namespace TomlKeep

/-! ## 1. Places in a tree

A place is given from above, step by step, in the same words for trees and for JSON values.  It is
needed for arrays, which a path of keys does not enter.
-/

/-- A step into a tree: to what stands under a key, or to an item of an array. -/
inductive TreeStep where
  | key (key : String)
  | item (index : Nat)
  deriving DecidableEq, Repr

/-- What a step leads to. -/
def Value.step? : Value → TreeStep → Option Value
  | .table entries, .key key => Keyed.find? key entries
  | .array items, .item index => items[index]?
  | _, _ => none

/-- What stands in a place, which is given by the steps that lead there. -/
def Value.spot? (value : Value) : List TreeStep → Option Value
  | [] => some value
  | step :: place => (value.step? step).bind fun inner => inner.spot? place

/-- What a step leads to in a JSON value. -/
def Json.step? : Json → TreeStep → Option Json
  | .object members, .key key => Keyed.find? key members
  | .array items, .item index => items[index]?
  | _, _ => none

/-- What stands in a place of a JSON value. -/
def Json.spot? (json : Json) : List TreeStep → Option Json
  | [] => some json
  | step :: place => (json.step? step).bind fun inner => inner.spot? place

/-! ## 2. Reading beside a base

The walk goes on whether or not the base has something of the right form to offer.  A base that is
no array has no items, and one that is no table no entries, so one equation for each form of JSON
says what the walk does.
-/

namespace Value

/-- The items of an array; no other value has any. -/
def items : Value → List Value
  | .array items => items
  | _ => []

/-- The entries of a table; no other value has any. -/
def entries : Value → Table
  | .table entries => entries
  | _ => []

/-- An item is looked for among the items. -/
theorem step?_item (value : Value) (index : Nat) :
    value.step? (.item index) = value.items[index]? := by
  cases value <;> simp [step?, items]

/-- A key is looked for among the entries. -/
theorem step?_key (value : Value) (key : String) :
    value.step? (.key key) = Keyed.find? key value.entries := by
  cases value <;> rfl

/-- Without a base nothing is taken for a date-time. -/
theorem ofJsonLike_null (json : Json) : ofJsonLike json .null = ofJson json := by
  cases json <;> simp [ofJsonLike]

/-- Items are paired with those of the base, as long as there are any. -/
theorem itemsOfJsonLike_cons (json : Json) (rest : List Json) (base : List Value) :
    itemsOfJsonLike (json :: rest) base
      = ofJsonLike json (base.head?.getD .null) :: itemsOfJsonLike rest base.tail := by
  cases base <;> simp [itemsOfJsonLike, ofJsonLike_null]

/-- A member is paired with what stands under its key, wherever that is in the base. -/
theorem entriesOfJsonLike_cons (key : String) (json : Json) (rest : List (String × Json))
    (base : Table) : entriesOfJsonLike ((key, json) :: rest) base
      = (key, ofJsonLike json ((Keyed.find? key base).getD .null))
        :: entriesOfJsonLike rest base := by
  rw [entriesOfJsonLike]
  cases Keyed.find? key base <;> simp [ofJsonLike_null]

/-- Beside no items, items are read as they are without a base. -/
theorem itemsOfJsonLike_nil (items : List Json) : itemsOfJsonLike items [] = itemsOfJson items := by
  induction items with
  | nil => rfl
  | cons json rest ih => rw [itemsOfJsonLike, itemsOfJson, ih]

/-- Beside no entries, members are read as they are without a base. -/
theorem entriesOfJsonLike_nil (members : List (String × Json)) :
    entriesOfJsonLike members [] = entriesOfJson members := by
  induction members with
  | nil => rfl
  | cons m rest ih =>
    obtain ⟨key, json⟩ := m
    rw [entriesOfJsonLike, entriesOfJson, ih]
    rfl

/-- An array is read beside the items of the base, whatever the base is. -/
theorem ofJsonLike_array (list : List Json) (base : Value) :
    ofJsonLike (.array list) base = .array (itemsOfJsonLike list base.items) := by
  cases base <;> simp [ofJsonLike, ofJson, items, itemsOfJsonLike_nil]

/-- An object is read beside the entries of the base. -/
theorem ofJsonLike_object (members : List (String × Json)) (base : Value) :
    ofJsonLike (.object members) base = .table (entriesOfJsonLike members base.entries) := by
  cases base <;> simp [ofJsonLike, ofJson, entries, entriesOfJsonLike_nil]

/-- A string is a string or a date-time. -/
theorem ofJsonLike_string (text : String) (base : Value) :
    ofJsonLike (.string text) base = .string text
      ∨ ofJsonLike (.string text) base = .datetime text := by
  cases base with
  | datetime old =>
    rw [ofJsonLike]
    split <;> simp
  | _ => exact .inl (by simp [ofJsonLike, ofJson])

/-- **A value is a date-time** if its text is one and the base is a date-time, too. -/
theorem ofJsonLike_eq_datetime_iff {json : Json} {base : Value} {text : String} :
    ofJsonLike json base = .datetime text ↔ json = .string text ∧ (∃ old, base = .datetime old)
      ∧ (Datetime.canonical? text.toList).isSome = true := by
  -- only a string may become a date-time, and only beside one
  cases json with
  | string s =>
    cases base with
    | datetime old =>
      rw [ofJsonLike]
      split
      · next hs => simpa using fun h => h ▸ hs
      · next hs =>
        rw [Bool.not_eq_true, Option.isSome_eq_false_iff, Option.isNone_iff_eq_none] at hs
        simpa using fun h => h ▸ hs
    | _ => simp [ofJsonLike, ofJson]
  | array list => simp [ofJsonLike_array]
  | object members => simp [ofJsonLike_object]
  | _ => cases base <;> simp [ofJsonLike, ofJson]

/-- An item is read beside the item of its position. -/
theorem getElem?_itemsOfJsonLike (list : List Json) (base : List Value) (index : Nat) :
    (itemsOfJsonLike list base)[index]?
      = list[index]?.map fun json => ofJsonLike json (base[index]?.getD .null) := by
  induction list generalizing base index with
  | nil => simp [itemsOfJsonLike]
  | cons json rest ih =>
    rw [itemsOfJsonLike_cons]
    cases index with
    | zero => simp [List.head?_eq_getElem?]
    | succ index => simp [ih]

/-- The member that a look-up finds first is read beside the one it finds in the base. -/
theorem find?_entriesOfJsonLike (members : List (String × Json)) (base : Table) (key : String) :
    Keyed.find? key (entriesOfJsonLike members base) = (Keyed.find? key members).map fun json =>
      ofJsonLike json ((Keyed.find? key base).getD .null) := by
  induction members with
  | nil => rfl
  | cons m rest ih =>
    obtain ⟨k, json⟩ := m
    rw [entriesOfJsonLike_cons, Keyed.find?, Keyed.find?, ih]
    split
    · next hk => rw [hk, Option.map_some]
    · rfl

/-- **One step into the tree** is the same step into the JSON value and into the base. -/
theorem step?_ofJsonLike (json : Json) (base : Value) (step : TreeStep) :
    (ofJsonLike json base).step? step
      = (json.step? step).map fun inner => ofJsonLike inner ((base.step? step).getD .null) := by
  -- arrays have items, objects have keys, and into anything else no step leads
  cases json with
  | array list =>
    rw [ofJsonLike_array]
    cases step with
    | key key => rfl
    | item index => rw [step?_item, step?_item, items, getElem?_itemsOfJsonLike, Json.step?]
  | object members =>
    rw [ofJsonLike_object]
    cases step with
    | key key => rw [step?_key, step?_key, entries, find?_entriesOfJsonLike, Json.step?]
    | item index => rfl
  | string text => rcases ofJsonLike_string text base with h | h <;> rw [h] <;> rfl
  | _ => cases base <;> simp [ofJsonLike, ofJson, step?, Json.step?]

/-- **What stands in a place of the tree** comes from what stands there in the JSON value and in
the base. -/
theorem spot?_ofJsonLike : ∀ (place : List TreeStep) (json : Json) (base : Value),
    (ofJsonLike json base).spot? place
      = (json.spot? place).map fun inner => ofJsonLike inner ((base.spot? place).getD .null)
  | [], _, _ => rfl
  | step :: place, json, base => by
    rw [spot?, step?_ofJsonLike, Json.spot?]
    cases json.step? step with
    | none => rfl
    | some inner =>
      -- where the base ends on the way, there is nothing for the steps that remain either
      have hbase : (((base.step? step).getD .null).spot? place).getD .null
          = (base.spot? (step :: place)).getD .null := by
        rw [spot?]
        cases base.step? step with
        | some value => rfl
        | none => cases place <;> rfl
      rw [Option.map_some, Option.bind_some, Option.bind_some, spot?_ofJsonLike place inner, hbase]

end Value

/-! ## 3. Taking date-times for strings

That only tags are put on is said by taking them off again.  The tree is the same then as without a
base, with all its keys in their order, which a statement about single places would not show.
-/

mutual

/-- The tree with every date-time taken for the string of its text. -/
def Value.untagged : Value → Value
  | .datetime text => .string text
  | .array items => .array (untaggedItems items)
  | .table entries => .table (untaggedEntries entries)
  | value => value

/-- The items of an array with every date-time taken for a string. -/
def untaggedItems : List Value → List Value
  | [] => []
  | value :: rest => value.untagged :: untaggedItems rest

/-- The entries of a table with every date-time taken for a string. -/
def untaggedEntries : List (String × Value) → List (String × Value)
  | [] => []
  | (key, value) :: rest => (key, value.untagged) :: untaggedEntries rest

end

mutual

/-- **Reading beside a base changes nothing but the tags of strings,** not even the order of
keys. -/
theorem untagged_ofJsonLike : ∀ (json : Json) (base : Value),
    (Value.ofJsonLike json base).untagged = Value.ofJson json
  | .array items, base => by
    rw [Value.ofJsonLike_array, Value.untagged, untagged_itemsOfJsonLike items, Value.ofJson]
  | .object members, base => by
    rw [Value.ofJsonLike_object, Value.untagged, untagged_entriesOfJsonLike members, Value.ofJson]
  | .string text, base => by
    rcases Value.ofJsonLike_string text base with h | h <;> rw [h] <;> rfl
  | .null, base | .bool b, base | .integer n, base | .float x, base => by
    cases base <;> simp [Value.ofJsonLike, Value.ofJson, Value.untagged]

/-- The same for the items of an array. -/
theorem untagged_itemsOfJsonLike : ∀ (items : List Json) (base : List Value),
    untaggedItems (Value.itemsOfJsonLike items base) = Value.itemsOfJson items
  | [], _ => rfl
  | json :: rest, base => by
    rw [Value.itemsOfJsonLike_cons, untaggedItems, untagged_ofJsonLike json,
      untagged_itemsOfJsonLike rest, Value.itemsOfJson]

/-- The same for the entries of a table. -/
theorem untagged_entriesOfJsonLike : ∀ (members : List (String × Json)) (base : Table),
    untaggedEntries (Value.entriesOfJsonLike members base) = Value.entriesOfJson members
  | [], _ => rfl
  | (key, json) :: rest, base => by
    rw [Value.entriesOfJsonLike_cons, untaggedEntries, untagged_ofJsonLike json,
      untagged_entriesOfJsonLike rest, Value.entriesOfJson]

end

/-! ## 4. There and back

A tree that is its own base offers each value of it in the right place, if its keys are distinct.
What JSON cannot show is a float that is not finite, and what it cannot tag is a text that is no
date-time.
-/

/-- **A scalar that JSON can bring back:** a float is finite, and the text of a date-time is one. -/
def Value.IsJsonable : Value → Prop
  | .float x => x.isFinite = true
  | .datetime text => (Datetime.canonical? text.toList).isSome = true
  | _ => True

/-- The items of an array come back if each does beside itself. -/
theorem itemsOfJsonLike_toJson : ∀ {items : List Value},
    (∀ value ∈ items, Value.ofJsonLike value.toJson value = value) →
      Value.itemsOfJsonLike (Value.itemsToJson items) items = items
  | [], _ => rfl
  | value :: rest, h => by
    obtain ⟨hvalue, hrest⟩ := List.forall_mem_cons.mp h
    rw [Value.itemsToJson, Value.itemsOfJsonLike, hvalue, itemsOfJsonLike_toJson hrest]

/-- The entries of a table come back if each stands under its key in the base. -/
theorem entriesOfJsonLike_toJson {base : Table} : ∀ {entries : Table},
    (∀ key value, (key, value) ∈ entries →
      Keyed.find? key base = some value ∧ Value.ofJsonLike value.toJson value = value) →
      Value.entriesOfJsonLike (Value.entriesToJson entries) base = entries
  | [], _ => rfl
  | (key, value) :: rest, h => by
    obtain ⟨⟨hf, hvalue⟩, hrest⟩ := forall_entry_cons.mp h
    rw [Value.entriesToJson, Value.entriesOfJsonLike_cons, hf, Option.getD_some, hvalue,
      entriesOfJsonLike_toJson hrest]

/-- **A tree that was written as JSON comes back beside itself.** -/
theorem ofJsonLike_toJson {value : Value} :
    value.Holds Value.IsJsonable → Value.ofJsonLike value.toJson value = value := by
  induction value using Value.treeInduction with
  | scalar value hs =>
    rintro ⟨-, h⟩
    -- a float and a date-time are the scalars with a condition
    cases value with
    | array | table => cases hs
    | float x =>
      have hx : x.isFinite = true := h
      simp [Value.toJson, hx, Value.ofJsonLike, Value.ofJson]
    | datetime text =>
      have ht : (Datetime.canonical? text.toList).isSome = true := h
      simp [Value.toJson, Value.ofJsonLike, ht]
    | _ => simp [Value.toJson, Value.ofJsonLike, Value.ofJson]
  | array items ih =>
    intro h
    have hitems := holds_array_iff.mp h
    rw [Value.toJson, Value.ofJsonLike, itemsOfJsonLike_toJson fun v hm => ih v hm (hitems v hm)]
  | table entries ih =>
    intro h
    obtain ⟨hn, hentries⟩ := holds_table_iff.mp h
    have hback : Value.entriesOfJsonLike (Value.entriesToJson entries) entries = entries :=
      entriesOfJsonLike_toJson fun key v hm =>
        ⟨Keyed.find?_of_mem hn hm, ih key v hm (hentries key v hm)⟩
    rw [Value.toJson, Value.ofJsonLike, hback]

/-- **Reading JSON beside a base only tags strings.**  The tree is the one that is read without a
base, key by key in their order, but for date-times in the place of strings.  They stand exactly
where the base has a date-time and the JSON value a string that spells one.  So a tree with
distinct keys comes back from its own JSON beside itself, if its floats are finite and its
date-times are spelled well. -/
theorem ofJsonLike_retags :
    (∀ json base, (Value.ofJsonLike json base).untagged = Value.ofJson json)
    ∧ (∀ json base place text, (Value.ofJsonLike json base).spot? place = some (.datetime text)
      ↔ json.spot? place = some (.string text) ∧ (∃ old, base.spot? place = some (.datetime old))
        ∧ (Datetime.canonical? text.toList).isSome = true)
    ∧ ∀ tree : Value, tree.WellKeyed → tree.Scalars Value.IsJsonable →
      Value.ofJsonLike tree.toJson tree = tree := by
  refine ⟨untagged_ofJsonLike, ?_, fun tree hw hs => ofJsonLike_toJson ⟨hw, hs⟩⟩
  intro json base place text
  -- a place that is not there counts as a null value, which is no date-time
  have hbase (old : String) : (base.spot? place).getD .null = .datetime old
      ↔ base.spot? place = some (.datetime old) := by
    cases base.spot? place <;> simp
  rw [Value.spot?_ofJsonLike]
  simp only [Option.map_eq_some_iff, Value.ofJsonLike_eq_datetime_iff, hbase]
  constructor
  · rintro ⟨inner, hjson, rfl, hboth⟩
    exact ⟨hjson, hboth⟩
  · rintro ⟨hjson, hboth⟩
    exact ⟨_, hjson, rfl, hboth⟩

/-- A date-time and a text that is none, in an array that is longer than that of the base; and
the base, with a float in it, brought back from its own JSON. -/
theorem ofJsonLike_retags_array :
    let base := Value.table
      [("a", .array [.datetime "07:32:00", .datetime "2024-02-29", .float (.zero true)])]
    let json := Json.object
      [("a", .array [.string "07:32:00", .string "x", .null, .string "07:32:00"])]
    (Value.ofJsonLike json base).spot? [.key "a", .item 0] = some (.datetime "07:32:00")
      ∧ (∀ text, (Value.ofJsonLike json base).spot? [.key "a", .item 3] ≠ some (.datetime text))
      ∧ (Value.ofJsonLike json base).untagged = Value.ofJson json
      ∧ Value.ofJsonLike base.toJson base = base := by
  intro base json
  obtain ⟨huntagged, hplaces, hback⟩ := ofJsonLike_retags
  refine ⟨?_, ?_, huntagged json base, hback base ?_ ?_⟩
  · exact (hplaces _ _ _ _).mpr ⟨by rfl, ⟨"07:32:00", by rfl⟩, by decide⟩
  · intro text h
    obtain ⟨-, ⟨old, hold⟩, -⟩ := (hplaces _ _ _ _).mp h
    cases hold
  · simp [base, Value.WellKeyed, WellKeyedEntries, WellKeyedItems, Keyed.keys]
  · refine ⟨⟨?_, ?_, rfl, trivial⟩, trivial⟩ <;> simp only [Value.Scalars, Value.IsJsonable]
      <;> decide

end TomlKeep
