/-
# Keys that a form knows

Without leave to make new keys, a field is set where its key stands already, in a table that is
there.  There is one way around: a rule for the key gives the field a value without a look at the
document (`Rule.given?`), by its kind or as the `null` of an empty text, and then a key that is
missing in a table that is there is made (`Makes`).

* A field whose key is missing is set if and only if its rule makes the key
  (`setField_missing_iff`).
* So in a form that is collected each field found its key or had it made, and any other field
  whose key is missing fails the form (`collect_known_keys`).
-/
import TomlKeep.Proofs.Landing
import TomlKeep.Form

namespace TomlKeep

/-! ## 1. The value that a rule gives

A field is usually read as the kind of the value that stands under its key.  A rule may decide
without that value, and these are the only ways a field gets a value where nothing stands.
-/

/-- **The value that a rule gives a text by itself:** `null` for an empty text if it may be, and
otherwise the text read as the kind of the rule. -/
def Rule.given? (rule : Rule) (text : String) : Option Value :=
  if rule.nullable && text.isEmpty then some .null
  else rule.kind.bind fun kind => readAs? kind text

/-- Where nothing stands under the key yet, a field has the value that its rule gives, or none. -/
theorem fieldValue_missing_iff {field : Field} {rule : Option Rule} {value : Value} :
    fieldValue field rule false none = .ok value
      ↔ ∃ r, rule = some r ∧ r.given? field.text = some value := by
  cases rule with
  | none => simp [fieldValue]
  | some rule =>
    simp only [fieldValue, Option.any_some, Rule.given?, Option.bind_some, Option.some.injEq,
      exists_eq_left']
    -- the empty text of a nullable rule; any other text needs a kind to be read as
    split
    · simp
    · cases rule.kind with
      | none => simp
      | some kind =>
        simp only [coerce, Option.bind_some]
        cases readAs? kind field.text <;> simp

/-! ## 2. Changing a table that is there

A key of several parts leads through tables, and without leave none is made on the way.  So the
change is made if and only if the walk ends at a table, which is said in the two directions.
-/

variable {change : Table → Except FormError Table}

/-- A table is changed at a path only if it is there.  The change itself has gone well, too. -/
theorem changeAt_known {field : String} : ∀ {path : List String} {table new : Table},
    changeAt field false change path table = .ok new →
      ∃ inner inner', (Value.table table).at? path = some (.table inner) ∧ change inner = .ok inner'
  | [], table, new, h => ⟨table, new, rfl, h⟩
  | segment :: path, table, new, h => by
    -- the entry of the segment: none, a table, or another value; only the table goes on
    rw [changeAt] at h
    split at h
    · cases h
    · next inner hf =>
      cases hc : changeAt field false change path inner with
      | error e => simp [hc, Except.map] at h
      | ok inner' =>
        rw [at?_table, hf]
        exact changeAt_known hc
    · cases h

/-- If the walk ends at a table and the change goes well there, the whole goes well, and the
changed table stands at the path. -/
theorem changeAt_of_known (field : String) {inner inner' : Table} (hc : change inner = .ok inner') :
    ∀ {path : List String} {table : Table}, (Value.table table).at? path = some (.table inner) →
      ∃ new, changeAt field false change path table = .ok new
        ∧ (Value.table new).at? path = some (.table inner')
  | [], table, h => by
    obtain rfl : table = inner := by simpa [Value.at?] using h
    exact ⟨inner', hc, rfl⟩
  | segment :: path, table, h => by
    rw [at?_table] at h
    obtain ⟨value, hf, h⟩ := Option.bind_eq_some_iff.mp h
    obtain ⟨entries, rfl⟩ : ∃ entries, value = .table entries := by
      cases value with
      | table entries => exact ⟨entries, rfl⟩
      | _ => cases path <;> cases h
    obtain ⟨new, hn, ha⟩ := changeAt_of_known field hc h
    refine ⟨Keyed.insert segment (.table new) table, ?_, ?_⟩
    · rw [changeAt, hf]
      simp [hn, Except.map]
    · rw [at?_table, Keyed.find?_insert_self]
      exact ha

/-! ## 3. Setting one field

A field that is set without leave needs one of two things: its key is there, or the rule for it
makes it.  Where the key is missing, the second is also enough.
-/

/-- **A rule that makes a key:** the table of the key is there, and the rule for the key gives the
text of the field a value by itself. -/
structure Makes (rules : RuleSet) (text : String) (key : KeyPath) (tree value : Value) : Prop where
  parent : ∃ inner, tree.at? key.parts.dropLast = some (.table inner)
  rule : ∃ rule, Keyed.find? key.dotted rules = some rule ∧ rule.given? text = some value

variable {rules : RuleSet} {tree new : Value} {key : KeyPath}

/-- A field that is set finds its key, or the rule for it makes the key.  The three ways to fail
before that, a name that is no path, a tree that is no table and a path that does not lead to
one, are put aside in turn. -/
theorem known_of_setField {field : Field} (h : setField rules false field tree = .ok new) :
    ∃ key, KeyPath.parse field.name.toList = .ok key
      ∧ (tree.at? key.parts ≠ none ∨ ∃ value, Makes rules field.text key tree value) := by
  unfold setField at h
  split at h
  · cases h
  · next key hk =>
    refine ⟨key, hk, ?_⟩
    split at h
    · cases h
    · next last entries hlast =>
      cases hc : changeAt field.name false
          (setKey field (Keyed.find? key.dotted rules) false last) key.parts.dropLast entries with
      | error e => simp [hc, Except.map] at h
      | ok table =>
        obtain ⟨inner, inner', hparent, hset⟩ := changeAt_known hc
        have hparts : key.parts = key.parts.dropLast ++ [last] := by
          rw [List.dropLast_append_getLast? last hlast]
        have hat : (Value.table entries).at? (key.parts.dropLast ++ [last])
            = Keyed.find? last inner := at?_concat hparent
        rw [← hparts] at hat
        rw [hat]
        -- the key stands there, or the rule has given the value
        cases hf : Keyed.find? last inner with
        | some value => exact .inl (by simp)
        | none =>
          rw [setKey, hf] at hset
          cases hv : fieldValue field (Keyed.find? key.dotted rules) false none with
          | error e => simp [hv, Except.map] at hset
          | ok value => exact .inr ⟨value, ⟨inner, hparent⟩, fieldValue_missing_iff.mp hv⟩
    · cases h

/-- A key that a rule makes stands in the tree afterwards, with the value of the rule. -/
theorem setField_of_makes {field : Field} {value : Value}
    (hk : KeyPath.parse field.name.toList = .ok key) (hl : tree.at? key.parts = none)
    (hm : Makes rules field.text key tree value) :
    ∃ new, setField rules false field tree = .ok new ∧ new.at? key.parts = some value := by
  obtain ⟨inner, hparent⟩ := hm.parent
  obtain ⟨last, hlast⟩ : ∃ last, key.parts.getLast? = some last := by
    cases hparts : key.parts with
    | nil => simp [hparts, Value.at?] at hl
    | cons part parts => exact ⟨_, List.getLast?_eq_some_getLast (by simp)⟩
  have hparts : key.parts.dropLast ++ [last] = key.parts := List.dropLast_append_getLast? last hlast
  have hmissing : Keyed.find? last inner = none := by
    rw [← at?_concat hparent, hparts, hl]
  have hset : setKey field (Keyed.find? key.dotted rules) false last inner
      = .ok (Keyed.insert last value inner) := by
    rw [setKey, hmissing, fieldValue_missing_iff.mpr hm.rule]
    rfl
  obtain ⟨entries, rfl⟩ : ∃ entries, tree = .table entries := by
    cases tree with
    | table entries => exact ⟨entries, rfl⟩
    | _ => cases hpath : key.parts.dropLast <;> rw [hpath] at hparent <;> cases hparent
  obtain ⟨table, htable, hat⟩ := changeAt_of_known field.name hset hparent
  refine ⟨.table table, ?_, ?_⟩
  · unfold setField
    simp only [hk, hlast, htable, Except.map]
  · rw [← hparts, at?_concat hat, Keyed.find?_insert_self]

/-- **A field whose key is missing** is set if and only if the rule for the key makes it.  The
rule has to give the text a value, so a rule with a kind that the text does not fit makes no key. -/
theorem setField_missing_iff {field : Field} (hk : KeyPath.parse field.name.toList = .ok key)
    (hl : tree.at? key.parts = none) : (∃ new, setField rules false field tree = .ok new)
      ↔ ∃ value, Makes rules field.text key tree value := by
  constructor
  · rintro ⟨new, h⟩
    obtain ⟨key', hk', hknown⟩ := known_of_setField h
    obtain rfl : key = key' := Except.ok.inj (hk.symm.trans hk')
    exact hknown.resolve_left fun hne => hne hl
  · rintro ⟨value, hm⟩
    obtain ⟨new, h, -⟩ := setField_of_makes hk hl hm
    exact ⟨new, h⟩

/-! ## 4. Collecting a form

The fields are set one after the other, each in the tree that the ones before it left.  A key that
an earlier field made is one that a later field finds.
-/

/-- A form may be cut anywhere: its front is collected first and its end in the tree of the
front. -/
theorem collect_append (allowNew : Bool) (after : List Field) : ∀ (before : List Field)
    (base : Value), collect rules allowNew (before ++ after) base
      = (collect rules allowNew before base).bind (collect rules allowNew after)
  | [], _ => rfl
  | field :: before, base => by
    rw [List.cons_append, collect, collect]
    cases setField rules allowNew field base with
    | error e => rfl
    | ok tree => exact collect_append allowNew after before tree

/-- A form that is collected, field by field. -/
theorem collect_cons_eq_ok {allowNew : Bool} {field : Field} {rest : List Field} :
    collect rules allowNew (field :: rest) tree = .ok new
      ↔ ∃ next, setField rules allowNew field tree = .ok next
        ∧ collect rules allowNew rest next = .ok new := by
  rw [collect]
  cases setField rules allowNew field tree <;> simp

/-- A form that is collected was collected up to any of its fields. -/
theorem collect_append_eq_ok {allowNew : Bool} {before after : List Field} {base : Value} :
    collect rules allowNew (before ++ after) base = .ok new
      ↔ ∃ tree, collect rules allowNew before base = .ok tree
        ∧ collect rules allowNew after tree = .ok new := by
  rw [collect_append]
  cases collect rules allowNew before base <;> simp [Except.bind]

/-- **A form without leave to make keys,** collected so far to the tree `new`.  Every field found
its whole key in the tree as it stood just before, or else its rule made the key.  A further
field whose key is missing fails the form, whatever follows it, unless its rule makes the key;
and then the key stands in the tree. -/
theorem collect_known_keys {fields : List Field} {base : Value}
    (h : collect rules false fields base = .ok new) :
    (∀ before field after, fields = before ++ field :: after →
      ∃ tree key, collect rules false before base = .ok tree
        ∧ KeyPath.parse field.name.toList = .ok key
        ∧ (tree.at? key.parts ≠ none ∨ ∃ value, Makes rules field.text key tree value))
    ∧ ∀ field key, KeyPath.parse field.name.toList = .ok key → new.at? key.parts = none →
      ((∀ value, ¬ Makes rules field.text key new value) →
        ∀ after, ∃ e, collect rules false (fields ++ field :: after) base = .error e)
      ∧ ∀ value, Makes rules field.text key new value →
        ∃ new', collect rules false (fields ++ [field]) base = .ok new'
          ∧ new'.at? key.parts = some value := by
  refine ⟨fun before field after hfields => ?_, fun field key hk hl => ⟨fun hno after => ?_,
    fun value hm => ?_⟩⟩
  -- a field in the middle: the form up to it was collected, and it was set in that tree
  · rw [hfields] at h
    obtain ⟨tree, hb, hrest⟩ := collect_append_eq_ok.mp h
    obtain ⟨next, hset, -⟩ := collect_cons_eq_ok.mp hrest
    obtain ⟨key, hk, hknown⟩ := known_of_setField hset
    exact ⟨tree, key, hb, hk, hknown⟩
  -- a further field that no rule helps: setting it fails, and so does the form
  · rw [collect_append, h, Except.bind, collect]
    cases hset : setField rules false field new with
    | error e => exact ⟨e, rfl⟩
    | ok tree =>
      obtain ⟨value, hm⟩ := (setField_missing_iff hk hl).mp ⟨tree, hset⟩
      exact absurd hm (hno value)
  -- a further field that its rule helps
  · obtain ⟨new', hset, hat⟩ := setField_of_makes hk hl hm
    refine ⟨new', ?_, hat⟩
    rw [collect_append, h, Except.bind, collect, hset]
    rfl

/-- A field finds its key in a section, and another one whose key is missing there fails the
form. -/
theorem collect_known_keys_section :
    let base := Value.table [("s", .table [("p", .integer 1)])]
    let fields : List Field := [⟨"s.p", "2"⟩]
    collect [] false fields base = .ok (.table [("s", .table [("p", .integer 2)])])
      ∧ (∃ tree key, collect [] false [] base = .ok tree
        ∧ KeyPath.parse ['s', '.', 'p'] = .ok key ∧ tree.at? key.parts ≠ none)
      ∧ ∃ e, collect [] false (fields ++ [⟨"s.q", "3"⟩]) base = .error e := by
  intro base fields
  have h : collect [] false fields base = .ok (.table [("s", .table [("p", .integer 2)])]) := by rfl
  have hno (text : String) (key : KeyPath) (tree value : Value) :
      ¬ Makes [] text key tree value := by
    rintro ⟨-, rule, hr, -⟩
    cases hr
  obtain ⟨hfound, hnext⟩ := collect_known_keys h
  obtain ⟨tree, key, hb, hk, hat⟩ := hfound [] _ [] rfl
  refine ⟨h, ⟨tree, key, hb, hk, hat.resolve_right fun ⟨value, hm⟩ => hno _ _ _ value hm⟩, ?_⟩
  exact (hnext ⟨"s.q", "3"⟩ ⟨["s", "q"]⟩ (by rfl) (by rfl)).1 (hno _ _ _) []

/-- A rule with a kind makes a key that the document lacks, without leave to make any. -/
theorem collect_makes_key :
    let rules : RuleSet := [("a", { kind := some .integer })]
    KeyPath.parse ['a'] = .ok ⟨["a"]⟩ ∧ (Value.table []).at? ["a"] = none
      ∧ collect rules false [⟨"a", "1"⟩] (.table []) = .ok (.table [("a", .integer 1)]) :=
  ⟨by rfl, by rfl, by rfl⟩

end TomlKeep
