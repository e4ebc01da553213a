/-
# Forms that are sent back as they were

A form shows scalars of a document: each field has the path of one in quotes for its name, a
string as it is for its text, and any other scalar by its literal (`Field.Shows`).  If the form
is sent back without an edit, nothing changes, down to the order of the keys (`collect_shown`).

Three readers have to bring back what was shown.  The name is read as the path
(`parse_quotedPath`); the text is read as the kind of the value that stands there, and this gives
the value (`readAs?_shown`); and a value that is put where it stands already leaves its table
alone (`changeAt_self`).

Floats that are not finite are not shown.  They are written `0`, and this is read as another
float.
-/
import TomlKeep.Proofs.FormFrame
import TomlKeep.Proofs.LiteralLines
import TomlKeep.Proofs.PatchSoundness
import TomlKeep.Proofs.QuotedPaths

namespace TomlKeep

open Text Toml

/-! ## 1. What a form shows

A null value, an array and a table have no text of this kind, so a form shows scalars only.
-/

/-- The text by which a form shows a value: a string as it is, and any other scalar as its
literal. -/
def Value.shown? : Value → Option (List Char)
  | .null => none
  | .string s => some s.toList
  | .float x => if x.isFinite then (Value.float x).literal? else none
  | value => value.literal?

/-- **A field that shows what stands in a tree,** under the path in quotes. -/
def Field.Shows (field : Field) (tree : Value) : Prop :=
  ∃ path value text, tree.at? path = some value ∧ value.shown? = some text
    ∧ field = ⟨String.ofList (quotedPath path), String.ofList text⟩

/-- A scalar that a form shows can be written. -/
theorem isWritable_of_shown? {value : Value} {text : List Char} (hr : value.IsRead)
    (h : value.shown? = some text) : value.IsWritable := by
  -- what is not plain is written as a zero: a float that is not finite, and it is not shown
  rcases isPlain_of_isRead hr with hw | hz
  · exact hw
  · cases value with
    | integer n => exact ⟨rfl, by simp⟩
    | float x =>
      have hx : x.isFinite = false := hz
      simp [Value.shown?, hx] at h
    | _ => exact absurd hz id

/-! ## 2. The text is read back

A string is its own text, and needs no reader.  Any other scalar is read as the value of an entry of
a document of its own, so the readers of a document are asked, and what they bring back of a literal
is known.
-/

/-- A word has no blank in it. -/
theorem isBlank_of_isWordChar {c : Char} (h : isWordChar c = true) : isBlank c = false := by
  simp only [isWordChar, Bool.or_eq_true, beq_iff_eq] at h
  rcases h with (((h | rfl) | rfl) | rfl) | rfl
  · exact not_isBlank_of_isBareKeyChar (by simp [isBareKeyChar, h])
  all_goals decide

/-- Nothing is trimmed off a literal. -/
theorem IsLiteral.trim_eq {literal : List Char} (h : IsLiteral literal) :
    trim literal = literal := by
  refine trim_of_ends ?_
  intro c hc
  -- a string begins and ends with its quotes, a word with characters of words
  cases h with
  | quoted text =>
    have hquote : '"' = c := by
      rcases hc with hc | hc
      · exact Option.some.inj hc
      · rw [quote, List.getLast?_concat] at hc
        exact Option.some.inj hc
    subst hquote
    decide
  | word _ hw =>
    exact isBlank_of_isWordChar (hw c (hc.elim List.mem_of_mem_head? List.mem_of_mem_getLast?))

/-- **The literal of a scalar is read back from the text of a field.** -/
theorem readLiteral?_literal {value : Value} (hv : value.IsWritable) {literal : List Char}
    (h : value.literal? = some literal) : readLiteral? literal = some value := by
  have hl : IsLiteral literal := isLiteral_of_literal? hv.1 h
  have hnothing : IsGapText [] := List.forall_mem_nil _
  have hrest : LineRest [] := lineRest_of_isTextComment hnothing (.inl rfl) .none
  have hread : readStrict (['v', ' ', '=', ' '] ++ literal) = .ok (.table [("v", value)]) := by
    have hassigned := readStrict_assigned "v" hnothing hl (hv.scalarOf? h) hrest
    rwa [List.append_nil] at hassigned
  have hfeed : literal.contains '\n' = false := by
    simpa using hl.not_mem (d := '\n') (by decide)
  have hne : literal.isEmpty = false := by
    cases hl with
    | quoted text => rfl
    | word hne _ => simpa using hne
  -- the text is not empty and has no line feed, so it is read as a line
  simp only [readLiteral?, hl.trim_eq, hne, hfeed, Bool.or_self, Bool.false_eq_true, if_false,
    hread, at?_table, Keyed.find?, if_true]
  rfl

/-- **The text of a value is read as its kind,** and gives the value. -/
theorem readAs?_shown {value : Value} {text : List Char} (hr : value.IsRead)
    (h : value.shown? = some text) :
    ∃ kind, Kind.ofValue? value = some kind ∧ readAs? kind (String.ofList text) = some value := by
  have hw : value.IsWritable := isWritable_of_shown? hr h
  -- by the kinds of scalars; a float is the only kind with a reader of its own
  cases value with
  | null | array _ | table _ => cases h
  | string s =>
    obtain rfl := Option.some.inj h
    exact ⟨.string, rfl, by rw [readAs?, String.ofList_toList]⟩
  | bool b =>
    obtain rfl := Option.some.inj h
    exact ⟨.bool, rfl, by cases b <;> rfl⟩
  | integer n =>
    exact ⟨.integer, rfl, by simp [readAs?, readLiteral?_literal hw h, Kind.admits]⟩
  | float x =>
    have hl : (Value.float x).literal? = some text := (Option.ite_none_right_eq_some.mp h).2
    refine ⟨.float, rfl, ?_⟩
    rw [readAs?, String.toList_ofList, readLiteral?_literal hw hl]
  | datetime t =>
    exact ⟨.datetime, rfl, by simp [readAs?, readLiteral?_literal hw h, Kind.admits]⟩

/-! ## 3. A value is put where it stands

A field puts its value by rebuilding the tables on the way.  If the value is the one that is there,
each of them is rebuilt as it was.
-/

/-- A value that is put under the key where it stands changes nothing. -/
theorem Keyed.insert_of_find? {α : Type} {key : String} {value : α} :
    ∀ {entries : List (String × α)},
    Keyed.find? key entries = some value → Keyed.insert key value entries = entries
  | [], h => by cases h
  | (k, v) :: rest, h => by
    rw [Keyed.find?] at h
    rw [Keyed.insert]
    split at h
    · next hk =>
      obtain rfl := Option.some.inj h
      rw [if_pos hk]
    · next hk => rw [if_neg hk, Keyed.insert_of_find? h]

/-- **Nothing is changed at a path** if the table there is left as it is. -/
theorem changeAt_self {field : String} {allowNew : Bool} {change : Table → Except FormError Table}
    {inner : Table} (hc : change inner = .ok inner) : ∀ {path : List String} {table : Table},
      (Value.table table).at? path = some (.table inner) →
        changeAt field allowNew change path table = .ok table
  | [], table, h => by
    obtain rfl : table = inner := by simpa [Value.at?] using h
    exact hc
  | segment :: path, table, h => by
    rw [at?_table] at h
    obtain ⟨value, hf, h⟩ := Option.bind_eq_some_iff.mp h
    obtain ⟨below, rfl⟩ := exists_table_of_at? h
    rw [changeAt, hf]
    simp only [changeAt_self hc h, Except.map, Keyed.insert_of_find? hf]

variable {rules : RuleSet} {allowNew : Bool} {tree : Value}

/-- **A field that gets the value that stands at its path** changes nothing. -/
theorem setField_self {field : Field} {path : List String} {value : Value}
    (hname : field.Names path) (hne : path ≠ []) (hat : tree.at? path = some value)
    (hgets : fieldValue field (Keyed.find? (KeyPath.mk path).dotted rules) allowNew (some value)
      = .ok value) : setField rules allowNew field tree = .ok tree := by
  -- the table of the key is there, and so are the tables on the way to it
  obtain ⟨place, key, rfl⟩ := (List.eq_nil_or_concat' path).resolve_left hne
  obtain ⟨table, hplace, hkey⟩ := exists_table_of_at?_concat hat
  obtain ⟨entries, rfl⟩ := exists_table_of_at? hplace
  have hset :
      setKey field (Keyed.find? (KeyPath.mk (place ++ [key])).dotted rules) allowNew key table
      = .ok table := by
    rw [setKey, hkey, hgets, Except.map, Keyed.insert_of_find? hkey]
  have hchange : changeAt field.name allowNew
      (setKey field (Keyed.find? (KeyPath.mk (place ++ [key])).dotted rules) allowNew key)
      place entries = .ok entries := changeAt_self hset hplace
  rw [Field.Names] at hname
  simp only [setField, hname, List.getLast?_concat, List.dropLast_concat, hchange, Except.map]

/-- **A field that shows what stands in a tree** leaves the tree as it is.  There are no rules,
so the text is read as the kind of the value that stands there. -/
theorem setField_shown {field : Field} (htree : tree.shown? = none)
    (hread : tree.Holds Value.IsRead) (h : field.Shows tree) :
    setField [] allowNew field tree = .ok tree := by
  obtain ⟨path, value, text, hat, hshown, rfl⟩ := h
  have hne : path ≠ [] := by
    rintro rfl
    obtain rfl : tree = value := Option.some.inj hat
    rw [htree] at hshown
    cases hshown
  have hscalar : value.isScalar = true := by cases value <;> first | rfl | cases hshown
  have hvalue : value.IsRead := (scalars_of_isScalar hscalar).mp (hread.at? hat).2
  obtain ⟨kind, hkind, hback⟩ := readAs?_shown hvalue hshown
  refine setField_self ?_ hne hat ?_
  · rw [Field.Names, String.toList_ofList]
    exact parse_quotedPath hne
  · simp [Keyed.find?, fieldValue, coerce, hkind, hback]

/-- **A form that is sent back as it was shown** changes nothing: the tree is the one that was
read, with all its keys in their order.  By induction on the fields: each finds the tree as the
one before it did. -/
theorem collect_shown {text : List Char} {base : Value} (h : readRelaxed text = .ok base) :
    ∀ {fields : List Field}, (∀ field ∈ fields, field.Shows base) →
      collect [] allowNew fields base = .ok base
  | [], _ => rfl
  | field :: rest, hshown => by
    obtain ⟨entries, rfl, hread⟩ := holds_of_readRelaxed h
    obtain ⟨hfield, hrest⟩ := List.forall_mem_cons.mp hshown
    exact collect_cons_eq_ok.mpr ⟨_, setField_shown rfl hread hfield, collect_shown h hrest⟩

/-- A form with a string under a quoted key, and a date-time and a truth value in a section. -/
theorem collect_shown_section :
    let text :=
      ['"', 'a', '.', 'b', '"', ' ', '=', ' ', 'x', '\n', '[', 's', ']', '\n', 'd', ' ', '=', ' ',
      '2', '0', '2', '4', '-', '0', '2', '-', '2', '9', '\n', 'p', ' ', '=', ' ', 't', 'r', 'u',
      'e', '\n']
    let base := Value.table
      [("a.b", .string "x"), ("s", .table [("d", .datetime "2024-02-29"), ("p", .bool true)])]
    readRelaxed text = .ok base
      ∧ collect [] false
          [⟨"\"s\".\"d\"", "2024-02-29"⟩, ⟨"\"a.b\"", "x"⟩, ⟨"\"s\".\"p\"", "true"⟩] base
            = .ok base := by
  intro text base
  have h : readRelaxed text = .ok base := by rfl
  refine ⟨h, collect_shown h ?_⟩
  simp only [List.forall_mem_cons, List.not_mem_nil, false_implies, implies_true, and_true]
  exact ⟨⟨["s", "d"], .datetime "2024-02-29", "2024-02-29".toList, by rfl, by rfl, by rfl⟩,
    ⟨["a.b"], .string "x", ['x'], by rfl, by rfl, by rfl⟩,
    ⟨["s", "p"], .bool true, ['t', 'r', 'u', 'e'], by rfl, by rfl, by rfl⟩⟩

end TomlKeep
