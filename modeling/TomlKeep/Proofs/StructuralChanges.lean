/-
# What counts as a structural change

Two tables at one path of both trees differ in structure at a key if only one of them has the
key, or if what stands under it cannot be compared (`Comparable`): it is neither a table twice,
nor a scalar twice, nor the same value.  The structural changes of a difference are the dotted
forms of these keys, at every depth (`mem_structural_difference`).

So a difference is free of them exactly if the tables that both trees have agree in this way at
every key (`structural_eq_nil_iff`).  Below a value that cannot be compared nothing is looked at,
since no path leads through it in both trees.

Said along the trees and not path by path, such trees agree but for their scalars (`Corresponds
AnyScalars`, `structural_eq_nil_iff_corresponds`).  What else is asked of the scalars can be
asked path by path as well (`corresponds_iff`).
-/
import TomlKeep.Proofs.Trees

namespace TomlKeep

/-! ## 1. Comparable values

A change is structural where a patch could not express it.  That is a matter of two values at one
key: what can be compared needs no structural change there, though there may be one further down,
and what cannot be compared is not looked into.
-/

/-- **Two values that differ in scalars at most,** as far as their kind tells: two tables, two
scalars, or the same value twice. -/
def Comparable (old new : Value) : Prop :=
  (∃ x y, old = .table x ∧ new = .table y) ∨ (old.isScalar = true ∧ new.isScalar = true)
    ∨ old.same new = true

/-- **A structural change below `target`:** a key of a table that both trees have, under which
they do not have comparable values. -/
def StructuralAt (target : SectionPath) (old new : Table) (change : String) : Prop :=
  ∃ path x y key, (Value.table old).at? path = some (.table x)
    ∧ (Value.table new).at? path = some (.table y)
    ∧ ¬ Option.Rel Comparable (Keyed.find? key x) (Keyed.find? key y)
    ∧ change = SectionPath.qualify ⟨target.parts ++ path⟩ key

/-- A table changes in structure at a key of its own, or in a table under one of its keys. -/
theorem structuralAt_iff {target : SectionPath} {old new : Table} {change : String} :
    StructuralAt target old new change ↔
      (∃ key, ¬ Option.Rel Comparable (Keyed.find? key old) (Keyed.find? key new)
        ∧ change = target.qualify key)
      ∨ ∃ key x y, Keyed.find? key old = some (.table x) ∧ Keyed.find? key new = some (.table y)
        ∧ StructuralAt (target.child key) x y change := by
  constructor
  · rintro ⟨path, x, y, key, hx, hy, hkey, hchange⟩
    -- at a key of the table itself, or below the first key of the path
    cases path with
    | nil =>
      obtain rfl := Value.table.inj (Option.some.inj hx)
      obtain rfl := Value.table.inj (Option.some.inj hy)
      exact .inl ⟨key, hkey, by simpa using hchange⟩
    | cons k path =>
      rw [at?_table] at hx hy
      obtain ⟨v, hv, hx⟩ := Option.bind_eq_some_iff.mp hx
      obtain ⟨w, hw, hy⟩ := Option.bind_eq_some_iff.mp hy
      obtain ⟨x', rfl⟩ := exists_table_of_at? hx
      obtain ⟨y', rfl⟩ := exists_table_of_at? hy
      refine .inr ⟨k, x', y', hv, hw, path, x, y, key, hx, hy, hkey, ?_⟩
      simpa [SectionPath.child] using hchange
  · rintro (⟨key, hkey, hchange⟩ | ⟨k, x', y', hv, hw, path, x, y, key, hx, hy, hkey, hchange⟩)
    · exact ⟨[], old, new, key, rfl, rfl, hkey, by simpa using hchange⟩
    · refine ⟨k :: path, x, y, key, ?_, ?_, hkey, ?_⟩
      · rw [at?_table, hv]
        exact hx
      · rw [at?_table, hw]
        exact hy
      · simpa [SectionPath.child] using hchange

/-! ## 2. The structural changes of a difference

The difference collects dotted keys on its way down.  For each of its parts it is said which keys
are collected, and the recursion is closed by induction on the old value.
-/

/-- Keys that only the new table has. -/
theorem mem_structural_addedKeys {target : SectionPath} {old : Table} {change : String} :
    ∀ {new : List (String × Value)}, change ∈ (addedKeys target old new).structural
      ↔ ∃ key ∈ Keyed.keys new, Keyed.find? key old = none ∧ change = target.qualify key
  | [] => by simp [addedKeys, Difference.empty, Keyed.keys]
  | (key, _) :: rest => by
    have ih := @mem_structural_addedKeys target old change rest
    simp only [addedKeys, Keyed.keys, List.map_cons, List.exists_mem_cons_iff]
    simp only [Keyed.keys] at ih
    cases hc : Keyed.find? key old with
    | some v => simp [Keyed.contains, hc, ih]
    | none => simp [Keyed.contains, hc, ih, Difference.append, Difference.ofKey]

/-- The structural changes under the keys of the old table. -/
theorem mem_structural_differEntries {target : SectionPath} {new : Table} {change : String} :
    ∀ {old : List (String × Value)}, change ∈ (differEntries target new old).structural
      ↔ ∃ key v, (key, v) ∈ old ∧ match Keyed.find? key new with
        | some w => change ∈ (differValue target key v w).structural
        | none => change = target.qualify key
  | [] => by simp [differEntries, Difference.empty]
  | (key, value) :: rest => by
    have ih := @mem_structural_differEntries target new change rest
    rw [differEntries, Difference.append, List.mem_append, ih]
    constructor
    -- under the first key, or under a later one
    · rintro (h | ⟨k, v, hm, h⟩)
      · refine ⟨key, value, List.mem_cons_self, ?_⟩
        cases hf : Keyed.find? key new with
        | some w => simpa [hf] using h
        | none => simpa [hf, Difference.ofKey] using h
      · exact ⟨k, v, List.mem_cons_of_mem _ hm, h⟩
    · rintro ⟨k, v, hm, h⟩
      rcases List.mem_cons.mp hm with he | hm
      · obtain ⟨rfl, rfl⟩ := Prod.mk.inj he
        refine .inl ?_
        cases hf : Keyed.find? k new with
        | some w => simpa [hf] using h
        | none => simpa [hf, Difference.ofKey] using h
      · exact .inr ⟨k, v, hm, h⟩

/-- Values that are not both tables change in structure if they cannot be compared. -/
theorem mem_structural_of_not_tables {target : SectionPath} {key : String} {old new : Value}
    {change : String} (h : old.entries? = none ∨ new.entries? = none) :
    change ∈ (differValue target key old new).structural
      ↔ ¬ Comparable old new ∧ change = target.qualify key := by
  -- two tables are excluded, so the values are two scalars or the same
  have hcomparable : Comparable old new
      ↔ (old.isScalar = true ∧ new.isScalar = true) ∨ old.same new = true := by
    refine or_iff_right ?_
    rintro ⟨x, y, rfl, rfl⟩
    rcases h with h | h <;> cases h
  rw [differValue_of_not_tables h, hcomparable, isScalar_iff_literal?, isScalar_iff_literal?]
  -- the literals of two scalars make an instruction or nothing; anything else is compared as it is
  cases ho : old.literal? with
  | some before =>
    cases hn : new.literal? with
    | some after =>
      have hnone : (Difference.ofLiterals target key before after).structural = [] := by
        unfold Difference.ofLiterals
        split <;> rfl
      simp [hnone]
    | none => cases hs : old.same new <;> simp [Difference.ofKey, Difference.empty]
  | none => cases hs : old.same new <;> simp [Difference.ofKey, Difference.empty]

/-- The structural changes of two tables, from those under their keys. -/
theorem mem_structural_tables {target : SectionPath} {old new : Table} {change : String}
    (hn : (Keyed.keys old).Nodup)
    (h : ∀ key v, (key, v) ∈ old → ∀ w, change ∈ (differValue target key v w).structural
      ↔ (¬ Comparable v w ∧ change = target.qualify key)
        ∨ ∃ x y, v = .table x ∧ w = .table y ∧ StructuralAt (target.child key) x y change) :
    change ∈ ((differEntries target new old).append (addedKeys target old new)).structural
      ↔ StructuralAt target old new change := by
  rw [Difference.append, List.mem_append, mem_structural_differEntries, mem_structural_addedKeys,
    structuralAt_iff]
  constructor
  -- a key that is gone, a change below a key that both have, or a key that has come
  · rintro (⟨key, v, hm, hchange⟩ | ⟨key, hm, hold, rfl⟩)
    · have hf := Keyed.find?_of_mem hn hm
      cases hnew : Keyed.find? key new with
      | none =>
        rw [hnew] at hchange
        refine .inl ⟨key, ?_, hchange⟩
        rw [hf, hnew]
        rintro ⟨⟩
      | some w =>
        rw [hnew] at hchange
        rcases (h key v hm w).mp hchange with ⟨hc, rfl⟩ | ⟨x, y, rfl, rfl, hdeep⟩
        · refine .inl ⟨key, ?_, rfl⟩
          rw [hf, hnew]
          rintro ⟨hc'⟩
          exact hc hc'
        · exact .inr ⟨key, x, y, hf, hnew, hdeep⟩
    · obtain ⟨w, hnew⟩ := Option.isSome_iff_exists.mp (mem_keys_iff.mp hm)
      refine .inl ⟨key, ?_, rfl⟩
      rw [hold, hnew]
      rintro ⟨⟩
  · rintro (⟨key, hkey, rfl⟩ | ⟨key, x, y, hold, hnew, hdeep⟩)
    -- a key that only the new table has, or one of the old table
    · cases hold : Keyed.find? key old with
      | none =>
        refine .inr ⟨key, ?_, hold, rfl⟩
        cases hnew : Keyed.find? key new with
        | none =>
          rw [hold, hnew] at hkey
          exact absurd .none hkey
        | some w => exact List.mem_map.mpr ⟨_, Keyed.find?_mem hnew, rfl⟩
      | some v =>
        refine .inl ⟨key, v, Keyed.find?_mem hold, ?_⟩
        cases hnew : Keyed.find? key new with
        | none => rfl
        | some w =>
          refine (h key v (Keyed.find?_mem hold) w).mpr (.inl ⟨fun hc => hkey ?_, rfl⟩)
          rw [hold, hnew]
          exact .some hc
    · have hm := Keyed.find?_mem hold
      refine .inl ⟨key, _, hm, ?_⟩
      rw [hnew]
      exact (h key _ hm _).mpr (.inr ⟨x, y, rfl, rfl, hdeep⟩)

/-- **The structural changes under one key:** the key itself, or keys of the tables under it.
Both cannot be, for two tables are comparable. -/
theorem mem_structural_differValue {old : Value} : ∀ {target : SectionPath} {key : String}
    {new : Value} {change : String}, old.WellKeyed →
      (change ∈ (differValue target key old new).structural
        ↔ (¬ Comparable old new ∧ change = target.qualify key)
          ∨ ∃ x y, old = .table x ∧ new = .table y
            ∧ StructuralAt (target.child key) x y change) := by
  induction old using Value.treeInduction with
  | scalar old hs =>
    intro target key new change _
    have hnone : old.entries? = none := by cases old <;> first | rfl | cases hs
    rw [mem_structural_of_not_tables (.inl hnone), or_iff_left]
    rintro ⟨x, y, rfl, -⟩
    cases hs
  | array items =>
    intro target key new change _
    rw [mem_structural_of_not_tables (.inl rfl), or_iff_left]
    rintro ⟨x, y, hx, -⟩
    cases hx
  | table old ih =>
    intro target key new change hw
    have hentries := wellKeyedEntries_iff.mp hw.2
    -- two tables are looked into; a table against anything else is a change of its key
    by_cases hnew : ∃ entries, new = .table entries
    · obtain ⟨entries, rfl⟩ := hnew
      have hcomparable : Comparable (.table old) (.table entries) := .inl ⟨old, entries, rfl, rfl⟩
      rw [differValue, mem_structural_tables hw.1 fun k v hm w => ih k v hm (hentries k v hm)]
      simp [hcomparable]
    · have hnone : new.entries? = none := by
        cases new <;> first | rfl | exact absurd ⟨_, rfl⟩ hnew
      rw [mem_structural_of_not_tables (.inr hnone), or_iff_left]
      rintro ⟨x, y, -, hy, -⟩
      exact hnew ⟨y, hy⟩

/-- **The structural changes of a difference** are the keys at which tables of both trees do not
have comparable values. -/
theorem mem_structural_difference {old new : Table} (hw : (Value.table old).WellKeyed)
    {change : String} : change ∈ (difference (.table old) (.table new)).structural
      ↔ StructuralAt .root old new change := by
  have hentries := wellKeyedEntries_iff.mp hw.2
  rw [difference]
  exact mem_structural_tables hw.1 fun k v hm w => mem_structural_differValue (hentries k v hm)

/-- **A difference is not structural** exactly if every two tables at one path of both trees have
the same keys, and comparable values under each of them.  Nothing is asked of the dotted keys any
more, which need not tell two paths apart. -/
theorem structural_eq_nil_iff {old new : Table} (hw : (Value.table old).WellKeyed) :
    (difference (.table old) (.table new)).structural = [] ↔
      ∀ path x y, (Value.table old).at? path = some (.table x) →
        (Value.table new).at? path = some (.table y) →
          ∀ key, Option.Rel Comparable (Keyed.find? key x) (Keyed.find? key y) := by
  rw [List.eq_nil_iff_forall_not_mem]
  constructor
  · intro h path x y hx hy key
    by_contra hkey
    exact h _ ((mem_structural_difference hw).mpr ⟨path, x, y, key, hx, hy, hkey, rfl⟩)
  · intro h change hm
    obtain ⟨path, x, y, key, hx, hy, hkey, -⟩ := (mem_structural_difference hw).mp hm
    exact hkey (h path x y hx hy key)

/-! ## 3. Trees that agree

That two trees agree is defined along their tables, and what the scalars have to do with each other
is left open.  Path by path the same is said by what stands at each path of both trees; the second
form is what the lemmas on differences give, the first is good for induction.
-/

/-- **Two trees that agree:** tables in their keys and in what stands under them, arrays in every
item, and scalars elsewhere as `r` tells. -/
inductive Corresponds (r : Value → Value → Prop) : Value → Value → Prop where
  | scalar {old new : Value} : old.isScalar = true → new.isScalar = true → r old new →
      Corresponds r old new
  | array {old new : List Value} : (Value.array old).same (.array new) = true →
      Corresponds r (.array old) (.array new)
  | table {old new : Table} : (∀ key, Keyed.contains key old = Keyed.contains key new) →
      (∀ key v w, Keyed.find? key old = some v → Keyed.find? key new = some w →
        Corresponds r v w) → Corresponds r (.table old) (.table new)

/-- Two tables agree if they have the same keys, and agree under each. -/
theorem corresponds_table_iff {r : Value → Value → Prop} {old new : Table} :
    Corresponds r (.table old) (.table new) ↔
      (∀ key, Keyed.contains key old = Keyed.contains key new)
        ∧ ∀ key v w, Keyed.find? key old = some v → Keyed.find? key new = some w →
          Corresponds r v w := by
  constructor
  · intro h
    cases h with
    | scalar ho => cases ho
    | table hk hv => exact ⟨hk, hv⟩
  · exact fun ⟨hk, hv⟩ => .table hk hv

/-- Any two scalars. -/
def AnyScalars (_ _ : Value) : Prop := True

/-- Two values that agree as far as they go themselves: tables have the same keys with comparable
values, and scalars are related. -/
def AgreesHere (r : Value → Value → Prop) (v w : Value) : Prop :=
  (∀ x y, v = .table x → w = .table y →
    ∀ key, Option.Rel Comparable (Keyed.find? key x) (Keyed.find? key y))
  ∧ (v.isScalar = true → w.isScalar = true → r v w)

/-- What is found under a key of both tables is related, or the key is in neither. -/
theorem rel_option_iff {r : Value → Value → Prop} {a b : Option Value} : Option.Rel r a b
    ↔ a.isSome = b.isSome ∧ ∀ v w, a = some v → b = some w → r v w := by
  cases a <;> cases b <;> simp

/-- Two tables agree as far as they go themselves. -/
theorem agreesHere_tables_iff {r : Value → Value → Prop} {x y : Table} :
    AgreesHere r (.table x) (.table y)
      ↔ (∀ key, Keyed.contains key x = Keyed.contains key y)
        ∧ ∀ key v w, Keyed.find? key x = some v → Keyed.find? key y = some w → Comparable v w := by
  constructor
  · rintro ⟨h, -⟩
    have hrel := fun key => rel_option_iff.mp (h x y rfl rfl key)
    exact ⟨fun key => (hrel key).1, fun key => (hrel key).2⟩
  · rintro ⟨hkeys, hvalues⟩
    refine ⟨?_, fun hs => nomatch hs⟩
    rintro _ _ ⟨⟩ ⟨⟩ key
    exact rel_option_iff.mpr ⟨hkeys key, hvalues key⟩

/-- What holds at the paths of two tables holds of the tables, and at the paths of what stands
under each key. -/
theorem forall_at?_tables_iff {p : Value → Value → Prop} {x y : Table} :
    (∀ path a b, (Value.table x).at? path = some a → (Value.table y).at? path = some b → p a b)
      ↔ p (.table x) (.table y) ∧ ∀ key v w, Keyed.find? key x = some v →
        Keyed.find? key y = some w →
        ∀ path a b, v.at? path = some a → w.at? path = some b → p a b := by
  constructor
  · intro h
    refine ⟨h [] _ _ rfl rfl, fun key v w hv hw path a b ha hb => h (key :: path) a b ?_ ?_⟩
    · rwa [at?_table, hv]
    · rwa [at?_table, hw]
  · rintro ⟨hroot, h⟩ (_ | ⟨key, path⟩) a b ha hb
    · obtain rfl := Option.some.inj ha
      obtain rfl := Option.some.inj hb
      exact hroot
    · rw [at?_table] at ha hb
      obtain ⟨v, hv, ha⟩ := Option.bind_eq_some_iff.mp ha
      obtain ⟨w, hw, hb⟩ := Option.bind_eq_some_iff.mp hb
      exact h key v w hv hw path a b ha hb

/-- A value that is no table agrees with what it can be compared with. -/
theorem corresponds_iff_of_not_table {r : Value → Value → Prop} {v w : Value}
    (h : v.entries? = none) :
    Corresponds r v w ↔ Comparable v w
      ∧ ∀ path a b, v.at? path = some a → w.at? path = some b → AgreesHere r a b := by
  constructor
  · intro hc
    have hhere : Comparable v w ∧ AgreesHere r v w := by
      cases hc with
      | scalar hv hw hr =>
        refine ⟨.inr (.inl ⟨hv, hw⟩), ?_, fun _ _ => hr⟩
        rintro x y rfl
        cases hv
      | array hsame =>
        refine ⟨.inr (.inr hsame), ?_, fun hs => nomatch hs⟩
        rintro x y ⟨⟩
      | table => cases h
    refine ⟨hhere.1, fun path a b ha hb => ?_⟩
    -- there is nothing below such a value, so only the empty path counts
    cases path with
    | nil =>
      obtain rfl := Option.some.inj ha
      obtain rfl := Option.some.inj hb
      exact hhere.2
    | cons key path =>
      rw [at?_cons_of_not_table h] at ha
      cases ha
  · rintro ⟨⟨x, y, rfl, -⟩ | ⟨hv, hw⟩ | hsame, hr⟩
    · cases h
    · exact .scalar hv hw ((hr [] v w rfl rfl).2 hv hw)
    · have hscalars := (hr [] v w rfl rfl).2
      cases v <;> cases w <;>
        first
        | exact .scalar rfl rfl (hscalars rfl rfl)
        | exact .array hsame
        | cases hsame
        | cases h

/-- **Trees agree** if they can be compared, and what stands at each path of both agrees itself. -/
theorem corresponds_iff {r : Value → Value → Prop} {v : Value} : ∀ {w : Value}, Corresponds r v w ↔
    Comparable v w
      ∧ ∀ path a b, v.at? path = some a → w.at? path = some b → AgreesHere r a b := by
  induction v using Value.treeInduction with
  | scalar v hs => exact corresponds_iff_of_not_table (entries?_of_isScalar hs)
  | array items => exact corresponds_iff_of_not_table rfl
  | table x ih =>
    intro w
    -- two tables are compared by their keys; a table agrees with nothing else
    by_cases hw : ∃ y, w = .table y
    · obtain ⟨y, rfl⟩ := hw
      have hcomparable : Comparable (.table x) (.table y) := .inl ⟨x, y, rfl, rfl⟩
      have hvalues : (∀ key v w, Keyed.find? key x = some v → Keyed.find? key y = some w →
          Corresponds r v w)
          ↔ ∀ key v w, Keyed.find? key x = some v → Keyed.find? key y = some w → Comparable v w
            ∧ ∀ path a b, v.at? path = some a → w.at? path = some b → AgreesHere r a b :=
        forall_congr' fun key => forall_congr' fun v => forall_congr' fun w =>
          forall_congr' fun hv => imp_congr_right fun _ => ih key v (Keyed.find?_mem hv)
      rw [corresponds_table_iff, hvalues, forall_at?_tables_iff, agreesHere_tables_iff]
      simp only [hcomparable, true_and, and_assoc, forall_and]
    · have hnot : ¬ Comparable (.table x) w := by
        rintro (⟨-, y, -, rfl⟩ | ⟨hs, -⟩ | h)
        · exact hw ⟨y, rfl⟩
        · cases hs
        · cases w with
          | table y => exact hw ⟨y, rfl⟩
          | _ => cases h
      refine iff_of_false ?_ fun h => hnot h.1
      intro h
      cases h with
      | scalar hs => cases hs
      | table => exact hw ⟨_, rfl⟩

/-- **A difference is not structural** exactly if the trees agree but for their scalars.  So the
order of keys, and what the scalars are, play no part in it. -/
theorem structural_eq_nil_iff_corresponds {old new : Table} (hw : (Value.table old).WellKeyed) :
    (difference (.table old) (.table new)).structural = []
      ↔ Corresponds AnyScalars (.table old) (.table new) := by
  rw [structural_eq_nil_iff hw, corresponds_iff]
  constructor
  · intro h
    refine ⟨.inl ⟨old, new, rfl, rfl⟩, fun path a b ha hb => ⟨?_, fun _ _ => trivial⟩⟩
    rintro x y rfl rfl
    exact h path x y ha hb
  · rintro ⟨-, h⟩ path x y hx hy
    exact (h path _ _ hx hy).1 x y rfl rfl

/-- A revision agrees with the tree but for its scalars. -/
theorem Revised.corresponds {old new : Value} (h : Revised old new) :
    Corresponds AnyScalars old new := by
  induction h with
  | scalar ho hn =>
    exact .scalar (isScalar_iff_literal?.mpr (literal?_of_isPlain ho))
      (isScalar_iff_literal?.mpr (literal?_of_isPlain hn)) trivial
  | table hk _ ih => exact .table hk ih

/-- **A revision is no structural change of the tree.** -/
theorem Revised.isStructural {old : Table} {new : Value} (h : Revised (.table old) new)
    (hw : (Value.table old).WellKeyed) :
    ∃ entries, new = .table entries
      ∧ (difference (.table old) (.table entries)).isStructural = false := by
  have hcorresponds := h.corresponds
  cases h with
  | scalar ho => cases ho
  | @table _ entries =>
    refine ⟨entries, rfl, ?_⟩
    rw [Difference.isStructural, (structural_eq_nil_iff_corresponds hw).mpr hcorresponds]
    rfl

end TomlKeep
