/-
# Trees that go through JSON

A tree is shown as JSON, and the JSON is read as a tree again with the old tree at hand.  What
comes back (`returned?`) is the old tree, but for its floats: each is what its own text is read
as, and one that is not finite is gone.  Date-times come back since the old tree has them in the
same places.  A tree that nests deeper than JSON may does not come back at all
(`returned?_eq_self`, `nesting_le_of_returned?`).

So what comes back agrees with the old tree if and only if every float is read as it was shown
(`corresponds_returned?_iff`).
-/
import TomlKeep.Proofs.JsonText
import TomlKeep.Proofs.Unedited
import TomlKeep.Proofs.WrittenLines

namespace TomlKeep

open Json

/-! ## 1. Lists that are read one by one

Items and members are read one after the other, and one that cannot be read spoils them all.  So a
list that was read is one of results, each of the item in its place.
-/

section Lists

variable {α β : Type} {f : α → Option β}

/-- A list is read when each of its items is. -/
theorem mapM_eq_some_iff {as : List α} {bs : List β} :
    as.mapM f = some bs ↔ List.Forall₂ (fun a b => f a = some b) as bs := by
  -- the lists are taken apart side by side
  induction as generalizing bs with
  | nil =>
    cases bs <;> simp [eq_comm]
  | cons a as ih =>
    rw [List.mapM_cons]
    constructor
    · intro h
      obtain ⟨b, hb, h⟩ := Option.bind_eq_some_iff.mp h
      obtain ⟨more, hm, h⟩ := Option.bind_eq_some_iff.mp h
      obtain rfl := Option.some.inj h
      exact .cons hb (ih.mp hm)
    · intro h
      cases h with
      | cons hb hm =>
        rw [hb, ih.mpr hm]
        rfl

/-- A list comes back when each of its items does. -/
theorem mapM_eq_self {f : α → Option α} {as : List α} (h : ∀ a ∈ as, f a = some a) :
    as.mapM f = some as :=
  mapM_eq_some_iff.mpr (List.forall₂_same.mpr h)

end Lists

namespace Keyed

variable {α : Type}

/-- A new key comes last. -/
theorem insert_of_not_mem {key : String} (value : α) : ∀ {entries : List (String × α)},
    key ∉ keys entries → insert key value entries = entries ++ [(key, value)]
  | [], _ => rfl
  | (k, v) :: rest, h => by
    have hne : key ≠ k := List.ne_of_not_mem_cons h
    rw [insert, if_neg hne.symm, insert_of_not_mem value (List.not_mem_of_not_mem_cons h),
      List.cons_append]

/-- Entries with new keys come last, one after the other. -/
theorem foldl_insert : ∀ {back front : List (String × α)}, (keys (front ++ back)).Nodup →
    back.foldl (fun entries (key, value) => insert key value entries) front = front ++ back
  | [], front, _ => by simp
  | (key, value) :: back, front, h => by
    -- the key is new, as it stands behind the others in a list without repetition
    have hk : key ∉ keys front := by
      intro hm
      rw [keys, List.map_append] at h
      exact (List.nodup_append.mp h).2.2 key hm key (by simp) rfl
    rw [List.foldl_cons]
    simp only
    rw [insert_of_not_mem value hk, foldl_insert (by simpa using h), List.append_assoc,
      List.singleton_append]

/-- **Entries with distinct keys are built as they are.** -/
theorem ofList_of_nodup {entries : List (String × α)} (h : (keys entries).Nodup) :
    ofList entries = entries := by
  rw [ofList, foldl_insert (by simpa using h), List.nil_append]

end Keyed

/-! ## 2. What comes back

The way out and the way back are followed constructor by constructor.  The old tree is at hand on
the way back only to tell date-times from strings, and for that each value has to meet the old one
of its place: an item by its position, a member by its key.
-/

/-- **A float that is read as it is shown.** -/
def Value.IsKept : Value → Prop
  | .float x => read? (writeFloat x) = some (.float x)
  | _ => True

/-- **What comes back of a value** that is shown as JSON, if `levels` brackets may open. -/
def Value.returned? (levels : Nat) (value : Value) : Option Value :=
  (reread? levels value.toJson).map (Value.ofJsonLike · value)

variable {levels : Nat}

/-- A float comes back as its text is read, finite or not. -/
theorem returned?_float (x : Binary64) :
    (Value.float x).returned? levels = (read? (writeFloat x)).map Value.ofJson := by
  have hjson : reread? levels (Value.float x).toJson = read? (writeFloat x) := by
    cases x with
    | finite negative rank => simp [Value.toJson, Binary64.isFinite, reread?]
    | nan | infinite =>
      simp only [Value.toJson, Binary64.isFinite, Bool.false_eq_true, if_false, reread?, writeFloat]
      rfl
  rw [Value.returned?, hjson]
  congr 1
  funext json
  cases json <;> simp [Value.ofJsonLike]

/-- A scalar of a document comes back, if its text is read as it was shown.  A date-time is shown
as a string; it comes back because it is in canonical form and the old value is a date-time. -/
theorem returned?_scalar {value : Value} (h : value.IsRead) (hk : value.IsKept) :
    value.returned? levels = some value := by
  -- a document has no null value, and a float is the only scalar that may come back changed
  cases value with
  | null | array | table => exact absurd h id
  | float x =>
    have hx : read? (writeFloat x) = some (.float x) := hk
    rw [returned?_float, hx]
    rfl
  | datetime text =>
    obtain ⟨source, hs⟩ := h
    simp [Value.returned?, Value.toJson, reread?, Value.ofJsonLike, Datetime.canonical?_idem hs]
  | bool | integer | string =>
    simp [Value.returned?, Value.toJson, reread?, Value.ofJsonLike, Value.ofJson]

/-- The items of an array come back one by one. -/
theorem returned?_array (items : List Value) : (Value.array items).returned? (levels + 1)
    = (items.mapM (Value.returned? levels)).map .array := by
  -- both lists are gone through at once, one read and the other beside it
  have hitems :
      ((Value.itemsToJson items).mapM (reread? levels)).map (Value.itemsOfJsonLike · items)
        = items.mapM (Value.returned? levels) := by
    induction items with
    | nil => rfl
    | cons value rest ih =>
      rw [Value.itemsToJson, List.mapM_cons, List.mapM_cons, ← ih, Value.returned?]
      rcases reread? levels value.toJson with _ | json
      · rfl
      rcases (Value.itemsToJson rest).mapM (reread? levels) with _ | more
      · rfl
      · simp [Value.itemsOfJsonLike]
  rw [← hitems, Value.returned?, Value.toJson, reread?, Option.map_map, Option.map_map]
  congr 1

/-- A value under a key comes back under that key. -/
def returnedPair? (levels : Nat) (e : String × Value) : Option (String × Value) :=
  (e.2.returned? levels).map (e.1, ·)

/-- A member is read back if its value is. -/
def rereadMember? (levels : Nat) (m : String × Json) : Option (String × Json) :=
  (reread? levels m.2).map (m.1, ·)

/-- The keys stay, and their order. -/
theorem keys_of_rereadMember? : ∀ {entries : Table} {members : List (String × Json)},
    (Value.entriesToJson entries).mapM (rereadMember? levels) = some members →
      Keyed.keys members = Keyed.keys entries
  | [], _, h => by
    obtain rfl := Option.some.inj h
    rfl
  | (key, value) :: rest, members, h => by
    rw [Value.entriesToJson] at h
    cases mapM_eq_some_iff.mp h with
    | cons hm hmore =>
      obtain ⟨json, -, rfl⟩ := Option.map_eq_some_iff.mp hm
      have ih := keys_of_rereadMember? (mapM_eq_some_iff.mpr hmore)
      simp only [Keyed.keys] at ih
      simp [Keyed.keys, ih]

/-- Values come back that stand under their keys in the old table. -/
theorem returned?_entries {base : Table} : ∀ {entries : Table},
    (∀ key value, (key, value) ∈ entries → Keyed.find? key base = some value) →
      ((Value.entriesToJson entries).mapM (rereadMember? levels)).map
          (Value.entriesOfJsonLike · base)
        = entries.mapM (returnedPair? levels)
  | [], _ => rfl
  | (key, value) :: rest, h => by
    obtain ⟨hf, hrest⟩ := forall_entry_cons.mp h
    have ih := returned?_entries hrest
    rw [Value.entriesToJson, List.mapM_cons, List.mapM_cons, ← ih, returnedPair?, Value.returned?,
      rereadMember?]
    rcases reread? levels value.toJson with _ | json
    · rfl
    rcases (Value.entriesToJson rest).mapM (rereadMember? levels) with _ | more
    · rfl
    · simp [Value.entriesOfJsonLike, hf]

/-- The values under the keys of a table come back one by one. -/
theorem returned?_table {entries : Table} (hn : (Keyed.keys entries).Nodup) :
    (Value.table entries).returned? (levels + 1)
      = (entries.mapM (returnedPair? levels)).map .table := by
  -- the keys are distinct, so no member replaces another
  have hread : reread? (levels + 1) (Value.table entries).toJson
      = ((Value.entriesToJson entries).mapM (rereadMember? levels)).map .object := by
    rw [Value.toJson, reread?]
    change ((Value.entriesToJson entries).mapM (rereadMember? levels)).map _ = _
    rcases h : (Value.entriesToJson entries).mapM (rereadMember? levels) with _ | members
    · rfl
    · have hkeys : (Keyed.keys members).Nodup := by rwa [keys_of_rereadMember? h]
      rw [Option.map_some, Option.map_some, Keyed.ofList_of_nodup hkeys]
  rw [← returned?_entries fun key value hm => Keyed.find?_of_mem hn hm, Value.returned?, hread,
    Option.map_map, Option.map_map]
  congr 1

/-- The values of a table that come back stand under their keys. -/
theorem find?_of_returned? {key : String} {value : Value} : ∀ {entries news : Table},
    entries.mapM (returnedPair? levels) = some news → Keyed.find? key entries = some value →
      ∃ new, value.returned? levels = some new ∧ Keyed.find? key news = some new
  | [], _, _, hf => by cases hf
  | (k, v) :: rest, news, h, hf => by
    cases mapM_eq_some_iff.mp h with
    | cons he hrest =>
      obtain ⟨new, hnew, rfl⟩ := Option.map_eq_some_iff.mp he
      -- the key is the first one or stands further on
      by_cases hk : k = key
      · obtain rfl : v = value := by simpa [Keyed.find?, hk] using hf
        exact ⟨new, hnew, by simp [Keyed.find?, hk]⟩
      · rw [Keyed.find?, if_neg hk] at hf
        obtain ⟨new', hnew', hfind⟩ := find?_of_returned? (mapM_eq_some_iff.mpr hrest) hf
        exact ⟨new', hnew', by simpa [Keyed.find?, hk] using hfind⟩

/-- What comes back of an array is an array, read with one bracket less. -/
theorem exists_of_returned?_array {items : List Value} {new : Value}
    (h : (Value.array items).returned? levels = some new) : ∃ n news, levels = n + 1
      ∧ List.Forall₂ (fun value new => value.returned? n = some new) items news
      ∧ new = .array news := by
  cases levels with
  | zero => cases h
  | succ n =>
    rw [returned?_array] at h
    obtain ⟨news, hnews, rfl⟩ := Option.map_eq_some_iff.mp h
    exact ⟨n, news, rfl, mapM_eq_some_iff.mp hnews, rfl⟩

/-- What comes back of a table is a table, read with one bracket less. -/
theorem exists_of_returned?_table {entries : Table} (hn : (Keyed.keys entries).Nodup) {new : Value}
    (h : (Value.table entries).returned? levels = some new) : ∃ n news, levels = n + 1
      ∧ entries.mapM (returnedPair? n) = some news ∧ new = .table news := by
  cases levels with
  | zero => cases h
  | succ n =>
    rw [returned?_table hn] at h
    obtain ⟨news, hnews, rfl⟩ := Option.map_eq_some_iff.mp h
    exact ⟨n, news, rfl, hnews, rfl⟩

/-! ## 3. When it all comes back

The bound on brackets is the depth of nesting, as JSON opens one for each array and each table.
-/

/-- Items nest no deeper than the deepest of them. -/
theorem nestingItems_le_iff {items : List Value} {n : Nat} :
    nestingItems items ≤ n ↔ ∀ value ∈ items, value.nesting ≤ n := by
  induction items with
  | nil => simp [nestingItems]
  | cons value rest ih => rw [nestingItems, Nat.max_le, ih, List.forall_mem_cons]

/-- **A tree comes back as it was,** if it does not nest too deep and every float is read as it
was shown.  By induction on the tree; each level of the tree uses one of the brackets. -/
theorem returned?_eq_self {value : Value} : ∀ {levels : Nat}, value.Holds Value.IsRead →
    value.nesting ≤ levels → value.Scalars Value.IsKept → value.returned? levels = some value := by
  induction value using Value.treeInduction with
  | scalar value hs =>
    intro levels h _ hk
    exact returned?_scalar ((scalars_of_isScalar hs).mp h.2) ((scalars_of_isScalar hs).mp hk)
  | array items ih =>
    intro levels h hn hk
    rw [Value.nesting] at hn
    obtain ⟨levels, rfl⟩ : ∃ n, levels = n + 1 := ⟨levels - 1, by omega⟩
    have hnest := nestingItems_le_iff.mp (Nat.le_of_succ_le_succ hn)
    have hread := holds_array_iff.mp h
    have hkept := scalarsItems_iff.mp hk
    have hitems : items.mapM (Value.returned? levels) = some items :=
      mapM_eq_self fun value hm => ih value hm (hread value hm) (hnest value hm) (hkept value hm)
    rw [returned?_array, hitems]
    rfl
  | table entries ih =>
    intro levels h hn hk
    rw [Value.nesting] at hn
    obtain ⟨levels, rfl⟩ : ∃ n, levels = n + 1 := ⟨levels - 1, by omega⟩
    have hnest := Toml.nestingEntries_le_iff.mp (Nat.le_of_succ_le_succ hn)
    obtain ⟨hnodup, hread⟩ := holds_table_iff.mp h
    have hkept := scalarsEntries_iff.mp hk
    have hentries : entries.mapM (returnedPair? levels) = some entries := by
      refine mapM_eq_self fun e hm => ?_
      have he := ih e.1 e.2 hm (hread e.1 e.2 hm) (hnest e.1 e.2 hm) (hkept e.1 e.2 hm)
      rw [returnedPair?, he]
      rfl
    rw [returned?_table hnodup, hentries]
    rfl

/-- **What nests too deep does not come back.**  Here nothing is asked of the scalars: a float
that comes back as another value has come back. -/
theorem nesting_le_of_returned? {value : Value} : ∀ {levels : Nat} {new : Value},
    value.WellKeyed → value.returned? levels = some new → value.nesting ≤ levels := by
  induction value using Value.treeInduction with
  | scalar value hs =>
    intro levels new _ _
    cases value <;> first | exact Nat.zero_le _ | cases hs
  | array items ih =>
    intro levels new hw h
    obtain ⟨n, news, rfl, hnews, -⟩ := exists_of_returned?_array h
    have hitems := wellKeyedItems_iff.mp hw
    have hback : ∀ value ∈ items, ∃ new, value.returned? n = some new :=
      Toml.forall_of_forall₂ hnews fun _ new hnew => ⟨new, hnew⟩
    rw [Value.nesting]
    refine Nat.succ_le_succ (nestingItems_le_iff.mpr fun value hm => ?_)
    obtain ⟨new, hnew⟩ := hback value hm
    exact ih value hm (hitems value hm) hnew
  | table entries ih =>
    intro levels new hw h
    obtain ⟨n, news, rfl, hnews, -⟩ := exists_of_returned?_table hw.1 h
    have hentries := wellKeyedEntries_iff.mp hw.2
    rw [Value.nesting]
    refine Nat.succ_le_succ (Toml.nestingEntries_le_iff.mpr fun key value hm => ?_)
    obtain ⟨new, hnew, -⟩ := find?_of_returned? hnews (Keyed.find?_of_mem hw.1 hm)
    exact ih key value hm (hentries key value hm) hnew

/-! ## 4. When it agrees with what it was

For the other direction it is the floats that are at stake, and two comparisons are made of them:
within arrays the values are compared, elsewhere the literals.  In either a float that was changed
by its rounding shows, since the one that comes back is finite or is gone.
-/

/-- A float that comes back as itself is kept. -/
theorem isKept_of_returned? {x : Binary64}
    (h : (Value.float x).returned? levels = some (.float x)) : (Value.float x).IsKept := by
  rw [returned?_float] at h
  obtain ⟨json, hread, hjson⟩ := Option.map_eq_some_iff.mp h
  cases json with
  | float y =>
    obtain rfl : y = x := by simpa [Value.ofJson] using hjson
    exact hread
  | _ => simp [Value.ofJson] at hjson

/-- A float comes back as a float of its sign, or it is not finite and `null` comes back. -/
theorem eq_of_returned?_float {x : Binary64} {new : Value}
    (h : (Value.float x).returned? levels = some new) :
    (∃ rank, x.isFinite = true ∧ new = .float (.finite x.negative rank))
      ∨ x.isFinite = false ∧ new = .null := by
  rw [returned?_float] at h
  obtain ⟨json, hread, rfl⟩ := Option.map_eq_some_iff.mp h
  rcases eq_of_read?_writeFloat hread with ⟨rank, hx, rfl⟩ | ⟨hx, rfl⟩
  · exact .inl ⟨rank, hx, rfl⟩
  · exact .inr ⟨hx, rfl⟩

/-- **A float that comes back with the same value is kept.**  The comparison of values holds two
zeros for the same, but what comes back has the old sign. -/
theorem isKept_of_same {x : Binary64} {new : Value}
    (h : (Value.float x).returned? levels = some new)
    (hs : (Value.float x).same new = true) : (Value.float x).IsKept := by
  -- a finite float against one of its sign, or a null value against a float
  rcases eq_of_returned?_float h with ⟨rank, hx, rfl⟩ | ⟨-, rfl⟩
  · cases x with
    | finite negative rank' =>
      obtain rfl : rank' = rank := by
        simp only [Value.same, Binary64.same, Binary64.place?, Binary64.negative, beq_iff_eq] at hs
        refine Fin.ext ?_
        cases negative <;> simp at hs <;> omega
      exact isKept_of_returned? h
    | nan | infinite => cases hx
  · cases hs

/-- **A float that comes back with the same literal is kept.** -/
theorem isKept_of_sameLiteral {x : Binary64} {new : Value}
    (h : (Value.float x).returned? levels = some new) (hs : SameLiteral (.float x) new) :
    (Value.float x).IsKept := by
  rcases eq_of_returned?_float h with ⟨rank, hx, rfl⟩ | ⟨hx, rfl⟩
  · have hread : (Value.float x).IsRead := trivial
    have hind := (literal?_eq_iff hread rfl).mp hs
    generalize hnew : Value.float (.finite x.negative rank) = new at h hind
    -- the same value, two that are written as zero, or a date-time, which no float comes back as
    cases hind with
    | same => exact isKept_of_returned? h
    | zero hz _ => exact absurd hx (by rw [show x.isFinite = false from hz]; decide)
    | text => cases hnew
  · simp [SameLiteral, Value.literal?, hx] at hs

/-- A scalar other than a float is kept. -/
theorem isKept_of_scalar {value : Value} (hs : value.isScalar = true)
    (h : ∀ x, value = .float x → (Value.float x).IsKept) : value.IsKept := by
  cases value with
  | float x => exact h x rfl
  | array | table => cases hs
  | _ => trivial

/-- **A value that comes back the same has kept its floats.** -/
theorem scalars_of_same {value : Value} : ∀ {levels : Nat} {new : Value}, value.WellKeyed →
    value.returned? levels = some new → value.same new = true → value.Scalars Value.IsKept := by
  induction value using Value.treeInduction with
  | scalar value hs =>
    intro levels new _ h hsame
    refine (scalars_of_isScalar hs).mpr (isKept_of_scalar hs ?_)
    rintro x rfl
    exact isKept_of_same h hsame
  | array items ih =>
    intro levels new hw h hsame
    obtain ⟨n, news, -, hnews, rfl⟩ := exists_of_returned?_array h
    have hitems := wellKeyedItems_iff.mp hw
    rw [Value.same] at hsame
    rw [Value.Scalars]
    clear h hw
    -- item by item, with the induction on the tree at hand for each
    induction hnews with
    | nil => trivial
    | cons hv _ ihnews =>
      rw [Value.sameItems, Bool.and_eq_true] at hsame
      obtain ⟨hwv, hwrest⟩ := List.forall_mem_cons.mp hitems
      obtain ⟨hiv, hirest⟩ := List.forall_mem_cons.mp ih
      exact ⟨hiv hwv hv hsame.1, ihnews hirest hsame.2 hwrest⟩
  | table entries ih =>
    intro levels new hw h hsame
    obtain ⟨n, news, -, hnews, rfl⟩ := exists_of_returned?_table hw.1 h
    have hentries := wellKeyedEntries_iff.mp hw.2
    rw [Value.same, Bool.and_eq_true] at hsame
    refine scalarsEntries_iff.mpr fun key value hm => ?_
    obtain ⟨new, hnew, hfind⟩ := find?_of_returned? hnews (Keyed.find?_of_mem hw.1 hm)
    obtain ⟨w, hw', hs⟩ := sameEntries_iff.mp hsame.2 key value hm
    obtain rfl : new = w := Option.some.inj (hfind.symm.trans hw')
    exact ih key value hm (hentries key value hm) hnew hs

/-- **A tree that agrees with what comes back of it has kept its floats.** -/
theorem scalars_of_corresponds {value : Value} : ∀ {levels : Nat} {new : Value}, value.WellKeyed →
    value.returned? levels = some new → Corresponds SameLiteral value new →
      value.Scalars Value.IsKept := by
  induction value using Value.treeInduction with
  | scalar value hs =>
    intro levels new _ h hc
    refine (scalars_of_isScalar hs).mpr (isKept_of_scalar hs ?_)
    rintro x rfl
    -- scalars correspond by their literals, arrays by their values
    cases hc with
    | scalar _ _ hliteral => exact isKept_of_sameLiteral h hliteral
  | array items ih =>
    intro levels new hw h hc
    cases hc with
    | scalar ho => cases ho
    | array hsame => exact scalars_of_same hw h hsame
  | table entries ih =>
    intro levels new hw h hc
    obtain ⟨n, news, -, hnews, rfl⟩ := exists_of_returned?_table hw.1 h
    have hentries := wellKeyedEntries_iff.mp hw.2
    refine scalarsEntries_iff.mpr fun key value hm => ?_
    have hf := Keyed.find?_of_mem hw.1 hm
    obtain ⟨new, hnew, hfind⟩ := find?_of_returned? hnews hf
    exact ih key value hm (hentries key value hm) hnew
      ((corresponds_table_iff.mp hc).2 key value new hf hfind)

/-! ## 5. The whole of it

What is left is that a tree with its floats kept agrees with itself, which fails for a NaN in an
array alone.
-/

/-- What all scalars of a tree have, they have of a weaker kind. -/
theorem scalars_imp {p q : Value → Prop} (hpq : ∀ value, p value → q value) {value : Value} :
    value.Scalars p → value.Scalars q := by
  induction value using Value.treeInduction with
  | scalar value hs =>
    rw [scalars_of_isScalar hs, scalars_of_isScalar hs]
    exact hpq value
  | array items ih =>
    intro h
    have hitems := scalarsItems_iff.mp h
    exact scalarsItems_iff.mpr fun value hm => ih value hm (hitems value hm)
  | table entries ih =>
    intro h
    have hentries := scalarsEntries_iff.mp h
    exact scalarsEntries_iff.mpr fun key value hm => ih key value hm (hentries key value hm)

/-- The scalars below a path are scalars of the tree. -/
theorem scalars_at? {p : Value → Prop} : ∀ {path : List String} {value inner : Value},
    value.Scalars p → value.at? path = some inner → inner.Scalars p
  | [], value, inner, h, he => by
    obtain rfl := Option.some.inj he
    exact h
  | key :: path, .table entries, inner, h, he => by
    rw [at?_table] at he
    obtain ⟨value, hf, he⟩ := Option.bind_eq_some_iff.mp he
    exact scalars_at? (scalarsEntries_iff.mp h key value (Keyed.find?_mem hf)) he

/-- No NaN is kept, as it comes back as a null value. -/
theorem isNumeric_of_isKept {value : Value} (h : value.IsKept) : value.IsNumeric := by
  cases value with
  | float x =>
    cases x with
    | nan negative =>
      rcases eq_of_read?_writeFloat h with ⟨rank, hx, -⟩ | ⟨-, hx⟩ <;> cases hx
    | _ => trivial
  | _ => trivial

/-- **A tree agrees with what comes back of it** if and only if it does not nest too deep and every
float is read as it was shown. -/
theorem corresponds_returned?_iff {tree : Value} (h : tree.Holds Value.IsRead) :
    (∃ new, tree.returned? levels = some new ∧ Corresponds SameLiteral tree new)
      ↔ tree.nesting ≤ levels ∧ tree.Scalars Value.IsKept := by
  constructor
  · rintro ⟨new, hnew, hc⟩
    exact ⟨nesting_le_of_returned? h.1 hnew, scalars_of_corresponds h.1 hnew hc⟩
  -- the tree itself comes back, and it agrees with itself as no array of it has a NaN
  · rintro ⟨hn, hk⟩
    have hnumeric : tree.NumericArrays := fun path items hp =>
      scalars_at? (scalars_imp (fun _ => isNumeric_of_isKept) hk) hp
    have hliteral : ∀ value, SameLiteral value value := fun _ => rfl
    exact ⟨tree, returned?_eq_self h hn hk, (corresponds_self_iff hliteral h.1).mpr hnumeric⟩

end TomlKeep
