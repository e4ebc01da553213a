/-
# The scalars of a tree and the instructions for them

The scalars of a table, depth first, are its leaves (`leavesIn`).  The instructions of a
difference go through the leaves of the old tree in this order: a leaf gives an instruction if
the new tree has a scalar with another literal at its path (`instructions_difference`).  So every
place counts, however deep, and each of them once (`nodup_path_instructions`), and the
instructions are the changes of scalars and no others (`mem_difference`).

All this holds of any two trees, also where they differ in structure: there the new tree has no
scalar at the path of the leaf.
-/
import TomlKeep.Proofs.Trees

namespace TomlKeep

/-! ## 1. Leaves

The leaves are listed by going down the old tree, as the difference does.  Membership is then said
by paths, which no longer know in what order the tree was gone through; distinct keys are what makes
the two agree.
-/

/-- A scalar of a tree, and where it stands. -/
structure ScalarLeaf where
  target : SectionPath
  key : String
  value : Value

mutual

/-- The scalars of what stands under one key. -/
def leavesUnder (target : SectionPath) (key : String) : Value → List ScalarLeaf
  | .table entries => leavesIn (target.child key) entries
  | .array _ => []
  | value => [⟨target, key, value⟩]

/-- The scalars of a table, depth first in the order of its keys. -/
def leavesIn (target : SectionPath) : List (String × Value) → List ScalarLeaf
  | [] => []
  | (key, value) :: rest => leavesUnder target key value ++ leavesIn target rest

end

/-- The path at which a leaf stands. -/
def ScalarLeaf.path (leaf : ScalarLeaf) : List String := leaf.target.parts ++ [leaf.key]

/-- The instruction for a leaf: the literal of the scalar that the new tree has at its path, if
that is another one. -/
def ScalarLeaf.instruction? (new : Value) (leaf : ScalarLeaf) : Option Instruction :=
  match (new.at? leaf.path).bind Value.literal? with
  | none => none
  | some after =>
    if leaf.value.literal? = some after then none else some ⟨leaf.target, leaf.key, after⟩

/-- A scalar is its only leaf. -/
theorem leavesUnder_scalar {value : Value} (h : value.isScalar = true) (target : SectionPath)
    (key : String) : leavesUnder target key value = [⟨target, key, value⟩] := by
  cases value <;> first | rfl | cases h

/-- The leaves of a table are those under its keys. -/
theorem leavesIn_eq_flatMap (target : SectionPath) : ∀ entries : List (String × Value),
    leavesIn target entries = entries.flatMap fun e => leavesUnder target e.1 e.2
  | [] => rfl
  | (key, value) :: rest => by rw [leavesIn, leavesIn_eq_flatMap target rest, List.flatMap_cons]

/-- **The leaves under a key** are the scalars at the paths of its value. -/
theorem mem_leavesUnder {value : Value} :
    ∀ {target : SectionPath} {key : String} {leaf : ScalarLeaf},
    value.WellKeyed → (leaf ∈ leavesUnder target key value ↔ ∃ path,
      leaf.path = target.parts ++ key :: path ∧ value.at? path = some leaf.value
        ∧ leaf.value.isScalar = true) := by
  induction value using Value.treeInduction with
  -- a scalar stands at the empty path and at no other
  | scalar value hs =>
    intro target key leaf _
    rw [leavesUnder_scalar hs, List.mem_singleton]
    constructor
    · rintro rfl
      exact ⟨[], rfl, rfl, hs⟩
    · rintro ⟨path, hpath, hat, -⟩
      cases path with
      | nil =>
        obtain ⟨⟨parts⟩, k, v⟩ := leaf
        obtain ⟨parts'⟩ := target
        obtain ⟨rfl, hk⟩ := List.append_inj' hpath rfl
        obtain rfl : k = key := by simpa using hk
        obtain rfl : value = v := Option.some.inj hat
        rfl
      | cons k path =>
        rw [at?_of_isScalar hs (List.cons_ne_nil k path)] at hat
        cases hat
  -- inside an array nothing is found at a path
  | array items =>
    intro target key leaf _
    rw [leavesUnder]
    constructor
    · intro hm
      cases hm
    · rintro ⟨path, -, hat, hs⟩
      cases path with
      | nil =>
        have he : Value.array items = leaf.value := Option.some.inj hat
        rw [← he] at hs
        cases hs
      | cons k path => cases hat
  -- the first key of the path leads to an entry, and the rest of the path into it
  | table entries ih =>
    intro target key leaf hw
    have hentries := wellKeyedEntries_iff.mp hw.2
    rw [leavesUnder, leavesIn_eq_flatMap, List.mem_flatMap]
    constructor
    · rintro ⟨⟨k, v⟩, hm, hleaf⟩
      obtain ⟨path, hpath, hat, hs⟩ := (ih k v hm (hentries k v hm)).mp hleaf
      refine ⟨k :: path, ?_, ?_, hs⟩
      · simpa [SectionPath.child] using hpath
      · rw [at?_table, Keyed.find?_of_mem hw.1 hm]
        exact hat
    · rintro ⟨path, hpath, hat, hs⟩
      cases path with
      | nil =>
        have he : Value.table entries = leaf.value := Option.some.inj hat
        rw [← he] at hs
        cases hs
      | cons k path =>
        rw [at?_table] at hat
        obtain ⟨v, hf, hat⟩ := Option.bind_eq_some_iff.mp hat
        have hm := Keyed.find?_mem hf
        refine ⟨(k, v), hm, (ih k v hm (hentries k v hm)).mpr ⟨path, ?_, hat, hs⟩⟩
        simpa [SectionPath.child] using hpath

/-- **The leaves of a table** are its scalars, at every depth. -/
theorem mem_leavesIn {entries : Table} (hw : (Value.table entries).WellKeyed) {leaf : ScalarLeaf} :
    leaf ∈ leavesIn .root entries
      ↔ (Value.table entries).at? leaf.path = some leaf.value ∧ leaf.value.isScalar = true := by
  have hentries := wellKeyedEntries_iff.mp hw.2
  rw [leavesIn_eq_flatMap, List.mem_flatMap]
  constructor
  · rintro ⟨⟨k, v⟩, hm, hleaf⟩
    obtain ⟨path, hpath, hat, hs⟩ := (mem_leavesUnder (hentries k v hm)).mp hleaf
    refine ⟨?_, hs⟩
    rw [hpath, SectionPath.root, List.nil_append, at?_table, Keyed.find?_of_mem hw.1 hm]
    exact hat
  · rintro ⟨hat, hs⟩
    obtain ⟨k, path, hpath⟩ :=
      List.exists_cons_of_ne_nil (l := leaf.path) (by simp [ScalarLeaf.path])
    rw [hpath, at?_table] at hat
    obtain ⟨v, hf, hat⟩ := Option.bind_eq_some_iff.mp hat
    have hm := Keyed.find?_mem hf
    exact ⟨(k, v), hm, (mem_leavesUnder (hentries k v hm)).mpr ⟨path, hpath, hat, hs⟩⟩

/-- The leaves under different keys stand at different places. -/
theorem nodup_path_leavesIn_of {entries : Table} {target : SectionPath}
    (hw : (Value.table entries).WellKeyed)
    (h : ∀ k v, (k, v) ∈ entries → ((leavesUnder target k v).map ScalarLeaf.path).Nodup) :
    ((leavesIn target entries).map ScalarLeaf.path).Nodup := by
  have hentries := wellKeyedEntries_iff.mp hw.2
  rw [leavesIn_eq_flatMap, List.map_flatMap, List.nodup_flatMap]
  refine ⟨fun e he => h e.1 e.2 he, ?_⟩
  have hkeys : entries.Pairwise fun a b => a.1 ≠ b.1 := List.pairwise_map.mp hw.1
  refine hkeys.imp_of_mem ?_
  -- a path tells the key under which it goes on
  intro a b ha hb hne path hpa hpb
  obtain ⟨leaf, hleaf, rfl⟩ := List.mem_map.mp hpa
  obtain ⟨other, hother, hpath⟩ := List.mem_map.mp hpb
  obtain ⟨p, hp, -⟩ := (mem_leavesUnder (hentries _ _ ha)).mp hleaf
  obtain ⟨q, hq, -⟩ := (mem_leavesUnder (hentries _ _ hb)).mp hother
  rw [hp, hq, List.append_cancel_left_eq] at hpath
  exact hne (List.cons.inj hpath).1.symm

/-- The leaves under one key stand at different places. -/
theorem nodup_path_leavesUnder {value : Value} : ∀ {target : SectionPath} {key : String},
    value.WellKeyed → ((leavesUnder target key value).map ScalarLeaf.path).Nodup := by
  induction value using Value.treeInduction with
  | scalar value hs =>
    intro target key _
    rw [leavesUnder_scalar hs]
    simp
  | array items =>
    intro target key _
    rw [leavesUnder]
    simp
  | table entries ih =>
    intro target key hw
    have hentries := wellKeyedEntries_iff.mp hw.2
    rw [leavesUnder]
    exact nodup_path_leavesIn_of hw fun k v hm => ih k v hm (hentries k v hm)

/-- **No two leaves stand at one place.** -/
theorem nodup_path_leavesIn {entries : Table} {target : SectionPath}
    (hw : (Value.table entries).WellKeyed) :
    ((leavesIn target entries).map ScalarLeaf.path).Nodup :=
  nodup_path_leavesIn_of hw fun k v hm =>
    nodup_path_leavesUnder (wellKeyedEntries_iff.mp hw.2 k v hm)

/-! ## 2. An instruction for a leaf

Whether a leaf gives an instruction is decided at its own path in the new tree.  So the instructions
can be counted and compared leaf by leaf, without the recursion through the two trees.
-/

/-- When a leaf gives an instruction, and which. -/
theorem ScalarLeaf.instruction?_eq_some_iff {new : Value} {leaf : ScalarLeaf} {i : Instruction} :
    leaf.instruction? new = some i ↔ i.target = leaf.target ∧ i.key = leaf.key
      ∧ ∃ w, new.at? leaf.path = some w ∧ w.literal? = some i.literal
        ∧ leaf.value.literal? ≠ some i.literal := by
  obtain ⟨target, key, literal⟩ := i
  unfold ScalarLeaf.instruction?
  constructor
  · intro h
    split at h
    · cases h
    · next after hafter =>
      obtain ⟨w, hw, hl⟩ := Option.bind_eq_some_iff.mp hafter
      split at h
      · cases h
      · next hne =>
        obtain ⟨rfl, rfl, rfl⟩ := Instruction.mk.inj (Option.some.inj h)
        exact ⟨rfl, rfl, w, hw, hl, hne⟩
  · rintro ⟨rfl, rfl, w, hw, hl, hne⟩
    have hafter : (new.at? leaf.path).bind Value.literal? = some literal := by
      rw [hw]
      exact hl
    rw [hafter]
    exact if_neg hne

/-- An instruction is for the place of its leaf. -/
theorem ScalarLeaf.path_of_instruction? {new : Value} {leaf : ScalarLeaf} {i : Instruction}
    (h : leaf.instruction? new = some i) : i.path = leaf.path := by
  obtain ⟨htarget, hkey, -⟩ := ScalarLeaf.instruction?_eq_some_iff.mp h
  rw [Instruction.path, ScalarLeaf.path, htarget, hkey]

/-- Where the new tree has nothing under a key, the leaves under it give no instructions. -/
theorem filterMap_leavesUnder_eq_nil {value : Value} {target : SectionPath} {key : String}
    {new : Value} (hw : value.WellKeyed) (h : new.at? (target.parts ++ [key]) = none) :
    (leavesUnder target key value).filterMap (ScalarLeaf.instruction? new) = [] := by
  rw [List.filterMap_eq_nil_iff]
  intro leaf hleaf
  obtain ⟨path, hpath, -⟩ := (mem_leavesUnder hw).mp hleaf
  have hnone : new.at? leaf.path = none := by
    rw [hpath, List.append_cons, at?_append, h]
    rfl
  rw [ScalarLeaf.instruction?, hnone]
  rfl

/-! ## 3. The instructions of a difference

The difference goes through both trees at once, and the list of leaves through the old one only.
They agree since the new tree is looked up at every path: `root` is the whole new tree, and what is
compared is what stands in it at the path that has been reached.
-/

/-- A key that has come gives no instruction. -/
theorem instructions_addedKeys (target : SectionPath) (old : Table) :
    ∀ new, (addedKeys target old new).instructions = []
  | [] => rfl
  | (key, _) :: rest => by
    have ih := instructions_addedKeys target old rest
    simp only [addedKeys]
    split
    · exact ih
    · simpa [Difference.append, Difference.ofKey] using ih

/-- The instructions for a table are those for its keys, in their order. -/
theorem instructions_differEntries (target : SectionPath) (new : Table) :
    ∀ old : List (String × Value), (differEntries target new old).instructions
      = old.flatMap fun e => match Keyed.find? e.1 new with
        | some w => (differValue target e.1 e.2 w).instructions
        | none => []
  | [] => rfl
  | (key, value) :: rest => by
    have ih := instructions_differEntries target new rest
    rw [differEntries, List.flatMap_cons, ← ih]
    cases Keyed.find? key new <;> rfl

/-- The parts of the instructions for two tables. -/
theorem instructions_tables {target : SectionPath} {old new : Table} {root : Value}
    (hw : (Value.table old).WellKeyed) (hroot : root.at? target.parts = some (.table new))
    (h : ∀ k v, (k, v) ∈ old → ∀ w, root.at? (target.parts ++ [k]) = some w →
      (differValue target k v w).instructions
        = (leavesUnder target k v).filterMap (ScalarLeaf.instruction? root)) :
    ((differEntries target new old).append (addedKeys target old new)).instructions
      = (leavesIn target old).filterMap (ScalarLeaf.instruction? root) := by
  have hentries := wellKeyedEntries_iff.mp hw.2
  simp only [Difference.append, instructions_addedKeys, List.append_nil, instructions_differEntries,
    leavesIn_eq_flatMap, List.filterMap_flatMap]
  refine List.flatMap_congr ?_
  rintro ⟨k, v⟩ hm
  have hat : root.at? (target.parts ++ [k]) = Keyed.find? k new := at?_concat hroot
  -- a key that is gone gives no instruction, for none of its leaves is found any more
  cases hf : Keyed.find? k new with
  | none => rw [filterMap_leavesUnder_eq_nil (hentries k v hm) (hat.trans hf)]
  | some w => exact h k v hm w (hat.trans hf)

/-- **The instructions for what stands under one key** go through its leaves.  The induction is
on the old value; the new one is what the whole new tree has at the same path. -/
theorem instructions_differValue {root old : Value} : ∀ {target : SectionPath} {key : String}
    {new : Value}, old.WellKeyed → root.at? (target.parts ++ [key]) = some new →
      (differValue target key old new).instructions
        = (leavesUnder target key old).filterMap (ScalarLeaf.instruction? root) := by
  induction old using Value.treeInduction with
  -- two scalars are compared by their literals, and against anything else there is no instruction
  | scalar old hs =>
    intro target key new _ hroot
    have hafter : ScalarLeaf.instruction? root ⟨target, key, old⟩ = match new.literal? with
        | none => none
        | some after => if old.literal? = some after then none else some ⟨target, key, after⟩ := by
      have hpath : root.at? (ScalarLeaf.mk target key old).path = some new := hroot
      rw [ScalarLeaf.instruction?, hpath, Option.bind_some]
    obtain ⟨before, hb⟩ := isScalar_iff_literal?.mp hs
    rw [differValue_of_not_tables (.inl (entries?_of_isScalar hs)), leavesUnder_scalar hs, hb]
    simp only [List.filterMap_cons, List.filterMap_nil, hafter, hb]
    cases new.literal? with
    | none =>
      dsimp only
      split <;> rfl
    | some after =>
      by_cases he : before = after
      · simp [Difference.ofLiterals, Difference.empty, he]
      · simp [Difference.ofLiterals, he]
  | array items =>
    intro target key new _ _
    rw [differValue_of_not_tables (.inl rfl), Value.literal?, leavesUnder]
    dsimp only
    split <;> rfl
  | table old ih =>
    intro target key new hw hroot
    have hentries := wellKeyedEntries_iff.mp hw.2
    -- two tables are compared key by key; under anything else no leaf of the old table is found
    by_cases hnew : ∃ entries, new = .table entries
    · obtain ⟨entries, rfl⟩ := hnew
      rw [differValue, leavesUnder]
      refine instructions_tables hw hroot fun k v hm w hat => ?_
      exact ih k v hm (hentries k v hm) hat
    · have hnone : new.entries? = none := by
        cases new <;> first | rfl | exact absurd ⟨_, rfl⟩ hnew
      rw [differValue_of_not_tables (.inr hnone), Value.literal?, leavesUnder, leavesIn_eq_flatMap,
        List.filterMap_flatMap]
      dsimp only
      have hleaves : ∀ e ∈ old,
          (leavesUnder (target.child key) e.1 e.2).filterMap (ScalarLeaf.instruction? root)
          = [] := by
        intro e he
        refine filterMap_leavesUnder_eq_nil (hentries e.1 e.2 he) ?_
        have hat : root.at? (target.child key).parts = some new := hroot
        rw [at?_append, hat]
        exact at?_cons_of_not_table hnone e.1 []
      rw [List.flatMap_eq_nil_iff.mpr hleaves]
      split <;> rfl

/-- **The instructions of a difference** are those for the leaves of the old tree, in their
order. -/
theorem instructions_difference {old new : Table} (hw : (Value.table old).WellKeyed) :
    (difference (.table old) (.table new)).instructions
      = (leavesIn .root old).filterMap (ScalarLeaf.instruction? (.table new)) := by
  have hentries := wellKeyedEntries_iff.mp hw.2
  rw [difference]
  refine instructions_tables hw rfl fun k v hm w hat => ?_
  exact instructions_differValue (hentries k v hm) hat

/-- **The instructions of a difference are the changes of scalars,** at every depth, and no
others. -/
theorem mem_difference {old new : Table} (hw : (Value.table old).WellKeyed) {i : Instruction} :
    i ∈ (difference (.table old) (.table new)).instructions
      ↔ Changes [] (.table old) (.table new) i := by
  rw [instructions_difference hw, List.mem_filterMap]
  constructor
  -- an instruction is that of a leaf, and a leaf is a scalar of the old tree at its path
  · rintro ⟨leaf, hleaf, hi⟩
    obtain ⟨-, -, w, hat, hl, hne⟩ := ScalarLeaf.instruction?_eq_some_iff.mp hi
    obtain ⟨hold, hs⟩ := (mem_leavesIn hw).mp hleaf
    obtain ⟨before, hb⟩ := isScalar_iff_literal?.mp hs
    refine ⟨leaf.path, leaf.value, w, ScalarLeaf.path_of_instruction? hi, hold, hat, before, hb, hl,
      ?_⟩
    rintro rfl
    exact hne hb
  -- a change of scalars is found at the leaf of its path
  · rintro ⟨path, v, w, hp, hv, hat, before, hb, ha, hne⟩
    obtain rfl : i.path = path := hp
    have hs : v.isScalar = true := isScalar_iff_literal?.mpr ⟨before, hb⟩
    refine ⟨⟨i.target, i.key, v⟩, (mem_leavesIn hw).mpr ⟨hv, hs⟩,
      ScalarLeaf.instruction?_eq_some_iff.mpr ⟨rfl, rfl, w, hat, ha, ?_⟩⟩
    rw [hb]
    intro h
    exact hne (Option.some.inj h)

/-- The places of instructions are places of leaves, in the same order. -/
theorem path_filterMap_sublist (new : Value) : ∀ leaves : List ScalarLeaf,
    ((leaves.filterMap (ScalarLeaf.instruction? new)).map Instruction.path).Sublist
    (leaves.map ScalarLeaf.path)
  | [] => .slnil
  | leaf :: leaves => by
    have ih := path_filterMap_sublist new leaves
    rw [List.filterMap_cons, List.map_cons]
    cases hi : leaf.instruction? new with
    | none => exact ih.cons _
    | some i =>
      rw [List.map_cons, ScalarLeaf.path_of_instruction? hi]
      exact ih.cons_cons _

/-- **No two instructions are for one place.**  They are places of leaves, and the leaves stand
at different places. -/
theorem nodup_path_instructions {old new : Table} (hw : (Value.table old).WellKeyed) :
    ((difference (.table old) (.table new)).instructions.map Instruction.path).Nodup := by
  rw [instructions_difference hw]
  exact (nodup_path_leavesIn hw).sublist (path_filterMap_sublist _ _)

end TomlKeep
