/-
# A difference is exact

What a difference of two tables reports is told in seven parts (`ExactDifference`): when it is
structural, which instructions it has and in which order, that no two of them have one target,
that their targets are scalars of both trees, that nothing is left to change once they are
carried out, and that neither the order of the new keys nor the direction of the comparison
matters.  It holds of any two tables with distinct keys (`difference_exact`).

What an instruction says and when a change is structural is known from the leaves (`ScalarLeaf`)
and the tables that both trees have (`StructuralAt`).  The order of the new keys does not matter
for either of them, since both look keys up (`Reordered.at?`).  That the two trees may be swapped
rests on the symmetry of equality, and that on distinct keys: two tables with as many entries
have the same keys as soon as the one has all keys of the other (`keys_subset_symm`).
-/
import TomlKeep.Proofs.Overwriting
import TomlKeep.Proofs.Targets
import TomlKeep.Proofs.Unedited

namespace TomlKeep

/-! ## 1. Equality is symmetric

Equality of tables looks up each entry of the first in the second and compares their sizes, which is
not symmetric by its form.  It is so on distinct keys, by counting: as many keys and none missing
means the same keys.
-/

/-- Scalars are compared alike in both directions. -/
theorem same_comm_of_isScalar {v w : Value} (h : v.isScalar = true) : v.same w = w.same v := by
  have hfloat (a b : Binary64) : a.same b = b.same a := by
    unfold Binary64.same
    cases a.place? <;> cases b.place? <;> first | rfl | exact Bool.beq_comm
  cases v <;> cases w <;> first | rfl | exact hfloat _ _ | exact Bool.beq_comm | cases h

/-- Equality of arrays, item by item. -/
theorem sameItems_iff : ∀ {items others : List Value}, Value.sameItems items others = true
    ↔ List.Forall₂ (fun v w => v.same w = true) items others
  | [], [] => by simp [Value.sameItems]
  | [], _ :: _ => by simp [Value.sameItems]
  | _ :: _, [] => by simp [Value.sameItems]
  | _ :: _, _ :: _ => by
    rw [Value.sameItems, Bool.and_eq_true, sameItems_iff, List.forall₂_cons]

/-- Tables with distinct keys and as many entries have the same keys if the one has those of the
other. -/
theorem keys_subset_symm {x y : Table} (hx : (Keyed.keys x).Nodup) (hlength : x.length = y.length)
    (h : Keyed.keys x ⊆ Keyed.keys y) : Keyed.keys y ⊆ Keyed.keys x := by
  have hsub : (Keyed.keys x).Subperm (Keyed.keys y) := List.subperm_of_subset hx h
  have hperm : (Keyed.keys x).Perm (Keyed.keys y) :=
    hsub.perm_of_length_le (by simp [Keyed.keys, hlength])
  exact hperm.symm.subset

/-- **Equality is symmetric** on values with distinct keys. -/
theorem same_symm {v : Value} : ∀ {w : Value}, v.WellKeyed → w.WellKeyed → v.same w = true →
    w.same v = true := by
  induction v using Value.treeInduction with
  | scalar v hs =>
    intro w _ _ h
    rwa [← same_comm_of_isScalar hs]
  | array items ih =>
    intro w hv hw h
    cases w with
    | array others =>
      rw [Value.same, sameItems_iff] at h ⊢
      replace hv := wellKeyedItems_iff.mp hv
      replace hw := wellKeyedItems_iff.mp hw
      induction h with
      | nil => exact .nil
      | cons hsame _ ihs =>
        obtain ⟨ha, has⟩ := List.forall_mem_cons.mp hv
        obtain ⟨hb, hbs⟩ := List.forall_mem_cons.mp hw
        obtain ⟨iha, ihas⟩ := List.forall_mem_cons.mp ih
        exact .cons (iha ha hb hsame) (ihs ihas has hbs)
    | _ => cases h
  | table x ih =>
    intro w hv hw h
    cases w with
    | table y =>
      have hx := wellKeyedEntries_iff.mp hv.2
      have hy := wellKeyedEntries_iff.mp hw.2
      rw [Value.same, Bool.and_eq_true, beq_iff_eq, sameEntries_iff] at h ⊢
      obtain ⟨hlength, hentries⟩ := h
      -- every key of the first is found in the second, hence also the other way round
      have hkeys : Keyed.keys x ⊆ Keyed.keys y := by
        intro key hm
        obtain ⟨⟨k, a⟩, he, rfl⟩ := List.mem_map.mp hm
        obtain ⟨b, hb, -⟩ := hentries k a he
        exact List.mem_map.mpr ⟨_, Keyed.find?_mem hb, rfl⟩
      refine ⟨hlength.symm, ?_⟩
      intro key b hm
      have hkey : key ∈ Keyed.keys x :=
        keys_subset_symm hv.1 hlength hkeys (List.mem_map.mpr ⟨_, hm, rfl⟩)
      obtain ⟨a, ha⟩ := Option.isSome_iff_exists.mp (mem_keys_iff.mp hkey)
      have hma := Keyed.find?_mem ha
      obtain ⟨b', hb', hsame⟩ := hentries key a hma
      obtain rfl : b' = b := Option.some.inj (hb'.symm.trans (Keyed.find?_of_mem hw.1 hm))
      exact ⟨a, ha, ih key a hma (hx key a hma) (hy key b' hm) hsame⟩
    | _ => cases h

/-! ## 2. Swapping the trees

What makes a change structural is that the two values under a key cannot be compared, and being
comparable is symmetric now.  An instruction turns around: the literal that it had to replace is the
one it writes.
-/

/-- What can be compared can be compared the other way round. -/
theorem Comparable.symm {v w : Value} (h : Comparable v w) (hv : v.WellKeyed) (hw : w.WellKeyed) :
    Comparable w v := by
  rcases h with ⟨x, y, rfl, rfl⟩ | ⟨h1, h2⟩ | h
  · exact .inl ⟨y, x, rfl, rfl⟩
  · exact .inr (.inl ⟨h2, h1⟩)
  · exact .inr (.inr (same_symm hv hw h))

/-- A structural change is one of the swapped trees as well. -/
theorem StructuralAt.swap {target : SectionPath} {old new : Table} {change : String}
    (h : StructuralAt target old new change) (ho : (Value.table old).WellKeyed)
    (hn : (Value.table new).WellKeyed) : StructuralAt target new old change := by
  obtain ⟨path, x, y, key, hx, hy, hkey, hchange⟩ := h
  refine ⟨path, y, x, key, hy, hx, fun hswapped => hkey ?_, hchange⟩
  have hxw := wellKeyedEntries_iff.mp (ho.at? hx).2
  have hyw := wellKeyedEntries_iff.mp (hn.at? hy).2
  -- the key is in both tables or in neither, and then nothing would be structural
  cases hv : Keyed.find? key x with
  | none =>
    cases hw : Keyed.find? key y with
    | none => exact .none
    | some w =>
      rw [hv, hw] at hswapped
      cases hswapped
  | some v =>
    cases hw : Keyed.find? key y with
    | none =>
      rw [hv, hw] at hswapped
      cases hswapped
    | some w =>
      rw [hv, hw] at hswapped
      obtain ⟨hc⟩ := hswapped
      exact .some (hc.symm (hyw key w (Keyed.find?_mem hw)) (hxw key v (Keyed.find?_mem hv)))

/-- **Swapping the trees keeps the structural changes.** -/
theorem mem_structural_swap {old new : Table} (ho : (Value.table old).WellKeyed)
    (hn : (Value.table new).WellKeyed) (change : String) :
    change ∈ (difference (.table new) (.table old)).structural
      ↔ change ∈ (difference (.table old) (.table new)).structural := by
  rw [mem_structural_difference hn, mem_structural_difference ho]
  exact ⟨fun h => h.swap hn ho, fun h => h.swap ho hn⟩

/-- What a change of scalars is aimed at changes back if the trees are swapped. -/
theorem Changes.swap {old new : Value} {i : Instruction} (h : Changes [] old new i) :
    ∃ j : Instruction, j.address = i.address ∧ Changes [] new old j := by
  obtain ⟨path, v, w, hp, hv, hw, before, hb, ha, hne⟩ := h
  exact ⟨⟨i.target, i.key, before⟩, rfl, path, w, v, hp, hw, hv, i.literal, ha, hb, Ne.symm hne⟩

/-- **Swapping the trees keeps the targets of instructions.** -/
theorem mem_addresses_swap {old new : Table} (ho : (Value.table old).WellKeyed)
    (hn : (Value.table new).WellKeyed) (address : SectionPath × String) :
    address ∈ (difference (.table new) (.table old)).instructions.map Instruction.address
      ↔ address ∈ (difference (.table old) (.table new)).instructions.map Instruction.address := by
  have hswap : ∀ {x y : Table}, (Value.table x).WellKeyed → (Value.table y).WellKeyed →
      address ∈ (difference (.table x) (.table y)).instructions.map Instruction.address →
        address ∈ (difference (.table y) (.table x)).instructions.map Instruction.address := by
    intro x y hx hy hm
    obtain ⟨i, hi, rfl⟩ := List.mem_map.mp hm
    obtain ⟨j, hj, hchanges⟩ := ((mem_difference hx).mp hi).swap
    exact List.mem_map.mpr ⟨j, (mem_difference hy).mpr hchanges, hj⟩
  exact ⟨hswap hn ho, hswap ho hn⟩

/-! ## 3. Keys of the new tree in another order

The new tree is only ever asked what it has at a path.  A reordered tree has the same there,
reordered again, so neither the instructions nor the structural changes can tell the two apart; the
order of the instructions comes from the old tree.
-/

/-- **The same tree with keys in another order,** at every depth, also in the tables of arrays. -/
inductive Reordered : Value → Value → Prop where
  | scalar {value : Value} : value.isScalar = true → Reordered value value
  | array {items others : List Value} : List.Forall₂ Reordered items others →
      Reordered (.array items) (.array others)
  | table {x y : Table} : (Keyed.keys x).Perm (Keyed.keys y) →
      (∀ key v w, Keyed.find? key x = some v → Keyed.find? key y = some w → Reordered v w) →
        Reordered (.table x) (.table y)

/-- Tables with their keys in another order hold the same under each key, reordered. -/
theorem rel_find?_of_perm {r : Value → Value → Prop} {x y : Table}
    (hkeys : (Keyed.keys x).Perm (Keyed.keys y))
    (hvalues : ∀ key v w, Keyed.find? key x = some v → Keyed.find? key y = some w → r v w)
    (key : String) : Option.Rel r (Keyed.find? key x) (Keyed.find? key y) := by
  have hnone : Keyed.find? key x = none ↔ Keyed.find? key y = none := by
    rw [Keyed.find?_eq_none, Keyed.find?_eq_none, hkeys.mem_iff]
  cases hx : Keyed.find? key x with
  | none =>
    rw [hnone.mp hx]
    exact .none
  | some v =>
    cases hy : Keyed.find? key y with
    | none =>
      rw [hnone.mpr hy] at hx
      cases hx
    | some w => exact .some (hvalues key v w hx hy)

/-- Related results of two lookups lead to related results below. -/
theorem rel_bind {r s : Value → Value → Prop} {f g : Value → Option Value} : ∀ {a b : Option Value},
    Option.Rel r a b → (∀ v w, r v w → Option.Rel s (f v) (g w)) →
    Option.Rel s (a.bind f) (b.bind g)
  | _, _, .none, _ => .none
  | _, _, .some h, hfg => hfg _ _ h

/-- A value is a reordering of itself. -/
theorem Reordered.refl (v : Value) : Reordered v v := by
  induction v using Value.treeInduction with
  | scalar v hs => exact .scalar hs
  | array items ih => exact .array (List.forall₂_same.mpr ih)
  | table x ih =>
    refine .table (.refl _) fun key v w hv hw => ?_
    obtain rfl := Option.some.inj (hv.symm.trans hw)
    exact ih key v (Keyed.find?_mem hv)

/-- A table is reordered entry by entry. -/
theorem Reordered.of_mem {x y : Table} (hy : (Keyed.keys y).Nodup)
    (hkeys : (Keyed.keys x).Perm (Keyed.keys y))
    (h : ∀ e ∈ x, ∃ w, (e.1, w) ∈ y ∧ Reordered e.2 w) : Reordered (.table x) (.table y) := by
  refine .table hkeys fun key v w hv hw => ?_
  obtain ⟨w', hm, hr⟩ := h (key, v) (Keyed.find?_mem hv)
  obtain rfl : w' = w := Option.some.inj ((Keyed.find?_of_mem hy hm).symm.trans hw)
  exact hr

/-- **A table with its entries in another order** is a reordered one. -/
theorem Reordered.of_perm {x y : Table} (hx : (Keyed.keys x).Nodup) (h : x.Perm y) :
    Reordered (.table x) (.table y) := by
  have hkeys : (Keyed.keys x).Perm (Keyed.keys y) := h.map _
  exact .of_mem (hkeys.nodup_iff.mp hx) hkeys fun e he => ⟨e.2, h.mem_iff.mp he, .refl e.2⟩

/-- Reordering can be undone. -/
theorem Reordered.symm {v : Value} : ∀ {w : Value}, Reordered v w → Reordered w v := by
  induction v using Value.treeInduction with
  | scalar v hs =>
    intro w h
    cases h with
    | scalar => exact .scalar hs
    | array | table => cases hs
  | array items ih =>
    intro w h
    cases h with
    | scalar hs => cases hs
    | array h =>
      refine .array ?_
      induction h with
      | nil => exact .nil
      | cons hsame _ ihs =>
        obtain ⟨iha, ihas⟩ := List.forall_mem_cons.mp ih
        exact .cons (iha hsame) (ihs ihas)
  | table x ih =>
    intro w h
    cases h with
    | scalar hs => cases hs
    | table hkeys hvalues =>
      exact .table hkeys.symm fun key v w hv hw =>
        ih key w (Keyed.find?_mem hw) (hvalues key w v hw hv)

/-- At each path stands the same, reordered. -/
theorem Reordered.at? {v w : Value} (h : Reordered v w) : ∀ path : List String,
    Option.Rel Reordered (v.at? path) (w.at? path)
  | [] => .some h
  | key :: path => by
    cases h with
    | scalar hs =>
      rw [at?_of_isScalar hs (List.cons_ne_nil key path)]
      exact .none
    | array => exact .none
    | @table x y hkeys hvalues =>
      rw [at?_table, at?_table]
      exact rel_bind (rel_find?_of_perm hkeys hvalues key) fun _ _ hrel => hrel.at? path

/-- A reordered scalar is the same scalar, so its literal is the same. -/
theorem Reordered.literal?_eq {v w : Value} (h : Reordered v w) : v.literal? = w.literal? := by
  cases h <;> rfl

/-- A value equals a reordered one if it equals the other.  By induction on the value that stays:
the other two change with it, item by item and key by key. -/
theorem same_of_reordered {v : Value} : ∀ {w w' : Value}, Reordered w w' → v.same w = true →
    v.same w' = true := by
  induction v using Value.treeInduction with
  | scalar v hs =>
    intro w w' h hsame
    cases h with
    | scalar => exact hsame
    | array | table => cases v <;> first | cases hsame | cases hs
  | array items ih =>
    intro w w' h hsame
    cases h with
    | scalar => exact hsame
    | table => cases hsame
    | @array others others' h =>
      rw [Value.same, sameItems_iff] at hsame ⊢
      induction hsame generalizing others' with
      | nil =>
        cases h
        exact .nil
      | cons ha _ ihs =>
        obtain ⟨iha, ihas⟩ := List.forall_mem_cons.mp ih
        cases h with
        | cons hb hbs => exact .cons (iha hb ha) (ihs ihas hbs)
  | table x ih =>
    intro w w' h hsame
    cases h with
    | scalar => exact hsame
    | array => cases hsame
    | @table y z hkeys hvalues =>
      rw [Value.same, Bool.and_eq_true, beq_iff_eq, sameEntries_iff] at hsame ⊢
      obtain ⟨hlength, hentries⟩ := hsame
      have hperm : y.length = z.length := by simpa [Keyed.keys] using hkeys.length_eq
      refine ⟨hlength.trans hperm, ?_⟩
      intro key a hm
      obtain ⟨b, hb, hab⟩ := hentries key a hm
      -- what was found under the key is found reordered
      have hrel := rel_find?_of_perm hkeys hvalues key
      rw [hb] at hrel
      generalize Keyed.find? key z = found at hrel ⊢
      cases hrel with
      | some hrel => exact ⟨_, rfl, ih key a hm hrel hab⟩

/-- Reordering does not matter for what can be compared. -/
theorem Comparable.reordered {v w w' : Value} (hr : Reordered w w') (h : Comparable v w) :
    Comparable v w' := by
  rcases h with ⟨x, y, rfl, rfl⟩ | ⟨hv, hw⟩ | h
  · cases hr with
    | scalar hs => cases hs
    | table => exact .inl ⟨x, _, rfl, rfl⟩
  · cases hr with
    | scalar => exact .inr (.inl ⟨hv, hw⟩)
    | array | table => cases hw
  · exact .inr (.inr (same_of_reordered hr h))

/-- A structural change is one of the reordered tree as well. -/
theorem StructuralAt.reordered {target : SectionPath} {old new new' : Table} {change : String}
    (hr : Reordered (.table new) (.table new')) (h : StructuralAt target old new change) :
    StructuralAt target old new' change := by
  obtain ⟨path, x, y, key, hx, hy, hkey, hchange⟩ := h
  have hrel := hr.at? path
  rw [hy] at hrel
  generalize hz : (Value.table new').at? path = found at hrel
  cases hrel with
  | some hyz =>
    cases hyz with
    | scalar hs => cases hs
    | @table _ z hkeys hvalues =>
      refine ⟨path, x, z, key, hx, hz, fun hrel => hkey ?_, hchange⟩
      have hback := rel_find?_of_perm hkeys hvalues key
      generalize Keyed.find? key x = a at hrel ⊢
      generalize Keyed.find? key y = b at hback ⊢
      generalize Keyed.find? key z = c at hrel hback
      cases hback with
      | none =>
        cases hrel
        exact .none
      | some hbc =>
        cases hrel with
        | some hac => exact .some (hac.reordered hbc.symm)

/-- **Reordering the keys of the new tree keeps the structural changes.** -/
theorem mem_structural_reordered {old new new' : Table} (ho : (Value.table old).WellKeyed)
    (hr : Reordered (.table new) (.table new')) (change : String) :
    change ∈ (difference (.table old) (.table new')).structural
      ↔ change ∈ (difference (.table old) (.table new)).structural := by
  rw [mem_structural_difference ho, mem_structural_difference ho]
  exact ⟨fun h => h.reordered hr.symm, fun h => h.reordered hr⟩

/-- **Reordering the keys of the new tree keeps the instructions,** and their order. -/
theorem instructions_reordered {old new new' : Table} (ho : (Value.table old).WellKeyed)
    (hr : Reordered (.table new) (.table new')) :
    (difference (.table old) (.table new')).instructions
      = (difference (.table old) (.table new)).instructions := by
  have hleaf (leaf : ScalarLeaf) :
      leaf.instruction? (.table new') = leaf.instruction? (.table new) := by
    have hliteral : ((Value.table new').at? leaf.path).bind Value.literal?
        = ((Value.table new).at? leaf.path).bind Value.literal? := by
      have hrel := hr.at? leaf.path
      generalize (Value.table new).at? leaf.path = a at hrel ⊢
      generalize (Value.table new').at? leaf.path = b at hrel ⊢
      cases hrel with
      | none => rfl
      | some h => exact h.literal?_eq.symm
    rw [ScalarLeaf.instruction?, ScalarLeaf.instruction?, hliteral]
  rw [instructions_difference ho, instructions_difference ho]
  exact List.filterMap_congr fun leaf _ => hleaf leaf

/-! ## 4. The difference of two tables

The seven parts are the fields of one structure, each proved on its own above or in the modules on
leaves, targets and overwriting.  Distinct keys are all that is asked of the tables; the new tree
needs them where the two are swapped.
-/

/-- **The difference of two tables is exact.** -/
structure ExactDifference (old new : Table) : Prop where
  /-- It is structural unless the tables that both trees have agree in their keys, and have under
  each of them two tables, two scalars, or the same value twice. -/
  structural_iff : (difference (.table old) (.table new)).structural = [] ↔
    ∀ path x y, (Value.table old).at? path = some (.table x) →
      (Value.table new).at? path = some (.table y) →
        ∀ key, Option.Rel Comparable (Keyed.find? key x) (Keyed.find? key y)
  /-- The instructions are for the scalars of the old tree with another literal in the new one,
  depth first in the order of the old keys. -/
  instructions_eq : (difference (.table old) (.table new)).instructions
    = (leavesIn .root old).filterMap (ScalarLeaf.instruction? (.table new))
  /-- No two instructions have one target. -/
  targets_nodup : ((difference (.table old) (.table new)).instructions.map
    Instruction.address).Nodup
  /-- The section of an instruction is a table of both trees, with a scalar under the key. -/
  targets_scalar : ∀ i ∈ (difference (.table old) (.table new)).instructions, ∃ x y v w,
    (Value.table old).at? i.target.parts = some (.table x)
      ∧ (Value.table new).at? i.target.parts = some (.table y)
      ∧ Keyed.find? i.key x = some v ∧ v.isScalar = true
      ∧ Keyed.find? i.key y = some w ∧ w.isScalar = true ∧ w.literal? = some i.literal
  /-- Carrying out the instructions leaves no difference. -/
  overwritten : (difference (.table old) (.table new)).structural = [] →
    difference (.table (overwriteAll old new)) (.table new) = .empty
  /-- The order of the keys of the new tree does not matter. -/
  reordered : ∀ new' : Table, Reordered (.table new) (.table new') →
    (difference (.table old) (.table new')).instructions
        = (difference (.table old) (.table new)).instructions
      ∧ ∀ change, change ∈ (difference (.table old) (.table new')).structural
        ↔ change ∈ (difference (.table old) (.table new)).structural
  /-- The same targets and the same structural changes are found from the new tree to the old
  one. -/
  swapped : (∀ address,
      address ∈ (difference (.table new) (.table old)).instructions.map Instruction.address
        ↔ address ∈ (difference (.table old) (.table new)).instructions.map Instruction.address)
    ∧ ∀ change, change ∈ (difference (.table new) (.table old)).structural
        ↔ change ∈ (difference (.table old) (.table new)).structural

/-- No two instructions have one target, since no two are for one path.  The path is made of the
target, section and key. -/
theorem nodup_address_instructions {old new : Table} (ho : (Value.table old).WellKeyed) :
    ((difference (.table old) (.table new)).instructions.map Instruction.address).Nodup := by
  have hpath : Instruction.path
      = (fun address => address.1.parts ++ [address.2]) ∘ Instruction.address :=
    rfl
  have hnodup : ((difference (.table old) (.table new)).instructions.map Instruction.path).Nodup :=
    nodup_path_instructions ho
  rw [hpath, ← List.map_map] at hnodup
  exact hnodup.of_map _

/-- What an instruction is aimed at is a scalar of both trees, in a table of both. -/
theorem Changes.exists_tables {old new : Value} {i : Instruction} (h : Changes [] old new i) :
    ∃ x y v w, old.at? i.target.parts = some (.table x) ∧ new.at? i.target.parts = some (.table y)
      ∧ Keyed.find? i.key x = some v ∧ v.isScalar = true
      ∧ Keyed.find? i.key y = some w ∧ w.isScalar = true ∧ w.literal? = some i.literal := by
  obtain ⟨path, v, w, hp, hv, hw, before, hb, ha, -⟩ := h
  obtain rfl : i.path = path := hp
  obtain ⟨x, hx, hfx⟩ := exists_table_of_at?_concat hv
  obtain ⟨y, hy, hfy⟩ := exists_table_of_at?_concat hw
  exact ⟨x, y, v, w, hx, hy, hfx, isScalar_iff_literal?.mpr ⟨before, hb⟩, hfy,
    isScalar_iff_literal?.mpr ⟨i.literal, ha⟩, ha⟩

/-- **The difference of any two tables is exact.**  No part needs the trees to be related in any
way. -/
theorem difference_exact {old new : Table} (ho : (Value.table old).WellKeyed)
    (hn : (Value.table new).WellKeyed) : ExactDifference old new where
  structural_iff := structural_eq_nil_iff ho
  instructions_eq := instructions_difference ho
  targets_nodup := nodup_address_instructions ho
  targets_scalar := fun _ hi => ((mem_difference ho).mp hi).exists_tables
  overwritten := difference_overwriteAll ho hn
  reordered := fun _ hr => ⟨instructions_reordered ho hr, mem_structural_reordered ho hr⟩
  swapped := ⟨mem_addresses_swap ho hn, mem_structural_swap ho hn⟩

/-- Two scalars change, one of them in a section, and the new tree has its keys in another order. -/
theorem difference_exact_of_section :
    let old : Table := [("s", .table [("x", .bool true), ("y", .null)]), ("k", .bool false)]
    let new : Table := [("k", .bool true), ("s", .table [("y", .null), ("x", .bool false)])]
    let new' : Table := [("s", .table [("x", .bool false), ("y", .null)]), ("k", .bool true)]
    (Value.table old).WellKeyed ∧ (Value.table new).WellKeyed
      ∧ Reordered (.table new) (.table new')
      ∧ (difference (.table old) (.table new)).structural = []
      ∧ (difference (.table old) (.table new')).instructions
        = [⟨⟨["s"]⟩, "x", boolText false⟩, ⟨.root, "k", boolText true⟩]
      ∧ difference (.table (overwriteAll old new)) (.table new) = .empty := by
  intro old new new'
  have ho : (Value.table old).WellKeyed := by
    simp [old, Value.WellKeyed, WellKeyedEntries, Keyed.keys]
  have hn : (Value.table new).WellKeyed := by
    simp [new, Value.WellKeyed, WellKeyedEntries, Keyed.keys]
  have hinner : Reordered (.table [("y", .null), ("x", .bool false)])
      (.table [("x", .bool false), ("y", .null)]) :=
    .of_perm (by decide) (.swap _ _ _)
  have hr : Reordered (.table new) (.table new') := by
    refine .of_mem (by decide) (by decide) ?_
    simpa [new, new'] using ⟨Reordered.refl (.bool true), hinner⟩
  have hs : (difference (.table old) (.table new)).structural = [] := rfl
  have hexact := difference_exact ho hn
  refine ⟨ho, hn, hr, hs, ?_, hexact.overwritten hs⟩
  rw [(hexact.reordered new' hr).1, hexact.instructions_eq]
  rfl

end TomlKeep
